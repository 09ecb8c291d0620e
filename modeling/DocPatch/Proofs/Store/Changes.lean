import DocPatch.Proofs.Store.Answers
import DocPatch.Proofs.Store.Single

/-! Updates do not see the order of entries: on values that are the same they fail in the same way,
    or leave values that are the same and report the same. -/

namespace DocPatch

/-- Related values with the same report. -/
def Likewise {α β γ : Type} (related : α → β → Prop) (left : α × γ) (right : β × γ) : Prop :=
  related left.1 right.1 ∧ left.2 = right.2

namespace Update

open Json (Same)

/-- A change that does not see the order of entries. -/
def Blind (change : Json → Except UpdateError (Change Json)) : Prop :=
  ∀ ⦃left right⦄, Same left right → Agree (Likewise Same) (change left) (change right)

/-- A change of entries that does not see their order. -/
def EntriesBlind (change : Fields → Except UpdateError (Change Fields)) : Prop :=
  ∀ ⦃left right⦄, Fields.Same left right →
    Agree (Likewise Fields.Same) (change left) (change right)

/-- Conditions on an element have the same answer on both sides. -/
theorem accepts_eq {conditions : Fields} (keyed : ∀ entry ∈ conditions, entry.2.WellKeyed)
    {left right : Json} (same : Same left right) :
    accepts conditions left = accepts conditions right := by
  -- The conditions are asked one by one, of the values at their paths.
  rw [Bool.eq_iff_iff, accepts, accepts, List.all_eq_true, List.all_eq_true]
  refine forall₂_congr fun entry member => ?_
  have congruent := Query.congruent (.refl (keyed entry member))
  rw [congruent.holds (.cons same .nil), congruent.holds (Query.resolve_same _ same)]

section Ways

variable {selects : Json → Bool} {change : Json → Except UpdateError (Change Json)}

/-- The selected items of two lists are changed likewise. -/
theorem eachItem_agree (answers : ∀ left right, Same left right → selects left = selects right)
    (blind : Blind change) {items others : List Json} (pairs : List.Forall₂ Same items others) :
    Agree (Likewise (List.Forall₂ Same)) (eachItem selects change items)
      (eachItem selects change others) := by
  -- The first error stops both walks at the same place.
  induction pairs with
  | nil => exact .ok ⟨.nil, rfl⟩
  | @cons item other rest _ here _ ih =>
    have first : Agree (Likewise Same) (if selects item then change item else .ok (item, false))
        (if selects other then change other else .ok (other, false)) := by
      rw [answers _ _ here]
      split
      · exact blind here
      · exact .ok ⟨here, rfl⟩
    rw [eachItem_cons, eachItem_cons]
    exact first.bind fun _ _ first => ih.bind fun _ _ later =>
      .ok ⟨.cons first.1 later.1, by simp only [first.2, later.2]⟩

/-- The selected elements of two arrays are changed likewise. -/
theorem inElements_blind (answers : ∀ left right, Same left right → selects left = selects right)
    (blind : Blind change) : Blind (inElements selects change) := by
  -- Only arrays have elements, and the elements stand in pairs.
  intro left right same
  cases same.matched with
  | array pairs =>
    exact (eachItem_agree answers blind pairs).bind fun _ _ later =>
      .ok ⟨Json.same_array_iff.mpr later.1, later.2⟩
  | _ => exact .ok ⟨same, rfl⟩

/-- The values of one field are changed likewise. -/
theorem inField_blind (create : Bool) (name : String) (blind : Blind change) :
    EntriesBlind (inField create name change) := by
  -- Where both sides miss the field, the same empty object is made for it.
  intro left right same
  have made : Option.Rel Same (if create then some (Json.object []) else none)
      (if create then some (Json.object []) else none) := by
    split
    · exact .some (.refl (by simp [Json.WellKeyed, Json.FieldsWellKeyed]))
    · exact .none
  have children := rel_or (same.lookup name) made
  unfold inField
  generalize (left.lookup name).or _ = child at children ⊢
  generalize (right.lookup name).or _ = other at children ⊢
  cases children with
  | none => exact .ok ⟨same, rfl⟩
  | some child => exact (blind child).bind fun _ _ later => .ok ⟨same.put later.1, later.2⟩

/-- The items at an index are changed likewise. -/
theorem atIndex_agree (index : Option Nat) (blind : Blind change) {items others : List Json}
    (pairs : List.Forall₂ Same items others) :
    Agree (Likewise (List.Forall₂ Same)) (atIndex index change items)
      (atIndex index change others) := by
  -- The index may be none, or may lie outside both lists.
  cases index with
  | none => exact .ok ⟨pairs, rfl⟩
  | some index =>
    have place := rel_getElem? pairs index
    simp only [atIndex, Option.bind_some]
    generalize items[index]? = item at place ⊢
    generalize others[index]? = other at place ⊢
    cases place with
    | none => exact .ok ⟨pairs, rfl⟩
    | some item =>
      exact (blind item).bind fun _ _ later => .ok ⟨forall₂_set pairs index later.1, later.2⟩

/-- The values that a segment names are changed likewise. -/
theorem inNamed_blind (create : Bool) (name : String) (blind : Blind change) :
    Blind (inNamed create name change) := by
  -- In objects the name stands for a field, and in arrays for an index.
  intro left right same
  cases same.matched with
  | object entries =>
    exact (inField_blind create name blind entries).bind fun _ _ later =>
      .ok ⟨Json.same_object_iff.mpr later.1, later.2⟩
  | array pairs =>
    exact (atIndex_agree (Path.index? name) blind pairs).bind fun _ _ later =>
      .ok ⟨Json.same_array_iff.mpr later.1, later.2⟩
  | _ => exact .ok ⟨same, rfl⟩

end Ways

/-- Filters for elements whose values are well keyed. -/
def KeyedFilters (filters : List Fields) : Prop :=
  ∀ filter ∈ filters, ∀ entry ∈ filter, entry.2.WellKeyed

/-- The conditions of an alias are well keyed where the filters are. -/
theorem keyed_conditions {filters : List Fields} (keyed : KeyedFilters filters) {aliasName : String}
    {conditions : Fields} (known : conditions? filters aliasName = some conditions) :
    ∀ entry ∈ conditions, entry.2.WellKeyed := by
  simp only [conditions?] at known
  split at known
  · simp at known
  · obtain rfl := Option.some.inj known
    intro entry member
    -- Every condition is an entry of one of the filters, by another name.
    obtain ⟨stated, among, same⟩ := List.mem_filterMap.mp (Fields.mem_ofEntries member)
    obtain ⟨filter, listed, inside⟩ := List.mem_flatten.mp among
    split at same
    · obtain rfl := Option.some.inj same
      exact keyed filter listed stated inside
    · simp at same

/-- What happens at the end of a path does not see the order of entries, so no walk to it does. -/
theorem descend_blind {filters : List Fields} (keyed : KeyedFilters filters) (create : Bool)
    {leaf : String → Fields → Except UpdateError (Change Fields)}
    (blind : ∀ last, EntriesBlind (leaf last)) (path : List String) :
    Blind (descend filters create leaf path) := by
  -- The kind of each segment is read off the path, so both walks take the same steps.
  induction path with
  | nil => exact fun _ _ same => .ok ⟨same, rfl⟩
  | cons head tail ih =>
    intro left right same
    cases tail with
    | nil =>
      cases same.matched with
      | object entries =>
        exact (blind head entries).bind fun _ _ later =>
          .ok ⟨Json.same_object_iff.mpr later.1, later.2⟩
      | _ => exact .ok ⟨same, rfl⟩
    | cons next rest =>
      rw [descend, descend]
      split
      · exact inElements_blind (fun _ _ _ => rfl) ih same
      · split
        · exact .error _
        · rename_i known
          have conditioned := keyed_conditions keyed known
          exact inElements_blind (fun _ _ same => accepts_eq conditioned same) ih same
      · exact inNamed_blind _ head ih same

/-- An operator that gives its field a value does not see the order of entries, if the value does
    not depend on it. -/
theorem ActsBy.blind {leaf : String → Fields → Except UpdateError (Change Fields)} {field : String}
    {change : Option Json → Except UpdateError (Change Json)} (acts : ActsBy leaf field change)
    (each : ∀ value other, Option.Rel Same value other →
      Agree (Likewise Same) (change value) (change other)) : EntriesBlind (leaf field) := by
  -- The operator depends on the value of the field, which is the same on both sides.
  intro left right same
  rw [acts left, acts right]
  exact (each _ _ (same.lookup field)).map fun _ _ later => ⟨same.put later.1, later.2⟩

/-- An operator needs an array on both sides, and finds the same items there. -/
theorem itemsOf_agree (operator field : String) {value other : Option Json}
    (rel : Option.Rel Same value other) :
    Agree (List.Forall₂ Same) (itemsOf operator field value) (itemsOf operator field other) := by
  -- A missing value counts as an array without items.
  cases rel with
  | none => exact .ok .nil
  | some same =>
    cases same.matched with
    | array pairs => exact .ok pairs
    | _ => exact .error _

/-- The values of an argument are well keyed. -/
theorem keyed_eachValue {argument : Json} (keyed : argument.WellKeyed) :
    ∀ value ∈ eachValue argument, value.WellKeyed := by
  -- The argument lists values under a key of its own, or is one value itself.
  unfold eachValue
  split
  · rename_i values listed
    obtain ⟨each, held, items⟩ := Option.bind_eq_some_iff.mp listed
    obtain ⟨fields, entries, held⟩ := Option.bind_eq_some_iff.mp held
    cases argument <;> simp only [Json.fields?, reduceCtorEq, Option.some.injEq] at entries
    cases each <;> simp only [Json.items?, reduceCtorEq, Option.some.injEq] at items
    subst entries items
    simp only [Json.WellKeyed] at keyed
    have inside := keyed.of_mem (Fields.mem_of_lookup held)
    simp only [Json.WellKeyed] at inside
    exact fun value member => inside.of_mem member
  · simpa using keyed

/-- The same values are missing in lists that are the same. -/
theorem union_same {values : List Json} (keyed : ∀ value ∈ values, value.WellKeyed)
    {items others : List Json} (pairs : List.Forall₂ Same items others) :
    List.Forall₂ Same (union items values) (union others values) := by
  -- Deep equality decides which values are missing, and it does not see the order of entries.
  induction values generalizing items others with
  | nil => exact pairs
  | cons value rest ih =>
    have here := Same.refl (keyed value (by simp))
    have found : Json.within items value = Json.within others value :=
      any_of_forall₂ pairs fun _ _ same => same.equal_eq here
    refine ih (fun other member => keyed other (by simp [member])) ?_
    rw [found]
    split
    · exact pairs
    · exact List.rel_append pairs (.cons here .nil)

/-- No operator sees the order of entries. -/
theorem applyAt_blind (operator : String) {argument : Json} (keyed : argument.WellKeyed)
    (field : String) : EntriesBlind (applyAt operator argument field) := by
  have here := Same.refl keyed
  have values := List.forall₂_same.mpr fun value member =>
    Same.refl (keyed_eachValue keyed value member)
  intro left right same
  unfold applyAt
  -- One case for each operator, and the last one for all that are not known.
  split
  · refine (actsBy_set argument field).blind (fun value other rel => .ok ⟨here, ?_⟩) same
    rw [any_of_rel rel fun _ _ same => same.equal_eq here]
  · exact .ok ⟨same.remove, isSome_of_rel (same.lookup field)⟩
  · exact (actsBy_push argument field).blind (fun value other rel =>
      (itemsOf_agree "$push" field rel).bind fun _ _ pairs =>
        .ok ⟨Json.same_array_iff.mpr (List.rel_append pairs values), rfl⟩) same
  · refine (actsBy_addToSet argument field).blind (fun value other rel =>
      (itemsOf_agree "$addToSet" field rel).bind fun _ _ pairs => ?_) same
    have grown := union_same (keyed_eachValue keyed) pairs
    exact .ok ⟨Json.same_array_iff.mpr grown, by rw [grown.length_eq, pairs.length_eq]⟩
  · rw [arrayAt_eq, arrayAt_eq]
    refine (itemsOf_agree "$pull" field (same.lookup field)).bind fun items others pairs => ?_
    have kept : List.Forall₂ Same (items.filter fun item => !Query.elementSatisfies item argument)
        (others.filter fun item => !Query.elementSatisfies item argument) :=
      List.rel_filter (fun item other same => by
        simp only [(Query.congruent here).element same]) pairs
    have missing : (left.lookup field).isNone = (right.lookup field).isNone := by
      rw [← Option.not_isSome, isSome_of_rel (same.lookup field), Option.not_isSome]
    rw [missing]
    split
    · exact .ok ⟨same, rfl⟩
    · exact .ok ⟨same.put (Json.same_array_iff.mpr kept), by rw [kept.length_eq, pairs.length_eq]⟩
  · exact .error _

/-- No operator sees the order of entries on the way to its path either. -/
theorem applyPath_blind {filters : List Fields} (filtered : KeyedFilters filters)
    (operator path : String) {argument : Json} (keyed : argument.WellKeyed) :
    Blind (applyPath filters operator path argument) :=
  -- The way to the path and the operator at its end are both blind.
  descend_blind filtered _ (applyAt_blind operator keyed) _

/-- What an operator does at several paths does not depend on the order of entries. -/
theorem applyPaths_blind {filters : List Fields} (filtered : KeyedFilters filters)
    (operator : String) {entries : Fields} (keyed : ∀ entry ∈ entries, entry.2.WellKeyed) :
    Blind (applyPaths filters operator entries) := by
  -- The paths are taken one after the other, each on what the last one left.
  induction entries with
  | nil => exact fun _ _ same => .ok ⟨same, rfl⟩
  | cons entry rest ih =>
    intro left right same
    refine (applyPath_blind filtered operator entry.1 (keyed entry (by simp)) same).bind
      fun _ _ first => (ih (fun other member => keyed other (by simp [member])) first.1).bind
        fun _ _ later => .ok ⟨later.1, by rw [first.2, later.2]⟩

/-- No update sees the order of entries. -/
theorem apply_blind {filters : List Fields} (filtered : KeyedFilters filters) {update : Fields}
    (keyed : ∀ entry ∈ update, entry.2.WellKeyed) : Blind (apply filters update) := by
  induction update with
  | nil => exact fun _ _ same => .ok ⟨same, rfl⟩
  | cons entry rest ih =>
    intro left right same
    have others := ih fun other member => keyed other (by simp [member])
    have mine := keyed entry (by simp)
    obtain ⟨operator, argument⟩ := entry
    cases argument with
    | object entries =>
      simp only [Json.WellKeyed, Json.fieldsWellKeyed_iff] at mine
      exact (applyPaths_blind filtered operator mine.2 same).bind fun _ _ first =>
        (others first.1).bind fun _ _ later => .ok ⟨later.1, by rw [first.2, later.2]⟩
    -- An operator without an object of paths does nothing.
    | _ => exact others same

end Update

namespace Operation

open Json (Same)

/-- An operation whose values repeat no key. -/
structure WellKeyed (operation : Operation) : Prop where
  filter : Json.FieldsWellKeyed operation.filter
  update : Json.FieldsWellKeyed operation.update
  arrayFilters : ∀ filter ∈ operation.arrayFilters, Json.FieldsWellKeyed filter

/-- An operation does the same to documents that are the same. -/
theorem applyTo_agree {operation : Operation} (keyed : operation.WellKeyed) {left right : Json}
    (same : Same left right) :
    Agree (Likewise Same) (operation.applyTo left) (operation.applyTo right) := by
  -- The filter selects both documents or neither.
  have selects := Query.satisfies_eq same (.refl keyed.filter)
  have filtered : Update.KeyedFilters operation.arrayFilters := fun filter member =>
    (Json.fieldsWellKeyed_iff.mp (keyed.arrayFilters filter member)).2
  unfold applyTo
  rw [selects]
  split
  · exact (Update.apply_blind filtered (Json.fieldsWellKeyed_iff.mp keyed.update).2 same).bind
      fun _ _ later => .ok ⟨later.1, by rw [later.2]⟩
  · exact .ok ⟨same, rfl⟩

/-- An operation does the same to lists of documents that are the same. -/
theorem applyAll_agree {operation : Operation} (keyed : operation.WellKeyed)
    {documents others : List Json} (same : List.Forall₂ Same documents others) :
    Agree (Likewise (List.Forall₂ Same)) (operation.applyAll documents)
      (operation.applyAll others) := by
  -- The documents are taken in pairs.
  induction same with
  | nil => exact .ok ⟨.nil, rfl⟩
  | cons here _ ih =>
    exact (applyTo_agree keyed here).bind fun _ _ first => ih.bind fun _ _ later =>
      .ok ⟨.cons first.1 later.1, by rw [first.2, later.2]⟩

/-- A batch does the same to lists of documents that are the same. -/
theorem applyBatch_agree {batch : List Operation}
    (keyed : ∀ operation ∈ batch, operation.WellKeyed) {documents others : List Json}
    (same : List.Forall₂ Same documents others) :
    Agree (Likewise (List.Forall₂ Same)) (applyBatch batch documents)
      (applyBatch batch others) := by
  -- Each operation leaves lists that are the same to those after it.
  induction batch generalizing documents others with
  | nil => exact .ok ⟨same, rfl⟩
  | cons operation rest ih =>
    exact (applyAll_agree (keyed operation (by simp)) same).bind fun _ _ first =>
      (ih (fun other member => keyed other (by simp [member])) first.1).bind fun _ _ later =>
        .ok ⟨later.1, by rw [first.2, later.2]⟩

end Operation

end DocPatch
