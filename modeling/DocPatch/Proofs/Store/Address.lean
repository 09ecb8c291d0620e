import DocPatch.Proofs.Json.Equality
import DocPatch.Proofs.Store.Locality
import DocPatch.Proofs.Store.Pruning
import DocPatch.Proofs.Store.Single

/-! Addresses in a value, and what an update leaves as it was: everything at an address that leaves
    its path, and the places of the items in every array that it goes through. -/

namespace DocPatch

/-- A step into a value: to a field of an object, or to an item of an array. -/
inductive Step where
  | field (name : String)
  | item (index : Nat)
  deriving DecidableEq, Repr

/-- Where something stands in a value: the steps that lead to it, from the outside. -/
abbrev Address := List Step

namespace Json

/-- What a step leads to. -/
def child? : Step → Json → Option Json
  | .field name, .object fields => fields.lookup name
  | .item index, .array items => items[index]?
  | _, _ => none

/-- The value at an address. -/
def value? : Address → Json → Option Json
  | [], value => some value
  | step :: rest, value => (value.child? step).bind (value? rest)

/-- In the empty object there is nothing. -/
theorem value?_empty {address : Address} (some_step : address ≠ []) :
    (Json.object []).value? address = none := by
  -- The first step finds no field and no item.
  obtain ⟨step, rest, rfl⟩ := List.exists_cons_of_ne_nil some_step
  cases step <;> rfl

/-- What a step leads to in a well keyed value is well keyed. -/
theorem WellKeyed.child {value child : Json} (keyed : value.WellKeyed) {step : Step}
    (found : value.child? step = some child) : child.WellKeyed := by
  -- A field leads to the value of an entry, and an index to an item.
  cases step <;> cases value <;> simp only [child?, reduceCtorEq] at found <;>
    simp only [WellKeyed] at keyed
  · exact keyed.of_mem (Fields.mem_of_lookup found)
  · exact keyed.of_mem (List.mem_of_getElem? found)

end Json

namespace Update

/-- Whether a step leads to an element that is selected. -/
def toElement (selects : Json → Bool) : Step → Json → Bool
  | .item index, .array items => items[index]?.any selects
  | _, _ => false

/-- Whether a step leads where a name does: to its field, or in an array to the item
    at its index. -/
def toNamed (name : String) : Step → Json → Bool
  | .field other, .object _ => other = name
  -- Several names may write the same index.
  | .item index, .array _ => Path.index? name = some index
  | _, _ => false

/-- Whether an update takes a step at a segment of its path: a placeholder leads to the elements
    that it stands for, and any other segment is a name. -/
def takes (filters : List Fields) (segment : String) : Step → Json → Bool :=
  match Path.kind segment with
  | .every => toElement fun _ => true
  -- An alias without filters stands for no elements.
  | .selected aliasName => toElement fun item =>
    (conditions? filters aliasName).any (accepts · item)
  | .plain => toNamed segment

/-- What remains of the path of an update behind an address; nothing, when the address leaves the
    path, that is, takes another step than the update somewhere on it. The last segment of a path is
    always a name. What is missing on the way counts as an empty object, since that is what an
    update makes for it. -/
def remaining? (filters : List Fields) : List String → Json → Address → Option (List String)
  | path, _, [] => some path
  -- Everything below the end of the path belongs to what the update writes.
  | [], _, _ :: _ => some []
  | [last], value, step :: _ => if toNamed last step value then some [] else none
  | segment :: next :: rest, value, step :: address =>
    -- The address has to take the step that the update takes here.
    if takes filters segment step value then
      remaining? filters (next :: rest) ((value.child? step).getD (.object [])) address
    else none

/-- A value is the same as before, or what a change makes of it. -/
def SameOr (change : Json → Except UpdateError (Change Json)) (before after : Json) : Prop :=
  after = before ∨ ∃ flag, change before = .ok (after, flag)

/-- What a segment makes of a value: a change of what the steps that it takes lead to, and of
    nothing else. The items of an array stay in their places. -/
structure Advances (taken : Step → Json → Bool) (change : Json → Except UpdateError (Change Json))
    (before after : Json) : Prop where
  /-- Other steps lead where they did. -/
  spared : ∀ step, taken step before = false → after.child? step = before.child? step
  /-- A step that is taken leads to what the change makes, maybe of a new object, or
      still nowhere. -/
  changed : ∀ step, taken step before = true →
    (before.child? step = none ∧ after.child? step = none) ∨
      ∃ child flag, after.child? step = some child ∧
        change ((before.child? step).getD (.object [])) = .ok (child, flag)
  /-- Every item is kept or changed in its place. -/
  items : ∀ items, before = .array items →
    ∃ others, after = .array others ∧ List.Forall₂ (SameOr change) items others

section Ways

variable {change : Json → Except UpdateError (Change Json)} {before after : Json} {changed : Bool}
  {taken : Step → Json → Bool}

/-- A value advances where what each step leads to is changed if the step is taken, and
    kept if not. -/
theorem Advances.of_rel (places : ∀ step, Option.Rel (fun child other =>
      if taken step before then ∃ flag, change child = .ok (other, flag) else other = child)
      (before.child? step) (after.child? step))
    (items : ∀ items, before = .array items →
      ∃ others, after = .array others ∧ List.Forall₂ (SameOr change) items others) :
    Advances taken change before after where
  -- At each step the two sides are related by whether the step is taken.
  spared step untaken := by
    have place := places step
    rw [untaken] at place
    generalize before.child? step = child at place ⊢
    generalize after.child? step = other at place ⊢
    cases place with
    | none => rfl
    | some same => exact congrArg some (by simpa using same)
  changed step toThere := by
    have place := places step
    rw [toThere] at place
    generalize before.child? step = child at place ⊢
    generalize after.child? step = other at place ⊢
    cases place with
    | none => exact Or.inl ⟨rfl, rfl⟩
    | @some child other became =>
      rw [if_pos rfl] at became
      rcases became with ⟨flag, made⟩
      exact Or.inr ⟨other, flag, rfl, made⟩
  items := items

/-- A value that is left as it is advances, if no step that is taken leads anywhere. -/
theorem Advances.refl (value : Json)
    (nowhere : ∀ step, taken step value = true → value.child? step = none) :
    Advances taken change value value where
  -- Nothing stands where a step is taken, so there is nothing to change.
  spared _ _ := rfl
  changed step toThere := Or.inl ⟨nowhere step toThere, nowhere step toThere⟩
  items items same := ⟨items, same, List.forall₂_same.mpr fun _ _ => Or.inl rfl⟩

/-- A change of selected elements takes the steps to these. -/
theorem inElements_advances {selects : Json → Bool}
    (done : inElements selects change before = .ok (after, changed)) :
    Advances (toElement selects) change before after := by
  cases before with
  | array items =>
    obtain ⟨others, walked, rfl⟩ := carried_eq_ok.mp done
    have each := eachItem_ok walked
    refine .of_rel (fun step => ?_) fun listed same => ?_
    · -- The walk pairs each item with what becomes of it.
      cases step with
      | field name => exact .none
      | item index =>
        refine rel_imp (rel_getElem? each index) fun item other here _ became => ?_
        have found : items[index]? = some item := here
        simpa only [toElement, found, Option.any_some] using became
    · cases same
      refine ⟨others, rfl, each.imp fun item other became => ?_⟩
      split at became
      · exact Or.inr became
      · exact Or.inl became
  -- Nothing else has elements.
  | _ =>
    obtain ⟨rfl, -⟩ := Prod.mk.inj (Except.ok.inj done)
    exact .refl _ fun step toThere => by cases step <;> simp [toElement] at toThere

/-- A change of the value of a field takes the step to the field. -/
theorem inField_advances {create : Bool} {name : String} {fields others : Fields}
    (done : inField create name change fields = .ok (others, changed)) :
    Advances (toNamed name) change (.object fields) (.object others) := by
  rw [inField] at done
  split at done
  · -- The field is missing, and no object is made for it.
    rename_i missing
    obtain ⟨rfl, -⟩ := Prod.mk.inj (Except.ok.inj done)
    refine .refl _ fun step toThere => ?_
    cases step with
    | field other =>
      obtain rfl : other = name := by simpa [toNamed] using toThere
      exact (Option.or_eq_none_iff.mp missing).1
    | item index => rfl
  · rename_i child held
    obtain ⟨⟨other, flag⟩, made, same⟩ := bind_eq_ok.mp done
    obtain ⟨rfl, rfl⟩ := Prod.mk.inj (Except.ok.inj same)
    refine ⟨fun step spared => ?_, fun step toThere => ?_, fun items same => by simp at same⟩
    · cases step with
      | field asked =>
        exact Fields.lookup_put_of_ne (by simpa [toNamed] using spared) other fields
      | item index => rfl
    · cases step with
      | field asked =>
        obtain rfl : asked = name := by simpa [toNamed] using toThere
        refine Or.inr ⟨other, flag, Fields.lookup_put_self asked other fields, ?_⟩
        -- What the field holds is changed, or the object that is made for it.
        rw [← made]
        congr 1
        simp only [Json.child?]
        cases found : fields.lookup asked with
        | some value => simpa [found] using held
        | none =>
          rw [found, Option.none_or] at held
          split at held
          · exact Option.some.inj held
          · simp at held
      | item index => simp [toNamed] at toThere

/-- A change of the item at an index takes the step to the item. -/
theorem atIndex_advances {name : String} {items others : List Json}
    (done : atIndex (Path.index? name) change items = .ok (others, changed)) :
    Advances (toNamed name) change (.array items) (.array others) := by
  rw [atIndex] at done
  split at done
  · -- There is no such item.
    rename_i missing
    obtain ⟨rfl, -⟩ := Prod.mk.inj (Except.ok.inj done)
    refine .refl _ fun step toThere => ?_
    cases step with
    | field other => rfl
    | item index =>
      have own : Path.index? name = some index := by simpa [toNamed] using toThere
      simpa [own, Json.child?] using missing
  · rename_i index item held
    obtain ⟨own, found⟩ : Path.index? name = some index ∧ items[index]? = some item := by
      obtain ⟨position, own, held⟩ := Option.bind_eq_some_iff.mp held
      obtain ⟨other, found, same⟩ := Option.map_eq_some_iff.mp held
      obtain ⟨rfl, rfl⟩ := Prod.mk.inj same
      exact ⟨own, found⟩
    obtain ⟨other, made, rfl⟩ := carried_eq_ok.mp done
    obtain ⟨bound, here⟩ := List.getElem?_eq_some_iff.mp found
    refine .of_rel (fun step => ?_) fun listed same => ?_
    · cases step with
      | field asked => exact .none
      | item asked =>
        simp only [Json.child?, toNamed, own, Option.some.injEq]
        -- The item at the index is changed, and every other one is kept.
        by_cases same : index = asked
        · subst same
          rw [List.getElem?_set_self bound, found]
          exact .some (by rw [if_pos (decide_eq_true rfl)]; exact ⟨changed, made⟩)
        · rw [List.getElem?_set_ne same]
          cases items[asked]? with
          | none => exact .none
          | some kept => exact .some (by simp [same])
    · cases same
      refine ⟨_, rfl, ?_⟩
      have kept : List.Forall₂ (SameOr change) items items :=
        List.forall₂_same.mpr fun _ _ => Or.inl rfl
      have set := forall₂_set kept index (Or.inr ⟨changed, made⟩ : SameOr change item other)
      rwa [← here, List.set_getElem_self] at set

/-- A change of the value that a segment names takes the step that the name stands for. -/
theorem inNamed_advances {create : Bool} {name : String}
    (done : inNamed create name change before = .ok (after, changed)) :
    Advances (toNamed name) change before after := by
  -- In an object the name stands for a field, and in an array for an index.
  cases before with
  | object fields =>
    obtain ⟨others, walked, rfl⟩ := carried_eq_ok.mp done
    exact inField_advances walked
  | array items =>
    obtain ⟨others, walked, rfl⟩ := carried_eq_ok.mp done
    exact atIndex_advances walked
  | _ =>
    obtain ⟨rfl, -⟩ := Prod.mk.inj (Except.ok.inj done)
    exact .refl _ fun step _ => by cases step <;> rfl

end Ways

section Frame

variable {filters : List Fields} {create changed : Bool} {operator : String} {argument : Json}
  {leaf : String → Fields → Except UpdateError (Change Fields)} {path : List String}
  {before after : Json}

/-- A segment on the way of an update takes the steps that it stands for. -/
theorem descend_advances {segment next : String} {rest : List String}
    (done : descend filters create leaf (segment :: next :: rest) before = .ok (after, changed)) :
    Advances (takes filters segment) (descend filters create leaf (next :: rest)) before after := by
  -- One case for each kind of segment.
  cases kind : Path.kind segment with
  | every =>
    simp only [descend, takes, kind] at done ⊢
    exact inElements_advances done
  | selected aliasName =>
    simp only [descend, takes, kind] at done ⊢
    cases known : conditions? filters aliasName with
    | none => simp [known] at done
    | some conditions =>
      simp only [known, Option.any_some] at done ⊢
      exact inElements_advances done
  | plain =>
    simp only [descend, takes, kind] at done ⊢
    exact inNamed_advances done

/-- An operator spares every other field of an object. -/
theorem lookup_of_applyAt {field other : String} {fields left : Fields}
    (once : (fields.map Prod.fst).Nodup)
    (done : applyAt operator argument field fields = .ok (left, changed)) (differ : other ≠ field) :
    left.lookup other = fields.lookup other := by
  -- The field is taken away, or given a value if anything is done.
  by_cases takesAway : operator = "$unset"
  · subst takesAway
    obtain ⟨rfl, -⟩ := Prod.mk.inj (Except.ok.inj done)
    rw [Fields.lookup_remove once, if_neg differ]
  · obtain ⟨value, rfl, -⟩ := onField_applyAt takesAway argument field _ _ _ done
    rw [Fields.lookup_write, if_neg differ]

/-- The last segment of a path spares every step but the one to the field of its name. -/
theorem child?_of_last {last : String} (keyed : before.WellKeyed)
    (done : descend filters create (applyAt operator argument) [last] before = .ok (after, changed))
    {step : Step} (spared : toNamed last step before = false) :
    after.child? step = before.child? step := by
  -- The operator acts in an object only.
  cases before with
  | object fields =>
    obtain ⟨left, reached, rfl⟩ := carried_eq_ok.mp done
    cases step with
    | field other =>
      simp only [Json.WellKeyed] at keyed
      exact lookup_of_applyAt keyed.nodup reached (by simpa [toNamed] using spared)
    | item index => rfl
  | _ =>
    obtain ⟨rfl, -⟩ := Prod.mk.inj (Except.ok.inj done)
    rfl

/-- What stands at an address that leaves the path, or nothing, is there afterwards. -/
theorem value?_of_leaves {address : Address} (keyed : before.WellKeyed)
    (done : descend filters create (applyAt operator argument) path before = .ok (after, changed))
    (leaves : remaining? filters path before address = none) :
    after.value? address = before.value? address := by
  -- The induction is along the path; the address leaves it at this segment, or behind a step
  -- that is taken.
  induction path generalizing before after address changed with
  | nil => cases address <;> simp [remaining?] at leaves
  | cons segment rest ih =>
    cases address with
    | nil => simp [remaining?] at leaves
    | cons step address =>
      cases rest with
      | nil =>
        have spared : toNamed segment step before = false := by simpa [remaining?] using leaves
        rw [Json.value?, Json.value?, child?_of_last keyed done spared]
      | cons next rest =>
        have advances := descend_advances done
        by_cases taken : takes filters segment step before = true
        · rw [remaining?, if_pos taken] at leaves
          rw [Json.value?, Json.value?]
          rcases advances.changed step taken with ⟨was, is⟩ | ⟨child, flag, is, made⟩
          · rw [was, is]
          · cases was : before.child? step with
            | some old =>
              rw [was] at made leaves
              rw [is]
              exact ih (keyed.child was) made leaves
            | none =>
              -- The child is new, and the address goes on in it to where nothing is made.
              rw [was] at made leaves
              rw [is]
              refine (ih (by simp [Json.WellKeyed, Json.FieldsWellKeyed]) made leaves).trans
                (Json.value?_empty ?_)
              rintro rfl
              simp [remaining?] at leaves
        · rw [Json.value?, Json.value?, advances.spared step (Bool.eq_false_iff.mpr taken)]

/-- An array that the path goes through is an array afterwards, with each item kept, or changed by
    the rest of the path, in its place. -/
theorem items_of_traversed {address : Address} {segment next : String} {rest : List String}
    {items : List Json} (done : descend filters create leaf path before = .ok (after, changed))
    (reaches : remaining? filters path before address = some (segment :: next :: rest))
    (found : before.value? address = some (.array items)) :
    ∃ others, after.value? address = some (.array others) ∧
      List.Forall₂ (SameOr (descend filters create leaf (next :: rest))) items others := by
  -- The induction is along the path; every step of the address is one that the update takes.
  induction path generalizing before after address changed with
  | nil => cases address <;> simp [remaining?] at reaches
  | cons head tail ih =>
    cases address with
    | nil =>
      simp only [remaining?, Option.some.injEq, List.cons.injEq] at reaches
      obtain ⟨rfl, rfl⟩ := reaches
      simp only [Json.value?, Option.some.injEq] at found
      obtain ⟨others, rfl, each⟩ := (descend_advances done).items items found
      exact ⟨others, rfl, each⟩
    | cons step address =>
      cases tail with
      | nil => simp [remaining?] at reaches
      | cons second more =>
        rw [remaining?] at reaches
        split at reaches
        · rename_i taken
          obtain ⟨old, was, below⟩ := Option.bind_eq_some_iff.mp found
          rw [was] at reaches
          rcases (descend_advances done).changed step
            taken with ⟨wasNot, -⟩ | ⟨child, flag, is, made⟩
          · simp [was] at wasNot
          · rw [was] at made
            obtain ⟨others, stands, each⟩ := ih made reaches below
            exact ⟨others, by rw [Json.value?, is]; exact stands, each⟩
        · simp at reaches

/-- An update at one path changes nothing at the addresses that leave the path, as the document
    was before: every value there, or its absence, stays. The arrays that the path goes through
    keep their length and the places of their items, each of which is kept, or changed by the rest
    of the path. -/
theorem single_frame {document : Json} (keyed : document.WellKeyed) {path : String}
    (done : apply filters (single operator path argument) document = .ok (after, changed)) :
    (∀ address, remaining? filters (Path.segments path) document address = none →
      after.value? address = document.value? address) ∧
    ∀ address segment next rest items,
      remaining? filters (Path.segments path) document address = some (segment :: next :: rest) →
      document.value? address = some (.array items) →
      ∃ others, after.value? address = some (.array others) ∧ others.length = items.length ∧
        List.Forall₂
          (SameOr (descend filters (creates operator) (applyAt operator argument) (next :: rest)))
          items others := by
  -- The one path of the update is walked along, and an address leaves it somewhere or stays on it.
  rw [apply_single, applyPath] at done
  refine ⟨fun address leaves => value?_of_leaves keyed done leaves,
    fun address segment next rest items reaches found => ?_⟩
  obtain ⟨others, stands, each⟩ := items_of_traversed done reaches found
  exact ⟨others, stands, each.length_eq.symm, each⟩

end Frame

/-- A group with a tag. -/
def group (name tag : String) : Json :=
  .object [("id", .string name), ("tags", .array [.string tag])]

/-- A document with two groups of one tag each. -/
def groupsDocument : Json :=
  .object [("groups", .array [group "a" "x", group "b" "y"]), ("n", .null)]

/-- Selects the first group. -/
def firstGroup : List Fields := [[("g.id", .string "a")]]

/-- When a tag of the first group is pushed, all the rest of the document stays, and so do the
    places of the two groups, of which the second one is not changed. -/
theorem single_frame_groups :
    ∃ after, apply firstGroup (single "$push" "groups.$[g].tags" (.string "z")) groupsDocument =
        .ok (after, true) ∧
      after.value? [.field "groups", .item 0, .field "id"] = some (.string "a") ∧
      after.value? [.field "groups", .item 1] = some (group "b" "y") ∧
      after.value? [.field "groups", .item 2] = none ∧
      ∃ others, after.value? [.field "groups"] = some (.array others) ∧ others.length = 2 := by
  -- Three of the addresses leave the path, and the one of the groups does not.
  have done : apply firstGroup (single "$push" "groups.$[g].tags" (.string "z")) groupsDocument =
      .ok (.object [("groups", .array [.object [("id", .string "a"),
        ("tags", .array [.string "x", .string "z"])], group "b" "y"]), ("n", .null)], true) := rfl
  have keyed : groupsDocument.WellKeyed := by
    simp [groupsDocument, group, Json.WellKeyed, Json.FieldsWellKeyed, Json.ItemsWellKeyed]
  obtain ⟨spared, traversed⟩ := single_frame keyed done
  obtain ⟨others, stands, count, -⟩ := traversed [.field "groups"] _ _ _ _ rfl rfl
  exact ⟨_, done, spared _ (by decide +kernel), spared _ (by decide +kernel),
    spared _ (by decide +kernel), others, stands, count⟩

end Update

end DocPatch
