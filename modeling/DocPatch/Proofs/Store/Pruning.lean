import DocPatch.Proofs.Json.Thinning
import DocPatch.Proofs.Path.Aliases
import DocPatch.Proofs.Store.Match
import DocPatch.Proofs.Store.Selection

/-! Taking elements out of arrays, again and again: an operation that took elements out finds no
    more of them later, whatever else was taken out since. -/

namespace DocPatch

open Json (Fading FieldsThinned ItemsThinned Kept Thinned)

namespace Query

/-- A query for scalars at paths of plain names. -/
def OnScalars (query : Fields) : Prop :=
  ∀ entry ∈ query, ∃ names, Path.Leads names ∧ entry.1 = Path.dotted names ∧ entry.2.Scalar

/-- Such a query is one on fields. -/
theorem OnScalars.named {query : Fields} (onScalars : OnScalars query) : Named query := by
  -- Every path is made up of plain names.
  intro entry member
  obtain ⟨names, leads, same, -⟩ := onScalars entry member
  exact same ▸ ⟨leads.dotted_ne, leads.noOperator⟩

/-- What a plain name leads to in a thinned value is a thinned value that it led to before. -/
theorem exists_step {name : String} (plain : Path.Plain name) {before after : Json}
    (thinned : before.Thinned after) {value : Json} (found : value ∈ step name after) :
    ∃ first ∈ step name before, first.Thinned value := by
  -- A field of a thinned object was there before the object was thinned.
  have inFields : ∀ {before after : Fields}, FieldsThinned before after →
      value ∈ (after.lookup name).toList →
        ∃ first ∈ (before.lookup name).toList, first.Thinned value := by
    intro before after fields found
    have related := fields.lookup name
    rw [Option.mem_toList.mp found] at related
    cases held : before.lookup name with
    | none => simp [held] at related
    | some first =>
      rw [held, Option.rel_some_some] at related
      exact ⟨first, by simp, related⟩
  cases thinned with
  | same => exact ⟨value, found, .same value⟩
  | object fields => exact inFields fields found
  | array items =>
    -- The name counts no item, so it is looked up in every item that is an object.
    simp only [step, plain.noIndex, Option.bind_none, Option.toList_none, List.nil_append,
      List.mem_flatMap] at found ⊢
    obtain ⟨item, member, inside⟩ := found
    obtain ⟨first, among, kept⟩ := items.exists_before member
    cases kept.thinned with
    | same => exact ⟨value, ⟨item, among, inside⟩, .same value⟩
    | object fields =>
      obtain ⟨held, here, thinned⟩ := inFields fields inside
      exact ⟨held, ⟨_, among, here⟩, thinned⟩
    | array => simp [Json.fields?] at inside

/-- What plain names lead to in a thinned value is a thinned value that they led to before. -/
theorem exists_resolve {names : List String} (plain : ∀ name ∈ names, Path.Plain name)
    {before after : Json} (thinned : before.Thinned after) {value : Json}
    (found : value ∈ resolve names after) :
    ∃ first ∈ resolve names before, first.Thinned value := by
  -- Each name is one step, and the steps are taken back one by one.
  induction names generalizing before after with
  | nil =>
    rw [resolve, List.mem_singleton] at found
    exact ⟨before, by simp [resolve], found ▸ thinned⟩
  | cons name rest ih =>
    obtain ⟨child, here, inside⟩ := List.mem_flatMap.mp found
    obtain ⟨first, held, thinned⟩ := exists_step (plain name (by simp)) thinned here
    obtain ⟨last, further, thinned⟩ :=
      ih (fun other member => plain other (by simp [member])) thinned inside
    exact ⟨last, List.mem_flatMap.mpr ⟨first, held, further⟩, thinned⟩

/-- A thinned value that equals or contains a scalar did so before. -/
theorem equalsOrContains_of_thinned {before after : Json} (thinned : before.Thinned after)
    {scalar : Json} (isScalar : scalar.Scalar) (holds : equalsOrContains after scalar = true) :
    equalsOrContains before scalar = true := by
  rw [equalsOrContains, Bool.or_eq_true] at holds ⊢
  rcases holds with equal | contains
  · exact Or.inl (thinned.equal_scalar isScalar ▸ equal)
  · right
    cases thinned with
    | same => exact contains
    | object => exact contains
    | array items =>
      -- The item that equals the scalar was among the items before.
      obtain ⟨item, member, equal⟩ := List.any_eq_true.mp contains
      obtain ⟨first, among, kept⟩ := items.exists_before member
      exact List.any_eq_true.mpr ⟨first, among, kept.thinned.equal_scalar isScalar ▸ equal⟩

/-- A thinned value that satisfies a query for scalars satisfied it before. -/
theorem OnScalars.satisfies_of_thinned {query : Fields} (onScalars : OnScalars query)
    {before after : Json} (thinned : before.Thinned after)
    (satisfied : satisfies after query = true) : satisfies before query = true := by
  -- Each clause asks for a scalar, and the value that has it had it before.
  induction query with
  | nil => simp
  | cons entry rest ih =>
    rcases entry with ⟨key, scalar⟩
    obtain ⟨names, leads, same, isScalar⟩ := onScalars (key, scalar) (by simp)
    obtain rfl : key = Path.dotted names := same
    rw [satisfies_entry, clause_of_noOperator leads.noOperator, leads.segments,
      holds_scalar isScalar, Bool.and_eq_true] at satisfied ⊢
    refine ⟨?_, ih (fun other member => onScalars other (by simp [member])) satisfied.2⟩
    obtain ⟨value, found, holds⟩ := List.any_eq_true.mp satisfied.1
    obtain ⟨first, held, thinned⟩ := exists_resolve leads.plain thinned found
    exact List.any_eq_true.mpr ⟨first, held, equalsOrContains_of_thinned thinned isScalar holds⟩

/-- No element begins to be accepted by conditions on scalars. -/
theorem OnScalars.accepts_fading {query : Fields} (onScalars : OnScalars query) :
    Fading (Update.accepts query) := by
  -- Conditions on an element are a query on it.
  intro before after kept accepted
  rw [accepts_eq_satisfies onScalars.named] at accepted ⊢
  exact onScalars.satisfies_of_thinned kept.thinned accepted

/-- No element begins to be matched by a query for scalars. -/
theorem OnScalars.elementSatisfies_fading {query : Fields} (onScalars : OnScalars query) :
    Fading fun element => elementSatisfies element (.object query) := by
  -- The element has to be an object, too, and thinning keeps that.
  intro before after kept matched
  simp only [elementSatisfies_object onScalars.named.onFields, Bool.and_eq_true] at matched ⊢
  exact ⟨kept.isObject ▸ matched.1, onScalars.satisfies_of_thinned kept.thinned matched.2⟩

/-- No element begins to be among options that are no objects. -/
theorem elementSatisfies_in_fading {options : List Json}
    (plain : ∀ option ∈ options, option.isObject = false) :
    Fading fun element => elementSatisfies element (.single "$in" (.array options)) := by
  intro before after kept matched
  simp only [elementSatisfies_in] at matched ⊢
  cases object : before.isObject with
  | false => exact kept.same object ▸ matched
  | true =>
    -- An object contains nothing, and equals only objects.
    obtain ⟨option, member, holds⟩ := List.any_eq_true.mp matched
    have other := plain option member
    have still := kept.isObject.trans object
    cases after <;> simp [Json.isObject] at still
    cases option <;> simp [Json.isObject] at other <;>
      simp [equalsOrContains, Json.equal, Json.items?] at holds

end Query

namespace Update

section Names

variable {filters : List Fields} {leaf : String → Fields → Except UpdateError (Change Fields)}
  {name : String} {rest : List String}

/-- A name leads nowhere in a value without the field, where none is made. -/
theorem descend_of_lacks (plain : Path.Plain name) (more : rest ≠ []) {node : Json}
    (lacks : node.Lacks name) :
    descend filters false leaf (name :: rest) node = .ok (node, false) := by
  -- A missing field would be made, but not where nothing is to be created.
  cases object : node.isObject with
  | false => exact descend_of_not_object plain rest object
  | true =>
    cases node with
    | object fields =>
      obtain ⟨next, others, rfl⟩ := List.exists_cons_of_ne_nil more
      rw [descend_missing plain others (lacks fields rfl)]
      rfl
    | _ => simp [Json.isObject] at object

/-- A name leads into the value of its field, or there is no such field. -/
theorem descend_name_ok (plain : Path.Plain name) (more : rest ≠ []) {before after : Json}
    {changed : Bool}
    (done : descend filters false leaf (name :: rest) before = .ok (after, changed)) :
    (before.Lacks name ∧ after = before) ∨
      ∃ fields child inner, before = .object fields ∧ fields.lookup name = some child ∧
        descend filters false leaf rest child = .ok (inner, changed) ∧
        after = .object (Fields.put name inner fields) := by
  -- The field is missing, or the change goes on in its value.
  by_cases lacks : before.Lacks name
  · rw [descend_of_lacks plain more lacks] at done
    exact Or.inl ⟨lacks, (Prod.mk.inj (Except.ok.inj done)).1.symm⟩
  · simp only [Json.Lacks, not_forall] at lacks
    obtain ⟨fields, rfl, some_value⟩ := lacks
    obtain ⟨child, found⟩ := Option.ne_none_iff_exists'.mp some_value
    rw [descend_field plain more found] at done
    obtain ⟨⟨inner, flag⟩, below, same⟩ := map_eq_ok.mp done
    obtain ⟨rfl, rfl⟩ := Prod.mk.inj same
    exact Or.inr ⟨fields, child, inner, rfl, found, below, rfl⟩

end Names

section Pull

variable {filters : List Fields} {create : Bool} {argument : Json} {name : String}

/-- Pulling at the end of a path filters the array at the last field, or there is no such field. -/
theorem descend_pull_ok {before after : Json} {changed : Bool}
    (done : descend filters create (applyAt "$pull" argument) [name] before =
      .ok (after, changed)) :
    (before.Lacks name ∧ after = before) ∨
      ∃ fields items, before = .object fields ∧ fields.lookup name = some (.array items) ∧
        after = .object (Fields.put name
          (.array (items.filter fun item => !Query.elementSatisfies item argument)) fields) := by
  cases before with
  | object fields =>
    simp only [descend, applyAt, arrayAt_eq] at done
    cases found : fields.lookup name with
    | none =>
      rw [found] at done
      obtain ⟨rfl, -⟩ := Prod.mk.inj (Except.ok.inj done)
      refine Or.inl ⟨?_, rfl⟩
      rintro _ ⟨⟩
      exact found
    | some value =>
      rw [found] at done
      cases value with
      | array items =>
        obtain ⟨rfl, -⟩ := Prod.mk.inj (Except.ok.inj done)
        exact Or.inr ⟨fields, items, rfl, found, rfl⟩
      | _ => simp [itemsOf, Bind.bind, Except.bind] at done
  -- What is no object has no fields.
  | _ =>
    obtain ⟨rfl, -⟩ := Prod.mk.inj (Except.ok.inj done)
    exact Or.inl ⟨fun _ same => by simp at same, rfl⟩

/-- Pulling at the end of a path changes nothing, if the last field is missing or no element of its
    array matches. -/
theorem descend_pull_idle {node : Json}
    (clean : node.Lacks name ∨ ∃ fields items, node = .object fields ∧
      fields.lookup name = some (.array items) ∧
      ∀ item ∈ items, Query.elementSatisfies item argument = false) :
    descend filters create (applyAt "$pull" argument) [name] node = .ok (node, false) := by
  rcases clean with lacks | ⟨fields, items, rfl, found, unmatched⟩
  · cases node with
    | object fields =>
      simp only [descend, applyAt, arrayAt_eq, lacks fields rfl]
      rfl
    | _ => rfl
  · -- All elements are kept, and put back where they were.
    have all : (items.filter fun item => !Query.elementSatisfies item argument) = items :=
      List.filter_eq_self.mpr fun item member => by simp [unmatched item member]
    simp only [descend, applyAt, arrayAt_eq, found, itemsOf, Bind.bind, Except.bind, all,
      Fields.put_lookup found]
    simp

/-- What was filtered has no matching element later, however it was thinned since. -/
theorem pull_repeats (fading : Fading fun element => Query.elementSatisfies element argument)
    {before between last : Json} {changed : Bool}
    (done : descend filters create (applyAt "$pull" argument) [name] before =
      .ok (between, changed))
    (thinned : between.Thinned last) :
    descend filters create (applyAt "$pull" argument) [name] last = .ok (last, false) := by
  apply descend_pull_idle
  rcases descend_pull_ok done with ⟨lacks, rfl⟩ | ⟨fields, items, rfl, -, rfl⟩
  · exact Or.inl (thinned.lacks lacks)
  · obtain ⟨others, rfl, inside⟩ := thinned.of_object
    obtain ⟨held, stands, fewer⟩ := inside.lookup_some (Fields.lookup_put_self name _ fields)
    obtain ⟨rest, rfl, among⟩ := fewer.of_array
    -- Every element that is left did not match when the array was filtered.
    refine Or.inr ⟨others, rest, rfl, stands, fun item member => ?_⟩
    obtain ⟨first, kept, becomes⟩ := among.exists_before member
    rw [← Bool.not_eq_true]
    intro matched
    have unmatched := (List.mem_filter.mp kept).2
    simp [fading becomes matched] at unmatched

end Pull

/-- Every item that a walk through a list leaves was changed if it was selected, and is the same
    otherwise. -/
theorem eachItem_ok {selects : Json → Bool} {change : Json → Except UpdateError (Change Json)}
    {items left : List Json} {changed : Bool}
    (done : eachItem selects change items = .ok (left, changed)) :
    List.Forall₂ (fun item after => if selects item then ∃ flag, change item = .ok (after, flag)
      else after = item) items left := by
  -- The induction is on the items; each is changed or passed before the walk goes on.
  induction items generalizing left changed with
  | nil =>
    obtain ⟨rfl, -⟩ := Prod.mk.inj (Except.ok.inj done)
    exact .nil
  | cons item rest ih =>
    rw [eachItem_cons] at done
    obtain ⟨⟨after, here⟩, first, later⟩ := bind_eq_ok.mp done
    obtain ⟨⟨others, there⟩, remaining, same⟩ := bind_eq_ok.mp later
    obtain ⟨rfl, -⟩ := Prod.mk.inj (Except.ok.inj same)
    refine .cons ?_ (ih remaining)
    by_cases chosen : selects item = true
    · simp only [chosen, ↓reduceIte] at first ⊢
      exact ⟨here, first⟩
    · simp only [chosen, Bool.false_eq_true, ↓reduceIte, Except.ok.injEq, Prod.mk.injEq] at first ⊢
      exact first.1.symm

section Elements

variable {selects : Json → Bool} {change : Json → Except UpdateError (Change Json)}

/-- To change elements so that they are kept thins the array. -/
theorem inElements_thins {before after : Json} {changed : Bool}
    (keeps : ∀ {item left flag}, change item = .ok (left, flag) → item.Kept left)
    (done : inElements selects change before = .ok (after, changed)) : before.Thinned after := by
  -- An element that is not selected is kept as it is.
  cases before with
  | array items =>
    obtain ⟨⟨left, flag⟩, walked, same⟩ := bind_eq_ok.mp done
    obtain ⟨rfl, -⟩ := Prod.mk.inj (Except.ok.inj same)
    refine .array (.of_kept ((eachItem_ok walked).imp fun item left became => ?_))
    split at became
    · obtain ⟨flag, changed⟩ := became
      exact keeps changed
    · exact became ▸ .refl item
  | _ =>
    obtain ⟨rfl, -⟩ := Prod.mk.inj (Except.ok.inj done)
    exact .same _

/-- A change that repeats itself on each element repeats itself on the array, if no element begins
    to be selected. -/
theorem inElements_repeats {before between last : Json} {changed : Bool} (fewer : Fading selects)
    (again : ∀ {first second third flag}, change first = .ok (second, flag) →
      second.Thinned third → change third = .ok (third, false))
    (done : inElements selects change before = .ok (between, changed))
    (thinned : between.Thinned last) : inElements selects change last = .ok (last, false) := by
  cases before with
  | array items =>
    obtain ⟨⟨left, flag⟩, walked, same⟩ := bind_eq_ok.mp done
    obtain ⟨rfl, -⟩ := Prod.mk.inj (Except.ok.inj same)
    obtain ⟨others, rfl, among⟩ := thinned.of_array
    rw [inElements, eachItem_unchanged]
    · rfl
    · -- An element that is selected now was selected before, and changed then.
      intro item member chosen
      obtain ⟨between, kept, becomes⟩ := among.exists_before member
      obtain ⟨first, -, became⟩ := exists_related (eachItem_ok walked) kept
      split at became
      · obtain ⟨flag, changed⟩ := became
        exact again changed becomes.thinned
      · rename_i passed
        subst became
        exact absurd (fewer becomes chosen) passed
  | _ =>
    obtain ⟨rfl, -⟩ := Prod.mk.inj (Except.ok.inj done)
    cases thinned <;> rfl

end Elements

/-- Alias filters whose conditions no element begins to meet. -/
def FiltersFade (filters : List Fields) : Prop :=
  ∀ aliasName conditions, conditions? filters aliasName = some conditions →
    Fading (accepts conditions)

section Pulling

variable {filters : List Fields} {argument : Json}

/-- A placeholder enters, in whatever value, the elements that pass a test. No element begins to
    pass it. -/
theorem exists_selects (fades : FiltersFade filters) {create : Bool}
    {leaf : String → Fields → Except UpdateError (Change Fields)} {place name : String}
    (enters : Path.kind place ≠ .plain) {rest : List String} {node : Json} {result : Change Json}
    (done : descend filters create leaf (place :: name :: rest) node = .ok result) :
    ∃ selects, Fading selects ∧ ∀ node, descend filters create leaf (place :: name :: rest) node =
      inElements selects (descend filters create leaf (name :: rest)) node := by
  cases kind : Path.kind place with
  | plain => exact absurd kind enters
  | every => exact ⟨fun _ => true, fun _ _ => rfl, fun node => by rw [descend, kind]⟩
  | selected aliasName =>
    -- An alias without conditions would have been refused.
    cases known : conditions? filters aliasName with
    | none => simp [descend, kind, known] at done
    | some conditions =>
      exact ⟨accepts conditions, fades aliasName conditions known, fun node => by
        rw [descend, kind]
        simp only [known]⟩

/-- Taking elements out of an array thins the value that the array stands in. -/
theorem descend_thins (fades : FiltersFade filters) {path : List String} (way : Path.Way path)
    {before after : Json} {changed : Bool}
    (done : descend filters false (applyAt "$pull" argument) path before = .ok (after, changed)) :
    before.Thinned after := by
  -- The induction is on the way: the array at its end is filtered, and what holds it is thinned.
  induction way generalizing before after changed with
  | @last name plain =>
    rcases descend_pull_ok done with ⟨-, rfl⟩ | ⟨fields, items, rfl, found, rfl⟩
    · exact .same _
    · exact .object (.put found (.array (.filter _ items)))
  | @name name rest plain way ih =>
    rcases descend_name_ok plain way.ne_nil done with ⟨-, rfl⟩ | ⟨_, _, _, rfl, found, below, rfl⟩
    · exact .same _
    · exact .object (.put found (ih below))
  | @element place name rest enters plain way ih =>
    obtain ⟨selects, -, inside⟩ := exists_selects fades enters done
    rw [inside] at done
    refine inElements_thins (fun below => ⟨ih below, fun other => ?_⟩) done
    -- Behind the placeholder comes a name, which leads nowhere in what is no object.
    rw [descend_of_not_object plain rest other] at below
    exact (Prod.mk.inj (Except.ok.inj below)).1.symm

/-- What was taken out of a value is not found there again, however the value was thinned since. -/
theorem descend_repeats (fades : FiltersFade filters)
    (fading : Fading fun element => Query.elementSatisfies element argument) {path : List String}
    (way : Path.Way path) {before between last : Json} {changed : Bool}
    (done : descend filters false (applyAt "$pull" argument) path before = .ok (between, changed))
    (thinned : between.Thinned last) :
    descend filters false (applyAt "$pull" argument) path last = .ok (last, false) := by
  -- The induction is on the way, and the walk through the last value follows that
  -- through the first.
  induction way generalizing before between last changed with
  | last => exact pull_repeats fading done thinned
  | @name name rest plain way ih =>
    rcases descend_name_ok plain way.ne_nil done with
      ⟨lacks, rfl⟩ | ⟨fields, child, inner, rfl, -, below, rfl⟩
    · exact descend_of_lacks plain way.ne_nil (thinned.lacks lacks)
    · -- The value of the field was changed, and thinned since.
      obtain ⟨left, rfl, inside⟩ := thinned.of_object
      obtain ⟨held, stands, fewer⟩ := inside.lookup_some (Fields.lookup_put_self name inner fields)
      rw [descend_field plain way.ne_nil stands, ih below fewer, carry_ok, Fields.put_lookup stands]
  | @element place name rest enters plain way ih =>
    obtain ⟨selects, fewer, inside⟩ := exists_selects fades enters done
    rw [inside] at done ⊢
    exact inElements_repeats fewer ih done thinned

end Pulling

end Update

namespace Operation

/-- An operation that takes the elements that match out of an array. No element begins to match, or
    to be selected on the way, by losing elements of its own. -/
inductive Prunes : Operation → Prop where
  | pull {filter : Fields} {path : String} {argument : Json} {filters : List Fields} :
      Path.Way (Path.segments path) →
      Fading (fun element => Query.elementSatisfies element argument) → Update.FiltersFade filters →
      Prunes ⟨filter, Update.single "$pull" path argument, filters⟩

/-- Such an operation thins a document. -/
theorem Prunes.thins {operation : Operation} (prunes : operation.Prunes) {document after : Json}
    {outcome : Outcome} (done : operation.applyTo document = .ok (after, outcome)) :
    document.Thinned after := by
  -- A document that is not selected stays; otherwise the update is one pull.
  by_cases selected : Query.satisfies document operation.filter = true
  · rw [applyTo_of_satisfies selected] at done
    obtain ⟨⟨left, changed⟩, updated, same⟩ := map_eq_ok.mp done
    obtain ⟨rfl, -⟩ := Prod.mk.inj same
    cases prunes with
    | pull way _ fades =>
      rw [Update.apply_single] at updated
      exact Update.descend_thins fades way updated
  · rw [applyTo, if_neg selected] at done
    obtain ⟨rfl, -⟩ := Prod.mk.inj (Except.ok.inj done)
    exact .same _

/-- Such an operation has nothing left to do once it went through a document, however the document
    was thinned since. -/
theorem Prunes.settled {operation : Operation} (prunes : operation.Prunes)
    {document between last : Json} {outcome : Outcome}
    (selected : Query.satisfies document operation.filter = true)
    (done : operation.applyTo document = .ok (between, outcome)) (thinned : between.Thinned last) :
    operation.Settled last := by
  -- The pull goes along the same way again, and finds its elements gone.
  rw [applyTo_of_satisfies selected] at done
  obtain ⟨⟨left, changed⟩, updated, same⟩ := map_eq_ok.mp done
  obtain ⟨rfl, -⟩ := Prod.mk.inj same
  refine .of_update fun _ => ?_
  cases prunes with
  | pull way fading fades =>
    rw [Update.apply_single] at updated ⊢
    exact Update.descend_repeats fades fading way updated thinned

section Batch

variable {base : Fields} {batch : List Operation} {document after : Json}

/-- A batch of such operations thins a document. -/
theorem result_thins (prune : ∀ operation ∈ batch, operation.Prunes)
    (done : result batch document = .ok after) : document.Thinned after := by
  -- What the first operation leaves is thinned again by the others.
  induction batch generalizing document with
  | nil => exact Except.ok.inj done ▸ .same document
  | cons operation rest ih =>
    rw [result_cons] at done
    cases step : operation.applyTo document with
    | error error => simp [step, Except.map, Except.bind] at done
    | ok reached =>
      rw [step] at done
      exact Thinned.trans (Prunes.thins (prune operation (by simp)) step)
        (ih (fun other member => prune other (by simp [member])) done)

/-- Operations of one filter that took elements out of a document have nothing left to do in what
    they left. -/
theorem settled_of_prunes (prune : ∀ operation ∈ batch, operation.Prunes)
    (own : ∀ operation ∈ batch, operation.filter = base)
    (done : result batch document = .ok after) : ∀ operation ∈ batch, operation.Settled after := by
  have within : Within base batch := fun operation member _ selected =>
    own operation member ▸ selected
  cases selected : Query.satisfies after base with
  | false =>
    -- The filter does not select what is left, and with it no operation does.
    exact fun operation member =>
      settled_of_implies (within operation member after) selected
  | true =>
    -- The filter selected the document throughout, so every operation went through it.
    induction batch generalizing document with
    | nil => simp
    | cons operation rest ih =>
      have before := selected_before within done selected
      have others := fun other (member : other ∈ rest) =>
        prune other (List.mem_cons_of_mem _ member)
      rw [result_cons] at done
      cases step : operation.applyTo document with
      | error error => simp [step, Except.map, Except.bind] at done
      | ok reached =>
        rw [step] at done
        rintro other member
        rcases List.mem_cons.mp member with rfl | later
        · exact Prunes.settled (prune other (by simp)) (by rwa [own other (by simp)]) step
            (result_thins others done)
        · exact ih others (fun other member => own other (by simp [member])) done within.tail other
            later

end Batch

end Operation

end DocPatch
