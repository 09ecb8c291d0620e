import DocPatch.Proofs.Json.Weight
import DocPatch.Proofs.Store.Changes
import DocPatch.Proofs.Store.Independence

/-! What became of a document when no change of it was reported: it is the same, or something was
    left behind on the way to a path. -/

namespace DocPatch

open Json (Same)

/-- What may become of a value while no change is reported: it grows, or it stays the same. -/
structure Unreported (grown : Bool) (before after : Json) : Prop where
  same : grown = false → Same before after
  more : grown = true → before.weight < after.weight

namespace Unreported

variable {grown also : Bool} {before between after : Json}

/-- A value that stays the same has not grown. -/
theorem of_same (same : Same before after) : Unreported false before after :=
  ⟨fun _ => same, by simp⟩

/-- A value that is made of more values has grown. -/
theorem of_more (more : before.weight < after.weight) : Unreported true before after :=
  ⟨by simp, fun _ => more⟩

/-- No value gets smaller. -/
theorem weight_le (unreported : Unreported grown before after) : before.weight ≤ after.weight := by
  -- Values that are the same have the same weight.
  cases grown with
  | false => exact Nat.le_of_eq (unreported.same rfl).weight_eq
  | true => exact Nat.le_of_lt (unreported.more rfl)

/-- Equality tells whether a value has grown. -/
theorem equal_iff (unreported : Unreported grown before after) (left : before.WellKeyed)
    (right : after.WellKeyed) : before.equal after = true ↔ grown = false := by
  cases grown with
  | false => simp [(unreported.same rfl).equal]
  | true =>
    -- Values that are equal would weigh the same.
    simp only [Bool.true_eq_false, iff_false]
    intro equal
    have same := Same.weight_eq ⟨left, right, equal⟩
    have more := unreported.more rfl
    omega

/-- A value that has grown stays larger, and one that stays the same may still grow. -/
theorem trans (first : Unreported grown before between) {later : Bool}
    (second : Unreported later between after) (agree : grown = false → later = also) :
    Unreported (grown || also) before after := by
  -- Growing once is enough, and a value that is the same weighs the same.
  cases grown with
  | true => exact of_more (Nat.lt_of_lt_of_le (first.more rfl) second.weight_le)
  | false =>
    obtain rfl := agree rfl
    have same := first.same rfl
    exact ⟨fun kept => same.trans (second.same kept), fun grew => same.weight_eq ▸ second.more grew⟩

/-- An array grows where its first item or the rest does. -/
theorem cons {item other : Json} {rest others : List Json} (here : Unreported grown item other)
    (later : Unreported also (.array rest) (.array others)) :
    Unreported (grown || also) (.array (item :: rest)) (.array (other :: others)) := by
  -- Neither part loses weight, so that one which gains is not made up for by the other.
  have first := here.weight_le
  have second := later.weight_le
  simp only [Json.weight, Nat.add_le_add_iff_right] at second
  constructor
  · intro kept
    obtain ⟨one, two⟩ := Bool.or_eq_false_iff.mp kept
    exact Json.same_array_iff.mpr (.cons (here.same one) (Json.same_array_iff.mp (later.same two)))
  · intro grew
    simp only [Json.weight, Json.itemsWeight]
    rcases Bool.or_eq_true_iff.mp grew with one | two
    · have more := here.more one
      omega
    · have more := later.more two
      simp only [Json.weight, Nat.add_lt_add_iff_right] at more
      omega

/-- An array grows where one of its items does. -/
theorem set {items : List Json} {index : Nat} {item other : Json}
    (keyed : (Json.array items).WellKeyed) (found : items[index]? = some item)
    (inside : Unreported grown item other) :
    Unreported grown (.array items) (.array (items.set index other)) := by
  -- The other items stay, so the array gains just what the item gains.
  constructor
  · intro kept
    have whole := forall₂_set (Json.same_array_iff.mp (.refl keyed)) index (inside.same kept)
    obtain ⟨bound, here⟩ := List.getElem?_eq_some_iff.mp found
    rw [← here, List.set_getElem_self] at whole
    exact Json.same_array_iff.mpr whole
  · intro grew
    have more := inside.more grew
    have weight := Json.itemsWeight_set found other
    simp only [Json.weight]
    omega

/-- An object grows where the value at one of its keys does. -/
theorem put {fields : Fields} {key : String} {child other : Json}
    (keyed : (Json.object fields).WellKeyed) (found : fields.lookup key = some child)
    (inside : Unreported grown child other) :
    Unreported grown (.object fields) (.object (Fields.put key other fields)) := by
  -- The other entries stay, so the object gains just what the value gains.
  constructor
  · intro kept
    have whole : Fields.Same (Fields.put key child fields) (Fields.put key other fields) :=
      (Json.same_object_iff.mp (.refl keyed)).put (inside.same kept)
    rw [Fields.put_lookup found] at whole
    exact Json.same_object_iff.mpr whole
  · intro grew
    have more := inside.more grew
    have weight := Json.fieldsWeight_put key other fields
    simp only [found, Option.map_some, Option.getD_some] at weight
    simp only [Json.weight]
    omega

/-- An object grows by a value at a new key. -/
theorem put_new {fields : Fields} {key : String} (missing : fields.lookup key = none)
    (value : Json) : Unreported true (.object fields) (.object (Fields.put key value fields)) := by
  -- A new value has some weight, and it replaces none.
  have weight := Json.fieldsWeight_put key value fields
  have one := value.weight_pos
  simp only [missing, Option.map_none, Option.getD_none] at weight
  refine of_more ?_
  simp only [Json.weight]
  omega

/-- A value that a field is given is what it holds already, or the field is missing and the
    object grows. -/
theorem put_or_new {fields : Fields} {key : String} {value : Json} {new : Bool}
    (keyed : (Json.object fields).WellKeyed) (missing : fields.lookup key = none → new = true)
    (held : ∀ child, fields.lookup key = some child → Same child value) :
    Unreported (new && (fields.lookup key).isNone) (.object fields)
      (.object (Fields.put key value fields)) := by
  -- The key is new, or the object keeps its value up to order.
  cases found : fields.lookup key with
  | none => simpa [missing found] using put_new found value
  | some child => simpa using (of_same (held child found)).put keyed found

end Unreported

namespace Update

/-- Whether an operator has no values to add. -/
def addsNothing (operator : String) (argument : Json) : Bool :=
  operator = "$addToSet" && (eachValue argument).isEmpty

/-- Whether something is left behind inside the value that a segment names, or for a
    missing field. -/
def littersNamed (name : String) (missing : Bool) (inside : Json → Bool) : Json → Bool
  | .object fields => (fields.lookup name).elim missing inside
  -- Nothing is made for an index that an array does not have.
  | .array items => ((Path.index? name).bind (items[·]?)).any inside
  | _ => false

/-- Whether an operator leaves something behind on its way to a path, with nothing to report at the
    end of it: objects for missing fields that are in front of a placeholder further on, or an array
    that no values are added to, and the objects made for it. -/
def littersAt (filters : List Fields) (operator : String) (argument : Json) :
    List String → Json → Bool
  | [], _ => false
  -- With no values to add, a missing field becomes an empty array.
  | [last], node =>
    addsNothing operator argument && node.fields?.any fun fields => (fields.lookup last).isNone
  | head :: next :: rest, node =>
    let inside := littersAt filters operator argument (next :: rest)
    match Path.kind head with
    | .every => (node.items?.getD []).any inside
    | .selected aliasName =>
      (node.items?.getD []).any fun item =>
        (conditions? filters aliasName).any (accepts · item) && inside item
    | .plain =>
      -- New objects are made for a name, unless a placeholder comes next.
      littersNamed head (creates operator && !Path.isPlaceholder next &&
        (rest.any Path.isPlaceholder || addsNothing operator argument)) inside node

/-- Whether an update leaves something behind in a document, with nothing to report. -/
def litters (filters : List Fields) (update : Fields) (document : Json) : Bool :=
  update.any fun entry => entry.2.fields?.any fun targets => targets.any fun target =>
    littersAt filters entry.1 target.2 (Path.segments target.1) document

/-- A change that reports what it does, save that it lets some values grow: where it reports
    nothing, these have grown, and the others are the same. -/
def Reports (littered : Json → Bool) (change : Json → Except UpdateError (Change Json)) : Prop :=
  ∀ ⦃value after⦄, value.WellKeyed → change value = .ok (after, false) →
    Unreported (littered value) value after

section Ways

variable {selects littered : Json → Bool} {change : Json → Except UpdateError (Change Json)}

/-- A change of selected items lets an array grow where it lets one of these grow. -/
theorem eachItem_unreported (reports : Reports littered change) {items after : List Json}
    (keyed : Json.ItemsWellKeyed items)
    (done : eachItem selects change items = .ok (after, false)) :
    Unreported (items.any fun item => selects item && littered item) (.array items)
      (.array after) := by
  induction items generalizing after with
  | nil =>
    obtain ⟨rfl, -⟩ := Prod.mk.inj (Except.ok.inj done)
    exact .of_same (.refl (by simp [Json.WellKeyed, Json.ItemsWellKeyed]))
  | cons item rest ih =>
    simp only [Json.ItemsWellKeyed] at keyed
    rw [eachItem_cons] at done
    obtain ⟨⟨other, first⟩, here, remaining⟩ := bind_eq_ok.mp done
    obtain ⟨⟨others, later⟩, there, same⟩ := bind_eq_ok.mp remaining
    obtain ⟨rfl, silent⟩ := Prod.mk.inj (Except.ok.inj same)
    obtain ⟨rfl, rfl⟩ := Bool.or_eq_false_iff.mp silent
    rw [List.any_cons]
    refine .cons ?_ (ih keyed.2 there)
    -- An item that is not selected stays as it is.
    cases chosen : selects item with
    | true => exact reports keyed.1 (by simpa [chosen] using here)
    | false =>
      obtain rfl : item = other := by simpa [chosen] using here
      exact .of_same (.refl keyed.1)

/-- A change of selected elements lets a value grow where it lets one of these grow. -/
theorem inElements_reports (reports : Reports littered change) :
    Reports (fun node => (node.items?.getD []).any fun item => selects item && littered item)
      (inElements selects change) := by
  intro node after keyed done
  cases node with
  | array items =>
    obtain ⟨others, walked, rfl⟩ := carried_eq_ok.mp done
    simp only [Json.WellKeyed] at keyed
    exact eachItem_unreported reports keyed walked
  -- Nothing else has elements.
  | _ =>
    obtain ⟨rfl, -⟩ := Prod.mk.inj (Except.ok.inj done)
    exact .of_same (.refl keyed)

/-- A change of the value of a field lets an object grow where it lets the value grow, and where an
    object is made for a missing field. -/
theorem inField_reports (reports : Reports littered change) {create missing : Bool}
    (made : create = true → ∀ after, change (.object []) = .ok (after, false) → missing = true)
    (kept : create = false → missing = false) (name : String) {fields after : Fields}
    (keyed : (Json.object fields).WellKeyed)
    (done : inField create name change fields = .ok (after, false)) :
    Unreported ((fields.lookup name).elim missing littered) (.object fields) (.object after) := by
  -- The field is there and its value is changed, or it is missing and may be made.
  rw [inField] at done
  cases found : fields.lookup name with
  | some child =>
    simp only [found, Option.some_or] at done
    obtain ⟨⟨other, flag⟩, changed, same⟩ := bind_eq_ok.mp done
    obtain ⟨rfl, rfl⟩ := Prod.mk.inj (Except.ok.inj same)
    have inner := keyed
    simp only [Json.WellKeyed] at inner
    exact (reports (inner.of_mem (Fields.mem_of_lookup found)) changed).put keyed found
  | none =>
    simp only [found, Option.none_or] at done
    rw [Option.elim_none]
    cases create with
    | true =>
      obtain ⟨⟨other, flag⟩, changed, same⟩ := bind_eq_ok.mp done
      obtain ⟨rfl, rfl⟩ := Prod.mk.inj (Except.ok.inj same)
      rw [made rfl other changed]
      exact .put_new found other
    | false =>
      obtain ⟨rfl, -⟩ := Prod.mk.inj (Except.ok.inj done)
      rw [kept rfl]
      exact .of_same (.refl keyed)

/-- A change of the item at an index lets an array grow where it lets the item grow. -/
theorem atIndex_reports (reports : Reports littered change) (index : Option Nat)
    {items after : List Json} (keyed : (Json.array items).WellKeyed)
    (done : atIndex index change items = .ok (after, false)) :
    Unreported ((index.bind (items[·]?)).any littered) (.array items) (.array after) := by
  -- Without an item at the index nothing is changed.
  cases index with
  | none =>
    obtain ⟨rfl, -⟩ := Prod.mk.inj (Except.ok.inj done)
    exact .of_same (.refl keyed)
  | some index =>
    simp only [atIndex, Option.bind_some] at done ⊢
    cases found : items[index]? with
    | none =>
      simp only [found, Option.map_none] at done
      obtain ⟨rfl, -⟩ := Prod.mk.inj (Except.ok.inj done)
      exact .of_same (.refl keyed)
    | some item =>
      simp only [found, Option.map_some] at done
      obtain ⟨other, changed, rfl⟩ := carried_eq_ok.mp done
      have inner := keyed
      simp only [Json.WellKeyed] at inner
      exact (reports (inner.of_mem (List.mem_of_getElem? found)) changed).set keyed found

/-- A change of the value that a segment names lets a value grow where it lets the named one grow,
    and where an object is made for a missing field. -/
theorem inNamed_reports (reports : Reports littered change) {create missing : Bool}
    (made : create = true → ∀ after, change (.object []) = .ok (after, false) → missing = true)
    (kept : create = false → missing = false) (name : String) :
    Reports (littersNamed name missing littered) (inNamed create name change) := by
  -- In an object the name stands for a field, and in an array for an index.
  intro node after keyed done
  cases node with
  | object fields =>
    obtain ⟨others, walked, rfl⟩ := carried_eq_ok.mp done
    exact inField_reports reports made kept name keyed walked
  | array items =>
    obtain ⟨others, walked, rfl⟩ := carried_eq_ok.mp done
    exact atIndex_reports reports (Path.index? name) keyed walked
  | _ =>
    obtain ⟨rfl, -⟩ := Prod.mk.inj (Except.ok.inj done)
    exact .of_same (.refl keyed)

end Ways

variable {filters : List Fields} {operator : String} {argument : Json}

/-- An operator that adds something to a missing field reports it. -/
theorem addsNothing_of_missing {field : String} {fields after : Fields}
    (making : creates operator = true) (missing : fields.lookup field = none)
    (done : applyAt operator argument field fields = .ok (after, false)) :
    addsNothing operator argument = true := by
  simp only [creates, Bool.or_eq_true, decide_eq_true_eq] at making
  rcases making with (rfl | rfl) | rfl
  · simp [applyAt, missing] at done
  · simp [applyAt, arrayAt_eq, itemsOf, missing, Bind.bind, Except.bind, Pure.pure,
      Except.pure] at done
  · -- Only a union with no values leaves an empty array.
    simp only [applyAt, arrayAt_eq, itemsOf, missing, Bind.bind, Except.bind,
      Pure.pure, Except.pure,
      Except.ok.injEq, Prod.mk.injEq, List.length_nil, bne_eq_false_iff_eq,
      List.length_eq_zero_iff] at done
    simp [addsNothing, eq_nil_of_union done.2]

/-- At the end of a path, an operator that reports nothing has changed nothing, save that an empty
    array may be made. -/
theorem applyAt_reports (keyed : argument.WellKeyed) (field : String) {fields after : Fields}
    (whole : (Json.object fields).WellKeyed)
    (done : applyAt operator argument field fields = .ok (after, false)) :
    Unreported (addsNothing operator argument && (fields.lookup field).isNone)
      (.object fields) (.object after) := by
  have missing := fun making found => addsNothing_of_missing making found done
  have inner : ∀ {held}, fields.lookup field = some held → Same held held := by
    simp only [Json.WellKeyed] at whole
    exact fun found => .refl (whole.of_mem (Fields.mem_of_lookup found))
  unfold applyAt at done
  split at done
  · -- What was set was there already, if nothing is reported.
    obtain ⟨rfl, silent⟩ := Prod.mk.inj (Except.ok.inj done)
    exact .put_or_new whole (missing rfl) fun held found =>
      ⟨(inner found).left, keyed, by simpa [found] using silent⟩
  · -- There was nothing to take away.
    obtain ⟨rfl, silent⟩ := Prod.mk.inj (Except.ok.inj done)
    rw [Fields.remove_of_lookup_none (by simpa using silent)]
    exact .of_same (.refl whole)
  · -- What is pushed is always reported.
    obtain ⟨items, -, same⟩ := bind_eq_ok.mp done
    simp at same
  · -- The values to be added were there already, or there are none.
    obtain ⟨items, here, same⟩ := bind_eq_ok.mp done
    obtain ⟨rfl, silent⟩ := Prod.mk.inj (Except.ok.inj same)
    refine .put_or_new whole (missing rfl) fun held found => ?_
    rw [union_eq_of_length (by simpa using silent), ← eq_array_of_arrayAt here found]
    exact inner found
  · -- Nothing was taken out, or there is no array.
    obtain ⟨items, here, same⟩ := bind_eq_ok.mp done
    obtain rfl : after = fields := by
      cases found : fields.lookup field with
      | none =>
        rw [found] at same
        exact (Prod.mk.inj (Except.ok.inj same)).1.symm
      | some held =>
        rw [found] at same
        obtain ⟨rfl, silent⟩ := Prod.mk.inj (Except.ok.inj same)
        have all : (items.filter fun item => !Query.elementSatisfies item argument) = items :=
          List.filter_eq_self.mpr (by simpa using silent)
        rw [all, ← eq_array_of_arrayAt here found, Fields.put_lookup found]
    exact .of_same (.refl whole)
  · simp at done

/-- In a new object, an operator that makes objects reports nothing only if a placeholder follows
    further on, or if it has no values to add. -/
theorem unreported_in_new (making : creates operator = true) {next : String} {rest : List String}
    (field : Path.isPlaceholder next = false) {after : Json}
    (done : descend filters true (applyAt operator argument) (next :: rest) (.object []) =
      .ok (after, false)) :
    (rest.any Path.isPlaceholder || addsNothing operator argument) = true := by
  induction rest generalizing next after with
  | nil =>
    obtain ⟨fields, applied, rfl⟩ := carried_eq_ok.mp done
    simpa using addsNothing_of_missing making rfl applied
  | cons name others ih =>
    rw [List.any_cons]
    cases placed : Path.isPlaceholder name with
    | true => rfl
    | false =>
      -- One more object is made, and the walk goes on inside.
      rw [descend, Path.kind_of_not_placeholder field] at done
      obtain ⟨fields, entered, rfl⟩ := carried_eq_ok.mp done
      simp only [inField, List.lookup_nil, Option.none_or, placed, Bool.not_false, Bool.and_true,
        ↓reduceIte] at entered
      obtain ⟨⟨child, flag⟩, inside, same⟩ := bind_eq_ok.mp entered
      obtain ⟨rfl, rfl⟩ := Prod.mk.inj (Except.ok.inj same)
      exact ih placed inside

/-- On its way to a path, an operator that reports nothing leaves the document the same, save for
    what it leaves behind. -/
theorem descend_reports (keyed : argument.WellKeyed) (path : List String) :
    Reports (littersAt filters operator argument path)
      (descend filters (creates operator) (applyAt operator argument) path) := by
  -- The induction is on the path: each segment goes into elements or a named value, and the
  -- last one acts.
  induction path with
  | nil =>
    intro node after whole done
    obtain ⟨rfl, -⟩ := Prod.mk.inj (Except.ok.inj done)
    exact .of_same (.refl whole)
  | cons head tail ih =>
    intro node after whole done
    cases tail with
    | nil =>
      rw [littersAt]
      cases node with
      | object fields =>
        obtain ⟨others, applied, rfl⟩ := carried_eq_ok.mp done
        exact applyAt_reports keyed head whole applied
      | _ =>
        obtain ⟨rfl, -⟩ := Prod.mk.inj (Except.ok.inj done)
        simpa [Json.fields?] using Unreported.of_same (.refl whole)
    | cons next rest =>
      rw [descend] at done
      rw [littersAt]
      cases kind : Path.kind head with
      | every =>
        simp only [kind] at done
        simpa using inElements_reports ih whole done
      | selected aliasName =>
        simp only [kind] at done
        cases known : conditions? filters aliasName with
        | none => simp [known] at done
        | some conditions =>
          simp only [known] at done
          simpa [known] using inElements_reports ih whole done
      | plain =>
        simp only [kind] at done
        -- Only a plain name makes an object, and that may be left behind.
        refine inNamed_reports ih (fun made after inside => ?_) (fun kept => ?_) head whole done
        · rw [Bool.and_eq_true, Bool.not_eq_true'] at made
          rw [made.1, made.2, unreported_in_new made.1 made.2 (made.1 ▸ inside)]
          rfl
        · rw [kept, Bool.false_and]

/-- What is left behind inside a named value does not depend on the order of entries. -/
theorem littersNamed_same (name : String) (missing : Bool) {inside : Json → Bool}
    (each : ∀ left right, Same left right → inside left = inside right) {left right : Json}
    (same : Same left right) :
    littersNamed name missing inside left = littersNamed name missing inside right := by
  -- Both sides lead to values that are the same, or to none.
  cases same.matched with
  | @object fields others entries =>
    have child := entries.lookup name
    simp only [littersNamed]
    generalize fields.lookup name = value at child ⊢
    generalize others.lookup name = other at child ⊢
    cases child with
    | none => rfl
    | some values => exact each _ _ values
  | array pairs =>
    simp only [littersNamed]
    refine any_of_rel ?_ each
    cases Path.index? name with
    | none => exact .none
    | some index => exact rel_getElem? pairs index
  | _ => rfl

/-- What is left behind on the way to a path does not depend on the order of entries. -/
theorem littersAt_same (filtered : KeyedFilters filters) (path : List String) {left right : Json}
    (same : Same left right) :
    littersAt filters operator argument path left =
      littersAt filters operator argument path right := by
  -- The induction is on the path; each segment leads to the same values on both sides.
  induction path generalizing left right with
  | nil => rfl
  | cons head tail ih =>
    cases tail with
    | nil =>
      rw [littersAt, littersAt]
      congr 1
      refine any_of_rel same.fields? fun fields others entries => ?_
      rw [← Option.not_isSome, ← Option.not_isSome, isSome_of_rel (entries.lookup head)]
    | cons next rest =>
      rw [littersAt, littersAt]
      cases Path.kind head with
      | every => exact any_of_forall₂ same.elements fun _ _ same => ih same
      | selected aliasName =>
        refine any_of_forall₂ same.elements fun item other same => ?_
        rw [ih same]
        cases known : conditions? filters aliasName with
        | none => rfl
        | some conditions =>
          simp only [Option.any_some, accepts_eq (keyed_conditions filtered known) same]
      | plain => exact littersNamed_same head _ (fun _ _ same => ih same) same

/-- One change after another, reported if either is. -/
def inTurn (first second : Json → Except UpdateError (Change Json)) (value : Json) :
    Except UpdateError (Change Json) := do
  let (value, changed) ← first value
  let (value, others) ← second value
  return (value, changed || others)

/-- What changes well keyed values likewise leaves them well keyed. -/
theorem Blind.wellKeyed {change : Json → Except UpdateError (Change Json)} (blind : Blind change)
    {value after : Json} {changed : Bool} (keyed : value.WellKeyed)
    (done : change value = .ok (after, changed)) : after.WellKeyed := by
  -- What is blind to the order of entries runs alike beside itself.
  have twice := blind (.refl keyed)
  rw [done] at twice
  cases twice with
  | ok later => exact later.1.left

/-- Two changes in turn let a value grow where one of them does. -/
theorem Reports.inTurn {first second : Json → Except UpdateError (Change Json)}
    {littered also : Json → Bool} (one : Reports littered first) (blind : Blind first)
    (two : Reports also second) (agree : ∀ left right, Same left right → also left = also right) :
    Reports (fun value => littered value || also value) (inTurn first second) := by
  -- The second change grows what the first left, so the two are compared in between.
  intro value after keyed done
  obtain ⟨⟨between, changed⟩, here, remaining⟩ := bind_eq_ok.mp done
  obtain ⟨⟨last, others⟩, there, same⟩ := bind_eq_ok.mp remaining
  obtain ⟨rfl, silent⟩ := Prod.mk.inj (Except.ok.inj same)
  obtain ⟨rfl, rfl⟩ := Bool.or_eq_false_iff.mp silent
  have before := one keyed here
  exact before.trans (two (blind.wellKeyed keyed here) there) fun kept =>
    (agree _ _ (before.same kept)).symm

/-- An operator that reports nothing at several paths leaves the document the same, save for what it
    leaves behind. -/
theorem applyPaths_reports (filtered : KeyedFilters filters) {targets : Fields}
    (keyed : ∀ target ∈ targets, target.2.WellKeyed) :
    Reports (fun document => targets.any fun target =>
      littersAt filters operator target.2 (Path.segments target.1) document)
      (applyPaths filters operator targets) := by
  -- The operator acts at the first path, and at the others on what it leaves there.
  induction targets with
  | nil =>
    intro document after whole done
    obtain ⟨rfl, -⟩ := Prod.mk.inj (Except.ok.inj done)
    exact .of_same (.refl whole)
  | cons target rest ih =>
    have mine := keyed target (by simp)
    have others : ∀ other ∈ rest, other.2.WellKeyed := fun other member =>
      keyed other (by simp [member])
    exact Reports.inTurn (descend_reports mine _) (applyPath_blind filtered operator target.1 mine)
      (ih others) fun _ _ same => by simp only [littersAt_same filtered _ same]

/-- What an update leaves behind does not depend on the order of entries. -/
theorem litters_same (filtered : KeyedFilters filters) (update : Fields) {left right : Json}
    (same : Same left right) : litters filters update left = litters filters update right := by
  simp only [litters, littersAt_same filtered _ same]

/-- An update that reports nothing leaves the document the same, save for what it leaves behind. -/
theorem apply_reports (filtered : KeyedFilters filters) {update : Fields}
    (keyed : ∀ entry ∈ update, entry.2.WellKeyed) :
    Reports (litters filters update) (apply filters update) := by
  induction update with
  | nil =>
    intro document after whole done
    obtain ⟨rfl, -⟩ := Prod.mk.inj (Except.ok.inj done)
    exact .of_same (.refl whole)
  | cons entry rest ih =>
    have mine := keyed entry (by simp)
    have others := ih fun other member => keyed other (by simp [member])
    obtain ⟨operator, argument⟩ := entry
    cases argument with
    | object targets =>
      simp only [Json.WellKeyed, Json.fieldsWellKeyed_iff] at mine
      exact Reports.inTurn (applyPaths_reports filtered mine.2)
        (applyPaths_blind filtered operator mine.2)
        others fun _ _ same => litters_same filtered rest same
    -- An operator without an object of paths does nothing.
    | _ => exact fun _ _ whole done => others whole done

end Update

namespace Operation

variable {operation : Operation} {batch : List Operation} {document after : Json}
  {outcome : Outcome}

/-- Whether an operation selects a document and leaves something behind in it, with
    nothing to report. -/
def litters (operation : Operation) (document : Json) : Bool :=
  Query.satisfies document operation.filter &&
    Update.litters operation.arrayFilters operation.update document

/-- The filters for elements of a well keyed operation have well keyed values. -/
theorem WellKeyed.filtered (keyed : operation.WellKeyed) :
    Update.KeyedFilters operation.arrayFilters := fun filter member =>
  (Json.fieldsWellKeyed_iff.mp (keyed.arrayFilters filter member)).2

/-- What an operation leaves behind does not depend on the order of entries. -/
theorem litters_same (keyed : operation.WellKeyed) {left right : Json} (same : Same left right) :
    operation.litters left = operation.litters right := by
  -- Neither the filter nor the update tells the two documents apart.
  rw [litters, litters, Query.satisfies_eq same (.refl keyed.filter),
    Update.litters_same keyed.filtered _ same]

/-- Whether some operations leave something behind does not depend on the order of entries. -/
theorem litters_any_same (keyed : ∀ operation ∈ batch, operation.WellKeyed) {left right : Json}
    (same : Same left right) :
    (batch.any fun operation => operation.litters left) = batch.any fun operation =>
      operation.litters right := by
  -- The batch is the same on both sides, so its operations are compared one by one.
  rw [Bool.eq_iff_iff, List.any_eq_true, List.any_eq_true]
  exact exists_congr fun operation => and_congr_right fun member => by
    rw [litters_same (keyed operation member) same]

/-- An operation that counts no document as changed leaves it the same, save for what it
    leaves behind. -/
theorem applyTo_reports (keyed : operation.WellKeyed) (whole : document.WellKeyed)
    (done : operation.applyTo document = .ok (after, outcome)) (silent : outcome.modified = 0) :
    Unreported (operation.litters document) document after := by
  -- A document that the filter passes over is left as it was.
  rw [applyTo] at done
  split at done
  · rename_i selected
    obtain ⟨⟨between, changed⟩, applied, same⟩ := bind_eq_ok.mp done
    obtain ⟨rfl, rfl⟩ := Prod.mk.inj (Except.ok.inj same)
    -- The operation counts the document exactly if the update reports a change.
    obtain rfl : changed = false := by simpa using silent
    rw [litters, selected, Bool.true_and]
    exact Update.apply_reports keyed.filtered
      (Json.fieldsWellKeyed_iff.mp keyed.update).2 whole applied
  · rename_i unselected
    obtain ⟨rfl, -⟩ := Prod.mk.inj (Except.ok.inj done)
    rw [litters, Bool.eq_false_iff.mpr unselected, Bool.false_and]
    exact .of_same (.refl whole)

/-- An operation leaves a well keyed document well keyed. -/
theorem WellKeyed.applyTo (keyed : operation.WellKeyed) (whole : document.WellKeyed)
    (done : operation.applyTo document = .ok (after, outcome)) : after.WellKeyed := by
  -- An operation is blind to the order of entries, and so runs alike beside itself.
  have twice := applyTo_agree keyed (.refl whole)
  rw [done] at twice
  cases twice with
  | ok later => exact later.1.left

/-- A run that counts no change leaves the document the same, save for what its operations
    leave behind. -/
theorem run_reports (keyed : ∀ operation ∈ batch, operation.WellKeyed) (whole : document.WellKeyed)
    (done : run batch document = .ok (after, outcome)) (silent : outcome.modified = 0) :
    Unreported (batch.any fun operation => operation.litters document) document after := by
  -- Counts are sums, so a run counts nothing only if no operation of it does.
  induction batch generalizing document outcome with
  | nil =>
    obtain ⟨rfl, -⟩ := Prod.mk.inj (Except.ok.inj done)
    exact .of_same (.refl whole)
  | cons operation rest ih =>
    obtain ⟨between, first, later, here, there, rfl⟩ := run_cons_ok.mp done
    simp only [Outcome.add, Nat.add_eq_zero_iff] at silent
    have others : ∀ other ∈ rest, other.WellKeyed := fun other member =>
      keyed other (by simp [member])
    have mine := keyed operation (by simp)
    have before := applyTo_reports mine whole here silent.1
    exact before.trans (ih others (mine.applyTo whole here) there silent.2) fun kept =>
      litters_any_same others (before.same kept).symm

/-- A run leaves a well keyed document well keyed. -/
theorem wellKeyed_run (keyed : ∀ operation ∈ batch, operation.WellKeyed)
    (whole : document.WellKeyed) (done : run batch document = .ok (after, outcome)) :
    after.WellKeyed := by
  -- Each operation leaves the next one a well keyed document.
  induction batch generalizing document outcome with
  | nil =>
    obtain ⟨rfl, -⟩ := Prod.mk.inj (Except.ok.inj done)
    exact whole
  | cons operation rest ih =>
    obtain ⟨between, _, _, here, there, -⟩ := run_cons_ok.mp done
    exact ih (fun other member => keyed other (by simp [member]))
      ((keyed operation (by simp)).applyTo whole here) there

end Operation

namespace Collection

variable {collection after : Collection} {batch : List Operation} {outcome : Outcome}

/-- A batch that counts no change leaves every document equal to what it was just when none of its
    operations leaves something behind in one. -/
theorem equal_iff_of_unmodified (ready : collection.vanishing = false)
    (whole : ∀ document ∈ collection.documents, document.WellKeyed)
    (keyed : ∀ operation ∈ batch, operation.WellKeyed)
    (done : collection.bulkUpdate batch = (.ok outcome, after)) (silent : outcome.modified = 0) :
    List.Forall₂ (fun document left => document.equal left = true) collection.documents
      after.documents ↔
      ∀ document ∈ collection.documents, ∀ operation ∈ batch,
        operation.litters document = false := by
  obtain ⟨-, left, applied, rfl⟩ := bulkUpdate_eq_ok.mp done
  obtain ⟨runs, paired, rfl, rfl⟩ := Operation.applyBatch_eq_ok_iff.mp applied
  -- The changes of all documents add up to none.
  rw [Outcome.total_modified, List.map_map, List.sum_eq_zero_iff_forall_eq_nat,
    List.forall_mem_map] at silent
  simp only [ready, Bool.false_eq_true, ↓reduceIte, List.forall₂_map_right_iff]
  refine forall₂_iff_of_forall₂ (forall₂_mem paired) fun document ran pair => ?_
  obtain ⟨⟨listed, counted⟩, done⟩ := pair
  have start := whole document listed
  have became := Operation.run_reports keyed start done (silent ran counted)
  rw [became.equal_iff start (Operation.wellKeyed_run keyed start done), List.any_eq_false]
  simp only [Bool.not_eq_true]

/-- What reports of no change say about operations with well keyed values. If the update of one
    reports no change of a document, the document is equal to what it was, unless the update leaves
    something behind in it: objects for missing fields in front of a placeholder further on, or a
    new array with nothing added to it. If all of them together count no change, all documents are
    equal to what they were, unless one of the operations does so in one of them. -/
theorem unmodified_iff (ready : collection.vanishing = false)
    (whole : ∀ document ∈ collection.documents, document.WellKeyed)
    (keyed : ∀ operation ∈ batch, operation.WellKeyed) :
    (∀ operation ∈ batch, ∀ document left : Json, document.WellKeyed →
      Update.apply operation.arrayFilters operation.update document = .ok (left, false) →
      (document.equal left = true ↔
        Update.litters operation.arrayFilters operation.update document = false)) ∧
    ∀ outcome after, collection.bulkUpdate batch = (.ok outcome, after) → outcome.modified = 0 →
      (List.Forall₂ (fun document left => document.equal left = true) collection.documents
        after.documents ↔
        ∀ document ∈ collection.documents, ∀ operation ∈ batch,
          operation.litters document = false) := by
  -- The second part is about the whole run; the first is about a single update.
  refine ⟨fun operation member document left start done => ?_, fun outcome after done silent =>
    equal_iff_of_unmodified ready whole keyed done silent⟩
  have filtered := (keyed operation member).filtered
  have values := (Json.fieldsWellKeyed_iff.mp (keyed operation member).update).2
  exact (Update.apply_reports filtered values start done).equal_iff start
    ((Update.apply_blind filtered values).wellKeyed start done)

/-- Sets a field of every element of an array that is looked for in a field of the document. -/
def setsInside : Operation :=
  ⟨[], [("$set", .object [("a.b.$[].c", .bool true)])], []⟩

/-- The operation repeats no key. -/
theorem wellKeyed_setsInside : setsInside.WellKeyed := by
  constructor <;> simp [setsInside, Json.WellKeyed, Json.FieldsWellKeyed]

/-- Of two documents, the one stays as it was, and the other one is left with an object for the
    field that it lacks; no change is counted of either. -/
theorem unmodified_iff_setsInside :
    Update.apply [] setsInside.update (.object [("a", .null)]) =
      .ok (.object [("a", .null)], false) ∧
      (Json.object [("a", .null)]).equal (.object [("a", .null)]) = true ∧
      (ofDocuments [.object [("a", .null)], .object []]).bulkUpdate [setsInside] = (.ok ⟨2, 0⟩,
        ⟨[.object [("a", .null)], .object [("a", .object [])]], [[setsInside]], none, false⟩) ∧
      ¬ List.Forall₂ (fun document left : Json => document.equal left = true)
        [.object [("a", .null)], .object []]
          [.object [("a", .null)], .object [("a", .object [])]] := by
  have kept : Update.apply [] setsInside.update (.object [("a", .null)]) =
      .ok (.object [("a", .null)], false) := rfl
  have ran : (ofDocuments [.object [("a", .null)], .object []]).bulkUpdate [setsInside] =
      (.ok ⟨2, 0⟩,
        ⟨[.object [("a", .null)], .object [("a", .object [])]], [[setsInside]], none, false⟩) := rfl
  have whole : ∀ document ∈ [Json.object [("a", .null)], .object []], document.WellKeyed := by
    simp [Json.WellKeyed, Json.FieldsWellKeyed]
  obtain ⟨one, all⟩ :=
    @unmodified_iff (ofDocuments [.object [("a", .null)], .object []]) [setsInside] rfl
      whole (by simpa using wellKeyed_setsInside)
  refine ⟨kept, (one setsInside (by simp) _ _ (whole _ (by simp)) kept).mpr rfl,
    ran, fun same => ?_⟩
  -- The second document lacks the field that comes in front of the placeholder.
  have clean := (all _ _ ran rfl).mp same (.object []) (by simp [ofDocuments]) setsInside (by simp)
  exact absurd clean (by decide +kernel)

/-- Adds no values to an array. -/
def addsNone : Operation :=
  ⟨[], [("$addToSet", .object [("t", .object [("$each", .array [])])])], []⟩

/-- A document may be left with a new field though no change of it is reported and none
    is counted. -/
theorem bulkUpdate_leaves_uncounted :
    Update.apply [] setsInside.update (.object []) = .ok (.object [("a", .object [])], false) ∧
      (Json.object []).equal (.object [("a", .object [])]) = false ∧
      (ofDocuments [.object []]).bulkUpdate [setsInside] =
        (.ok ⟨1, 0⟩, ⟨[.object [("a", .object [])]], [[setsInside]], none, false⟩) ∧
      Update.apply [] addsNone.update (.object []) = .ok (.object [("t", .array [])], false) ∧
      (Json.object []).equal (.object [("t", .array [])]) = false ∧
      (ofDocuments [.object []]).bulkUpdate [addsNone] =
        (.ok ⟨1, 0⟩, ⟨[.object [("t", .array [])]], [[addsNone]], none, false⟩) :=
  ⟨rfl, rfl, rfl, rfl, rfl, rfl⟩

end Collection

end DocPatch
