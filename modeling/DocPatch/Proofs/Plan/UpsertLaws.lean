import DocPatch.Proofs.Plan.Entry
import DocPatch.Proofs.Plan.Upsert

/-! What adding a tree does to a document, case by case, and what it leaves alone. -/

namespace DocPatch.Upsert

open Element (namedLeaves)
open Projection (Apart Keeps lookup place obstructed)
open Update (itemsOf)

/-- Changing the one element that is selected changes the list at its place. -/
theorem mapM_one {selects : Json → Bool} {f : Json → Except UpdateError Json}
    {before after : List Json} {element : Json} (chosen : selects element = true)
    (others : ∀ item ∈ before ++ after, selects item = false) :
    ((before ++ element :: after).mapM fun item => if selects item then f item else .ok item) =
      (f element).map fun changed => before ++ changed :: after := by
  -- All items before the one and after it are returned as they are.
  have same : ∀ items : List Json, (∀ item ∈ items, item ∈ before ++ after) →
      (items.mapM fun item => if selects item then f item else Except.ok item) = .ok items := by
    intro items within
    induction items with
    | nil => rfl
    | cons first rest ih =>
      have here := others first (within first (by simp))
      rw [List.mapM_cons, ih fun item member => within item (by simp [member])]
      simp [here, Bind.bind, Except.bind, Pure.pure, Except.pure]
  -- The list falls into the items before the one, the one, and the items after it.
  rw [List.mapM_append, same before (by simp +contextual), List.mapM_cons,
    same after (by simp +contextual), if_pos chosen]
  cases f element <;> rfl

/-- How the array at names in a target stands to an id: it cannot be reached, it is no array, none
    of its elements has the id, or one alone has it. -/
inductive Found (names : List String) (id target : Json) : Prop where
  | blocked (obstacle : obstructed names target = true)
  | refused (free : obstructed names target = false) {error : UpdateError}
      (other : itemsOf "$push" (names.getLastD "") (lookup names target) = .error error)
  | absent (free : obstructed names target = false) {items : List Json}
      (array : itemsOf "$push" (names.getLastD "") (lookup names target) = .ok items)
      (missing : ∀ item ∈ items, item.hasId id = false)
  | present (free : obstructed names target = false) {before after : List Json} {element : Json}
      (array : lookup names target = some (.array (before ++ element :: after)))
      (has : element.hasId id = true)
      (others : ∀ item ∈ before ++ after, item.hasId id = false)

/-- Where ids tell elements apart, one of the cases holds. -/
theorem found_cases (names : List String) {id target : Json} (scalar : id.Scalar)
    (distinct : target.IdsDistinct) : Found names id target := by
  cases obstacle : obstructed names target with
  -- Something is in the way.
  | true => exact .blocked obstacle
  | false =>
    cases found : lookup names target with
    -- A missing array is as good as an empty one, in which no element has the id.
    | none =>
      have empty : itemsOf "$push" (names.getLastD "") (lookup names target) = .ok [] := by
        rw [found]
        rfl
      exact .absent obstacle empty (by simp)
    | some value =>
      cases value with
      -- The ids differ, so one element at most has the given one.
      | array items =>
        have inner := distinct.of_lookup found
        simp only [Json.IdsDistinct] at inner
        rcases Json.hasId_cases inner.1.differ scalar with missing | ⟨before, element, after,
          rfl, has, others⟩
        · exact .absent obstacle (by rw [found]; rfl) missing
        · exact .present obstacle found has others
      -- Something else stands where the array should be.
      | _ => exact .refused obstacle (by rw [found]; rfl)

section Item

variable {names : List String} {object : Fields} {id target : Json}

/-- An object that has an id is recognised by it. -/
theorem idOf_eq (found : object.lookup Element.idField = some id) : idOf object = id := by
  simp [idOf, found]

/-- Behind an obstacle nothing is added. -/
theorem item_blocked (obstacle : obstructed names target = true) :
    item names (.object object) target = .ok target := by
  -- A change leaves everything behind an obstacle as it is.
  rw [item, change, if_pos obstacle]

/-- To what is no array nothing can be added. -/
theorem item_refused (free : obstructed names target = false) {error : UpdateError}
    (other : itemsOf "$push" (names.getLastD "") (lookup names target) = .error error) :
    item names (.object object) target = .error error := by
  -- The array is asked for before the elements are looked at.
  rw [item, change, free, other]
  rfl

/-- An object whose id no element has is appended. -/
theorem item_absent (found : object.lookup Element.idField = some id)
    (free : obstructed names target = false) {items : List Json}
    (array : itemsOf "$push" (names.getLastD "") (lookup names target) = .ok items)
    (missing : ∀ item ∈ items, item.hasId id = false) :
    item names (.object object) target =
      .ok (place (.array (items ++ [.object object])) names target) := by
  -- No element has the id, so the object is appended.
  have none_has : (items.any fun element => element.hasId id) = false :=
    List.any_eq_false.mpr fun item member => by simp [missing item member]
  rw [item, change, free, array]
  simp [idOf_eq found, none_has, Bind.bind, Except.bind, Except.map, Pure.pure, Except.pure]

/-- An object whose id one element has goes into that element. -/
theorem item_present (found : object.lookup Element.idField = some id)
    (free : obstructed names target = false) {before after : List Json} {element : Json}
    (array : lookup names target = some (.array (before ++ element :: after)))
    (has : element.hasId id = true) (others : ∀ item ∈ before ++ after, item.hasId id = false) :
    item names (.object object) target =
      (nested [] object (assign object element)).map fun changed =>
        place (.array (before ++ changed :: after)) names target := by
  -- One element has the id, so the object goes into that one.
  have some_has : ((before ++ element :: after).any fun element => element.hasId id) = true :=
    List.any_eq_true.mpr ⟨element, by simp, has⟩
  have exchanged := @mapM_one (fun element => element.hasId id)
    (fun element => nested [] object (assign object element)) before after element has others
  rw [item, change, free, array, idOf_eq found]
  simp only [itemsOf, Bool.false_eq_true, ↓reduceIte, some_has, exchanged, Bind.bind, Except.bind]
  cases nested [] object (assign object element) <;> rfl

end Item

section Values

/-- What was in a list stays in its union with others. -/
theorem within_union {items : List Json} {value : Json} (held : Json.within items value = true)
    (others : List Json) : Json.within (Update.union items others) value = true := by
  -- A union only ever appends to the list.
  induction others generalizing items with
  | nil => exact held
  | cons first rest ih =>
    unfold Update.union
    split
    · -- The first value is there already.
      exact ih held
    · -- It is appended, and what was held before is still held.
      refine ih ?_
      simp only [Json.within] at held ⊢
      simp [held]

/-- The union holds every value that was to be added. -/
theorem within_union_of_mem {others : List Json} (keyed : ∀ value ∈ others, value.WellKeyed)
    {value : Json} (member : value ∈ others) (items : List Json) :
    Json.within (Update.union items others) value = true := by
  induction others generalizing items with
  | nil => simp at member
  | cons first rest ih =>
    have later := ih fun other among => keyed other (by simp [among])
    unfold Update.union
    rcases List.mem_cons.mp member with rfl | among
    · -- The value is there already, or it is appended.
      split
      · exact within_union (by assumption) rest
      · refine within_union ?_ rest
        have same := Json.equal_self value (keyed value (by simp))
        simp [Json.within, same]
    · -- The value comes later, whatever happens to the first one.
      split <;> exact later among _

/-- Values that a list holds are not added again. -/
theorem union_of_within {items others : List Json}
    (held : ∀ value ∈ others, Json.within items value = true) :
    Update.union items others = items := by
  -- None of the values is missing, so nothing is appended.
  induction others with
  | nil => rfl
  | cons first rest ih =>
    rw [Update.union, if_pos (held first (by simp))]
    exact ih fun value member => held value (by simp [member])

/-- A union has no other objects than the list, where the values added are none. -/
theorem objects_union {others : List Json} (plain : ∀ value ∈ others, value.isObject = false)
    (items : List Json) :
    (Update.union items others).filter Json.isObject = items.filter Json.isObject := by
  -- What is appended are no objects.
  induction others generalizing items with
  | nil => rfl
  | cons first rest ih =>
    have later := ih fun value member => plain value (by simp [member])
    unfold Update.union
    split
    · exact later items
    · -- The value that is appended is no object, so the filter drops it.
      rw [later]
      simp [plain first (by simp)]

variable {names : List String} {added : List Json} {target : Json}

/-- Adding no values changes nothing. -/
theorem values_nil : values names [] target = .ok target := rfl

/-- Behind an obstacle no values are added. -/
theorem values_blocked (obstacle : obstructed names target = true) :
    values names added target = .ok target := by
  rw [values, change, if_pos obstacle, ite_self]

/-- Values are added to the array that stands at names, or to a new one. -/
theorem values_free (some_value : added ≠ []) (free : obstructed names target = false) :
    values names added target =
      (itemsOf "$addToSet" (names.getLastD "") (lookup names target)).map fun items =>
        place (.array (Update.union items added)) names target := by
  -- There is something to add, and nothing in the way of it.
  rw [values, List.isEmpty_eq_false_iff.mpr some_value, change, free]
  simp only [Bool.false_eq_true, ↓reduceIte]
  cases itemsOf "$addToSet" (names.getLastD "") (lookup names target) <;> rfl

end Values

/-- An operator that needs an array finds the items of one, or a missing field. -/
theorem itemsOf_eq_ok {operator field : String} {found : Option Json} {items : List Json} :
    itemsOf operator field found = .ok items ↔
      found = some (.array items) ∨ (found = none ∧ items = []) := by
  cases found with
  -- A missing field has no items yet.
  | none => simp [itemsOf, eq_comm]
  | some value => cases value <;> simp [itemsOf]

/-- Nothing happened, or the value at names was given another one, in which ids tell elements
    apart. -/
def Touches (names : List String) (before after : Json) : Prop :=
  after = before ∨ ∃ value : Json, value.IdsDistinct ∧ after = place value names before

namespace Touches

variable {names : List String} {before between after : Json}

/-- Two changes of one value are one. -/
theorem trans (some_name : names ≠ []) (first : Touches names before between)
    (second : Touches names between after) : Touches names before after := by
  -- The value that is placed second replaces the one placed first.
  rcases second with rfl | ⟨value, distinct, rfl⟩
  · -- The second change was none.
    exact first
  · rcases first with rfl | ⟨earlier, _, rfl⟩
    · -- The first change was none.
      exact Or.inr ⟨value, distinct, rfl⟩
    · exact Or.inr ⟨value, distinct, Projection.place_place some_name earlier value _⟩

/-- An object stays one. -/
theorem isObject (touches : Touches names before after) : after.isObject = before.isObject := by
  -- Placing a value in an object leaves an object.
  rcases touches with rfl | ⟨value, _, rfl⟩
  · rfl
  · exact Projection.isObject_place value names before

/-- Ids that tell elements apart still do. -/
theorem idsDistinct (touches : Touches names before after) (distinct : before.IdsDistinct) :
    after.IdsDistinct := by
  -- The value that was placed has distinct ids itself.
  rcases touches with rfl | ⟨value, given, rfl⟩
  · exact distinct
  · exact distinct.place given

/-- Paths apart from the names lead to what they led to. -/
theorem keeps (touches : Touches names before after) {path : List String}
    (apart : Apart path names) : Keeps path before after := by
  -- Placing a value is seen along its own names only.
  rcases touches with rfl | ⟨value, _, rfl⟩
  · exact .refl path _
  · exact Projection.keeps_place apart value before

/-- The id stays, unless it is what was changed. -/
theorem id? (touches : Touches names before after) (apart : Apart [Element.idField] names) :
    after.id? = before.id? := by
  -- The id stands apart from the names.
  rcases touches with rfl | ⟨value, _, rfl⟩
  · rfl
  · exact Stage.id?_place apart value before

end Touches

end DocPatch.Upsert
