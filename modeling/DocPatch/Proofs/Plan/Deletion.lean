import DocPatch.Proofs.Plan.Description
import DocPatch.Proofs.Plan.Emission

/-! What removing a tree from a document means: a direct recursion over tree and document that knows
    no aliases or positional paths. Nothing comes of it when something that ought to be an array is
    none. -/

namespace DocPatch.Deletion

open Element (namedLeaves namedLeavesAt)
open Insertion (rootLeaves)
open Projection (Altered lookup place)

/-- Whether an object of the tree recognises an element: an object that satisfies what identifies
    it. One that nothing identifies recognises all objects. -/
def recognises (object : Fields) (element : Json) : Bool :=
  element.isObject && Query.satisfies element (Element.identityFilter object)

/-- Takes the elements that pass a test out of the array at names. -/
def delete (names : List String) (test : Json → Bool) (target : Json) : Option Json :=
  match lookup names target with
  | none => some target
  | some (.array items) => some (place (.array (items.filter fun item => !test item)) names target)
  -- Taking elements out of what is no array is an error.
  | some _ => none

/-- Changes the elements that pass a test, in the array at names. -/
def enter (names : List String) (test : Json → Bool) (change : Json → Option Json) (target : Json) :
    Option Json :=
  match lookup names target with
  | some (.array items) =>
    (items.mapM fun item => if test item then change item else some item).map fun items =>
      place (.array items) names target
  -- Where there is no array there are no elements to change.
  | _ => some target

/-- Takes out the elements that equal one of some values, or are an array that contains one. -/
def values (names : List String) (values : List Json) (target : Json) : Option Json :=
  if values.isEmpty then some target
  else delete names (fun item => values.any (Query.equalsOrContains item)) target

/-- The arrays among the leaves of an object. -/
def arrays (object : Fields) : List (String × List Json) :=
  Element.arrayLeaves (Element.leaves "" object)

mutual

/-- Removes an item of an array of the tree. An object without arrays takes out the elements that it
    recognises; one with arrays keeps them, and its arrays are removed inside of each. -/
def item (names : List String) : Json → Json → Option Json
  | .object object, target =>
    if (arrays object).isEmpty then
      -- Nothing is recognised by an object that identifies nothing.
      if (Element.identityFilter object).isEmpty then some target
      else delete names (recognises object) target
    else enter names (recognises object) (nested [] object) target
  | _, target => some target
termination_by structural x => x

/-- Removes the objects of an array of the tree, in order. -/
def objects (names : List String) : List Json → Json → Option Json
  | [], target => some target
  | first :: rest, target => (item names first target).bind (objects names rest)
termination_by structural x => x

/-- Removes the arrays in a value of the tree: first what is no object, and then the objects. -/
def nestedAt (names : List String) : Json → Json → Option Json
  | .array items, target =>
    (values names (items.filter fun item => !item.isObject) target).bind (objects names items)
  | .object fields, target => nested names fields target
  | _, target => some target
termination_by structural x => x

/-- Removes the arrays in an object of the tree, in order. -/
def nested (names : List String) : List (String × Json) → Json → Option Json
  | [], target => some target
  | (key, value) :: rest, target =>
    (nestedAt (names ++ [key]) value target).bind (nested names rest)
termination_by structural x => x

end

/-- Removes an array of the tree. -/
def array (names : List String) (items : List Json) (target : Json) : Option Json :=
  nestedAt names (.array items) target

/-- Removes the arrays at the fields of a tree; other fields ask for nothing. -/
def tree : Fields → Json → Option Json
  | [], document => some document
  | (field, .array items) :: rest, document => (array [field] items document).bind (tree rest)
  -- What is no array is not asked for.
  | _ :: rest, document => tree rest document

/-- Removes the arrays among named leaves, in order. -/
def listed : List (List String × Json) → Json → Option Json
  | [], target => some target
  | (names, .array items) :: rest, target => (array names items target).bind (listed rest)
  | _ :: rest, target => listed rest target

section Steps

variable {names : List String}

/-- Items that are no objects ask for nothing besides the values. -/
theorem item_other {value : Json} (other : value.isObject = false) : item names value = some := by
  -- Only objects ask for something of their own.
  funext target
  cases value with
  | object => simp [Json.isObject] at other
  | _ => simp [item]

/-- An object without arrays that nothing identifies asks for nothing. -/
theorem item_empty {object : Fields} (alone : (arrays object).isEmpty = true)
    (empty : Element.identityFilter object = []) : item names (.object object) = some := by
  -- There is nothing to go into, and nothing to recognise elements by.
  funext target
  simp [item, alone, empty]

/-- An object without arrays takes out what it recognises. -/
theorem item_alone {object : Fields} (alone : (arrays object).isEmpty = true)
    (identified : Element.identityFilter object ≠ []) :
    item names (.object object) = delete names (recognises object) := by
  -- There is nothing to go into, so the elements go as a whole.
  funext target
  simp [item, alone, identified]

/-- No objects ask for nothing. -/
theorem objects_nil : objects names [] = some := by
  funext target
  simp [objects]

/-- The first item is removed, and then the others. -/
theorem objects_cons (first : Json) (rest : List Json) :
    objects names (first :: rest) = fun target =>
      (item names first target).bind (objects names rest) := by
  -- Both sides are the same for every target.
  funext target
  simp [objects]

/-- The values of an array are removed, and then the objects. -/
theorem array_eq (items : List Json) :
    array names items = fun target =>
      (values names (items.filter fun item => !item.isObject) target).bind
        (objects names items) := by
  -- Both sides are the same for every target.
  funext target
  simp [array, nestedAt]

/-- The first array is removed, and then those among the other leaves. -/
theorem listed_cons (items : List Json) (rest : List (List String × Json)) :
    listed ((names, .array items) :: rest) = fun target =>
      (array names items target).bind (listed rest) := rfl

/-- Where there is no array, an item takes nothing out. -/
theorem item_missing {target : Json} (missing : lookup names target = none) (value : Json) :
    item names value target = some target := by
  -- An object would take out or enter elements, and there are none.
  cases value with
  | object object =>
    unfold item
    simp only [delete, enter, missing, ite_self]
  | _ => rw [item_other rfl]

/-- Where there is no array, nothing is taken out. -/
theorem array_missing {target : Json} (missing : lookup names target = none) (items : List Json) :
    array names items target = some target := by
  -- Neither the values nor any of the objects finds an array.
  have objects_missing : ∀ listed : List Json, objects names listed target = some target := by
    intro listed
    induction listed with
    | nil => rw [objects_nil]
    | cons first rest ih =>
      simp only [objects_cons, item_missing missing, Option.bind_some, ih]
  simp [array_eq, values, delete, missing, objects_missing]

end Steps

/-- Leaves in two parts are removed part by part. -/
theorem listed_append (first second : List (List String × Json)) (target : Json) :
    listed (first ++ second) target = (listed first target).bind (listed second) := by
  -- Leaves that are no arrays ask for nothing.
  induction first generalizing target with
  | nil => rfl
  | cons leaf rest ih =>
    rcases leaf with ⟨names, value⟩
    cases value with
    | array items =>
      simp only [List.cons_append, listed, Option.bind_assoc]
      exact congrArg _ (funext ih)
    | _ => simpa only [List.cons_append, listed] using ih target

mutual

/-- The arrays in a value are those among its leaves. -/
theorem nestedAt_eq (names : List String) : ∀ value target : Json,
    nestedAt names value target = listed (namedLeavesAt names value) target
  -- An array is one leaf, and the leaves of an object are those of its entries.
  | .null, _ | .bool _, _ | .number _, _ | .string _, _ => by simp [nestedAt, namedLeavesAt, listed]
  | .array items, target => by
    simp only [namedLeavesAt, listed, array]
    cases nestedAt names (.array items) target <;> rfl
  | .object [], _ => by simp [nestedAt, nested, namedLeavesAt, listed]
  | .object (entry :: rest), target => by
    simpa [nestedAt, namedLeavesAt] using nested_eq names (entry :: rest) target

/-- The arrays in an object are those among its leaves. -/
theorem nested_eq (names : List String) : ∀ (fields : List (String × Json)) (target : Json),
    nested names fields target = listed (namedLeaves names fields) target
  -- The leaves of an object start with those of its first entry.
  | [], _ => by simp [nested, namedLeaves, listed]
  | (key, value) :: rest, target => by
    rw [nested, namedLeaves, listed_append, ← nestedAt_eq (names ++ [key]) value target]
    exact congrArg _ (funext (nested_eq names rest))

end

/-- The arrays of an object are removed inside of what it recognises. -/
theorem item_arrays {object : Fields} (nested : ¬(arrays object).isEmpty = true)
    {names : List String} :
    item names (.object object) =
      enter names (recognises object) (listed (namedLeaves [] object)) := by
  -- The leaves that are arrays are what is removed inside.
  have inside : Deletion.nested [] object = listed (namedLeaves [] object) :=
    funext (nested_eq [] object)
  funext target
  rw [← inside]
  simp [item, nested]

/-- The arrays of a tree are those at the fields of its root. -/
theorem tree_eq (fields : Fields) (document : Json) :
    tree fields document = listed (rootLeaves fields) document := by
  -- The fields of the root are taken as leaves of one name each.
  induction fields generalizing document with
  | nil => rfl
  | cons entry rest ih =>
    rcases entry with ⟨field, value⟩
    cases value with
    | array items =>
      simp only [tree, rootLeaves, List.map_cons, listed]
      exact congrArg _ (funext ih)
    | _ => simpa only [tree, rootLeaves, List.map_cons, listed] using ih document

section Altered

variable {names : List String} {target after : Json}

/-- Taking elements out of an array replaces the array. -/
theorem delete_altered {test : Json → Bool} (deleted : delete names test target = some after) :
    Altered names target after := by
  -- A missing array stays missing, and what is no array gives nothing.
  unfold delete at deleted
  split at deleted
  · exact Or.inl (Option.some.inj deleted).symm
  · exact Or.inr ⟨_, (Option.some.inj deleted).symm⟩
  · simp at deleted

/-- Changing the elements of an array replaces the array. -/
theorem enter_altered {test : Json → Bool} {change : Json → Option Json}
    (entered : enter names test change target = some after) : Altered names target after := by
  -- Where there is no array, the value stays as it is.
  unfold enter at entered
  split at entered
  · obtain ⟨items, -, rfl⟩ := Option.map_eq_some_iff.mp entered
    exact Or.inr ⟨_, rfl⟩
  · exact Or.inl (Option.some.inj entered).symm

/-- Taking out values replaces the array. -/
theorem values_altered {listed : List Json} (removed : values names listed target = some after) :
    Altered names target after := by
  -- Without values to take out, the value stays as it is.
  unfold values at removed
  split at removed
  · exact Or.inl (Option.some.inj removed).symm
  · exact delete_altered removed

/-- Removing an item replaces the array that it is listed for. -/
theorem item_altered {value : Json} (removed : item names value target = some after) :
    Altered names target after := by
  cases value with
  | object object =>
    unfold item at removed
    split at removed
    · split at removed
      · exact Or.inl (Option.some.inj removed).symm
      · exact delete_altered removed
    · exact enter_altered removed
  -- Items that are no objects ask for nothing here.
  | _ => exact Or.inl (Option.some.inj (by simpa [item] using removed)).symm

/-- Removing objects replaces the array that they are listed for. -/
theorem objects_altered (some_name : names ≠ []) {items : List Json}
    (removed : objects names items target = some after) : Altered names target after := by
  -- Each object replaces the array that the one before it left.
  induction items generalizing target with
  | nil => exact Or.inl (Option.some.inj (by simpa [objects] using removed)).symm
  | cons first rest ih =>
    unfold objects at removed
    obtain ⟨between, here, later⟩ := Option.bind_eq_some_iff.mp removed
    exact (item_altered here).trans some_name (ih later)

/-- Removing an array of the tree replaces the array that stands there. -/
theorem array_altered (some_name : names ≠ []) {items : List Json}
    (removed : array names items target = some after) : Altered names target after := by
  -- The objects are removed from what is left of the array by its values.
  unfold array nestedAt at removed
  obtain ⟨between, here, later⟩ := Option.bind_eq_some_iff.mp removed
  exact (values_altered here).trans some_name (objects_altered some_name later)

end Altered

end DocPatch.Deletion
