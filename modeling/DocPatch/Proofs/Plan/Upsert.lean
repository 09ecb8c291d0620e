import DocPatch.Proofs.Plan.Emission
import DocPatch.Proofs.Plan.Ids
import DocPatch.Proofs.Store.Walk

/-! What adding a tree to a document means: a direct recursion over tree and document that knows no
    guards, aliases or positional paths. -/

namespace DocPatch.Upsert

open Element (namedLeaves namedLeavesAt)
open Projection (lookup place obstructed)
open Update (itemsOf)

/-- Gives the value at names a new one, made from the one that stands there; what stands in the way
    of the names stays. -/
def change (make : Option Json → Except UpdateError Json) (names : List String) (target : Json) :
    Except UpdateError Json :=
  -- An obstacle is no error, and what is behind it is not asked for.
  if obstructed names target then .ok target
  else (make (lookup names target)).map fun value => place value names target

/-- Appends the values that the array at names does not hold yet. -/
def values (names : List String) (values : List Json) (target : Json) : Except UpdateError Json :=
  -- With no values the array is not even made.
  if values.isEmpty then .ok target
  else
    change (fun found => do
      let items ← itemsOf "$addToSet" (names.getLastD "") found
      return .array (Update.union items values)) names target

/-- Sets the scalar leaves of an object on an element; the id stays. -/
def assign (object : Fields) (element : Json) : Json :=
  (Element.assigned object).foldl (fun element leaf => place leaf.2 leaf.1 element) element

/-- The id that an object is recognised by. -/
def idOf (object : Fields) : Json := (object.lookup Element.idField).getD .null

mutual

/-- Adds an item of an array of the tree. An object goes into the elements that have its id, and is
    appended where there is none. -/
def item (names : List String) : Json → Json → Except UpdateError Json
  | .object object, target =>
    change (fun found => do
      let items ← itemsOf "$push" (names.getLastD "") found
      -- The elements that have the id are assigned to and then gone into.
      if items.any fun element => element.hasId (idOf object) then
        return .array (← items.mapM fun element =>
          if element.hasId (idOf object) then nested [] object (assign object element)
          else .ok element)
      else return .array (items ++ [.object object])) names target
  | _, target => .ok target
termination_by structural x => x

/-- Adds the objects of an array of the tree, in order. -/
def objects (names : List String) : List Json → Json → Except UpdateError Json
  | [], target => .ok target
  | first :: rest, target => do
    let target ← item names first target
    objects names rest target
termination_by structural x => x

/-- Adds the arrays in a value of the tree: first what is no object, and then the objects. -/
def nestedAt (names : List String) : Json → Json → Except UpdateError Json
  | .array items, target => do
    let target ← values names (items.filter fun item => !item.isObject) target
    objects names items target
  | .object fields, target => nested names fields target
  | _, target => .ok target
termination_by structural x => x

/-- Adds the arrays in an object of the tree, in order. -/
def nested (names : List String) : List (String × Json) → Json → Except UpdateError Json
  | [], target => .ok target
  | (key, value) :: rest, target => do
    let target ← nestedAt (names ++ [key]) value target
    nested names rest target
termination_by structural x => x

end

/-- Adds an array of the tree. -/
def array (names : List String) (items : List Json) (target : Json) : Except UpdateError Json :=
  nestedAt names (.array items) target

/-- Adds the arrays at the fields of a tree; other fields ask for nothing. -/
def tree : Fields → Json → Except UpdateError Json
  | [], document => .ok document
  | (field, .array items) :: rest, document => do
    let document ← array [field] items document
    tree rest document
  -- What is no array is not asked for.
  | _ :: rest, document => tree rest document

/-- Adds the arrays among named leaves, in order. -/
def listed : List (List String × Json) → Json → Except UpdateError Json
  | [], target => .ok target
  | (names, .array items) :: rest, target => do
    let target ← array names items target
    listed rest target
  | _ :: rest, target => listed rest target

/-- Leaves in two parts are added part by part. -/
theorem listed_append (first second : List (List String × Json)) (target : Json) :
    listed (first ++ second) target = (listed first target).bind (listed second) := by
  -- Leaves that are no arrays ask for nothing.
  induction first generalizing target with
  | nil => rfl
  | cons leaf rest ih =>
    rcases leaf with ⟨names, value⟩
    cases value with
    -- The first array is added, and the others to what it leaves.
    | array items =>
      simp only [List.cons_append, listed]
      cases array names items target with
      | error => rfl
      | ok between => exact ih between
    | _ => simpa only [List.cons_append, listed] using ih target

mutual

/-- The arrays in a value are those among its leaves. -/
theorem nestedAt_eq (names : List String) : ∀ value target : Json,
    nestedAt names value target = listed (namedLeavesAt names value) target
  -- An array is one leaf, and the leaves of an object are those of its entries.
  | .null, _ | .bool _, _ | .number _, _ | .string _, _ => by simp [nestedAt, namedLeavesAt, listed]
  | .array items, target => by
    simp only [namedLeavesAt, listed, array]
    cases nestedAt names (.array items) target <;> rfl
  | .object [], _ => by simp [nestedAt, nested, namedLeavesAt, listed]
  | .object (entry :: rest), target => by
    simpa [nestedAt, namedLeavesAt] using nested_eq names (entry :: rest) target

/-- The arrays in an object are those among its leaves. -/
theorem nested_eq (names : List String) : ∀ (fields : List (String × Json)) (target : Json),
    nested names fields target = listed (namedLeaves names fields) target
  -- The leaves of an object start with those of its first entry.
  | [], _ => by simp [nested, namedLeaves, listed]
  | (key, value) :: rest, target => by
    rw [nested, namedLeaves, listed_append, ← nestedAt_eq (names ++ [key]) value target]
    cases nestedAt (names ++ [key]) value target with
    | error => rfl
    | ok between => exact nested_eq names rest between

end

/-- The arrays of a tree are those at the fields of its root. -/
theorem tree_eq (fields : Fields) (document : Json) :
    tree fields document = listed (Insertion.rootLeaves fields) document := by
  -- The fields of the root are taken as leaves of one name each.
  induction fields generalizing document with
  | nil => rfl
  | cons entry rest ih =>
    rcases entry with ⟨field, value⟩
    cases value with
    | array items =>
      simp only [tree, Insertion.rootLeaves, List.map_cons, listed]
      cases array [field] items document with
      | error => rfl
      | ok between => exact ih between
    | _ => simpa only [tree, Insertion.rootLeaves, List.map_cons, listed] using ih document

/-- A list whose items are changed one by one is refused for one of them. -/
theorem mapM_error {f : Json → Except UpdateError Json} {items : List Json} {error : UpdateError}
    (failed : items.mapM f = .error error) : ∃ item, f item = .error error := by
  -- The first item that is refused gives the error.
  induction items with
  | nil => simp [Pure.pure, Except.pure] at failed
  | cons first rest ih =>
    rw [List.mapM_cons, bind_eq_error] at failed
    rcases failed with here | ⟨changed, -, later⟩
    · -- The first item itself is refused.
      exact ⟨first, here⟩
    · -- One of the others is, since putting the list together never fails.
      rcases bind_eq_error.mp later with there | ⟨others, -, impossible⟩
      · exact ih there
      · simp at impossible

/-- An error that says that something which ought to be an array is none. -/
def NoArray (error : UpdateError) : Prop := ∃ operator field, error = .notAnArray operator field

/-- An operator that needs an array is only refused where there is none. -/
theorem itemsOf_error {operator field : String} {found : Option Json} {error : UpdateError}
    (failed : itemsOf operator field found = .error error) : NoArray error := by
  -- A missing field is taken for an empty array, so only another value is refused.
  rcases found with _ | value
  · simp [itemsOf] at failed
  · cases value <;> simp only [itemsOf, Except.error.injEq, reduceCtorEq] at failed
    all_goals exact ⟨operator, field, failed.symm⟩

/-- A change is refused for the reason that its new value is. -/
theorem change_error {make : Option Json → Except UpdateError Json} {names : List String}
    {target : Json} {error : UpdateError} (failed : change make names target = .error error) :
    make (lookup names target) = .error error := by
  -- Behind an obstacle nothing is made, and so nothing is refused.
  unfold change at failed
  split at failed
  · simp at failed
  · cases made : make (lookup names target) with
    -- The new value is refused, and the change with it.
    | error reason =>
      rw [made] at failed
      exact congrArg Except.error (Except.error.inj failed)
    | ok value => simp [made, Except.map] at failed

/-- Values are only refused where there is no array. -/
theorem values_error {names : List String} {added : List Json} {target : Json} {error : UpdateError}
    (failed : values names added target = .error error) : NoArray error := by
  -- The union itself is never refused.
  unfold values at failed
  split at failed
  · simp at failed
  · -- What is at the names is refused, if anything is.
    rcases bind_eq_error.mp (change_error failed) with refused | ⟨items, -, impossible⟩
    · exact itemsOf_error refused
    · simp at impossible

mutual

/-- An item is only refused where there is no array. -/
theorem item_error (names : List String) : ∀ (value target : Json) (error : UpdateError),
    item names value target = .error error → NoArray error
  -- The array itself is refused, or what is added to one of its elements.
  | .null, _, _, failed | .bool _, _, _, failed | .number _, _, _, failed
  | .string _, _, _, failed | .array _, _, _, failed => by simp [item] at failed
  | .object object, target, error, failed => by
    unfold item at failed
    rcases bind_eq_error.mp (change_error failed) with refused | ⟨items, -, made⟩
    · exact itemsOf_error refused
    · split at made
      · rcases bind_eq_error.mp made with failed | ⟨changed, -, impossible⟩
        · obtain ⟨element, inside⟩ := mapM_error failed
          split at inside
          · exact nested_error [] object _ error inside
          · simp at inside
        · simp at impossible
      · -- An object that is appended is never refused.
        simp at made

/-- Objects are only refused where there is no array. -/
theorem objects_error (names : List String) : ∀ (items : List Json) (target : Json)
    (error : UpdateError), objects names items target = .error error → NoArray error
  -- The first object is refused, or one of the others after it.
  | [], _, _, failed => by simp [objects] at failed
  | first :: rest, target, error, failed => by
    rw [objects, bind_eq_error] at failed
    rcases failed with here | ⟨between, -, later⟩
    · exact item_error names first target error here
    · exact objects_error names rest between error later

/-- The arrays in a value are only refused where there is no array. -/
theorem nestedAt_error (names : List String) : ∀ (value target : Json) (error : UpdateError),
    nestedAt names value target = .error error → NoArray error
  -- The values of an array are refused, or its objects after them.
  | .null, _, _, failed | .bool _, _, _, failed | .number _, _, _, failed
  | .string _, _, _, failed => by simp [nestedAt] at failed
  | .object fields, target, error, failed =>
    nested_error names fields target error (by simpa only [nestedAt] using failed)
  | .array items, target, error, failed => by
    rw [nestedAt, bind_eq_error] at failed
    rcases failed with here | ⟨between, -, later⟩
    · exact values_error here
    · exact objects_error names items between error later

/-- The arrays in an object are only refused where there is no array. -/
theorem nested_error (names : List String) : ∀ (fields : List (String × Json)) (target : Json)
    (error : UpdateError), nested names fields target = .error error → NoArray error
  -- The first entry is refused, or one of the others after it.
  | [], _, _, failed => by simp [nested] at failed
  | (key, value) :: rest, target, error, failed => by
    rw [nested, bind_eq_error] at failed
    rcases failed with here | ⟨between, -, later⟩
    · exact nestedAt_error (names ++ [key]) value target error here
    · exact nested_error names rest between error later

end

/-- A tree is only refused where there is no array. -/
theorem tree_error {fields : Fields} {document : Json} {error : UpdateError}
    (failed : tree fields document = .error error) : NoArray error := by
  -- The first field is refused, or one of the others after it.
  induction fields generalizing document with
  | nil => simp [tree] at failed
  | cons entry rest ih =>
    rcases entry with ⟨field, value⟩
    cases value with
    -- Only a field that is an array asks for anything.
    | array items =>
      rw [tree, bind_eq_error] at failed
      rcases failed with here | ⟨between, -, later⟩
      · exact nestedAt_error [field] (.array items) document error here
      · exact ih later
    | _ => exact ih (by simpa only [tree] using failed)

end DocPatch.Upsert
