import DocPatch.Plan.Insertion
import DocPatch.Proofs.Json.Entries
import DocPatch.Proofs.Path.Names
import Mathlib.Logic.Relation

/-! Which trees are refused, and for which of their objects: for the first one that the walk visits
    of those that have nested arrays and nothing to identify them by. -/

namespace DocPatch

namespace Element

/-- An object with nested arrays and no other leaf. -/
def Ambiguous (object : Fields) : Prop :=
  arrayLeaves (leaves "" object) ≠ [] ∧ scalarLeaves (leaves "" object) = []

/-- Whether an object is ambiguous shows in its leaves. -/
instance (object : Fields) : Decidable (Ambiguous object) :=
  inferInstanceAs (Decidable (_ ∧ _))

/-- Without scalar leaves, and only then, an object is identified by nothing. -/
theorem identityOf_eq_nil {scalars : List (String × Json)} :
    identityOf scalars = [] ↔ scalars = [] := by
  constructor
  · -- With an id there is one entry, and otherwise one for every scalar leaf.
    intro empty
    unfold identityOf at empty
    split at empty
    · simp at empty
    · by_contra some_leaf
      exact Fields.ofEntries_ne_nil some_leaf empty
  · rintro rfl
    rfl

/-- An object is ambiguous when its description has nested arrays and no identity. -/
theorem ambiguous_iff (site : Site) (object : Fields) : Ambiguous object ↔
    ((describe site object).identity.isEmpty && !(describe site object).nested.isEmpty) = true := by
  -- Both sides look at the same leaves of the object.
  show _ ↔ ((identityOf (scalarLeaves (leaves "" object))).isEmpty &&
    !(arrayLeaves (leaves "" object)).isEmpty) = true
  rw [Bool.and_eq_true, List.isEmpty_iff, identityOf_eq_nil, Bool.not_eq_true',
    List.isEmpty_eq_false_iff]
  exact And.comm

/-- The array leaves of an object below a path are those of its first value and those of
    the others. -/
theorem arrayLeaves_cons (path key : String) (value : Json) (rest : List (String × Json)) :
    arrayLeaves (leaves path ((key, value) :: rest)) =
      arrayLeaves (leavesAt (Path.join path key) value) ++ arrayLeaves (leaves path rest) := by
  -- The leaves themselves are put one behind the other.
  rw [leaves, arrayLeaves, List.filterMap_append]
  rfl

end Element

namespace Insertion

open Element (Ambiguous arrayLeaves leaves leavesAt)

/-- A visit of an object: the field paths down to the array that lists it, and the object. -/
abbrev Visit := List String × Fields

/-- The second visit is of an object listed by an array leaf of the object of the first one. -/
def Visit.Nests (outer inner : Visit) : Prop :=
  ∃ leaf ∈ arrayLeaves (leaves "" outer.2), .object inner.2 ∈ leaf.2 ∧ inner.1 = outer.1 ++ [leaf.1]

/-- The walk through a tree visits the objects listed by the arrays at the fields of the tree, and
    all the objects listed by array leaves of objects that it visits. -/
def Visited (tree : Fields) (visit : Visit) : Prop :=
  ∃ field items object, (field, .array items) ∈ tree ∧ .object object ∈ items ∧
    Relation.ReflTransGen Visit.Nests ([field], object) visit

mutual

/-- The visits for an item of an array: of the object itself, and then of those in its
    nested arrays. -/
def visitsOf (fields : List String) : Json → List Visit
  | .object object => (fields, object) :: visitsBelow fields "" object
  | _ => []
termination_by structural x => x

/-- The visits for the items of an array, in order. -/
def visitsAmong (fields : List String) : List Json → List Visit
  | [] => []
  | first :: rest => visitsOf fields first ++ visitsAmong fields rest
termination_by structural x => x

/-- The visits for a value at a path inside an object. -/
def visitsAt (fields : List String) (path : String) : Json → List Visit
  -- The path from the object to the array counts as one name.
  | .array items => visitsAmong (fields ++ [path]) items
  | .object inner => visitsBelow fields path inner
  | _ => []
termination_by structural x => x

/-- The visits for the arrays nested in an object, below a path inside it. -/
def visitsBelow (fields : List String) (path : String) : List (String × Json) → List Visit
  | [] => []
  | (key, value) :: rest => visitsAt fields (Path.join path key) value ++
      visitsBelow fields path rest
termination_by structural x => x

end

/-- The visits for a tree: those for the arrays at its fields, in order. -/
def visits : Fields → List Visit
  | [] => []
  | (field, .array items) :: rest => visitsAmong [field] items ++ visits rest
  | _ :: rest => visits rest

section Visited

open Relation (ReflTransGen)

/-- From an object the walk gets to the object itself, and from those that its array leaves list to
    all the others. -/
theorem reaches_iff {fields : List String} {object : Fields} {visit : Visit} :
    ReflTransGen Visit.Nests (fields, object) visit ↔ visit = (fields, object) ∨
      ∃ leaf ∈ arrayLeaves (leaves "" object), ∃ inner, .object inner ∈ leaf.2 ∧
        ReflTransGen Visit.Nests (fields ++ [leaf.1], inner) visit := by
  -- The way ends at the object, or its first step is to an object of an array leaf.
  rw [ReflTransGen.cases_head_iff, eq_comm]
  refine or_congr Iff.rfl ⟨fun given => ?_, fun given => ?_⟩
  · obtain ⟨⟨names, inner⟩, ⟨leaf, among, listed, rfl⟩, reaches⟩ := given
    exact ⟨leaf, among, inner, listed, reaches⟩
  · obtain ⟨leaf, among, inner, listed, reaches⟩ := given
    exact ⟨_, ⟨leaf, among, listed, rfl⟩, reaches⟩

mutual

/-- The visits for an item are those that the walk gets to from it, if it is an object. -/
theorem mem_visitsOf (fields : List String) (visit : Visit) : ∀ value : Json,
    visit ∈ visitsOf fields value ↔
      ∃ object, value = .object object ∧ ReflTransGen Visit.Nests (fields, object) visit
  -- Only an object is visited, and everything visited in it is reached through it.
  | .null | .bool _ | .number _ | .string _ | .array _ => by simp [visitsOf]
  | .object object => by
    rw [visitsOf, List.mem_cons, mem_visitsBelow fields visit "" object, ← reaches_iff]
    simp

/-- The visits for the items of an array are those that the walk gets to from the objects
    among them. -/
theorem mem_visitsAmong (fields : List String) (visit : Visit) : ∀ items : List Json,
    visit ∈ visitsAmong fields items ↔
      ∃ object, .object object ∈ items ∧ ReflTransGen Visit.Nests (fields, object) visit
  -- The items are gone through one after the other.
  | [] => by simp [visitsAmong]
  | first :: rest => by
    rw [visitsAmong, List.mem_append, mem_visitsOf fields visit first,
      mem_visitsAmong fields visit rest, ← exists_or]
    simp only [List.mem_cons, or_and_right, eq_comm]

/-- The visits for a value inside an object are those that the walk gets to from its
    array leaves. -/
theorem mem_visitsAt (fields : List String) (visit : Visit) (path : String) : ∀ value : Json,
    visit ∈ visitsAt fields path value ↔
      ∃ leaf ∈ arrayLeaves (leavesAt path value), ∃ object, .object object ∈ leaf.2 ∧
        ReflTransGen Visit.Nests (fields ++ [leaf.1], object) visit
  -- An array is one leaf, and the leaves of an object are those of its entries.
  | .null | .bool _ | .number _ | .string _ => by
    simp [visitsAt, leavesAt, arrayLeaves, Json.items?]
  | .array items => by
    simp [visitsAt, leavesAt, arrayLeaves, Json.items?,
      mem_visitsAmong (fields ++ [path]) visit items]
  | .object [] => by simp [visitsAt, visitsBelow, leavesAt, arrayLeaves, Json.items?]
  | .object (entry :: rest) => by
    simpa [visitsAt, leavesAt] using mem_visitsBelow fields visit path (entry :: rest)

/-- The visits for the arrays nested in an object are those that the walk gets to from its
    array leaves. -/
theorem mem_visitsBelow (fields : List String) (visit : Visit) (path : String) :
    ∀ object : List (String × Json), visit ∈ visitsBelow fields path object ↔
      ∃ leaf ∈ arrayLeaves (leaves path object), ∃ inner, .object inner ∈ leaf.2 ∧
        ReflTransGen Visit.Nests (fields ++ [leaf.1], inner) visit
  -- The induction follows the entries, and goes into their values.
  | [] => by simp [visitsBelow, leaves, arrayLeaves]
  | (key, value) :: rest => by
    rw [visitsBelow, List.mem_append, mem_visitsAt fields visit _ value,
      mem_visitsBelow fields visit path rest, Element.arrayLeaves_cons]
    simp only [List.mem_append, or_and_right, exists_or]

end

/-- The visits for a tree are all that there are. -/
theorem mem_visits {tree : Fields} {visit : Visit} : visit ∈ visits tree ↔ Visited tree visit := by
  -- A visit is for the first field of the tree or for one of the others.
  simp only [Visited]
  induction tree with
  | nil => simp [visits]
  | cons entry rest ih =>
    obtain ⟨field, value⟩ := entry
    cases value with
    | array items =>
      rw [visits, List.mem_append, mem_visitsAmong, ih]
      simp only [List.mem_cons, Prod.mk.injEq, Json.array.injEq, or_and_right, exists_or]
      refine or_congr ⟨fun given => ?_, fun given => ?_⟩ Iff.rfl
      · obtain ⟨object, listed, reaches⟩ := given
        exact ⟨field, items, object, ⟨rfl, rfl⟩, listed, reaches⟩
      · obtain ⟨_, _, object, ⟨rfl, rfl⟩, listed, reaches⟩ := given
        exact ⟨object, listed, reaches⟩
    -- A field that is no array lists no objects.
    | _ => simpa [visits] using ih

end Visited

/-- Why something is refused, if it is. -/
def refusal {ε α : Type} : Except ε α → Option ε
  | .error error => some error
  | .ok _ => none

/-- Of two lists that are put together, the first one that is refused counts. -/
theorem refusal_append {ε α : Type} (first second : Except ε (List α)) :
    refusal (do
      let here ← first
      let others ← second
      return here ++ others) = (refusal first).or (refusal second) := by
  -- The second list is looked at only if the first one was accepted.
  cases first with
  | error => rfl
  | ok => cases second <;> rfl

/-- A result that is put behind something else is refused as it is. -/
theorem refusal_behind {ε α : Type} (front : List α) (result : Except ε (List α)) :
    refusal (do
      let others ← result
      return front ++ others) = refusal result := by
  -- Putting something in front neither refuses nor accepts.
  cases result <;> rfl

/-- How the first ambiguous object among some visits is refused, if there is one. -/
def firstRefusal (visits : List Visit) : Option Unidentified :=
  (visits.find? fun visit => Ambiguous visit.2).map fun visit => ⟨Path.dotted visit.1⟩

/-- Of the ambiguous objects among visits in two parts, one of the first part is the first one. -/
theorem firstRefusal_append (first second : List Visit) :
    firstRefusal (first ++ second) = (firstRefusal first).or (firstRefusal second) := by
  -- A search goes through the first part before the second.
  rw [firstRefusal, List.find?_append, Option.map_or]
  rfl

mutual

/-- An item is refused for the first ambiguous object visited in it. -/
theorem refusal_item (fields : List String) (site : Site)
    (place : site.logicalPath = Path.dotted fields) :
    ∀ value : Json, refusal (item site value) = firstRefusal (visitsOf fields value)
  | .null | .bool _ | .number _ | .string _ | .array _ => by
    simp [item, visitsOf, refusal, firstRefusal]
  | .object object => by
    have below := refusal_nested fields site place (Element.describe site object) "" object
    unfold item
    by_cases ambiguous : Ambiguous object
    · -- An ambiguous object is refused itself, before anything in it.
      simp only [(Element.ambiguous_iff site object).mp ambiguous, ↓reduceIte,
        visitsOf, firstRefusal, List.find?_cons, ambiguous, decide_true, Option.map_some, ← place]
      rfl
    · -- An object that is not ambiguous leaves it to those in its nested arrays.
      simp only [Bool.eq_false_iff.mpr (mt (Element.ambiguous_iff site object).mpr ambiguous),
        Bool.false_eq_true, ↓reduceIte, visitsOf, firstRefusal, List.find?_cons,
        ambiguous, decide_false]
      exact (refusal_behind _ _).trans below

/-- The items of an array are refused for the first ambiguous object visited in one of them. -/
theorem refusal_objects (fields : List String) (site : Site)
    (place : site.logicalPath = Path.dotted fields) : ∀ items : List Json,
    refusal (objects site items) = firstRefusal (visitsAmong fields items)
  -- The induction is on the items, in the order in which both sides go through them.
  | [] => by simp [objects, visitsAmong, refusal, firstRefusal]
  | first :: rest => by
    rw [objects, refusal_append, visitsAmong, firstRefusal_append,
      refusal_item fields site place first, refusal_objects fields site place rest]

/-- A value inside an element is refused for the first ambiguous object visited in it. -/
theorem refusal_nestedAt (fields : List String) (site : Site)
    (place : site.logicalPath = Path.dotted fields) (element : Element) (path : String) :
    ∀ value : Json, refusal (nestedAt site element path value) =
      firstRefusal (visitsAt fields path value)
  | .null | .bool _ | .number _ | .string _ => by simp [nestedAt, visitsAt, refusal, firstRefusal]
  | .array items => by
    -- The array stands one field path further down.
    have deeper : (site.child element path).logicalPath = Path.dotted (fields ++ [path]) := by
      rw [Path.dotted_append_singleton, ← place]
      rfl
    rw [nestedAt, visitsAt, ← refusal_objects _ _ deeper items]
    exact refusal_behind _ _
  | .object inner => by
    rw [nestedAt, visitsAt, refusal_nested fields site place element path inner]

/-- The arrays nested in an element are refused for the first ambiguous object visited in them. -/
theorem refusal_nested (fields : List String) (site : Site)
    (place : site.logicalPath = Path.dotted fields) (element : Element) (path : String) :
    ∀ object : List (String × Json),
      refusal (nested site element path object) = firstRefusal (visitsBelow fields path object)
  -- The induction is on the entries, in the order in which both sides go through them.
  | [] => by simp [nested, visitsBelow, refusal, firstRefusal]
  | (key, value) :: rest => by
    rw [nested, refusal_append, visitsBelow, firstRefusal_append,
      refusal_nestedAt fields site place element _ value,
      refusal_nested fields site place element path rest]

end

/-- A tree is refused for the first ambiguous object that is visited. -/
theorem refusal_operations (base tree : Fields) :
    refusal (operations base tree) = firstRefusal (visits tree) := by
  -- Field by field, the first one that is refused counts.
  induction tree with
  | nil => rfl
  | cons entry rest ih =>
    obtain ⟨field, value⟩ := entry
    cases value with
    | array items =>
      rw [operations, refusal_append, visits, firstRefusal_append, ih, array, refusal_behind,
        refusal_objects [field] (.root base field) (Path.dotted_singleton field).symm items]
    -- A field that is no array is passed by.
    | _ => simpa only [operations, visits] using ih

/-- The operations for a tree are refused if and only if the walk through it visits an ambiguous
    object. The error has the path, without placeholders, of the array that lists the first one that
    is visited. -/
theorem operations_refused_iff (base tree : Fields) :
    ((∃ error, operations base tree = .error error) ↔ ∃ visit, Visited tree visit ∧
      Ambiguous visit.2) ∧
    (∀ visit, visit ∈ visits tree ↔ Visited tree visit) ∧
    ∀ error, operations base tree = .error error → ∃ earlier visit later,
      visits tree = earlier ++ visit :: later ∧ (∀ other ∈ earlier, ¬ Ambiguous other.2) ∧
      Ambiguous visit.2 ∧ error = ⟨Path.dotted visit.1⟩ := by
  -- To fail with an error is to be refused for it.
  have refused : ∀ error, operations base tree = .error error ↔
      firstRefusal (visits tree) = some error := by
    intro error
    rw [← refusal_operations base tree]
    cases operations base tree <;> simp [refusal]
  refine ⟨?_, fun visit => mem_visits, fun error failed => ?_⟩
  · simp only [refused, ← Option.isSome_iff_exists, firstRefusal, Option.isSome_map,
      List.find?_isSome, mem_visits, decide_eq_true_eq]
  · obtain ⟨visit, found, rfl⟩ := Option.map_eq_some_iff.mp ((refused error).mp failed)
    obtain ⟨ambiguous, earlier, later, same, none_before⟩ := List.find?_eq_some_iff_append.mp found
    exact ⟨earlier, visit, later, same, by simpa using none_before, by simpa using ambiguous, rfl⟩

/-- An object is visited before the ones in its arrays, and the first one here has an id. -/
example :
    operations []
      [("a", .array [.object [("id", .null), ("b", .array [.object [("c", .array [])]])]])] =
    .error ⟨"a.b"⟩ :=
  rfl

end Insertion

end DocPatch
