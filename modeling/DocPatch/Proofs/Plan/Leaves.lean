import DocPatch.Plan.Element
import DocPatch.Proofs.Json.Equality
import DocPatch.Proofs.Path.Names
import DocPatch.Proofs.Store.Place

/-! The leaves of a listed object by the names that lead to them, and what is known of
    it by them. -/

namespace DocPatch

open Projection (Apart lookup)

namespace Json

mutual

/-- Every field name, at any depth, is plain. -/
def PlainNamed : Json → Prop
  | .array items => ItemsPlainNamed items
  | .object fields => FieldsPlainNamed fields
  | _ => True
termination_by structural x => x

/-- Every item has plain field names. -/
def ItemsPlainNamed : List Json → Prop
  | [] => True
  | item :: rest => item.PlainNamed ∧ ItemsPlainNamed rest
termination_by structural x => x

/-- Every key is plain, and every value has plain field names. -/
def FieldsPlainNamed : List (String × Json) → Prop
  | [] => True
  | (key, value) :: rest => Path.Plain key ∧ value.PlainNamed ∧ FieldsPlainNamed rest
termination_by structural x => x

end

end Json

namespace Element

mutual

/-- The leaves of a value at names. Arrays and empty objects are leaves. -/
def namedLeavesAt (names : List String) : Json → List (List String × Json)
  | .object fields => if fields.isEmpty then [(names, .object [])] else namedLeaves names fields
  | value => [(names, value)]
termination_by structural x => x

/-- The leaves of an object below names, in order, by the names that lead to them. -/
def namedLeaves (names : List String) : List (String × Json) → List (List String × Json)
  | [] => []
  | (key, value) :: rest => namedLeavesAt (names ++ [key]) value ++ namedLeaves names rest
termination_by structural x => x

end

/-- A leaf with its names put together to a path. -/
def dottedLeaf (leaf : List String × Json) : String × Json := (Path.dotted leaf.1, leaf.2)

mutual

/-- The leaves at a dotted path are the leaves at its names. -/
theorem leavesAt_dotted (names : List String) : ∀ value : Json,
    leavesAt (Path.dotted names) value = (namedLeavesAt names value).map dottedLeaf
  -- What is no object with entries is the one leaf at its names.
  | .null | .bool _ | .number _ | .string _ | .array _ => by
    simp [leavesAt, namedLeavesAt, dottedLeaf]
  | .object [] => by simp [leavesAt, namedLeavesAt, dottedLeaf]
  | .object (entry :: rest) => by
    simpa [leavesAt, namedLeavesAt] using leaves_dotted names (entry :: rest)

/-- The leaves below a dotted path are the leaves below its names. -/
theorem leaves_dotted (names : List String) : ∀ fields : List (String × Json),
    leaves (Path.dotted names) fields = (namedLeaves names fields).map dottedLeaf
  -- Each key makes the names longer at their end, and so does it with the path.
  | [] => by simp [leaves, namedLeaves]
  | (key, value) :: rest => by
    rw [leaves, namedLeaves, List.map_append, ← leavesAt_dotted (names ++ [key]) value,
      ← leaves_dotted names rest, Path.dotted_append_singleton]

end

/-- A value has a leaf at names: it is an array or a scalar and itself the leaf, or one of its
    entries has the leaf. -/
inductive HasLeaf : Json → List String → Json → Prop where
  | self {value : Json} (whole : value.items?.isSome ∨ value.Scalar) : HasLeaf value [] value
  | entry {fields : Fields} {key : String} {value leaf : Json} {names : List String}
      (listed : (key, value) ∈ fields) (inside : HasLeaf value names leaf) :
      HasLeaf (.object fields) (key :: names) leaf

mutual

/-- The leaves of a value at names are those that it has, at names that go on from there. -/
theorem hasLeaf_of_mem_namedLeavesAt (names : List String) :
    ∀ (value : Json) (leaf : List String × Json), leaf ∈ namedLeavesAt names value →
      ∃ tail, leaf.1 = names ++ tail ∧ HasLeaf value tail leaf.2
  -- An object with entries is no leaf, and every other value is one.
  | .null, _, member | .bool _, _, member | .number _, _, member | .string _, _, member
  | .array _, _, member => by
    simp only [namedLeavesAt, List.mem_singleton] at member
    exact ⟨[], by simp [member], by rw [member]; exact .self (by simp [Json.items?, Json.Scalar])⟩
  | .object [], _, member => by
    simp only [namedLeavesAt, List.isEmpty_nil, ↓reduceIte, List.mem_singleton] at member
    exact ⟨[], by simp [member], by rw [member]; exact .self (by simp [Json.Scalar])⟩
  | .object (entry :: rest), leaf, member => by
    simp only [namedLeavesAt, List.isEmpty_cons, Bool.false_eq_true, ↓reduceIte] at member
    obtain ⟨key, value, tail, listed, start, inside⟩ :=
      hasLeaf_of_mem_namedLeaves names (entry :: rest) leaf member
    exact ⟨key :: tail, start, .entry listed inside⟩

/-- The leaves of an object are those that its entries have, each behind the key of the entry. -/
theorem hasLeaf_of_mem_namedLeaves (names : List String) :
    ∀ (fields : List (String × Json)) (leaf : List String × Json), leaf ∈ namedLeaves names fields →
      ∃ key value tail, (key, value) ∈ fields ∧ leaf.1 = names ++ key :: tail ∧
        HasLeaf value tail leaf.2
  | [], _, member => by simp [namedLeaves] at member
  | (key, value) :: rest, leaf, member => by
    rw [namedLeaves, List.mem_append] at member
    rcases member with here | later
    · -- A leaf of the first value starts with the first key.
      obtain ⟨tail, start, inside⟩ := hasLeaf_of_mem_namedLeavesAt (names ++ [key]) value leaf here
      exact ⟨key, value, tail, by simp, by simp [start], inside⟩
    · -- A later leaf starts with the key of a later entry.
      obtain ⟨other, held, tail, listed, start, inside⟩ :=
        hasLeaf_of_mem_namedLeaves names rest leaf later
      exact ⟨other, held, tail, List.mem_cons_of_mem _ listed, start, inside⟩

end

/-- An object has its leaves at their names, of which there is one at least. -/
theorem hasLeaf_of_leaf {object : Fields} {names : List String} {value : Json}
    (leaf : (names, value) ∈ namedLeaves [] object) :
    names ≠ [] ∧ HasLeaf (.object object) names value := by
  -- The first name is the key of the entry that has the leaf.
  obtain ⟨key, held, tail, listed, start, inside⟩ := hasLeaf_of_mem_namedLeaves [] object _ leaf
  obtain rfl : names = key :: tail := start
  exact ⟨by simp, .entry listed inside⟩

mutual

/-- The leaves of a value lie apart from one another. -/
theorem namedLeavesAt_apart (names : List String) : ∀ value : Json, value.WellKeyed →
    (namedLeavesAt names value).Pairwise fun left right => Apart left.1 right.1
  -- Only an object with entries has more than one leaf.
  | .null, _ | .bool _, _ | .number _, _ | .string _, _ | .array _, _ => by simp [namedLeavesAt]
  | .object [], _ => by simp [namedLeavesAt]
  | .object (entry :: rest), keyed => by
    simpa [namedLeavesAt] using
      namedLeaves_apart names (entry :: rest) (by simpa [Json.WellKeyed] using keyed)

/-- The leaves of an object lie apart from one another. -/
theorem namedLeaves_apart (names : List String) :
    ∀ fields : List (String × Json), Json.FieldsWellKeyed fields →
      (namedLeaves names fields).Pairwise fun left right => Apart left.1 right.1
  | [], _ => by simp [namedLeaves]
  | (key, value) :: rest, keyed => by
    simp only [Json.FieldsWellKeyed] at keyed
    obtain ⟨fresh, inner, others⟩ := keyed
    rw [namedLeaves, List.pairwise_append]
    -- Leaves of one value part inside of it, so only those of different keys remain.
    refine ⟨namedLeavesAt_apart _ value inner, namedLeaves_apart names rest others, ?_⟩
    intro left here right later
    -- The leaves of one field part from those of another at the names of the fields.
    obtain ⟨lefts, leftStart, -⟩ := hasLeaf_of_mem_namedLeavesAt (names ++ [key]) value left here
    obtain ⟨other, held, rights, listed, rightStart, -⟩ :=
      hasLeaf_of_mem_namedLeaves names rest right later
    have differ : key ≠ other := by
      intro same
      subst same
      exact Fields.lookup_eq_none.mp fresh (List.mem_map_of_mem listed)
    rw [leftStart, rightStart, List.append_assoc]
    exact (Apart.here differ lefts rights).prepend names

end

/-- A leaf is an array or a scalar. -/
theorem HasLeaf.whole {value leaf : Json} {names : List String} (has : HasLeaf value names leaf) :
    leaf.items?.isSome ∨ leaf.Scalar := by
  -- The induction follows the way to the leaf.
  induction has with
  | self whole => exact whole
  | entry _ _ ih => exact ih

/-- A leaf of a well keyed value stands at its names. -/
theorem HasLeaf.lookup_eq {value leaf : Json} {names : List String}
    (has : HasLeaf value names leaf) (keyed : value.WellKeyed) :
    lookup names value = some leaf := by
  induction has with
  | self => rfl
  | entry listed _ ih =>
    -- The key stands once, so it is found where the leaf was taken from.
    simp only [Json.WellKeyed] at keyed
    rw [Projection.lookup_cons, Fields.lookup_of_mem keyed.nodup listed]
    exact ih (keyed.of_mem listed)

/-- A leaf of an object stands at its names in the object. -/
theorem lookup_of_leaf {object : Fields} (keyed : Json.FieldsWellKeyed object)
    {names : List String} {value : Json} (leaf : (names, value) ∈ namedLeaves [] object) :
    lookup names (.object object) = some value :=
  (hasLeaf_of_leaf leaf).2.lookup_eq (by simpa only [Json.WellKeyed] using keyed)

/-- The leaves of an object are those of its entries. -/
theorem namedLeaves_eq_flatMap (names : List String) (fields : Fields) :
    namedLeaves names fields = fields.flatMap fun entry =>
      namedLeavesAt (names ++ [entry.1]) entry.2 := by
  -- The entries are gone through one after the other.
  induction fields with
  | nil => rfl
  | cons entry rest ih => rw [namedLeaves, ih, List.flatMap_cons]

/-- A field that holds a scalar or an array is a leaf. -/
theorem leaf_of_lookup {object : Fields} {key : String} {value : Json}
    (found : object.lookup key = some value) (whole : value.items?.isSome ∨ value.Scalar) :
    ([key], value) ∈ namedLeaves [] object := by
  -- A value that is no object with entries is itself the leaf at its key.
  rw [namedLeaves_eq_flatMap]
  refine List.mem_flatMap.mpr ⟨(key, value), Fields.mem_of_lookup found, ?_⟩
  cases value with
  -- An object is only a scalar while it has no entries.
  | object fields =>
    obtain rfl : fields = [] := by simpa [Json.items?, Json.Scalar] using whole
    simp [namedLeavesAt]
  | _ => simp [namedLeavesAt]

end Element

end DocPatch
