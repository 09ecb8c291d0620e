import DocPatch.Proofs.Plan.Keys

/-! The objects that the walk through a tree visits: what they inherit from the object around them,
    and the induction over them. -/

namespace DocPatch

open Projection (lookup)

/-- What stands in a well keyed value is well keyed. -/
theorem Json.WellKeyed.of_lookup {names : List String} {target value : Json}
    (keyed : target.WellKeyed) (found : lookup names target = some value) : value.WellKeyed := by
  -- Being well keyed goes from an object to the values of its entries.
  refine Projection.holds_of_lookup (fun fields key value keyed member => ?_) keyed found
  simp only [Json.WellKeyed] at keyed
  exact keyed.of_mem member

/-- An entry of plainly named entries has a plain key and a plainly named value. -/
theorem Json.FieldsPlainNamed.of_mem {fields : Fields} (plain : Json.FieldsPlainNamed fields)
    {key : String} {value : Json} (member : (key, value) ∈ fields) :
    Path.Plain key ∧ value.PlainNamed := by
  -- Each entry is looked at with those behind it.
  have step : ∀ (first : String × Json) (rest : Fields), Json.FieldsPlainNamed (first :: rest) →
      (Path.Plain first.1 ∧ first.2.PlainNamed) ∧ Json.FieldsPlainNamed rest := by
    intro entry rest plain
    obtain ⟨name, held⟩ := entry
    simp only [Json.FieldsPlainNamed] at plain
    exact ⟨⟨plain.1, plain.2.1⟩, plain.2.2⟩
  exact each_of_mem step plain member

/-- An item of plainly named items is plainly named. -/
theorem Json.ItemsPlainNamed.of_mem {items : List Json} (plain : Json.ItemsPlainNamed items)
    {item : Json} (member : item ∈ items) : item.PlainNamed := by
  -- Each item is looked at with those behind it.
  have step : ∀ (first : Json) (rest : List Json), Json.ItemsPlainNamed (first :: rest) →
      first.PlainNamed ∧ Json.ItemsPlainNamed rest := by
    intro first rest plain
    simpa only [Json.ItemsPlainNamed] using plain
  exact each_of_mem step plain member

/-- What stands in a plainly named value is plainly named. -/
theorem Json.PlainNamed.of_lookup {names : List String} {target value : Json}
    (plain : target.PlainNamed) (found : lookup names target = some value) : value.PlainNamed := by
  -- Plain names go from an object to the values of its entries.
  refine Projection.holds_of_lookup (fun fields key value plain member => ?_) plain found
  simp only [Json.PlainNamed] at plain
  exact (plain.of_mem member).2

/-- An object among well keyed items is well keyed. -/
theorem Json.ItemsWellKeyed.object {items : List Json} (keyed : Json.ItemsWellKeyed items)
    {inner : Fields} (listed : .object inner ∈ items) : Json.FieldsWellKeyed inner := by
  simpa only [Json.WellKeyed] using keyed.of_mem listed

namespace Element

/-- An array among the leaves of a well keyed object is well keyed. -/
theorem wellKeyed_of_leaf {object : Fields} (keyed : Json.FieldsWellKeyed object)
    {names : List String} {items : List Json}
    (leaf : (names, .array items) ∈ namedLeaves [] object) : Json.ItemsWellKeyed items := by
  -- The leaf stands in the object at its names.
  have array : (Json.array items).WellKeyed :=
    Json.WellKeyed.of_lookup (by simpa [Json.WellKeyed] using keyed) (lookup_of_leaf keyed leaf)
  simpa only [Json.WellKeyed] using array

/-- An object whose keys are plain and stand once each, at every depth. -/
structure Regular (object : Fields) : Prop where
  keyed : Json.FieldsWellKeyed object
  plain : Json.FieldsPlainNamed object

/-- An object visited inside a regular one is regular. -/
theorem Regular.visited {object : Fields} (regular : Regular object) {names : List String}
    {items : List Json} {inner : Fields} (leaf : (names, .array items) ∈ namedLeaves [] object)
    (listed : .object inner ∈ items) : Regular inner := by
  -- The array stands in the object, so its items are as regular as the object.
  have keyed := wellKeyed_of_leaf regular.keyed leaf
  have plain : (Json.array items).PlainNamed := Json.PlainNamed.of_lookup
    (by simpa [Json.PlainNamed] using regular.plain) (lookup_of_leaf regular.keyed leaf)
  -- What holds of the array holds of each of its items.
  simp only [Json.PlainNamed] at plain
  exact ⟨keyed.object listed, by simpa [Json.PlainNamed] using plain.of_mem listed⟩

/-- A leaf of a value is no larger than the value. -/
theorem HasLeaf.sizeOf_le {value leaf : Json} {names : List String}
    (has : HasLeaf value names leaf) : sizeOf leaf ≤ sizeOf value := by
  -- The value of an entry is smaller than the object that it stands in.
  induction has with
  | self => exact Nat.le_refl _
  | entry listed _ ih =>
    have smaller := List.sizeOf_lt_of_mem listed
    simp only [Prod.mk.sizeOf_spec, Json.object.sizeOf_spec] at smaller ⊢
    omega

/-- A leaf of an object is smaller than the list of its entries. -/
theorem sizeOf_of_leaf {object : Fields} {names : List String} {value : Json}
    (leaf : (names, value) ∈ namedLeaves [] object) : sizeOf value < sizeOf object := by
  -- It is no larger than the value of the entry that has it.
  obtain ⟨key, held, tail, listed, -, inside⟩ := hasLeaf_of_mem_namedLeaves [] object _ leaf
  have smaller := List.sizeOf_lt_of_mem listed
  have within := inside.sizeOf_le
  simp only [Prod.mk.sizeOf_spec] at smaller within
  omega

/-- A property of objects holds of all, when it holds of each that visits only objects with it. -/
theorem visit_induction {motive : Fields → Prop}
    (visit : ∀ object, (∀ names items inner, (names, .array items) ∈ namedLeaves [] object →
      .object inner ∈ items → motive inner) → motive object) (object : Fields) : motive object := by
  -- A visited object is smaller than the object whose array lists it.
  induction size : sizeOf object using Nat.strongRecOn generalizing object with
  | _ size ih =>
    -- From the object to its leaf, to the item, and to the object that the item is.
    apply visit object
    intro names items inner leaf listed
    have array := sizeOf_of_leaf leaf
    have item := List.sizeOf_lt_of_mem listed
    simp only [Json.array.sizeOf_spec, Json.object.sizeOf_spec] at array item
    exact ih (sizeOf inner) (by omega) inner rfl

end Element

end DocPatch
