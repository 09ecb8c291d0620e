import DocPatch.Proofs.Plan.Leaves

/-! What holds of every key of a tree, at any depth, and so of the names of its leaves. -/

namespace DocPatch

namespace Json

mutual

/-- Every key, at any depth, has a property. -/
def KeysHold (property : String → Prop) : Json → Prop
  | .array items => ItemsKeysHold property items
  | .object fields => FieldsKeysHold property fields
  | _ => True
termination_by structural x => x

/-- Every key of every item has the property. -/
def ItemsKeysHold (property : String → Prop) : List Json → Prop
  | [] => True
  | item :: rest => item.KeysHold property ∧ ItemsKeysHold property rest
termination_by structural x => x

/-- Every key of an object has the property, and so has every key of its values. -/
def FieldsKeysHold (property : String → Prop) : List (String × Json) → Prop
  | [] => True
  | (key, value) :: rest => property key ∧ value.KeysHold property ∧ FieldsKeysHold property rest
termination_by structural x => x

end

mutual

/-- Every key of a value and of the objects directly inside its objects has a property. What stands
    in an array does not count. -/
def OuterKeysHold (property : String → Prop) : Json → Prop
  | .object fields => FieldsOuterKeysHold property fields
  | _ => True
termination_by structural x => x

/-- Every key of an object has the property, and so have the keys of the objects
    directly inside it. -/
def FieldsOuterKeysHold (property : String → Prop) : List (String × Json) → Prop
  | [] => True
  | (key, value) :: rest =>
    property key ∧ value.OuterKeysHold property ∧ FieldsOuterKeysHold property rest
termination_by structural x => x

end

/-- The outer keys of an object have a property when each key and the outer keys of its value do. -/
theorem fieldsOuterKeysHold_iff {property : String → Prop} {fields : Fields} :
    FieldsOuterKeysHold property fields ↔
      ∀ entry ∈ fields, property entry.1 ∧ entry.2.OuterKeysHold property := by
  -- Entry by entry, both sides say the same.
  induction fields with
  | nil => simp [FieldsOuterKeysHold]
  | cons entry rest ih => simp [FieldsOuterKeysHold, ih, and_assoc]

mutual

/-- What holds of all keys of a value holds of its outer keys. -/
theorem KeysHold.outer {property : String → Prop} :
    ∀ value : Json, value.KeysHold property → value.OuterKeysHold property
  -- Only an object has outer keys.
  | .null, _ | .bool _, _ | .number _, _ | .string _, _ | .array _, _ => by simp [OuterKeysHold]
  | .object fields, holds => by
    simp only [KeysHold] at holds
    simpa only [OuterKeysHold] using FieldsKeysHold.outer fields holds

/-- What holds of all keys of an object holds of its outer keys. -/
theorem FieldsKeysHold.outer {property : String → Prop} :
    ∀ fields : List (String × Json), FieldsKeysHold property fields →
      FieldsOuterKeysHold property fields
  -- The entries are gone through one after the other.
  | [], _ => by simp [FieldsOuterKeysHold]
  | (key, value) :: rest, holds => by
    simp only [FieldsKeysHold] at holds
    simp only [FieldsOuterKeysHold]
    exact ⟨holds.1, KeysHold.outer value holds.2.1, FieldsKeysHold.outer rest holds.2.2⟩

end

/-- What holds of the keys of items holds of those of each item. -/
theorem ItemsKeysHold.of_mem {property : String → Prop} {items : List Json}
    (holds : ItemsKeysHold property items) {item : Json} (member : item ∈ items) :
    item.KeysHold property := by
  -- Each item is looked at with those behind it.
  have step : ∀ (first : Json) (rest : List Json), ItemsKeysHold property (first :: rest) →
      first.KeysHold property ∧ ItemsKeysHold property rest := by
    intro first rest holds
    simpa only [ItemsKeysHold] using holds
  exact each_of_mem step holds member

/-- What holds of the keys of an object holds of the key and the value of each entry. -/
theorem FieldsKeysHold.of_mem {property : String → Prop} {fields : Fields}
    (holds : FieldsKeysHold property fields) {key : String} {value : Json}
    (member : (key, value) ∈ fields) : property key ∧ value.KeysHold property := by
  -- Each entry is looked at with those behind it.
  have step : ∀ (first : String × Json) (rest : Fields), FieldsKeysHold property (first :: rest) →
      (property first.1 ∧ first.2.KeysHold property) ∧ FieldsKeysHold property rest := by
    intro entry rest holds
    obtain ⟨name, held⟩ := entry
    simp only [FieldsKeysHold] at holds
    exact ⟨⟨holds.1, holds.2.1⟩, holds.2.2⟩
  exact each_of_mem step holds member

mutual

/-- What holds of all texts holds of all keys. -/
theorem keysHold_of_forall {property : String → Prop} (all : ∀ key, property key) :
    ∀ value : Json, value.KeysHold property
  -- The induction follows the value.
  | .null | .bool _ | .number _ | .string _ => by simp [KeysHold]
  | .array items => by simpa only [KeysHold] using itemsKeysHold_of_forall all items
  | .object fields => by simpa only [KeysHold] using fieldsKeysHold_of_forall all fields

/-- What holds of all texts holds of all keys of items. -/
theorem itemsKeysHold_of_forall {property : String → Prop} (all : ∀ key, property key) :
    ∀ items : List Json, ItemsKeysHold property items
  -- The items are gone through one after the other.
  | [] => by simp [ItemsKeysHold]
  | item :: rest => by
    simp only [ItemsKeysHold]
    exact ⟨keysHold_of_forall all item, itemsKeysHold_of_forall all rest⟩

/-- What holds of all texts holds of all keys of an object. -/
theorem fieldsKeysHold_of_forall {property : String → Prop} (all : ∀ key, property key) :
    ∀ fields : List (String × Json), FieldsKeysHold property fields
  -- Of each entry the key comes first, and then the keys of its value.
  | [] => by simp [FieldsKeysHold]
  | (key, value) :: rest => by
    simp only [FieldsKeysHold]
    exact ⟨all key, keysHold_of_forall all value, fieldsKeysHold_of_forall all rest⟩

end

mutual

/-- What holds of plain names holds of all keys of a plainly named value. -/
theorem PlainNamed.keysHold {property : String → Prop}
    (plain : ∀ key, Path.Plain key → property key) :
    ∀ value : Json, value.PlainNamed → value.KeysHold property
  -- The induction follows the value.
  | .null, _ | .bool _, _ | .number _, _ | .string _, _ => by simp [KeysHold]
  | .array items, named => by
    simp only [PlainNamed] at named
    simpa only [KeysHold] using ItemsPlainNamed.keysHold plain items named
  | .object fields, named => by
    simp only [PlainNamed] at named
    simpa only [KeysHold] using FieldsPlainNamed.keysHold plain fields named

/-- What holds of plain names holds of all keys of plainly named items. -/
theorem ItemsPlainNamed.keysHold {property : String → Prop}
    (plain : ∀ key, Path.Plain key → property key) :
    ∀ items : List Json, ItemsPlainNamed items → ItemsKeysHold property items
  -- The items are gone through one after the other.
  | [], _ => by simp [ItemsKeysHold]
  | item :: rest, named => by
    simp only [ItemsPlainNamed] at named
    simp only [ItemsKeysHold]
    exact ⟨PlainNamed.keysHold plain item named.1, ItemsPlainNamed.keysHold plain rest named.2⟩

/-- What holds of plain names holds of all keys of plainly named entries. -/
theorem FieldsPlainNamed.keysHold {property : String → Prop}
    (plain : ∀ key, Path.Plain key → property key) :
    ∀ fields : List (String × Json), FieldsPlainNamed fields → FieldsKeysHold property fields
  -- Of each entry the key comes first, and then the keys of its value.
  | [], _ => by simp [FieldsKeysHold]
  | (key, value) :: rest, named => by
    simp only [FieldsPlainNamed] at named
    simp only [FieldsKeysHold]
    exact ⟨plain key named.1, PlainNamed.keysHold plain value named.2.1,
      FieldsPlainNamed.keysHold plain rest named.2.2⟩

end

end Json

namespace Element

variable {property : String → Prop}

/-- What holds of the outer keys of a value holds of the names of its leaves. -/
theorem HasLeaf.outerKeys {value leaf : Json} {names : List String}
    (has : HasLeaf value names leaf) (holds : value.OuterKeysHold property) :
    ∀ name ∈ names, property name := by
  -- All names of a leaf are keys on the way to it.
  induction has with
  | self => simp
  | entry listed _ ih =>
    simp only [Json.OuterKeysHold] at holds
    obtain ⟨first, others⟩ := Json.fieldsOuterKeysHold_iff.mp holds _ listed
    exact List.forall_mem_cons.mpr ⟨first, ih others⟩

/-- What holds of all keys of a value holds of the keys inside its leaves. -/
theorem HasLeaf.keysHold {value leaf : Json} {names : List String}
    (has : HasLeaf value names leaf) (holds : value.KeysHold property) :
    leaf.KeysHold property := by
  -- The keys inside of an entry are keys of the object.
  induction has with
  | self => exact holds
  | entry listed _ ih =>
    simp only [Json.KeysHold] at holds
    exact ih (holds.of_mem listed).2

/-- What holds of the outer keys of an object holds of the names of its leaves. -/
theorem outerKeys_of_leaf {object : Fields} (holds : Json.FieldsOuterKeysHold property object)
    {leaf : List String × Json} (member : leaf ∈ namedLeaves [] object) :
    ∀ name ∈ leaf.1, property name :=
  (hasLeaf_of_leaf member).2.outerKeys (by simpa only [Json.OuterKeysHold] using holds)

/-- What holds of all keys of an object holds of the names of its leaves and of the keys
    inside them. -/
theorem keysHold_of_mem_namedLeaves {object : Fields}
    (holds : Json.FieldsKeysHold property object) {leaf : List String × Json}
    (member : leaf ∈ namedLeaves [] object) :
    (∀ name ∈ leaf.1, property name) ∧ leaf.2.KeysHold property :=
  -- The names are outer keys of the object, and what is inside a leaf is inside the object.
  ⟨outerKeys_of_leaf (Json.FieldsKeysHold.outer object holds) member,
    (hasLeaf_of_leaf member).2.keysHold (by simpa only [Json.KeysHold] using holds)⟩

/-- A leaf of an object lies behind one name at least. -/
theorem names_ne_nil {object : Fields} {names : List String} {value : Json}
    (leaf : (names, value) ∈ namedLeaves [] object) : names ≠ [] :=
  (hasLeaf_of_leaf leaf).1

/-- The names of a leaf lead somewhere. -/
theorem leads_of_leaf {object : Fields} (plain : Json.FieldsPlainNamed object)
    {names : List String} {value : Json} (leaf : (names, value) ∈ namedLeaves [] object) :
    Path.Leads names := by
  -- The keys on the way to a leaf are plain.
  have keys := plain.keysHold (fun _ named => named)
  exact ⟨names_ne_nil leaf, (keysHold_of_mem_namedLeaves keys leaf).1⟩

/-- In an array among the leaves of an object, every listed object has the property of the keys, and
    so have the names of the leaf. -/
theorem keysHold_visited {object : Fields}
    (holds : Json.FieldsKeysHold property object) {names : List String} {items : List Json}
    (leaf : (names, .array items) ∈ namedLeaves [] object) :
    (∀ name ∈ names, property name) ∧
      ∀ inner, .object inner ∈ items → Json.FieldsKeysHold property inner := by
  -- The keys of a listed object lie inside the leaf that lists it.
  obtain ⟨named, inside⟩ := keysHold_of_mem_namedLeaves holds leaf
  refine ⟨named, fun inner listed => ?_⟩
  simp only [Json.KeysHold] at inside
  simpa only [Json.KeysHold] using inside.of_mem listed

end Element

end DocPatch
