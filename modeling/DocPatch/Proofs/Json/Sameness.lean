import DocPatch.Proofs.Json.Equality
import DocPatch.Proofs.Related
import Mathlib.Data.List.Perm.Subperm

/-! Values that are the same up to the order of the entries in their objects, at any depth. -/

namespace DocPatch

namespace Json

mutual

/-- What an array inherits from its items, and an object from its values, and what all other values
    have, every value has. -/
theorem parts_induction {holds : Json → Prop}
    (array : ∀ items, (∀ item ∈ items, holds item) → holds (.array items))
    (object : ∀ fields : List (String × Json), (∀ entry ∈ fields, holds entry.2) →
      holds (.object fields))
    (other : ∀ value : Json, value.items? = none → value.fields? = none → holds value) :
    ∀ value, holds value
  -- Arrays and objects hand their parts on, and every other value has no parts.
  | .array items => array items (items_induction array object other items)
  | .object fields => object fields (fields_induction array object other fields)
  | .null | .bool _ | .number _ | .string _ => other _ rfl rfl

/-- Every item of a list has it. -/
theorem items_induction {holds : Json → Prop}
    (array : ∀ items, (∀ item ∈ items, holds item) → holds (.array items))
    (object : ∀ fields : List (String × Json), (∀ entry ∈ fields, holds entry.2) →
      holds (.object fields))
    (other : ∀ value : Json, value.items? = none → value.fields? = none → holds value) :
    ∀ items : List Json, ∀ item ∈ items, holds item
  -- The items are gone through one after the other.
  | [] => by simp
  | item :: rest =>
    List.forall_mem_cons.mpr ⟨parts_induction array object other item,
      items_induction array object other rest⟩

/-- Every value of an entry has it. -/
theorem fields_induction {holds : Json → Prop}
    (array : ∀ items, (∀ item ∈ items, holds item) → holds (.array items))
    (object : ∀ fields : List (String × Json), (∀ entry ∈ fields, holds entry.2) →
      holds (.object fields))
    (other : ∀ value : Json, value.items? = none → value.fields? = none → holds value) :
    ∀ fields : List (String × Json), ∀ entry ∈ fields, holds entry.2
  -- The entries are gone through one after the other, by their values.
  | [] => by simp
  | (_, value) :: rest =>
    List.forall_mem_cons.mpr ⟨parts_induction array object other value,
      fields_induction array object other rest⟩

end

/-- Values without repeated keys that equal one another: the order of entries is all that
    may differ. -/
structure Same (value other : Json) : Prop where
  left : value.WellKeyed
  right : other.WellKeyed
  equal : value.equal other = true

end Json

namespace Fields

/-- Entries whose keys stand once each, with the same value for each key. -/
structure Same (fields others : Fields) : Prop where
  left : (fields.map Prod.fst).Nodup
  right : (others.map Prod.fst).Nodup
  lookup : ∀ key, Option.Rel Json.Same (fields.lookup key) (others.lookup key)

/-- A key is there when an entry has it. -/
theorem lookup_isSome {key : String} {fields : Fields} :
    (fields.lookup key).isSome ↔ key ∈ fields.map Prod.fst := by
  rw [Option.isSome_iff_ne_none, ne_eq, lookup_eq_none, Decidable.not_not]

/-- Entries that each have a partner among others have the same keys, if there are as
    many of each. -/
theorem keys_perm {left right : Fields} (once : (left.map Prod.fst).Nodup)
    (count : left.length = right.length)
    (found : ∀ key ∈ left.map Prod.fst, key ∈ right.map Prod.fst) :
    (left.map Prod.fst).Perm (right.map Prod.fst) :=
  -- The keys on the left are among those on the right, and as many.
  (List.subperm_of_subset once found).perm_of_length_le (by simp [count])

end Fields

namespace Json

/-- Every item equals its counterpart. -/
theorem equal_array_iff {left right : List Json} : (Json.array left).equal (.array right) = true ↔
    List.Forall₂ (fun left right => left.equal right = true) left right := by
  -- The comparison takes the items in pairs, and fails where one side is longer.
  induction left generalizing right with
  | nil => cases right <;> simp [equal, equalItems]
  | cons item rest ih =>
    cases right with
    | nil => simp [equal, equalItems]
    | cons other others =>
      simp only [equal] at ih
      simp [equal, equalItems, ih]

/-- Every entry has a counterpart. -/
theorem includedIn_iff {other fields : Fields} : includedIn other fields = true ↔
    ∀ entry ∈ fields, ∃ found, other.lookup entry.1 = some found ∧ entry.2.equal found = true := by
  -- The entries are looked up one after the other.
  induction fields with
  | nil => simp [includedIn]
  | cons entry rest ih =>
    simp only [includedIn, Bool.and_eq_true, ih, List.forall_mem_cons]
    cases other.lookup entry.1 <;> simp

/-- Each key has values that equal one another, or none. -/
theorem equal_object_iff {left right : Fields} (once : (left.map Prod.fst).Nodup)
    (also : (right.map Prod.fst).Nodup) : (Json.object left).equal (.object right) = true ↔
      ∀ key, Option.Rel (fun left right => left.equal right = true) (left.lookup key)
        (right.lookup key) := by
  simp only [equal, Bool.and_eq_true, beq_iff_eq, includedIn_iff]
  constructor
  · intro given key
    obtain ⟨count, each⟩ := given
    cases held : left.lookup key with
    | some value =>
      obtain ⟨found, there, same⟩ := each _ (Fields.mem_of_lookup held)
      rw [there]
      exact .some same
    | none =>
      -- As there are as many keys on both sides, no other key is left for the right side.
      have perm := Fields.keys_perm once count fun key member => by
        obtain ⟨entry, among, rfl⟩ := List.mem_map.mp member
        obtain ⟨found, there, -⟩ := each entry among
        exact Fields.lookup_isSome.mp (by simp [there])
      rw [Fields.lookup_eq_none, perm.mem_iff, ← Fields.lookup_eq_none] at held
      rw [held]
      exact .none
  · intro related
    have keys (key : String) : key ∈ left.map Prod.fst ↔ key ∈ right.map Prod.fst := by
      rw [← Fields.lookup_isSome, ← Fields.lookup_isSome, isSome_of_rel (related key)]
    have perm := (List.perm_ext_iff_of_nodup once also).mpr keys
    refine ⟨by simpa using perm.length_eq, fun entry member => ?_⟩
    exact exists_of_rel_some (Fields.lookup_of_mem once member ▸ related entry.1)

/-- Arrays are the same when their items are, one by one. -/
theorem same_array_iff {left right : List Json} :
    Same (.array left) (.array right) ↔ List.Forall₂ Same left right := by
  -- Both being well keyed and equality go from an array to its items, and back.
  constructor
  · intro same
    have lefts := itemsWellKeyed_iff.mp (by simpa only [WellKeyed] using same.left)
    have rights := itemsWellKeyed_iff.mp (by simpa only [WellKeyed] using same.right)
    exact (forall₂_mem (equal_array_iff.mp same.equal)).imp fun item other pair =>
      ⟨lefts item pair.1.1, rights other pair.1.2, pair.2⟩
  · intro pairs
    refine ⟨?_, ?_, equal_array_iff.mpr (pairs.imp fun _ _ same => same.equal)⟩
    · rw [WellKeyed, itemsWellKeyed_iff]
      intro item member
      obtain ⟨other, -, same⟩ := exists_related (List.Forall₂.flip pairs) member
      exact same.left
    · rw [WellKeyed, itemsWellKeyed_iff]
      intro item member
      obtain ⟨other, -, same⟩ := exists_related pairs member
      exact same.right

/-- Objects are the same when their entries are, key by key. -/
theorem same_object_iff {left right : Fields} :
    Same (.object left) (.object right) ↔ Fields.Same left right := by
  -- Where the keys stand once each, every value is what its key leads to.
  constructor
  · intro same
    have lefts := fieldsWellKeyed_iff.mp (by simpa only [WellKeyed] using same.left)
    have rights := fieldsWellKeyed_iff.mp (by simpa only [WellKeyed] using same.right)
    refine ⟨lefts.1, rights.1, fun key => ?_⟩
    exact rel_imp ((equal_object_iff lefts.1 rights.1).mp same.equal key)
      fun value other held found equal =>
        ⟨lefts.2 _ (Fields.mem_of_lookup held), rights.2 _ (Fields.mem_of_lookup found), equal⟩
  · intro same
    refine ⟨?_, ?_, (equal_object_iff same.left same.right).mpr fun key =>
      rel_imp (same.lookup key) fun _ _ _ _ same => same.equal⟩
    · rw [WellKeyed, fieldsWellKeyed_iff]
      refine ⟨same.left, fun entry member => ?_⟩
      obtain ⟨_, -, same⟩ :=
        exists_of_rel_some (Fields.lookup_of_mem same.left member ▸ same.lookup entry.1)
      exact same.left
    · rw [WellKeyed, fieldsWellKeyed_iff]
      refine ⟨same.right, fun entry member => ?_⟩
      obtain ⟨_, -, same⟩ :=
        exists_of_rel_some (Fields.lookup_of_mem same.right member ▸ flip_rel (same.lookup entry.1))
      exact same.right

/-- Two values of one kind, with parts that are the same. -/
inductive Matched : Json → Json → Prop where
  | null : Matched .null .null
  | bool (value : Bool) : Matched (.bool value) (.bool value)
  | number {left right : Number} (equal : left.equal right = true) :
      Matched (.number left) (.number right)
  | string (value : String) : Matched (.string value) (.string value)
  | array {left right : List Json} (items : List.Forall₂ Same left right) :
      Matched (.array left) (.array right)
  | object {left right : Fields} (fields : Fields.Same left right) :
      Matched (.object left) (.object right)

namespace Same

variable {left right : Json}

/-- What is the same is of one kind, with the same parts. -/
theorem matched (same : Same left right) : Matched left right := by
  -- Values of different kinds are never equal.
  have equal := same.equal
  cases left <;> cases right <;> simp only [Json.equal, Bool.false_eq_true] at equal
  · exact .null
  · rw [beq_iff_eq.mp equal]
    exact .bool _
  · exact .number equal
  · rw [beq_iff_eq.mp equal]
    exact .string _
  · exact .array (same_array_iff.mp same)
  · exact .object (same_object_iff.mp same)

/-- A well keyed value is the same as itself. -/
theorem refl {value : Json} (keyed : value.WellKeyed) : Same value value :=
  ⟨keyed, keyed, value.equal_self keyed⟩

/-- Sameness does not depend on the side. -/
theorem symm (same : Same left right) : Same right left := by
  -- The parts of the value on the left are what the induction knows about.
  induction left using parts_induction generalizing right with
  | array items ih =>
    cases same.matched with
    | array pairs =>
      exact same_array_iff.mpr (List.Forall₂.flip ((forall₂_mem pairs).imp fun item other pair =>
        ih item pair.1.1 pair.2))
  | object fields ih =>
    cases same.matched with
    | object entries =>
      refine same_object_iff.mpr ⟨entries.right, entries.left, fun key => flip_rel ?_⟩
      exact rel_imp (entries.lookup key) fun value other held _ same =>
        ih _ (Fields.mem_of_lookup held) same
  | other value no_items no_fields =>
    refine ⟨same.right, same.left, ?_⟩
    cases same.matched with
    | number equal => rwa [Json.equal, Number.equal_comm]
    | array => simp [items?] at no_items
    | object => simp [fields?] at no_fields
    -- The other scalars are one and the same on both sides.
    | _ => exact equal_self _ same.left

/-- What is the same as a third value in two steps is so in one. -/
theorem trans {last : Json} (same : Same left right) (next : Same right last) : Same left last := by
  -- The induction is on the first value, whose form the other two share.
  induction left using parts_induction generalizing right last with
  | array items ih =>
    cases same.matched with
    | array pairs =>
      cases next.matched with
      | array others =>
        exact same_array_iff.mpr (forall₂_comp (forall₂_mem pairs) others
          fun item other third pair also => ih item pair.1.1 pair.2 also)
  | object fields ih =>
    cases same.matched with
    | object entries =>
      cases next.matched with
      | object others =>
        refine same_object_iff.mpr ⟨entries.left, others.right, fun key => ?_⟩
        exact rel_comp (entries.lookup key) (others.lookup key)
          fun value other third held same also => ih _ (Fields.mem_of_lookup held) same also
  -- What has no parts is compared as a whole; numbers may differ in form and be equal.
  | other value no_items no_fields =>
    refine ⟨same.left, next.right, ?_⟩
    cases same.matched with
    | number equal =>
      cases next.matched with
      | number also => rwa [Json.equal, Number.equal_congr equal]
    | array => simp [items?] at no_items
    | object => simp [fields?] at no_fields
    | _ => exact next.equal

/-- Equality does not tell values apart that are the same. -/
theorem equal_eq {other also : Json} (same : Same left right) (others : Same other also) :
    left.equal other = right.equal also := by
  -- Each side follows from the other along values that are the same.
  rw [Bool.eq_iff_iff]
  constructor
  · intro equal
    exact (same.symm.trans (Same.trans ⟨same.left, others.left, equal⟩ others)).equal
  · intro equal
    exact (same.trans (Same.trans ⟨same.right, others.right, equal⟩ others.symm)).equal

/-- What is the same is an object on both sides, with the same entries, or on none. -/
theorem fields? (same : Same left right) : Option.Rel Fields.Same left.fields? right.fields? := by
  -- Two objects are compared by their entries, and no other values have any.
  cases same.matched with
  | object entries => exact .some entries
  | _ => exact .none

/-- What is the same has the same elements. -/
theorem elements (same : Same left right) :
    List.Forall₂ Same (left.items?.getD []) (right.items?.getD []) := by
  -- Two arrays are compared item by item, and no other values have any.
  cases same.matched with
  | array pairs => exact pairs
  | _ => exact .nil

/-- What is the same is an object on both sides, or on none. -/
theorem isObject (same : Same left right) : left.isObject = right.isObject := by
  cases same.matched <;> rfl

end Same

end Json

namespace Fields.Same

variable {left right : Fields} {key : String}

/-- Well keyed entries are the same as themselves. -/
theorem refl {fields : Fields} (keyed : Json.FieldsWellKeyed fields) : Same fields fields :=
  Json.same_object_iff.mp (.refl (by simpa only [Json.WellKeyed] using keyed))

/-- Well keyed entries are the same in any order. -/
theorem of_perm {others fields : Fields} (keyed : Json.FieldsWellKeyed fields)
    (perm : fields.Perm others) : Same fields others where
  -- The order does not matter to a search where every key stands once.
  left := keyed.nodup
  right := (perm.map Prod.fst).nodup_iff.mp keyed.nodup
  lookup key := lookup_of_perm keyed.nodup perm key ▸ (refl keyed).lookup key

/-- Entries that are the same have the same keys. -/
theorem keys (same : Same left right) : (left.map Prod.fst).Perm (right.map Prod.fst) := by
  refine (List.perm_ext_iff_of_nodup same.left same.right).mpr fun key => ?_
  rw [← lookup_isSome, ← lookup_isSome, isSome_of_rel (same.lookup key)]

/-- Entries that are the same are as many. -/
theorem length_eq (same : Same left right) : left.length = right.length := by
  simpa using same.keys.length_eq

/-- Entries that are the same are none on both sides, or on neither. -/
theorem isEmpty_eq (same : Same left right) : left.isEmpty = right.isEmpty := by
  rw [Bool.eq_iff_iff, List.isEmpty_iff_length_eq_zero, same.length_eq,
    ← List.isEmpty_iff_length_eq_zero]

/-- Entries stay the same when a key is given values that are. -/
theorem put {value other : Json} (same : Same left right) (values : Json.Same value other) :
    Same (put key value left) (put key other right) where
  -- The key finds the new values, and every other key what it found before.
  left := nodup_put same.left
  right := nodup_put same.right
  lookup name := by
    rw [lookup_put, lookup_put]
    split
    · exact .some values
    · exact same.lookup name

/-- Entries stay the same when a key is taken away. -/
theorem remove (same : Same left right) : Same (remove key left) (remove key right) where
  -- The key finds nothing, and every other key what it found before.
  left := nodup_remove same.left
  right := nodup_remove same.right
  lookup name := by
    rw [lookup_remove same.left, lookup_remove same.right]
    split
    · exact .none
    · exact same.lookup name

/-- Tests that agree on the values of each key hold for all entries on both sides, or on none. -/
theorem all_eq {test also : String × Json → Bool} (same : Same left right)
    (each : ∀ key value other, (key, value) ∈ left → Json.Same value other →
      test (key, value) = also (key, other)) : left.all test = right.all also := by
  -- An entry of either side is found on the other side under its key.
  rw [Bool.eq_iff_iff, List.all_eq_true, List.all_eq_true]
  constructor
  · intro holds entry member
    obtain ⟨value, held, related⟩ := exists_of_rel_some
      (lookup_of_mem same.right member ▸ flip_rel (same.lookup entry.1))
    have before := mem_of_lookup held
    exact each _ _ _ before related ▸ holds _ before
  · intro holds entry member
    obtain ⟨other, held, related⟩ := exists_of_rel_some
      (lookup_of_mem same.left member ▸ same.lookup entry.1)
    exact each _ _ _ member related ▸ holds _ (mem_of_lookup held)

/-- A test of keys holds for all keys on both sides, or on none. -/
theorem all_keys_eq (same : Same left right) (test : String → Bool) :
    (left.all fun entry => test entry.1) = right.all fun entry => test entry.1 :=
  same.all_eq fun _ _ _ _ _ => rfl

end Fields.Same

/-- What is the same as a scalar is one. -/
theorem Json.Same.scalar {left right : Json} (same : Json.Same left right)
    (isScalar : left.Scalar) : right.Scalar := by
  cases same.matched with
  | array => exact isScalar
  | object entries =>
    -- Without entries on the one side, there are none on the other.
    simp only [Json.Scalar] at isScalar ⊢
    subst isScalar
    exact List.length_eq_zero_iff.mp entries.length_eq.symm
  | _ => trivial

end DocPatch
