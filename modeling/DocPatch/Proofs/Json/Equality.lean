import DocPatch.Proofs.Json.Entries

/-! Values that are well formed or scalar, and when values equal one another. -/

namespace DocPatch

namespace Json

mutual

/-- Every object, at any depth, has each of its keys once. -/
def WellKeyed : Json → Prop
  | .array items => ItemsWellKeyed items
  | .object fields => FieldsWellKeyed fields
  | _ => True
termination_by structural x => x

/-- Every item is well keyed. -/
def ItemsWellKeyed : List Json → Prop
  | [] => True
  | item :: rest => item.WellKeyed ∧ ItemsWellKeyed rest
termination_by structural x => x

/-- Each key stands once, and every value is well keyed. -/
def FieldsWellKeyed : List (String × Json) → Prop
  | [] => True
  | (key, value) :: rest => rest.lookup key = none ∧ value.WellKeyed ∧ FieldsWellKeyed rest
termination_by structural x => x

end

/-- A value without parts: anything but an array or an object that has entries. -/
def Scalar : Json → Prop
  | .array _ => False
  -- An empty object has no parts that an update could reach.
  | .object fields => fields = []
  | _ => True

end Json

/-- Entries are well keyed when each key stands once and every value is well keyed. -/
theorem Json.fieldsWellKeyed_iff {fields : Fields} : Json.FieldsWellKeyed fields ↔
    (fields.map Prod.fst).Nodup ∧ ∀ entry ∈ fields, entry.2.WellKeyed := by
  -- A key that is not found behind an entry is not among the keys behind it.
  induction fields with
  | nil => simp [Json.FieldsWellKeyed]
  | cons entry rest ih =>
    simp only [Json.FieldsWellKeyed, ih, Fields.lookup_eq_none, List.map_cons, List.nodup_cons,
      List.forall_mem_cons]
    exact ⟨fun given => ⟨⟨given.1, given.2.2.1⟩, given.2.1, given.2.2.2⟩,
      fun given => ⟨given.1.1, given.2.1, given.1.2, given.2.2⟩⟩

/-- Items are well keyed when each of them is. -/
theorem Json.itemsWellKeyed_iff {items : List Json} :
    Json.ItemsWellKeyed items ↔ ∀ item ∈ items, item.WellKeyed := by
  -- Item by item, both sides say the same.
  induction items with
  | nil => simp [Json.ItemsWellKeyed]
  | cons item rest ih => simp [Json.ItemsWellKeyed, ih]

/-- The keys of well keyed entries stand once each. -/
theorem Json.FieldsWellKeyed.nodup {fields : Fields} (keyed : Json.FieldsWellKeyed fields) :
    (fields.map Prod.fst).Nodup :=
  (Json.fieldsWellKeyed_iff.mp keyed).1

/-- An entry of well keyed entries has a well keyed value. -/
theorem Json.FieldsWellKeyed.of_mem {fields : Fields} (keyed : Json.FieldsWellKeyed fields)
    {key : String} {value : Json} (member : (key, value) ∈ fields) : value.WellKeyed :=
  (Json.fieldsWellKeyed_iff.mp keyed).2 _ member

/-- An item of well keyed items is well keyed. -/
theorem Json.ItemsWellKeyed.of_mem {items : List Json} (keyed : Json.ItemsWellKeyed items)
    {item : Json} (member : item ∈ items) : item.WellKeyed :=
  Json.itemsWellKeyed_iff.mp keyed item member

/-- Well keyed entries stay so when a key is given a well keyed value. -/
theorem Json.FieldsWellKeyed.put {fields : Fields} (keyed : Json.FieldsWellKeyed fields)
    (key : String) {value : Json} (inner : value.WellKeyed) :
    Json.FieldsWellKeyed (Fields.put key value fields) :=
  -- The entries are those from before and the new one, and the key still stands once.
  Json.fieldsWellKeyed_iff.mpr ⟨Fields.nodup_put keyed.nodup, fun _ member =>
    (Fields.mem_put member).elim (fun same => same ▸ inner) fun among => keyed.of_mem among⟩

/-- Well keyed entries stay so when entries with well keyed values are merged into them. -/
theorem Json.FieldsWellKeyed.merge {fields entries : Fields} (keyed : Json.FieldsWellKeyed fields)
    (values : ∀ entry ∈ entries, entry.2.WellKeyed) :
    Json.FieldsWellKeyed (Fields.merge fields entries) := by
  -- The entries are put one after the other.
  induction entries generalizing fields with
  | nil => exact keyed
  | cons entry rest ih =>
    exact ih (keyed.put entry.1 (values entry (by simp))) fun other member =>
      values other (by simp [member])

/-- Entries with well keyed values make up well keyed entries. -/
theorem Json.fieldsWellKeyed_ofEntries {entries : Fields}
    (values : ∀ entry ∈ entries, entry.2.WellKeyed) :
    Json.FieldsWellKeyed (Fields.ofEntries entries) := by
  -- The entries are put into nothing, one after the other.
  have nothing : Json.FieldsWellKeyed [] := by simp [Json.FieldsWellKeyed]
  exact nothing.merge values

/-- Every number equals itself. -/
@[simp] theorem Number.equal_self (number : Number) : number.equal number = true := by
  cases number <;> simp [Number.equal, Double.equal]

/-- Equality of numbers does not depend on the side. -/
theorem Number.equal_comm (left right : Number) : left.equal right = right.equal left := by
  -- Integers are compared as they are, and binary64 numbers by rank and, unless that is
  -- zero, by sign.
  cases left <;> cases right <;> simp only [Number.equal]
  · -- Two integers.
    exact BEq.comm
  · -- Two binary64 numbers.
    rename_i left right
    by_cases same : left.rank = right.rank
    · -- Of one rank, they are told apart by the sign alone.
      simp [Double.equal, same, Bool.beq_comm]
    · simp [Double.equal, beq_eq_false_iff_ne.mpr same, beq_eq_false_iff_ne.mpr (Ne.symm same)]

/-- Numbers that equal one number equal the same numbers. -/
theorem Number.equal_congr {left right : Number} (same : left.equal right = true)
    (other : Number) : left.equal other = right.equal other := by
  -- Two zeros may differ in their sign, but then the sign counts in no comparison.
  cases left <;> cases right <;> simp only [Number.equal, Bool.false_eq_true] at same
  · -- Integers that equal one another are the same.
    rw [beq_iff_eq.mp same]
  · -- Of binary64 numbers, the rank is the same, and unless it is zero the sign as well.
    rename_i left right
    obtain ⟨rank, sign⟩ := by simpa [Double.equal] using same
    cases other with
    | int value => rfl
    | float value => rcases sign with zero | sign <;> simp_all [Number.equal, Double.equal]

mutual

/-- A well keyed value equals itself. -/
theorem Json.equal_self : ∀ value : Json, value.WellKeyed → value.equal value = true
  -- Entries are looked up by their keys, so an object equals itself only if each key stands once.
  | .null, _ | .bool _, _ | .number _, _ | .string _, _ => by simp [Json.equal]
  | .array items, keyed => by
    simp only [Json.WellKeyed] at keyed
    simpa [Json.equal] using Json.equalItems_self items keyed
  | .object fields, keyed => by
    simp only [Json.WellKeyed] at keyed
    -- Each entry is looked up in the object that it comes from.
    have every := Json.includedIn_self fields fields keyed fun key value member =>
      Fields.lookup_of_mem keyed.nodup member
    simpa [Json.equal] using every

/-- Well keyed items equal themselves. -/
theorem Json.equalItems_self :
    ∀ items : List Json, Json.ItemsWellKeyed items → Json.equalItems items items = true
  -- The items are compared pair by pair.
  | [], _ => by simp [Json.equalItems]
  | item :: rest, keyed => by
    simp only [Json.ItemsWellKeyed] at keyed
    simp [Json.equalItems, Json.equal_self item keyed.1, Json.equalItems_self rest keyed.2]

/-- Well keyed entries are included where each of their keys leads to their value. -/
theorem Json.includedIn_self (whole : Fields) :
    ∀ fields : List (String × Json), Json.FieldsWellKeyed fields →
      (∀ key value, (key, value) ∈ fields → whole.lookup key = some value) →
      Json.includedIn whole fields = true
  -- Every entry is found in the whole object, though only the later ones remain to be checked.
  | [], _, _ => by simp [Json.includedIn]
  | (key, value) :: rest, keyed, found => by
    simp only [Json.FieldsWellKeyed] at keyed
    -- The first entry is found and equals itself, and the others are found as before.
    have here := found key value (by simp)
    have others := Json.includedIn_self whole rest keyed.2.2 fun name held member =>
      found name held (by simp [member])
    simp [Json.includedIn, here, Json.equal_self value keyed.2.1, others]

end

namespace Json

/-- A scalar has no objects inside, so it is well keyed. -/
theorem Scalar.wellKeyed {value : Json} (scalar : value.Scalar) : value.WellKeyed := by
  -- Only arrays and objects with entries have anything to check.
  cases value with
  -- An object is a scalar only while it is empty.
  | object fields =>
    simp only [Scalar] at scalar
    simp [scalar, WellKeyed, FieldsWellKeyed]
  | array items => simp [Scalar] at scalar
  | _ => simp [WellKeyed]

/-- A scalar is no array. -/
theorem Scalar.items?_eq_none {value : Json} (scalar : value.Scalar) : value.items? = none := by
  -- Only an array has items, and an array is no scalar.
  cases value with
  | array items => simp [Scalar] at scalar
  | _ => rfl

/-- Equality with a scalar does not depend on the side. -/
theorem Scalar.equal_comm {scalar : Json} (isScalar : scalar.Scalar) (value : Json) :
    scalar.equal value = value.equal scalar := by
  -- Values of different kinds never equal, and equality of one kind does not depend on the side.
  cases scalar with
  | null => cases value <;> simp [equal]
  | bool left =>
    cases value with
    | bool right =>
      simp only [equal]
      exact BEq.comm
    | _ => simp [equal]
  | string left =>
    cases value with
    | string right =>
      simp only [equal]
      exact BEq.comm
    | _ => simp [equal]
  -- Numbers are compared by the relation of their own.
  | number left =>
    cases value with
    | number right => simpa [equal] using left.equal_comm right
    | _ => simp [equal]
  -- The empty object equals only the object that has no entries either.
  | object fields =>
    simp only [Scalar] at isScalar
    subst isScalar
    cases value with
    | object others => cases others <;> simp [equal, includedIn]
    | _ => simp [equal]
  | array items => simp [Scalar] at isScalar

/-- Values that equal one scalar equal the same values. -/
theorem Scalar.equal_congr {value scalar : Json} (isScalar : scalar.Scalar)
    (same : value.equal scalar = true) (other : Json) : value.equal other = scalar.equal other := by
  -- Apart from numbers, only the scalar itself equals it.
  cases scalar with
  -- Nothing but a null equals a null.
  | null =>
    cases value with
    | null => rfl
    | _ => simp [equal] at same
  | bool left =>
    cases value with
    | bool right =>
      obtain rfl : right = left := by simpa [equal] using same
      rfl
    | _ => simp [equal] at same
  | string left =>
    cases value with
    | string right =>
      obtain rfl : right = left := by simpa [equal] using same
      rfl
    | _ => simp [equal] at same
  -- Different numbers may be equal, so the comparison with a third number is needed.
  | number left =>
    cases value with
    | number right =>
      simp only [equal] at same
      cases other with
      | number third => simpa [equal] using Number.equal_congr same third
      | _ => simp [equal]
    | _ => simp [equal] at same
  -- What equals the empty object is the empty object.
  | object fields =>
    simp only [Scalar] at isScalar
    subst isScalar
    cases value with
    | object others =>
      obtain ⟨rfl, _⟩ : others = [] ∧ includedIn [] others = true := by simpa [equal] using same
      rfl
    | _ => simp [equal] at same
  | array items => simp [Scalar] at isScalar

end Json

end DocPatch
