import DocPatch.Proofs.Json.Equality
import Mathlib.Data.List.Forall2

/-! Values from which elements of arrays were taken away, at any depth, and tests that no value
    begins to pass in this way. -/

namespace DocPatch.Json

mutual

/-- The first value becomes the second when elements of its arrays are taken away. -/
inductive Thinned : Json → Json → Prop where
  | same (value : Json) : Thinned value value
  | array {before after : List Json} :
      ItemsThinned before after → Thinned (.array before) (.array after)
  | object {before after : List (String × Json)} :
      FieldsThinned before after → Thinned (.object before) (.object after)

/-- Items are taken away or kept. A kept object may itself be thinned, any other item
    is the same. -/
inductive ItemsThinned : List Json → List Json → Prop where
  | nil : ItemsThinned [] []
  | drop {first : Json} {rest after : List Json} :
      ItemsThinned rest after → ItemsThinned (first :: rest) after
  | keep {first item : Json} {rest after : List Json} : Thinned first item →
      (first.isObject = false → item = first) → ItemsThinned rest after →
      ItemsThinned (first :: rest) (item :: after)

/-- Every entry keeps its key, and its value is thinned. -/
inductive FieldsThinned : List (String × Json) → List (String × Json) → Prop where
  | nil : FieldsThinned [] []
  | entry {key : String} {before after : Json} {rest others : List (String × Json)} :
      Thinned before after → FieldsThinned rest others →
      FieldsThinned ((key, before) :: rest) ((key, after) :: others)

end

/-- What may become of an item that is not taken away. -/
structure Kept (before after : Json) : Prop where
  thinned : before.Thinned after
  same : before.isObject = false → after = before

/-- An item may stay as it is. -/
theorem Kept.refl (value : Json) : value.Kept value := ⟨.same value, fun _ => rfl⟩

/-- A thinned object is an object, and only an object becomes one. -/
theorem Thinned.isObject {before after : Json} (thinned : before.Thinned after) :
    after.isObject = before.isObject := by
  cases thinned <;> rfl

/-- All items may stay as they are. -/
theorem ItemsThinned.refl (items : List Json) : ItemsThinned items items := by
  -- Every item is kept.
  induction items with
  | nil => exact .nil
  | cons item rest ih => exact .keep (.same item) (fun _ => rfl) ih

/-- All entries may stay as they are. -/
theorem FieldsThinned.refl (fields : Fields) : FieldsThinned fields fields := by
  -- Every entry is kept.
  induction fields with
  | nil => exact .nil
  | cons entry rest ih => exact .entry (.same entry.2) ih

/-- Of an array an array is left. -/
theorem Thinned.of_array {items : List Json} {after : Json}
    (thinned : (Json.array items).Thinned after) :
    ∃ left, after = .array left ∧ ItemsThinned items left := by
  -- The array is the same one, or items of it were taken away.
  cases thinned with
  | same => exact ⟨items, rfl, .refl items⟩
  | array inside => exact ⟨_, rfl, inside⟩

/-- Of an object an object is left. -/
theorem Thinned.of_object {fields : Fields} {after : Json}
    (thinned : (Json.object fields).Thinned after) :
    ∃ left, after = .object left ∧ FieldsThinned fields left := by
  -- The object is the same one, or its entries are thinned.
  cases thinned with
  | same => exact ⟨fields, rfl, .refl fields⟩
  | object inside => exact ⟨_, rfl, inside⟩

mutual

/-- What is thinned twice is thinned. -/
theorem Thinned.trans : ∀ {first second third : Json}, first.Thinned second → second.Thinned third →
    first.Thinned third
  -- Both steps have the form of the value between them.
  | _, _, _, .same _, later => later
  | _, _, _, earlier, .same _ => earlier
  | _, _, _, .array here, .array there => .array (here.trans there)
  | _, _, _, .object here, .object there => .object (here.trans there)

/-- Items that are thinned twice are thinned. -/
theorem ItemsThinned.trans : ∀ {first second third : List Json}, ItemsThinned first second →
    ItemsThinned second third → ItemsThinned first third
  -- An item that either step takes away is gone in the end.
  | _, _, _, .nil, later => later
  | _, _, _, .drop here, later => .drop (here.trans later)
  | _, _, _, .keep _ _ here, .drop there => .drop (here.trans there)
  | _, _, _, .keep thins same here, .keep thinsAgain sameAgain there =>
    .keep (thins.trans thinsAgain)
      (fun other => by
        obtain rfl := same other
        exact sameAgain other)
      (here.trans there)

/-- Entries that are thinned twice are thinned. -/
theorem FieldsThinned.trans : ∀ {first second third : List (String × Json)},
    FieldsThinned first second → FieldsThinned second third → FieldsThinned first third
  -- Both steps keep all entries, so they go along together.
  | _, _, _, .nil, later => later
  | _, _, _, .entry thins here, .entry thinsAgain there =>
    .entry (thins.trans thinsAgain) (here.trans there)

end

/-- A kept item is an object just where it was one. -/
theorem Kept.isObject {before after : Json} (kept : before.Kept after) :
    after.isObject = before.isObject := kept.thinned.isObject

/-- Every remaining item is one that was kept. -/
theorem ItemsThinned.exists_before {before after : List Json} (thinned : ItemsThinned before after)
    {item : Json} (member : item ∈ after) : ∃ first ∈ before, first.Kept item := by
  -- The item is what the first one became, or it is found behind.
  induction before generalizing after with
  | nil =>
    cases thinned
    simp at member
  | cons first rest ih =>
    cases thinned with
    | drop others =>
      obtain ⟨found, among, kept⟩ := ih others member
      exact ⟨found, by simp [among], kept⟩
    | keep thins same others =>
      rcases List.mem_cons.mp member with rfl | later
      · exact ⟨first, by simp, thins, same⟩
      · obtain ⟨found, among, kept⟩ := ih others later
        exact ⟨found, by simp [among], kept⟩

/-- Items that are all kept make up a thinned list. -/
theorem ItemsThinned.of_kept {before after : List Json} (kept : List.Forall₂ Kept before after) :
    ItemsThinned before after := by
  -- No item is taken away, and each of them is kept.
  induction kept with
  | nil => exact .nil
  | cons here _ ih => exact .keep here.thinned here.same ih

/-- Filtering a list thins it. -/
theorem ItemsThinned.filter (selects : Json → Bool) (items : List Json) :
    ItemsThinned items (items.filter selects) := by
  -- An item that the filter selects is kept, and any other is taken away.
  induction items with
  | nil => exact .nil
  | cons item rest ih =>
    by_cases chosen : selects item = true
    · rw [List.filter_cons_of_pos chosen]
      exact .keep (.same item) (fun _ => rfl) ih
    · rw [List.filter_cons_of_neg chosen]
      exact .drop ih

/-- A key holds nothing before and after, or its value is thinned. -/
theorem FieldsThinned.lookup {before after : Fields} (thinned : FieldsThinned before after)
    (key : String) : Option.Rel Thinned (before.lookup key) (after.lookup key) := by
  -- Entries at the same position have the same key, so both searches stop together.
  induction before generalizing after with
  | nil =>
    cases thinned
    exact .none
  | cons entry rest ih =>
    cases thinned with
    | @entry name before after _ others thins later =>
      rw [Fields.lookup_entry, Fields.lookup_entry]
      by_cases same : key = name
      · simpa [same] using Option.Rel.some thins
      · simpa [same] using ih later

/-- A key that held nothing holds nothing. -/
theorem FieldsThinned.lookup_none {before after : Fields} (thinned : FieldsThinned before after)
    {key : String} (missing : before.lookup key = none) : after.lookup key = none := by
  -- The same key is looked up on both sides.
  have related := thinned.lookup key
  rw [missing] at related
  cases held : after.lookup key with
  | none => rfl
  | some value => simp [held] at related

/-- What a key held is thinned. -/
theorem FieldsThinned.lookup_some {before after : Fields} (thinned : FieldsThinned before after)
    {key : String} {value : Json} (found : before.lookup key = some value) :
    ∃ left, after.lookup key = some left ∧ value.Thinned left := by
  -- The same key is looked up on both sides.
  have related := thinned.lookup key
  rw [found] at related
  cases held : after.lookup key with
  | none => simp [held] at related
  | some left =>
    rw [held, Option.rel_some_some] at related
    exact ⟨left, rfl, related⟩

/-- A value without a field of this name: the field is missing, or the value is no object. -/
def Lacks (name : String) (value : Json) : Prop :=
  ∀ fields, value = .object fields → fields.lookup name = none

/-- A field that is not there does not come with thinning. -/
theorem Thinned.lacks {name : String} {before after : Json} (thinned : before.Thinned after)
    (lacks : before.Lacks name) : after.Lacks name := by
  -- Only an object becomes an object, and its keys stay the same.
  rintro left rfl
  have object := thinned.isObject
  cases before with
  | object fields =>
    obtain ⟨others, same, inside⟩ := thinned.of_object
    cases same
    exact inside.lookup_none (lacks fields rfl)
  | _ => simp [Json.isObject] at object

/-- Putting a thinned value in the place of a value thins the object. -/
theorem FieldsThinned.put {key : String} {before after : Json} {fields : Fields}
    (found : fields.lookup key = some before) (thinned : before.Thinned after) :
    FieldsThinned fields (Fields.put key after fields) := by
  -- The value is put where the search finds the old one.
  induction fields with
  | nil => simp at found
  | cons entry rest ih =>
    rcases entry with ⟨name, held⟩
    rw [Fields.lookup_entry] at found
    by_cases same : name = key
    · simp only [same, ↓reduceIte, Option.some.injEq] at found
      subst same found
      simpa [Fields.put] using FieldsThinned.entry thinned (.refl rest)
    · simp only [Ne.symm same, ↓reduceIte] at found
      simpa [Fields.put, same] using FieldsThinned.entry (.same held) (ih found)

/-- A thinned value equals the same scalars as before. -/
theorem Thinned.equal_scalar {before after : Json} (thinned : before.Thinned after) {scalar : Json}
    (isScalar : scalar.Scalar) : after.equal scalar = before.equal scalar := by
  cases thinned with
  | same => rfl
  -- No scalar is an array, and none but the object without entries is an object.
  | array =>
    cases scalar with
    | array items => simp [Scalar] at isScalar
    | _ => simp [equal]
  | object fields =>
    cases scalar with
    | object others =>
      simp only [Scalar] at isScalar
      cases fields <;> simp [isScalar, equal]
    | _ => simp [equal]

/-- A test that no item begins to pass by being thinned. -/
def Fading (test : Json → Bool) : Prop :=
  ∀ {before after : Json}, before.Kept after → test after = true → test before = true

end DocPatch.Json
