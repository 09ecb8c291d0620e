import DocPatch.Json.Basic
import Mathlib.Data.List.Induction

/-! Laws of the entries of an object: finding a key, giving it a value, and merging entries. -/

namespace DocPatch

/-- What a property of lists says of each first item, it says of every item. -/
theorem each_of_mem {α : Type} {every : List α → Prop} {each : α → Prop}
    (step : ∀ first rest, every (first :: rest) → each first ∧ every rest) {items : List α}
    (holds : every items) {item : α} (member : item ∈ items) : each item := by
  -- An item stands at the head of some rest of the list.
  induction items with
  | nil => simp at member
  | cons first rest ih =>
    obtain ⟨here, later⟩ := step first rest holds
    rcases List.mem_cons.mp member with rfl | among
    · exact here
    · exact ih later among

namespace Fields

/-- A search looks at the first entry and then at the others. -/
theorem lookup_entry (key name : String) (value : Json) (rest : Fields) :
    ((name, value) :: rest).lookup key = if key = name then some value else rest.lookup key := by
  -- The key is that of the first entry, or the search goes on behind it.
  by_cases same : key = name
  · simp [same]
  · simp [List.lookup_cons, same, beq_eq_false_iff_ne.mpr same]

/-- What a key holds after another, or the same, was given a value. -/
theorem lookup_put (key other : String) (value : Json) (fields : Fields) :
    (put key value fields).lookup other =
      if other = key then some value else fields.lookup other := by
  -- Only the entry of the key itself changes, and the search for another key skips it.
  induction fields with
  | nil => exact lookup_entry other key value []
  | cons entry rest ih =>
    rcases entry with ⟨name, held⟩
    by_cases same : name = key
    · -- The entry holds the key itself, so the new value stands in its place.
      subst same
      simp only [put, ↓reduceIte, lookup_entry]
      by_cases asked : other = name <;> simp [asked]
    · -- The entry is kept, and the value is put somewhere behind it.
      simp only [put, same, ↓reduceIte, lookup_entry, ih]
      by_cases asked : other = name
      · simp [asked, same]
      · simp [asked]

/-- A key that was given a value has it. -/
@[simp] theorem lookup_put_self (key : String) (value : Json) (fields : Fields) :
    (put key value fields).lookup key = some value := by
  simp [lookup_put]

/-- Giving one key a value leaves the others as they were. -/
theorem lookup_put_of_ne {key other : String} (differ : other ≠ key) (value : Json)
    (fields : Fields) : (put key value fields).lookup other = fields.lookup other := by
  simp [lookup_put, differ]

/-- Giving a key the value that it has changes nothing. -/
theorem put_lookup {key : String} {value : Json} {fields : Fields}
    (found : fields.lookup key = some value) : put key value fields = fields := by
  -- The value is put where the search finds it, and there it replaces itself.
  induction fields with
  | nil => simp at found
  | cons entry rest ih =>
    rcases entry with ⟨name, held⟩
    rw [lookup_entry] at found
    by_cases same : name = key
    · -- Here the search has found the value that is put again.
      simp only [same, ↓reduceIte, Option.some.injEq] at found
      simp [put, same, found]
    · -- Both the search and the change go on behind the entry.
      simp only [Ne.symm same, ↓reduceIte] at found
      simp [put, same, ih found]

/-- Giving a key a value changes nothing just where it is the value that the key has. -/
theorem put_eq_self_iff {key : String} {value held : Json} {fields : Fields}
    (found : fields.lookup key = some held) : put key value fields = fields ↔ value = held := by
  constructor
  · -- The key has the new value, and before it had the old one.
    intro same
    have has := lookup_put_self key value fields
    rw [same, found] at has
    exact (Option.some.inj has).symm
  · intro same
    rw [same, put_lookup found]

/-- The later of two values for one key stays. -/
@[simp] theorem put_put (key : String) (first second : Json) (fields : Fields) :
    put key second (put key first fields) = put key second fields := by
  -- The first value marks the place that the second one takes.
  induction fields with
  | nil => simp [put]
  | cons entry rest ih =>
    by_cases same : entry.1 = key
    · simp [put, same]
    · simp [put, same, ih]

/-- A key is missing when no entry has it. -/
theorem lookup_eq_none {key : String} {fields : Fields} :
    fields.lookup key = none ↔ key ∉ fields.map Prod.fst := by
  -- The search misses an entry just when its key is another one.
  induction fields with
  | nil => simp
  | cons entry rest ih =>
    rcases entry with ⟨name, held⟩
    rw [lookup_entry, List.map_cons, List.mem_cons]
    by_cases same : key = name
    · simp [same]
    · simp only [same, ↓reduceIte, ih, false_or]

/-- A key that is not there is added at the end. -/
theorem put_of_lookup_none {key : String} {fields : Fields} (missing : fields.lookup key = none)
    (value : Json) : put key value fields = fields ++ [(key, value)] := by
  -- Without an entry to replace, the search for a place runs to the end.
  induction fields with
  | nil => rfl
  | cons entry rest ih =>
    rw [lookup_eq_none, List.map_cons, List.mem_cons, not_or] at missing
    simp [put, Ne.symm missing.1, ih (lookup_eq_none.mpr missing.2)]

/-- What a key holds is one of the entries. -/
theorem mem_of_lookup {key : String} {value : Json} {fields : Fields}
    (found : fields.lookup key = some value) : (key, value) ∈ fields := by
  -- The search stops at an entry with the key, and returns what that entry holds.
  induction fields with
  | nil => simp at found
  | cons entry rest ih =>
    rcases entry with ⟨name, held⟩
    rw [lookup_entry] at found
    by_cases same : key = name
    · -- The entry is the one that was found.
      simp only [same, ↓reduceIte, Option.some.injEq] at found
      simp [same, found]
    · simp only [same, ↓reduceIte] at found
      exact List.mem_cons_of_mem _ (ih found)

/-- Where every key stands once, each entry is what its key holds. -/
theorem lookup_of_mem {key : String} {value : Json} {fields : Fields}
    (once : (fields.map Prod.fst).Nodup) (member : (key, value) ∈ fields) :
    fields.lookup key = some value := by
  -- No entry before the one that is meant has the same key.
  induction fields with
  | nil => simp at member
  | cons entry rest ih =>
    rcases entry with ⟨name, held⟩
    simp only [List.map_cons, List.nodup_cons] at once
    rw [lookup_entry]
    rcases List.mem_cons.mp member with same | later
    · -- The entry is at the head, where the search looks first.
      cases same
      simp
    · -- A later entry cannot share its key with the head.
      have differ : key ≠ name := by
        intro equal
        subst equal
        exact once.1 (List.mem_map.mpr ⟨_, later, rfl⟩)
      simp only [differ, ↓reduceIte, ih once.2 later]

/-- Merging entries whose keys are new, each once, appends them. -/
theorem merge_of_fresh {fields entries : Fields} (once : (entries.map Prod.fst).Nodup)
    (fresh : ∀ key ∈ entries.map Prod.fst, key ∉ fields.map Prod.fst) :
    merge fields entries = fields ++ entries := by
  -- The entries are put one after the other, and each one is new to those before it.
  induction entries generalizing fields with
  | nil => simp [merge]
  | cons entry rest ih =>
    simp only [List.map_cons, List.nodup_cons] at once
    -- The first entry finds no entry to replace, so it goes to the end.
    have missing : fields.lookup entry.1 = none := lookup_eq_none.mpr (fresh _ (by simp))
    have step : merge fields (entry :: rest) = merge (fields ++ [entry]) rest := by
      simp [merge, put_of_lookup_none missing]
    rw [step, ih once.2]
    · simp
    · -- The other keys are new to the longer list as well, since each key stands once.
      intro key member
      simp only [List.map_append, List.map_cons, List.map_nil, List.mem_append,
        List.mem_singleton, not_or]
      exact ⟨fresh key (by simp [member]), fun same => once.1 (same ▸ member)⟩

/-- Entries whose keys stand once each make up themselves. -/
theorem ofEntries_of_nodup {entries : Fields} (once : (entries.map Prod.fst).Nodup) :
    ofEntries entries = entries := by
  -- Making up is merging into nothing, where every key is new.
  have merged := @merge_of_fresh [] entries once (by simp)
  simpa [ofEntries] using merged

/-- Giving a key a value adds one entry at most. -/
theorem mem_put {key : String} {value : Json} {fields : Fields} {entry : String × Json}
    (member : entry ∈ put key value fields) : entry = (key, value) ∨ entry ∈ fields := by
  -- The new entry stands in the place of an old one, or at the end.
  induction fields with
  | nil => exact Or.inl (List.mem_singleton.mp member)
  | cons first rest ih =>
    rw [put] at member
    split at member
    · rcases List.mem_cons.mp member with same | among
      · exact Or.inl same
      · exact Or.inr (by simp [among])
    · rcases List.mem_cons.mp member with rfl | among
      · exact Or.inr (by simp)
      · exact (ih among).imp_right (List.mem_cons_of_mem _)

/-- An object that entries make up has some of these entries. -/
theorem mem_ofEntries {entries : Fields} {entry : String × Json}
    (member : entry ∈ ofEntries entries) : entry ∈ entries := by
  -- The entries are put one after the other, so the last one is added to what the others make up.
  induction entries using List.reverseRecOn with
  | nil => exact member
  | append_singleton entries last ih =>
    rw [ofEntries, merge, List.foldl_append] at member
    rw [List.mem_append]
    rcases mem_put member with rfl | before
    · exact Or.inr (by simp)
    · exact Or.inl (ih before)

/-- An object that entries make up has their keys only. -/
theorem mem_keys_ofEntries {entries : Fields} {key : String}
    (member : key ∈ (ofEntries entries).map Prod.fst) : key ∈ entries.map Prod.fst := by
  -- Every entry of the object is one of the entries that make it up.
  obtain ⟨entry, among, rfl⟩ := List.mem_map.mp member
  exact List.mem_map_of_mem (mem_ofEntries among)

/-- Entries make up an object with some entry, if there are any. -/
theorem ofEntries_ne_nil {entries : Fields} (some_entry : entries ≠ []) :
    ofEntries entries ≠ [] := by
  -- The last entry is there in the end.
  rw [← List.dropLast_concat_getLast some_entry, ofEntries, merge, List.foldl_append]
  intro empty
  have last := lookup_put_self (entries.getLast some_entry).1 (entries.getLast some_entry).2
    (merge [] entries.dropLast)
  rw [show put _ _ (merge [] entries.dropLast) = [] from empty] at last
  simp at last

/-- A key that is there keeps its place when it is given another value, and so do the other keys. -/
theorem keys_put {key : String} {held : Json} {fields : Fields}
    (found : fields.lookup key = some held) (value : Json) :
    (put key value fields).map Prod.fst = fields.map Prod.fst := by
  -- The induction follows the search for the key; its own entry is replaced in place.
  induction fields with
  | nil => simp at found
  | cons entry rest ih =>
    rcases entry with ⟨name, other⟩
    rw [lookup_entry] at found
    by_cases same : key = name
    · simp [put, same]
    · simp only [same, ↓reduceIte] at found
      simp [put, Ne.symm same, ih found]

/-- Where every key stands once, it does so after one of them was given a value. -/
theorem nodup_put {key : String} {value : Json} {fields : Fields}
    (once : (fields.map Prod.fst).Nodup) : ((put key value fields).map Prod.fst).Nodup := by
  cases found : fields.lookup key with
  | none =>
    -- A new key comes last.
    rw [put_of_lookup_none found, List.map_append, List.nodup_append]
    refine ⟨once, by simp, fun name among other last same => ?_⟩
    obtain rfl := List.mem_singleton.mp last
    exact lookup_eq_none.mp found (same ▸ among)
  | some held => rwa [keys_put found]

/-- An object that entries make up has each of its keys once. -/
theorem nodup_ofEntries (entries : Fields) : ((ofEntries entries).map Prod.fst).Nodup := by
  -- The entries are put one after the other, so the last one is added to what the others make up.
  induction entries using List.reverseRecOn with
  | nil => exact List.nodup_nil
  | append_singleton entries last ih =>
    rw [ofEntries, merge, List.foldl_append]
    exact nodup_put ih

/-- Entries in another order are found as before, where every key stands once. -/
theorem lookup_of_perm {left right : Fields} (once : (left.map Prod.fst).Nodup)
    (perm : left.Perm right) (key : String) : left.lookup key = right.lookup key := by
  -- Both sides have the same entries, and where a key stands once, being an entry is being found.
  have also := (perm.map Prod.fst).nodup_iff.mp once
  cases found : right.lookup key with
  | none =>
    rw [lookup_eq_none] at found ⊢
    exact fun member => found ((perm.map Prod.fst).mem_iff.mp member)
  | some value => exact lookup_of_mem once (perm.mem_iff.mpr (mem_of_lookup found))

/-- A key that is not there cannot be taken away. -/
theorem remove_of_lookup_none {key : String} {fields : Fields}
    (missing : fields.lookup key = none) : remove key fields = fields := by
  -- No entry has the key, so the removal passes all of them.
  induction fields with
  | nil => rfl
  | cons entry rest ih =>
    rw [lookup_eq_none, List.map_cons, List.mem_cons, not_or] at missing
    simp [remove, Ne.symm missing.1, ih (lookup_eq_none.mpr missing.2)]

/-- Taking a key away leaves the other entries, in another order. -/
theorem remove_perm {key : String} {held : Json} {fields : Fields}
    (found : fields.lookup key = some held) : fields.Perm ((key, held) :: remove key fields) := by
  -- The entry is where the search finds it, and the last one comes into its place.
  induction fields with
  | nil => simp at found
  | cons entry rest ih =>
    rcases entry with ⟨name, other⟩
    rw [lookup_entry] at found
    by_cases same : key = name
    · simp only [same, ↓reduceIte, Option.some.injEq] at found
      subst same found
      simp only [remove, ↓reduceIte, List.perm_cons]
      cases ended : rest.getLast? with
      | none => simp [List.getLast?_eq_none_iff.mp ended]
      | some last =>
        obtain ⟨before, rfl⟩ := List.getLast?_eq_some_iff.mp ended
        simp
    · simp only [same, ↓reduceIte] at found
      simp only [remove, Ne.symm same, ↓reduceIte]
      exact ((ih found).cons _).trans (.swap ..)

/-- Where every key stands once, it does so after one of them was taken away. -/
theorem nodup_remove {key : String} {fields : Fields} (once : (fields.map Prod.fst).Nodup) :
    ((remove key fields).map Prod.fst).Nodup := by
  -- What is left is the object without one entry, up to order.
  cases found : fields.lookup key with
  | none => rwa [remove_of_lookup_none found]
  | some held =>
    have left := ((remove_perm found).map Prod.fst).nodup_iff.mp once
    exact (List.nodup_cons.mp left).2

/-- What a key holds after another, or the same, was taken away. -/
theorem lookup_remove {key : String} {fields : Fields} (once : (fields.map Prod.fst).Nodup)
    (other : String) :
    (remove key fields).lookup other = if other = key then none else fields.lookup other := by
  cases found : fields.lookup key with
  | none =>
    rw [remove_of_lookup_none found]
    by_cases same : other = key <;> simp [same, found]
  | some held =>
    -- The entries are those that are left and the one that was taken away.
    have perm := remove_perm found
    have fresh := (List.nodup_cons.mp ((perm.map Prod.fst).nodup_iff.mp once)).1
    rw [lookup_of_perm once perm, lookup_entry]
    by_cases same : other = key
    · simpa [same] using lookup_eq_none.mpr fresh
    · simp [same]

end Fields

end DocPatch
