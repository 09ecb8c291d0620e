import DocPatch.Json.Record
import DocPatch.Proofs.Json.Outline

/-! Records read back: from what outlines write of the fields, each put in turn. -/

namespace DocPatch.RecordFormat

variable {α : Type} {format : RecordFormat α} {record final : α}

/-- Putting fields one after the other, from outlines that write their values, takes one record to
    another. -/
inductive Puts (format : RecordFormat α) : α → Fields → α → Prop where
  | nil (record : α) : format.Puts record [] record
  | cons {record next final : α} {name : String} {value : Json} {rest : Fields}
      (put : ∀ tree : Tree, tree.Writes value → format.put record name tree = .ok next)
      (others : format.Puts next rest final) : format.Puts record ((name, value) :: rest) final

/-- Fields may be put in two parts. -/
theorem Puts.append {next : α} {first second : Fields} (here : format.Puts record first next)
    (others : format.Puts next second final) : format.Puts record (first ++ second) final := by
  -- The fields of the first part are put one after the other.
  induction here with
  | nil => exact others
  | cons put _ ih => exact .cons put (ih others)

/-- A field with an optional value is put if the value is there. -/
theorem Puts.optional {next : α} {name : String} {value : Option Json}
    (absent : value = none → next = record)
    (there : ∀ held, value = some held → ∀ tree : Tree, tree.Writes held →
      format.put record name tree = .ok next) :
    format.Puts record (value.toList.map (name, ·)) next := by
  -- A value that is missing puts nothing, and one that is there puts its field.
  cases value with
  | none =>
    rw [absent rfl]
    exact .nil _
  | some held => exact .cons (there held rfl) (.nil _)

/-- Known fields that were not seen yet, each once, are read by being put. -/
theorem Puts.readEntries {fields : Fields} (puts : format.Puts record fields final)
    (known : ∀ field ∈ fields, field.1 ∈ format.fields) (once : (fields.map Prod.fst).Nodup)
    {seen : List String} (fresh : ∀ field ∈ fields, field.1 ∉ seen) {entries : List (Key × Tree)}
    (written : Tree.WritesFields entries fields) :
    format.readEntries record seen entries =
      .ok (final, (fields.map Prod.fst).reverse ++ seen) := by
  -- The induction follows the fields; the reader keeps the names it has seen, newest first.
  induction puts generalizing seen entries with
  | nil =>
    cases written
    rfl
  | @cons record next final name value rest put others ih =>
    cases written with
    | @cons key tree _ _ entries _ named first later =>
      simp only [List.map_cons, List.nodup_cons] at once
      -- The field is new, and no later field has its name.
      have unseen : ∀ field ∈ rest, field.1 ∉ name :: seen := by
        intro field member
        rw [List.mem_cons, not_or]
        refine ⟨?_, fresh field (by simp [member])⟩
        rintro rfl
        exact once.1 (List.mem_map_of_mem member)
      have among : format.fields.contains name = true :=
        List.contains_iff_mem.mpr (known (name, value) (by simp))
      have new : seen.contains name = false := by
        simpa using fresh (name, value) (by simp)
      simp only [RecordFormat.readEntries, named]
      show (if format.fields.contains name then _ else _) = _
      rw [among, if_pos rfl, new]
      refine bind_eq_ok.mpr ⟨next, put tree first, ?_⟩
      rw [ih (fun field member => known field (by simp [member])) once.2 unseen later]
      simp

/-- A record is read from an outline that writes an object with known fields, the required ones
    among them: it is what putting the fields makes of the empty record. -/
theorem Puts.read {fields : Fields} (puts : format.Puts format.empty fields record)
    (known : ∀ field ∈ fields, field.1 ∈ format.fields) (once : (fields.map Prod.fst).Nodup)
    (required : ∀ name ∈ format.fields.take format.required, name ∈ fields.map Prod.fst)
    {tree : Tree} (writes : tree.Writes (.object fields)) : format.read tree = .ok record := by
  cases writes with
  | scalar _ _ read => exact absurd (Tree.readScalar_no_parts read).2 (by simp [Json.fields?])
  | object stop shallow written =>
    simp only [RecordFormat.read, Tree.checkLevel, shallow, ↓reduceIte]
    refine bind_eq_ok.mpr ⟨(), rfl, bind_eq_ok.mpr ⟨_, puts.readEntries known once ?_ written, ?_⟩⟩
    · simp
    refine bind_eq_ok.mpr ⟨(), rfl, bind_eq_ok.mpr ⟨(), ?_, rfl⟩⟩
    -- No required field is missed.
    unfold checkEntries
    rw [List.find?_eq_none.mpr fun name among => by simpa using required name among]

section Holds

variable {holds : α → Prop}
  (keeps : ∀ {record name tree next}, holds record →
    format.put record name tree = .ok next → holds next)

include keeps

/-- What putting a field keeps is kept by reading entries. -/
theorem readEntries_holds {entries : List (Key × Tree)} (start : holds record)
    {seen names : List String}
    (read : format.readEntries record seen entries = .ok (final, names)) : holds final := by
  -- The induction is on the entries; each of them puts a known field or is passed over.
  induction entries generalizing record seen with
  | nil =>
    cases read
    exact start
  | cons entry rest ih =>
    rcases entry with ⟨key, tree⟩
    simp only [readEntries] at read
    obtain ⟨name, -, more⟩ := bind_eq_ok.mp read
    split at more
    · split at more
      · cases more
      · obtain ⟨next, put, later⟩ := bind_eq_ok.mp more
        exact ih (keeps start put) later
    · -- Other fields are passed over.
      obtain ⟨_, -, later⟩ := bind_eq_ok.mp more
      exact ih start later

/-- What putting a field keeps is kept by reading items. -/
theorem readItems_holds {names left : List String} {trees surplus : List Tree}
    (start : holds record)
    (read : format.readItems record names trees = .ok (final, left, surplus)) : holds final := by
  -- Items are put into the fields in order, until either of them run out.
  induction names generalizing record trees with
  | nil =>
    cases read
    exact start
  | cons name names ih =>
    cases trees with
    | nil =>
      cases read
      exact start
    | cons tree rest =>
      simp only [readItems] at read
      obtain ⟨next, put, later⟩ := bind_eq_ok.mp read
      exact ih (keeps start put) later

/-- What holds of the empty record and is kept by putting a field holds of every record that is
    read, from an object or from a list. -/
theorem read_holds (start : holds format.empty) {tree : Tree}
    (read : format.read tree = .ok record) : holds record := by
  -- A map is read entry by entry, a list item by item, and nothing else is read.
  cases tree with
  | map opening entries closing =>
    simp only [RecordFormat.read] at read
    obtain ⟨_, -, more⟩ := bind_eq_ok.mp read
    obtain ⟨⟨final, seen⟩, inner, more⟩ := bind_eq_ok.mp more
    obtain ⟨_, -, more⟩ := bind_eq_ok.mp more
    obtain ⟨_, -, same⟩ := bind_eq_ok.mp more
    cases same
    exact readEntries_holds keeps start inner
  | list opening items closing =>
    simp only [RecordFormat.read] at read
    obtain ⟨_, -, more⟩ := bind_eq_ok.mp read
    obtain ⟨⟨final, names, surplus⟩, inner, more⟩ := bind_eq_ok.mp more
    -- What is checked behind the items does not change the record.
    have same : final = record := by
      split at more
      · obtain ⟨_, -, same⟩ := bind_eq_ok.mp more
        exact Except.ok.inj same
      · obtain ⟨_, -, more⟩ := bind_eq_ok.mp more
        obtain ⟨_, -, same⟩ := bind_eq_ok.mp more
        exact Except.ok.inj same
    exact same ▸ readItems_holds keeps start inner
  | _ => cases read

end Holds

end DocPatch.RecordFormat
