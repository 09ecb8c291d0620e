import DocPatch.Proofs.Json.Printing
import DocPatch.Proofs.Plan.Keyed

/-! Instructions and operations are read back as they were written. -/

namespace DocPatch

namespace RecordFormat

variable {α : Type} {format : RecordFormat α} {record : α} {value : Json}

/-- Reads a record from a value at hand. -/
def ofJson (format : RecordFormat α) (value : Json) : Except Fault α :=
  format.read (Tree.ofJson value)

/-- A record is read from the value that it is written as: from the value itself, from every outline
    that writes it, and from its text, if that can be read. -/
structure ReadsBack (format : RecordFormat α) (value : Json) (record : α) : Prop where
  fromValue : format.ofJson value = .ok record
  fromOutline : ∀ tree : Tree, tree.Writes value → format.read tree = .ok record
  fromText : value.Readable 0 → Tree.readText format.read value.compact = .ok record

/-- Every outline of a value says what is read from the value itself, and from its text. -/
theorem ReadsBack.of_outline
    (reads : ∀ tree : Tree, tree.Writes value → format.read tree = .ok record) :
    format.ReadsBack value record :=
  -- The value has an outline of its own, and its text is parsed to one.
  ⟨reads _ (Tree.writes_ofJson value), reads, Tree.readText_compact reads⟩

end RecordFormat

namespace Operation

/-- What is written of the array filters, if there are any. -/
def filtersPart (arrayFilters : List Fields) : Fields :=
  if arrayFilters.isEmpty then [] else [("arrayFilters", .array (arrayFilters.map .object))]

/-- What is written of an operation. -/
def parts (operation : Operation) : Fields :=
  [("filter", .object operation.filter), ("update", .object operation.update)]
    ++ filtersPart operation.arrayFilters

theorem toJson_eq (operation : Operation) : operation.toJson = .object operation.parts := rfl

/-- The parts have names of fields, in the order of the fields. -/
theorem names_parts (operation : Operation) :
    (operation.parts.map Prod.fst).Sublist ["filter", "update", "arrayFilters"] := by
  -- The array filters are named last, if at all.
  unfold parts filtersPart
  split <;> simp

/-- The array filters are put where there were none. -/
theorem puts_filters {record : Operation} (missing : record.arrayFilters = [])
    {arrayFilters : List Fields} (keyed : ∀ filter ∈ arrayFilters, Json.FieldsWellKeyed filter) :
    format.Puts record (filtersPart arrayFilters) { record with arrayFilters } := by
  -- An empty list is not written, and a written one is read filter by filter.
  cases arrayFilters with
  | nil =>
    obtain ⟨filter, update, arrayFilters⟩ := record
    obtain rfl : arrayFilters = [] := missing
    exact .nil _
  | cons first rest =>
    refine .cons (fun tree writes => ?_) (.nil _)
    exact bind_eq_ok.mpr
      ⟨_, writes.readList fun filter member _ writes => writes.readFields (keyed filter member),
        rfl⟩

/-- The parts of an operation put together are the operation. -/
theorem WellKeyed.puts {operation : Operation} (keyed : operation.WellKeyed) :
    format.Puts format.empty operation.parts operation := by
  -- Filter and update are put into the empty operation, and the array filters behind them.
  have filter : ∀ tree : Tree, tree.Writes (.object operation.filter) →
      format.put format.empty "filter" tree = .ok ⟨operation.filter, [], []⟩ :=
    fun _ writes => bind_eq_ok.mpr ⟨_, writes.readFields keyed.filter, rfl⟩
  have update : ∀ tree : Tree, tree.Writes (.object operation.update) →
      format.put ⟨operation.filter, [], []⟩ "update" tree =
        .ok ⟨operation.filter, operation.update, []⟩ :=
    fun _ writes => bind_eq_ok.mpr ⟨_, writes.readFields keyed.update, rfl⟩
  exact .cons filter (.cons update (puts_filters rfl keyed.arrayFilters))

/-- An operation is read back as it is, from any outline that writes it. -/
theorem WellKeyed.read_back {operation : Operation} (keyed : operation.WellKeyed) {tree : Tree}
    (writes : tree.Writes operation.toJson) : format.read tree = .ok operation := by
  -- Both required fields are among the parts, and every part stands once.
  rw [toJson_eq] at writes
  have names := operation.names_parts
  refine keyed.puts.read (fun field member => ?_) (names.nodup (by decide)) ?_ writes
  · exact names.subset (List.mem_map_of_mem member)
  · simp [format, parts]

end Operation

/-- Instructions and operations are read back as they were written: an instruction that was read
    from any outline, of an object or of a list, and on which any calls then built; every operation;
    every operation of a patch. -/
theorem read_back_as_written :
    (∀ (source : Tree) (start : Instruction) (calls : List Instruction.Call),
      Instruction.format.read source = .ok start → (∀ call ∈ calls, call.WellKeyed) →
      let built := start.after calls
      Instruction.format.ReadsBack built.toJson built ∧
        ∀ again, Instruction.format.ofJson built.toJson = .ok again →
          again.addTree? = built.addTree? ∧ again.removeTree? = built.removeTree?) ∧
    (∀ operation : Operation, operation.WellKeyed →
      Operation.format.ReadsBack operation.toJson operation) ∧
    ∀ (base : Fields) (instruction : Instruction) (field : String) (time : Timestamp)
      (batch : List Operation), Json.FieldsWellKeyed base → instruction.WellKeyed →
      Patch.operations base instruction field time = .ok batch →
      ∀ operation ∈ batch, Operation.format.ReadsBack operation.toJson operation := by
  -- An instruction stays sound from its reading on, and every operation is well keyed.
  have each : ∀ operation : Operation, operation.WellKeyed →
      Operation.format.ReadsBack operation.toJson operation :=
    fun _ keyed => .of_outline fun _ writes => keyed.read_back writes
  refine ⟨fun source start calls read keyed => ?_, each, ?_⟩
  · have sound := (Instruction.sound_of_read read).after keyed
    have back : Instruction.format.ReadsBack _ _ := .of_outline fun _ writes =>
      sound.read_back writes
    refine ⟨back, fun again found => ?_⟩
    obtain rfl := Except.ok.inj (found.symm.trans back.fromValue)
    exact ⟨rfl, rfl⟩
  · intro base instruction field time batch filter keyed compiled operation member
    exact each operation (Patch.wellKeyed_operations filter keyed compiled operation member)

/-- An instruction as a list of its fields: nothing to set, a field to take away, no tree to add,
    and a tree to remove that is no object. -/
def sampleList : Json := .array [.null, .array [.string "legacy"], .null, .string "nope"]

/-- The instruction that is read from it. -/
def sampleStart : Instruction := ⟨none, ["legacy"], none, some (.string "nope")⟩

/-- Calls that ask for something more in each field. -/
def sampleCalls : List Instruction.Call :=
  [.set "name" (.string "x"), .set "rank" (.number (.int (-7))), .unset "old",
    .add "tags" (.array [.string "a"]), .remove "tags" (.array [.string "b"])]

/-- The instruction on which these calls built, as a value. -/
def sampleBuilt : Json := .object [
  ("set", .object [("name", .string "x"), ("rank", .number (.int (-7)))]),
  ("unset", .array [.string "legacy", .string "old"]),
  ("add", .object [("tags", .array [.string "a"])]),
  ("remove", .object [("tags", .array [.string "b"])])]

/-- The instruction on which the calls built is read back, also from its text, and so are the
    operations that it is compiled to. -/
theorem read_back_as_written_sample :
    Instruction.format.ofJson sampleList = .ok sampleStart ∧
      (sampleStart.after sampleCalls).toJson = sampleBuilt ∧
      Instruction.format.ofJson sampleBuilt = .ok (sampleStart.after sampleCalls) ∧
      Instruction.parse sampleBuilt.compact = .ok (sampleStart.after sampleCalls) ∧
      ∃ batch, Patch.operations [("k", .string "d")] (sampleStart.after sampleCalls) "at" ⟨0, 0⟩ =
          .ok batch ∧ batch.length = 4 ∧
        ∀ operation ∈ batch, Operation.format.ofJson operation.toJson = .ok operation := by
  -- The list is read as it stands there, and all that the calls put in is well keyed.
  have read : Instruction.format.ofJson sampleList = .ok sampleStart := rfl
  have calls : ∀ call ∈ sampleCalls, call.WellKeyed := by
    simp [sampleCalls, Instruction.Call.WellKeyed, Json.WellKeyed, Json.ItemsWellKeyed]
  -- The text can be read because its one number is an integer.
  have rank : Number.Legible (.int (-7)) := Number.legible_int (by decide) (by decide)
  have readable : sampleBuilt.Readable 0 := by
    simp [sampleBuilt, Json.Readable, Json.ItemsReadable, Json.FieldsReadable, Tree.levelLimit,
      rank]
  obtain ⟨instructions, -, operations⟩ := read_back_as_written
  obtain ⟨back, -⟩ := instructions _ _ _ read calls
  have keyed := (Instruction.sound_of_read read).after calls
  have compiled : ∃ batch,
      Patch.operations [("k", .string "d")] (sampleStart.after sampleCalls) "at" ⟨0, 0⟩ =
        .ok batch ∧ batch.length = 4 := ⟨_, rfl, rfl⟩
  obtain ⟨batch, compiled, four⟩ := compiled
  refine ⟨read, rfl, back.fromValue, back.fromText readable, batch, compiled, four,
    fun operation member => ?_⟩
  exact (operations _ _ _ _ _ (by simp [Json.FieldsWellKeyed, Json.WellKeyed])
    keyed.toWellKeyed compiled operation member).fromValue

end DocPatch
