import DocPatch.Instruction
import DocPatch.Proofs.Json.Records

/-! Instructions written as values and read back. What is missing, and a tree that is `null`, are
    both read as nothing, so that an instruction may come back with less in it than was written; one
    that was read, and then built on, does not. -/

namespace DocPatch

namespace Instruction

/-- An instruction whose values repeat no key. -/
structure WellKeyed (instruction : Instruction) : Prop where
  set : ∀ fields ∈ instruction.set, Json.FieldsWellKeyed fields
  add : ∀ tree ∈ instruction.add, tree.WellKeyed
  remove : ∀ tree ∈ instruction.remove, tree.WellKeyed

/-- An instruction of which nothing is lost in writing: no tree in it is a `null`. -/
structure Sound (instruction : Instruction) : Prop extends WellKeyed instruction where
  add_there : instruction.add ≠ some .null
  remove_there : instruction.remove ≠ some .null

/-- A tree, unless it is `null`. -/
def present : Option Json → Option Json
  | some .null => none
  | tree => tree

/-- The instruction without trees that are `null`. -/
def settled (instruction : Instruction) : Instruction :=
  { instruction with add := present instruction.add, remove := present instruction.remove }

theorem present_none : present none = none := rfl

/-- A tree is present as it is just when it is not `null`. -/
theorem present_eq_self_iff {tree : Option Json} : present tree = tree ↔ tree ≠ some .null := by
  unfold present
  split <;> simp_all

/-- An instruction stays as it is just when neither tree is a `null`. -/
theorem settled_eq_self_iff {instruction : Instruction} : instruction.settled = instruction ↔
    instruction.add ≠ some .null ∧ instruction.remove ≠ some .null := by
  -- The instruction stays as it is when both of its trees do.
  rw [← present_eq_self_iff, ← present_eq_self_iff]
  cases instruction
  simp [settled]

/-- What is written of a field, if there is something to write. -/
def part (name : String) (value : Option Json) : Fields := value.toList.map (name, ·)

/-- Fields to take away as a value, if there are any. -/
def unsetJson (fields : List String) : Option Json :=
  if fields.isEmpty then none else some (.array (fields.map .string))

/-- What is written of an instruction. -/
def parts (instruction : Instruction) : Fields :=
  part "set" (instruction.set.map .object) ++ part "unset" (unsetJson instruction.unset)
    ++ part "add" instruction.add ++ part "remove" instruction.remove

theorem toJson_eq (instruction : Instruction) : instruction.toJson = .object instruction.parts :=
  rfl

/-- The parts have names of fields, in the order of the fields. -/
theorem names_parts (instruction : Instruction) :
    (instruction.parts.map Prod.fst).Sublist ["set", "unset", "add", "remove"] := by
  -- Each part holds its own name or nothing.
  have named : ∀ (name : String) (value : Option Json),
      ((part name value).map Prod.fst).Sublist [name] := by
    intro name value
    cases value <;> simp [part]
  simp only [parts, List.map_append]
  exact (((named _ _).append (named _ _)).append (named _ _)).append (named _ _)

/-- The fields to set are put where there were none. -/
theorem puts_set {record : Instruction} (missing : record.set = none) {set : Option Fields}
    (keyed : ∀ fields ∈ set, Json.FieldsWellKeyed fields) :
    format.Puts record (part "set" (set.map .object)) { record with set } := by
  -- The field is written when there is something to set, and is then read as these fields.
  refine .optional (fun absent => ?_) fun held same tree writes => ?_
  · rw [Option.map_eq_none_iff.mp absent, ← missing]
  · obtain ⟨fields, rfl, rfl⟩ := Option.map_eq_some_iff.mp same
    exact bind_eq_ok.mpr
      ⟨_, writes.readOptional (by simp) (writes.readFields (keyed fields rfl)), rfl⟩

/-- The fields to take away are put where there were none. -/
theorem puts_unset {record : Instruction} (missing : record.unset = []) (unset : List String) :
    format.Puts record (part "unset" (unsetJson unset)) { record with unset } := by
  -- An empty list is not written, and a written list is read string by string.
  refine .optional (fun absent => ?_) fun held same tree writes => ?_
  · cases unset with
    | nil => rw [← missing]
    | cons first rest => cases absent
  · cases unset with
    | nil => cases same
    | cons first rest =>
      obtain rfl := Option.some.inj same
      exact bind_eq_ok.mpr ⟨_, writes.readList fun _ _ _ writes => writes.readString, rfl⟩

/-- A tree that is written is read as it is, unless it is `null`. -/
theorem readOptional_present {held : Json} (keyed : held.WellKeyed) {tree : Tree}
    (writes : tree.Writes held) : tree.readOptional Tree.read = .ok (present (some held)) := by
  -- The value `null` is read as nothing, and any other value as itself.
  by_cases null : held = .null
  · subst null
    exact writes.readOptional_null
  · rw [present_eq_self_iff.mpr (by simpa using null)]
    exact writes.readOptional null (writes.read keyed)

/-- A tree is put where there was none, by any field that keeps the tree it reads. -/
theorem puts_tree (name : String) (keep : Option Json → Instruction)
    (field : ∀ tree : Tree, format.put (keep none) name tree = keep <$> tree.readOptional Tree.read)
    {held : Option Json} (keyed : ∀ tree ∈ held, tree.WellKeyed) :
    format.Puts (keep none) (part name held) (keep (present held)) := by
  -- The field is written when there is a tree.
  refine .optional (fun absent => ?_) fun value same tree writes => ?_
  · -- Nothing is written of a field without a tree, and nothing is put.
    rw [absent, present_none]
  · -- What was written is read as a tree, unless it is `null`.
    subst same
    rw [field, readOptional_present (keyed value rfl) writes]
    rfl

/-- The parts of an instruction put together are the instruction without trees that are `null`. -/
theorem WellKeyed.puts {instruction : Instruction} (keyed : instruction.WellKeyed) :
    format.Puts .empty instruction.parts instruction.settled := by
  -- The fields are put one after the other, each into what the ones before it have made.
  have add := puts_tree "add" (⟨instruction.set, instruction.unset, ·, none⟩)
    (fun _ => rfl) keyed.add
  have remove := puts_tree "remove"
    (⟨instruction.set, instruction.unset, present instruction.add, ·⟩)
    (fun _ => rfl) keyed.remove
  exact (((puts_set rfl keyed.set).append (puts_unset rfl instruction.unset)).append add).append
    remove

/-- An instruction is read back without trees that are `null`, from any outline that writes it. -/
theorem WellKeyed.read_back {instruction : Instruction} (keyed : instruction.WellKeyed)
    {tree : Tree} (writes : tree.Writes instruction.toJson) :
    format.read tree = .ok instruction.settled := by
  -- The parts stand in an object, whose names are known and stand once.
  rw [toJson_eq] at writes
  have names := instruction.names_parts
  refine keyed.puts.read (fun field member => ?_) (names.nodup (by decide))
    (by simp [format]) writes
  exact names.subset (List.mem_map_of_mem member)

/-- An instruction that is read is sound. -/
theorem sound_of_read {tree : Tree} {instruction : Instruction}
    (read : format.read tree = .ok instruction) : instruction.Sound := by
  -- The empty instruction is sound, and putting a field keeps an instruction sound.
  refine RecordFormat.read_holds (fun {record name tree next} sound put => ?_) ?_ read
  · -- Each of the four fields replaces its own part, by what was read in its place.
    obtain ⟨⟨set, add, remove⟩, add_there, remove_there⟩ := sound
    simp only [format] at put
    split at put <;> obtain ⟨value, done, same⟩ := bind_eq_ok.mp put <;> cases same
    · refine ⟨⟨?_, add, remove⟩, add_there, remove_there⟩
      rintro fields rfl
      exact Tree.wellKeyed_of_readFields (Tree.of_readOptional done).1
    · exact ⟨⟨set, add, remove⟩, add_there, remove_there⟩
    · -- A tree that is read where it may be missing is not `null`.
      obtain ⟨keyed, there⟩ := Tree.of_readOptional_read done
      exact ⟨⟨set, keyed, remove⟩, there, remove_there⟩
    · obtain ⟨keyed, there⟩ := Tree.of_readOptional_read done
      exact ⟨⟨set, add, keyed⟩, add_there, there⟩
  · -- The empty instruction holds nothing at all.
    constructor <;> simp [format, empty]
    constructor <;> simp

/-- One more thing that an instruction asks for. -/
inductive Call where
  | set (field : String) (value : Json)
  | unset (field : String)
  | add (field : String) (values : Json)
  | remove (field : String) (values : Json)

namespace Call

/-- The instruction that asks for it too. -/
def apply : Call → Instruction → Instruction
  | .set field value => withSet field value
  | .unset field => withUnset field
  | .add field values => withAdd field values
  | .remove field values => withRemove field values

/-- The values that a call brings repeat no key. -/
def WellKeyed : Call → Prop
  | .set _ value | .add _ value | .remove _ value => value.WellKeyed
  | .unset _ => True

end Call

/-- The instruction after some calls, one after the other. -/
def after (calls : List Call) (instruction : Instruction) : Instruction :=
  calls.foldl (fun instruction call => call.apply instruction) instruction

/-- A tree in which a field is given a value is an object, and well keyed like the tree
    and the value. -/
theorem wellKeyed_putTree {tree : Option Json} (keyed : ∀ held ∈ tree, held.WellKeyed)
    (field : String) {value : Json} (inner : value.WellKeyed) :
    (putTree field value tree).WellKeyed := by
  -- The value is put into the object that the tree is, or makes up an object of its own.
  unfold putTree
  split
  · rename_i fields
    have whole := keyed _ rfl
    simp only [Json.WellKeyed] at whole ⊢
    exact whole.put field inner
  · simpa [Json.single, Json.WellKeyed, Json.FieldsWellKeyed] using inner

/-- A tree in which a field is given a value is not `null`. -/
theorem putTree_ne_null (field : String) (value : Json) (tree : Option Json) :
    putTree field value tree ≠ .null := by
  -- Either way an object is left.
  unfold putTree
  split <;> simp [Json.single]

/-- A call keeps an instruction sound. -/
theorem Sound.apply {instruction : Instruction} (sound : instruction.Sound) {call : Call}
    (keyed : call.WellKeyed) : (call.apply instruction).Sound := by
  -- A call touches the one part it is about.
  obtain ⟨⟨set, add, remove⟩, add_there, remove_there⟩ := sound
  cases call with
  | set field value =>
    refine ⟨⟨?_, add, remove⟩, add_there, remove_there⟩
    intro fields same
    obtain rfl := Option.some.inj same
    -- Without fields to set, the new one is put into none.
    refine Json.FieldsWellKeyed.put ?_ field keyed
    cases held : instruction.set with
    | none => simp [Json.FieldsWellKeyed]
    | some fields => exact set fields held
  | unset field => exact ⟨⟨set, add, remove⟩, add_there, remove_there⟩
  | add field values =>
    refine ⟨⟨set, ?_, remove⟩, ?_, remove_there⟩
    · intro tree same
      obtain rfl := Option.some.inj same
      exact wellKeyed_putTree add field keyed
    · exact fun same => putTree_ne_null _ _ _ (Option.some.inj same)
  | remove field values =>
    refine ⟨⟨set, add, ?_⟩, add_there, ?_⟩
    · intro tree same
      obtain rfl := Option.some.inj same
      exact wellKeyed_putTree remove field keyed
    · exact fun same => putTree_ne_null _ _ _ (Option.some.inj same)

/-- Calls keep an instruction sound. -/
theorem Sound.after {instruction : Instruction} (sound : instruction.Sound) {calls : List Call}
    (keyed : ∀ call ∈ calls, call.WellKeyed) : (instruction.after calls).Sound := by
  -- The calls are made one after the other, and each keeps the instruction sound.
  induction calls generalizing instruction with
  | nil => exact sound
  | cons call rest ih =>
    exact ih (sound.apply (keyed call (by simp))) fun other member => keyed other (by simp [member])

/-- A sound instruction is read back as it is. -/
theorem Sound.read_back {instruction : Instruction} (sound : instruction.Sound) {tree : Tree}
    (writes : tree.Writes instruction.toJson) : format.read tree = .ok instruction := by
  -- Only trees that are `null` are lost in reading, and a sound instruction has none.
  rw [sound.toWellKeyed.read_back writes,
    settled_eq_self_iff.mpr ⟨sound.add_there, sound.remove_there⟩]

end Instruction

end DocPatch
