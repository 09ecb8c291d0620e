import DocPatch.Json.Record

/-! Patch instructions: what to set, unset, add and remove in one document. -/

namespace DocPatch

/-- A partial update. The trees to add and remove are kept as they are: one that is no object asks
    for nothing. -/
structure Instruction where
  set : Option Fields
  unset : List String
  add : Option Json
  remove : Option Json

namespace Instruction

/-- The instruction that asks for nothing. -/
def empty : Instruction := ⟨none, [], none, none⟩

/-- Gives a field of a tree its value; a tree that is no object is replaced. -/
def putTree (field : String) (value : Json) : Option Json → Json
  | some (.object fields) => .object (Fields.put field value fields)
  | _ => .single field value

/-- Also sets a field. -/
def withSet (field : String) (value : Json) (instruction : Instruction) : Instruction :=
  { instruction with set := some (Fields.put field value (instruction.set.getD [])) }

/-- Also takes a field away. -/
def withUnset (field : String) (instruction : Instruction) : Instruction :=
  { instruction with unset := instruction.unset ++ [field] }

/-- Also adds values to the array at a field. -/
def withAdd (field : String) (values : Json) (instruction : Instruction) : Instruction :=
  { instruction with add := some (putTree field values instruction.add) }

/-- Also removes values from the array at a field. -/
def withRemove (field : String) (values : Json) (instruction : Instruction) : Instruction :=
  { instruction with remove := some (putTree field values instruction.remove) }

/-- The tree to add, if it is an object. -/
def addTree? (instruction : Instruction) : Option Fields := instruction.add.bind Json.fields?

/-- The tree to remove, if it is an object. -/
def removeTree? (instruction : Instruction) : Option Fields := instruction.remove.bind Json.fields?

/-- The instruction as a value; what is absent or empty is left out. -/
def toJson (instruction : Instruction) : Json :=
  let entry (name : String) (value : Option Json) : Fields := value.toList.map (name, ·)
  let unset :=
    if instruction.unset.isEmpty then none else some (.array (instruction.unset.map .string))
  .object (entry "set" (instruction.set.map .object) ++ entry "unset" unset
    ++ entry "add" instruction.add ++ entry "remove" instruction.remove)

/-- How an instruction is read. -/
def format : RecordFormat Instruction where
  name := "PatchInstruction"
  fields := ["set", "unset", "add", "remove"]
  required := 0
  empty := empty
  -- Null stands for a missing option, but not for a missing list.
  put instruction name tree := do
    match name with
    | "set" => return { instruction with set := ← tree.readOptional Tree.readFields }
    | "unset" => return { instruction with unset := ← tree.readList Tree.readString }
    | "add" => return { instruction with add := ← tree.readOptional Tree.read }
    | _ => return { instruction with remove := ← tree.readOptional Tree.read }

/-- The instruction that a text holds. -/
def parse (text : String) : Except ReadError Instruction := Tree.readText format.read text

end Instruction

end DocPatch
