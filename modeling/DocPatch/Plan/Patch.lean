import DocPatch.Instruction
import DocPatch.Plan.Insertion
import DocPatch.Plan.Removal
import DocPatch.Timestamp

/-! The whole list of operations for one patch. -/

namespace DocPatch.Patch

/-- The fields to set, the time of modification among them. -/
def assignments (instruction : Instruction) (timestampField : String) (time : Timestamp) : Fields :=
  Fields.put timestampField (.string time.text) (instruction.set.getD [])

/-- The operations of a patch in their fixed order: set, add, remove, unset. -/
def operations (base : Fields) (instruction : Instruction) (timestampField : String)
    (time : Timestamp) : Except Unidentified (List Operation) := do
  let stamped := Update.set (assignments instruction timestampField time)
  -- A missing tree adds and removes nothing.
  let added ← Insertion.operations base (instruction.addTree?.getD [])
  let removed := Removal.operations base (instruction.removeTree?.getD [])
  let unset :=
    if instruction.unset.isEmpty then [] else [⟨base, Update.unset instruction.unset, []⟩]
  -- The time is always set, so there is always a first operation.
  return ⟨base, stamped, []⟩ :: added ++ removed ++ unset

end DocPatch.Patch
