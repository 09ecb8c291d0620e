import DocPatch.Json.Reader

/-! Records: a fixed set of fields, written as an object or, in order, as a list. -/

namespace DocPatch

/-- How a record is read: its name, its fields in order, how many of the first it cannot do without,
    and how a field enters it. -/
structure RecordFormat (α : Type) where
  name : String
  fields : List String
  required : Nat
  empty : α
  put : α → String → Tree → Except Fault α

namespace RecordFormat

/-- Reads entries: each field once, others are passed over. Returns the fields seen. -/
def readEntries (format : RecordFormat α) (record : α) (seen : List String) :
    List (Key × Tree) → Except Fault (α × List String)
  | [] => .ok (record, seen)
  | (key, tree) :: rest => do
    let name ← key.name
    if format.fields.contains name then
      -- A field is refused at its second key, before its value is looked at.
      if seen.contains name then throw ⟨.repeatedField name, key.next⟩
      let record ← format.put record name tree
      format.readEntries record (name :: seen) rest
    else
      tree.skip
      format.readEntries record seen rest

/-- Reads items as the fields in order. Returns the fields and the items left over. -/
def readItems (format : RecordFormat α) (record : α) :
    List String → List Tree → Except Fault (α × List String × List Tree)
  | name :: names, tree :: rest => do
    let record ← format.put record name tree
    format.readItems record names rest
  -- Either side may run out first.
  | names, trees => .ok (record, names, trees)

/-- Refuses a record whose brackets close before its required fields are there. -/
def checkEntries (format : RecordFormat α) (seen : List String) (stop : Nat) : Except Fault Unit :=
  match (format.fields.take format.required).find? fun name => !seen.contains name with
  | some name => .error ⟨.absentField name, stop⟩
  | none => .ok ()

/-- Refuses a list that is too short for the required fields. -/
def checkItems (format : RecordFormat α) (count stop : Nat) : Except Fault Unit :=
  if count < format.required then
    let elements := toString format.fields.length ++ " elements"
    .error ⟨.wrongLength count ("struct " ++ format.name ++ " with " ++ elements), stop⟩
  else .ok ()

/-- Where brackets close. -/
def stopOf : Closing → Nat
  | .closed stop => stop
  | .broken fault => fault.read.offset

/-- Reads a record. -/
def read (format : RecordFormat α) : Tree → Except Fault α
  | .map opening entries closing => do
    -- Entries may come in any order, so the required fields are looked for at the end.
    Tree.checkLevel opening
    let (record, seen) ← format.readEntries format.empty [] entries
    closing.read
    format.checkEntries seen (stopOf closing)
    return record
  | .list opening items closing => do
    Tree.checkLevel opening
    -- Items stand for the fields in order; once these are used up, none may follow.
    let (record, names, surplus) ← format.readItems format.empty format.fields items
    if names.isEmpty then Tree.surplus surplus closing
    else
      closing.read
      format.checkItems items.length (stopOf closing)
    return record
  | tree => .error (tree.mismatch ("struct " ++ format.name))

end RecordFormat

end DocPatch
