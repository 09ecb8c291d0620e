import DocPatch.Json.Basic
import DocPatch.Json.Tree

/-! What is made of an outline: values, objects, lists of strings. Faults are reported in the order
of the text, a wrong kind of value before anything inside it. -/

namespace DocPatch

namespace Closing

/-- Accepts a closing bracket. -/
def read : Closing → Except Fault Unit
  | .closed _ => .ok ()
  | .broken fault => .error fault.read

/-- Accepts a closing bracket of something passed over. -/
def skip : Closing → Except Fault Unit
  | .closed _ => .ok ()
  | .broken fault => .error fault.skip

end Closing

namespace Tree

/-- So many brackets may be open at once, and one less. -/
def levelLimit : Nat := 128

/-- Refuses brackets that stand too deep. -/
def checkLevel (opening : Opening) : Except Fault Unit :=
  if opening.level < levelLimit then .ok () else .error ⟨.tooDeep, opening.start + 1⟩

/-- What a scalar is, and that it has a value. -/
def foundScalar : Scalar → Except Fault Found
  | .null => .ok .null
  | .bool value => .ok (.bool value)
  | .number value => .number <$> value
  | .string value => .string <$> value

/-- The fault of a value that is not of the wanted kind: behind a scalar, in front of a bracket. -/
def mismatch (wanted : String) : Tree → Fault
  | .leaf _ stop scalar =>
    match foundScalar scalar with
    | .ok found => ⟨.wrongType found wanted, stop⟩
    | .error fault => fault
  | .broken _ fault => fault.read
  | .list opening _ _ => ⟨.wrongType .sequence wanted, opening.start⟩
  | .map opening _ _ => ⟨.wrongType .map wanted, opening.start⟩

mutual

/-- Passes over a value: it has to be well written, but numbers, surrogates and levels are free. -/
def skip : Tree → Except Fault Unit
  | .leaf _ _ _ => .ok ()
  | .broken _ fault => .error fault.skip
  | .list _ items closing => do
    skipItems items
    closing.skip
  | .map _ entries closing => do
    skipEntries entries
    closing.skip

/-- Passes over values one after the other. -/
def skipItems : List Tree → Except Fault Unit
  | [] => .ok ()
  | tree :: rest => do
    tree.skip
    skipItems rest

/-- Passes over the values of entries. -/
def skipEntries : List (Key × Tree) → Except Fault Unit
  | [] => .ok ()
  | (_, tree) :: rest => do
    tree.skip
    skipEntries rest

end

/-- The value of a scalar. -/
def readScalar : Scalar → Except Fault Json
  | .null => .ok .null
  | .bool value => .ok (.bool value)
  | .number value => .number <$> value
  | .string value => .string <$> value

mutual

/-- Reads a value. -/
def read : Tree → Except Fault Json
  | .leaf _ _ scalar => readScalar scalar
  | .broken _ fault => .error fault.read
  | .list opening items closing => do
    checkLevel opening
    let values ← readItems items
    closing.read
    return .array values
  | .map opening entries closing => do
    checkLevel opening
    let fields ← readEntries entries
    closing.read
    return .object (Fields.ofEntries fields)

/-- Reads values one after the other. -/
def readItems : List Tree → Except Fault (List Json)
  | [] => .ok []
  | tree :: rest => do
    let value ← tree.read
    let values ← readItems rest
    return value :: values

/-- Reads entries one after the other, repeated keys included. -/
def readEntries : List (Key × Tree) → Except Fault (List (String × Json))
  | [] => .ok []
  | (key, tree) :: rest => do
    let name ← key.name
    let value ← tree.read
    let fields ← readEntries rest
    return (name, value) :: fields

end

/-- Reads an object. -/
def readFields : Tree → Except Fault Fields
  | .map opening entries closing => do
    checkLevel opening
    let fields ← readEntries entries
    closing.read
    return Fields.ofEntries fields
  | tree => .error (tree.mismatch "a map")

/-- Reads a string. -/
def readString : Tree → Except Fault String
  | .leaf _ _ (.string value) => value
  | tree => .error (tree.mismatch "a string")

/-- Reads a list, its items by a reader of their own. -/
def readList (item : Tree → Except Fault α) : Tree → Except Fault (List α)
  | .list opening items closing => do
    checkLevel opening
    let values ← items.mapM item
    closing.read
    return values
  | tree => .error (tree.mismatch "a sequence")

/-- Reads a value that may be absent, which `null` says. -/
def readOptional (value : Tree → Except Fault α) : Tree → Except Fault (Option α)
  | .leaf _ _ .null => .ok none
  | tree => some <$> value tree

/-- The fault of a list in which more follows than can be used: what follows is not looked into. -/
def surplus : List Tree → Closing → Except Fault Unit
  | tree :: _, _ => .error ⟨.trailingCharacters, tree.start + 1⟩
  | [], .closed _ => .ok ()
  | [], .broken fault =>
    match fault.read.cause with
    | .endInValue | .noListSeparator => .error ⟨.trailingCharacters, fault.read.offset⟩
    | _ => .error fault.read

/-- Reads a text with a reader for its outline; nothing may stand behind the value. -/
def readText (value : Tree → Except Fault α) (text : String) : Except ReadError α :=
  let tokens := Token.ofText 0 text.toList
  let (tree, rest) := ofTokens text.utf8ByteSize (.value []) tokens
  let result : Except Fault _ := do
    let found ← value tree
    -- The value is complete, so any further token is too much.
    match rest with
    | [] => return found
    | token :: _ => throw ⟨.trailingCharacters, token.start + 1⟩
  result.mapError (Fault.locate text)

end Tree

namespace Json

/-- The value that a text holds. -/
def parse (text : String) : Except ReadError Json := Tree.readText Tree.read text

/-- The items of the array that a text holds. -/
def parseItems (text : String) : Except ReadError (List Json) :=
  Tree.readText (Tree.readList Tree.read) text

/-- The object that a text holds. -/
def parseFields (text : String) : Except ReadError Fields := Tree.readText Tree.readFields text

end Json

end DocPatch
