import DocPatch.Json.Basic

/-! The two written forms of a JSON value: without spaces, and one entry a line. -/

namespace DocPatch.Json

/-- A four-digit escape of a control character. -/
def controlEscape (c : Char) : String :=
  let digits := Nat.toDigits 16 c.toNat
  "\\u" ++ String.ofList (List.replicate (4 - digits.length) '0' ++ digits)

/-- One character of a string: quotes, backslashes and control characters are escaped. -/
def character (c : Char) : String :=
  match c with
  | '"' => "\\\""
  | '\\' => "\\\\"
  | '\x08' => "\\b"
  | '\x0c' => "\\f"
  | '\n' => "\\n"
  | '\r' => "\\r"
  | '\t' => "\\t"
  -- The other control characters have no short form.
  | _ => if c.toNat < 0x20 then controlEscape c else c.toString

/-- A string between quotes. -/
def stringText (text : String) : String := "\"" ++ String.join (text.toList.map character) ++ "\""

/-- The text of a value without parts; brackets stand for empty containers. -/
def scalarText : Json → String
  | .null => "null"
  | .bool value => toString value
  | .number value => value.text
  | .string value => stringText value
  | .array _ => "[]"
  | .object _ => "\x7b\x7d"

mutual

/-- The text of a value without spaces. -/
def compact : Json → String
  | .array items => "[" ++ ",".intercalate (compactItems items) ++ "]"
  | .object fields => "\x7b" ++ ",".intercalate (compactFields fields) ++ "\x7d"
  | value => scalarText value

/-- The texts of items. -/
def compactItems : List Json → List String
  | [] => []
  | item :: rest => item.compact :: compactItems rest

/-- The texts of entries. -/
def compactFields : List (String × Json) → List String
  | [] => []
  | (key, value) :: rest => (stringText key ++ ":" ++ value.compact) :: compactFields rest

end

/-- Lines between brackets, two spaces a level. -/
def block (opening closing : String) (level : Nat) (lines : List String) : String :=
  let margin (level : Nat) := "\n" ++ String.ofList (List.replicate (2 * level) ' ')
  opening ++ margin (level + 1) ++ ("," ++ margin (level + 1)).intercalate lines ++ margin level
    ++ closing

mutual

/-- The text of a value at a level of indentation; empty containers stay on their line. -/
def indented (level : Nat) : Json → String
  | .array (item :: rest) => block "[" "]" level (indentedItems (level + 1) (item :: rest))
  | .object (entry :: rest) =>
    block "\x7b" "\x7d" level (indentedFields (level + 1) (entry :: rest))
  -- Empty containers end up here together with the scalars.
  | value => scalarText value

/-- The texts of items at a level. -/
def indentedItems (level : Nat) : List Json → List String
  | [] => []
  | item :: rest => item.indented level :: indentedItems level rest

/-- The texts of entries at a level. -/
def indentedFields (level : Nat) : List (String × Json) → List String
  | [] => []
  | (key, value) :: rest =>
    (stringText key ++ ": " ++ value.indented level) :: indentedFields level rest

end

/-- The text of a value, one entry or item a line. -/
def pretty (value : Json) : String := value.indented 0

end DocPatch.Json
