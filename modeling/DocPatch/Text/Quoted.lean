import DocPatch.Text.Printable

/-! Strings in diagnostic form: between double quotes, with everything unprintable spelled out. -/

namespace DocPatch.Quoted

/-- A number in lower-case hexadecimal digits. -/
def hexadecimal (n : Nat) : String := String.ofList (Nat.toDigits 16 n)

/-- One character inside the quotes. -/
def character (c : Char) : String :=
  match c with
  | '"' => "\\\""
  | '\\' => "\\\\"
  | '\n' => "\\n"
  | '\r' => "\\r"
  | '\t' => "\\t"
  | '\x00' => "\\0"
  | _ =>
    if Printable.isPrintable c then c.toString
    else "\\u\x7b" ++ hexadecimal c.toNat ++ "\x7d"

/-- A string between double quotes. -/
def quote (text : String) : String :=
  "\"" ++ String.join (text.toList.map character) ++ "\""

/-- A named structure in diagnostic form. -/
def record (name : String) (fields : List (String × String)) : String :=
  let entries := fields.map fun field => field.1 ++ ": " ++ field.2
  name ++ " \x7b " ++ ", ".intercalate entries ++ " \x7d"

/-- A named value in diagnostic form. -/
def tagged (name value : String) : String := name ++ "(" ++ value ++ ")"

end DocPatch.Quoted
