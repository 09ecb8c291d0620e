import DocPatch.Json.Fault

/-! The inside of a JSON string: its pieces, how it ends, and the characters it stands for. -/

namespace DocPatch

namespace Quotation

/-- One written character, or one UTF-16 unit in hexadecimal. -/
inductive Piece where
  | plain (c : Char)
  | escape (c : Char)
  | unit (code : Nat)

/-- What ends the pieces of a string. -/
inductive Ending where
  /-- The closing quote. -/
  | closed
  /-- The end of the text. -/
  | unfinished
  /-- A control character that is not escaped. -/
  | control
  /-- A backslash before a character that names no escape. -/
  | unknownEscape
  /-- Four bytes that are no hexadecimal digits. -/
  | badUnit

end Quotation

/-- A string as it is written: its pieces with their offsets, its ending and the text after it.
    The offset of an unfinished string is the end of the text. -/
structure Quotation where
  pieces : List (Nat × Quotation.Piece)
  ending : Quotation.Ending
  offset : Nat
  rest : List Char

namespace Quotation

/-- The value of a hexadecimal digit. -/
def hexDigit? (c : Char) : Option Nat :=
  if '0' ≤ c && c ≤ '9' then some (c.toNat - '0'.toNat)
  else if 'a' ≤ c && c ≤ 'f' then some (c.toNat - 'a'.toNat + 10)
  else if 'A' ≤ c && c ≤ 'F' then some (c.toNat - 'A'.toNat + 10)
  else none

/-- The unit that four hexadecimal digits write. -/
def unit? (a b c d : Char) : Option Nat := do
  return ((← hexDigit? a) * 16 + (← hexDigit? b)) * 256 + (← hexDigit? c) * 16 + (← hexDigit? d)

/-- The character that a one-letter escape stands for. -/
def escape? : Char → Option Char
  | '"' => some '"'
  | '\\' => some '\\'
  | '/' => some '/'
  | 'b' => some '\x08'
  | 'f' => some '\x0c'
  | 'n' => some '\n'
  | 'r' => some '\r'
  | 't' => some '\t'
  | _ => none

/-- The bytes that characters take in UTF-8. -/
def byteCount (text : List Char) : Nat := text.foldl (fun count c => count + c.utf8Size) 0

/-- Puts a piece in front. -/
def cons (offset : Nat) (piece : Piece) (tail : Quotation) : Quotation :=
  { tail with pieces := (offset, piece) :: tail.pieces }

/-- Takes a string apart, from behind its opening quote. -/
def scan (offset : Nat) : List Char → Quotation
  | [] => ⟨[], .unfinished, offset, []⟩
  | c :: rest =>
    if c = '"' then ⟨[], .closed, offset, rest⟩
    else if c = '\\' then
      match rest with
      | [] => ⟨[], .unfinished, offset + 1, []⟩
      | 'u' :: digits =>
        match digits with
        | a :: b :: c :: d :: after =>
          match unit? a b c d with
          | some code => cons offset (.unit code) (scan (offset + 6) after)
          | none => ⟨[], .badUnit, offset, after⟩
        | _ =>
          -- A wide character may still supply the four bytes that are looked at.
          if byteCount digits < 4 then ⟨[], .unfinished, offset + 2 + byteCount digits, []⟩
          else ⟨[], .badUnit, offset, []⟩
      | letter :: after =>
        match escape? letter with
        | some meant => cons offset (.escape meant) (scan (offset + 2) after)
        | none => ⟨[], .unknownEscape, offset, after⟩
    else if c.toNat < 0x20 then ⟨[], .control, offset, rest⟩
    else cons offset (.plain c) (scan (offset + c.utf8Size) rest)

/-- Whether a unit opens a surrogate pair. -/
def isLeading (code : Nat) : Bool := 0xd800 ≤ code && code ≤ 0xdbff

/-- Whether a unit closes a surrogate pair. -/
def isTrailing (code : Nat) : Bool := 0xdc00 ≤ code && code ≤ 0xdfff

/-- The character of a surrogate pair. -/
def pair (leading trailing : Nat) : Char :=
  Char.ofNat (0x10000 + (leading - 0xd800) * 0x400 + (trailing - 0xdc00))

/-- The fault of an ending when the string is only passed over. -/
def skipFault? (offset : Nat) : Ending → Option Fault
  | .closed => none
  | .unfinished => some ⟨.endInString, offset⟩
  | .control => some ⟨.controlCharacter, offset⟩
  | .unknownEscape => some ⟨.invalidEscape, offset + 2⟩
  | .badUnit => some ⟨.invalidEscape, offset + 6⟩

/-- The fault of an ending when the string is read; a control character counts as read. -/
def readFault? (offset : Nat) : Ending → Option Fault
  | .control => some ⟨.controlCharacter, offset + 1⟩
  | ending => skipFault? offset ending

/-- The fault of an ending right behind a leading surrogate, which wants another unit. -/
def unpairedFault (offset : Nat) : Ending → Fault
  | .closed | .control => ⟨.unpairedEscape, offset + 1⟩
  | .unknownEscape => ⟨.unpairedEscape, offset + 2⟩
  | .unfinished => ⟨.endInString, offset⟩
  | .badUnit => ⟨.invalidEscape, offset + 6⟩

/-- The characters that pieces stand for. Surrogates have to come in pairs. -/
def decode (ending : Ending) (stop : Nat) : List (Nat × Piece) → Except Fault (List Char)
  | [] =>
    match readFault? stop ending with
    | none => .ok []
    | some fault => .error fault
  -- A character stands for itself, as it was written or as it was escaped.
  | (_, .plain c) :: rest | (_, .escape c) :: rest => (c :: ·) <$> decode ending stop rest
  | (offset, .unit code) :: rest =>
    if isTrailing code then .error ⟨.loneSurrogate, offset + 6⟩
    -- A leading surrogate has to be followed by a trailing one at once.
    else if isLeading code then
      match rest with
      | [] => .error (unpairedFault stop ending)
      | (next, .plain _) :: _ => .error ⟨.unpairedEscape, next + 1⟩
      | (next, .escape _) :: _ => .error ⟨.unpairedEscape, next + 2⟩
      | (next, .unit second) :: after =>
        if isTrailing second then (pair code second :: ·) <$> decode ending stop after
        else .error ⟨.loneSurrogate, next + 6⟩
    else (Char.ofNat code :: ·) <$> decode ending stop rest

/-- The string that is meant. -/
def text (quotation : Quotation) : Except Fault String :=
  String.ofList <$> decode quotation.ending quotation.offset quotation.pieces

/-- Scanning never grows the text. -/
theorem length_rest_scan_le (offset : Nat) (text : List Char) :
    (scan offset text).rest.length ≤ text.length := by
  -- Every branch of the scan drops the characters it has looked at, or stops and keeps the text.
  fun_induction scan offset text <;> repeat' split
  all_goals simp_all only [cons, List.length_cons, List.length_nil]
  all_goals omega

end Quotation

end DocPatch
