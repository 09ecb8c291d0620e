import DocPatch.Json.Literal
import DocPatch.Json.Quotation

/-! The tokens of a JSON text with the bytes they cover. -/

namespace DocPatch

/-- A place where the text breaks: the fault met when the value there is read, and the one met when
    it is passed over. -/
structure Break where
  read : Fault
  skip : Fault

/-- One fault however the value is treated. -/
def Break.always (cause : Cause) (offset : Nat) : Break := ⟨⟨cause, offset⟩, ⟨cause, offset⟩⟩

/-- A value without parts. A number or a string may be well written and yet mean nothing. -/
inductive Scalar where
  | null
  | bool (value : Bool)
  | number (value : Except Fault Number)
  | string (value : Except Fault String)

/-- What a token is. -/
inductive TokenKind where
  | openArray
  | closeArray
  | openObject
  | closeObject
  | comma
  | colon
  | scalar (value : Scalar)
  /-- A string that breaks off; nothing follows it. -/
  | brokenString (fault : Break)
  /-- A number or a word that breaks off; nothing follows it. -/
  | broken (fault : Break)
  /-- A character that starts no token. -/
  | stray

/-- A token, from its first byte to behind its last. -/
structure Token where
  kind : TokenKind
  start : Nat
  stop : Nat

/-- A token and the text behind it. -/
structure Token.Scan where
  token : Token
  rest : List Char

namespace Token

/-- Whether a character is JSON white space. -/
def isBlank (c : Char) : Bool := c = ' ' || c = '\t' || c = '\n' || c = '\r'

/-- The decimal digits at the front. -/
def digits (text : List Char) : List Nat :=
  (text.takeWhile Char.isDigit).map fun c => c.toNat - '0'.toNat

/-- The text behind the digits at the front. -/
def pastDigits (text : List Char) : List Char := text.dropWhile Char.isDigit

/-- The word whose first letter was seen, or the fault at its first wrong letter. -/
def word (kind : TokenKind) (start offset : Nat) : List Char → List Char → Scan
  | [], rest => ⟨⟨kind, start, offset⟩, rest⟩
  -- The text ends inside of the word.
  | _ :: _, [] => ⟨⟨.broken (.always .endInValue offset), start, offset⟩, []⟩
  | letter :: letters, c :: rest =>
    if c = letter then word kind start (offset + 1) letters rest
    else ⟨⟨.broken (.always .brokenWord (offset + 1)), start, offset⟩, rest⟩

/-- A number that breaks off where the text does, or at a wrong character. -/
def brokenNumber (start offset : Nat) (rest : List Char) : Scan :=
  let fault : Break :=
    if rest.isEmpty then ⟨⟨.endInValue, offset⟩, ⟨.invalidNumber, offset⟩⟩
    else .always .invalidNumber (offset + 1)
  ⟨⟨.broken fault, start, offset⟩, rest⟩

/-- A whole number literal, up to the offset. -/
def number (literal : Literal) (start offset : Nat) (rest : List Char) : Scan :=
  let value := literal.value.mapError fun unread => ⟨.numberOutOfRange, offset - unread⟩
  ⟨⟨.scalar (.number value), start, offset⟩, rest⟩

/-- The digits of an exponent, which cannot be missing. -/
def exponentDigits (negative : Bool) (whole fraction : List Nat) (down : Bool) (start offset : Nat)
    (text : List Char) : Scan :=
  let size := digits text
  -- An exponent without digits breaks the number off.
  if size.isEmpty then brokenNumber start offset text
  else number ⟨negative, whole, fraction, some (down, size)⟩ start (offset + size.length)
    (pastDigits text)

/-- The exponent of a number, if one follows. -/
def exponent (negative : Bool) (whole fraction : List Nat) (start offset : Nat) (text : List Char) :
    Scan :=
  match text with
  | [] => number ⟨negative, whole, fraction, none⟩ start offset []
  | c :: rest =>
    if c = 'e' || c = 'E' then
      -- A sign may stand in front of the digits.
      match rest with
      | '+' :: tail => exponentDigits negative whole fraction false start (offset + 2) tail
      | '-' :: tail => exponentDigits negative whole fraction true start (offset + 2) tail
      | tail => exponentDigits negative whole fraction false start (offset + 1) tail
    else number ⟨negative, whole, fraction, none⟩ start offset (c :: rest)

/-- The fraction of a number, if one follows, and its exponent. -/
def fraction (negative : Bool) (whole : List Nat) (start offset : Nat) (text : List Char) : Scan :=
  match text with
  | '.' :: rest =>
    let places := digits rest
    -- A point has to be followed by a digit.
    if places.isEmpty then brokenNumber start (offset + 1) rest
    else exponent negative whole places start (offset + 1 + places.length) (pastDigits rest)
  | _ => exponent negative whole [] start offset text

/-- A number behind its sign. A leading zero stands alone. -/
def unsigned (negative : Bool) (start offset : Nat) (text : List Char) : Scan :=
  match text with
  | '0' :: rest =>
    -- Digits behind a leading zero are a fault at the first of them.
    if (digits rest).isEmpty then fraction negative [0] start (offset + 1) rest
    else ⟨⟨.broken (.always .invalidNumber (offset + 2)), start, offset + 1⟩, rest⟩
  | _ =>
    -- The first digit has been seen, or there is none behind a minus sign.
    let whole := digits text
    if whole.isEmpty then brokenNumber start offset text
    else fraction negative whole start (offset + whole.length) (pastDigits text)

/-- A string behind its opening quote. -/
def string (start : Nat) (text : List Char) : Scan :=
  let quotation := Quotation.scan (start + 1) text
  match Quotation.skipFault? quotation.offset quotation.ending with
  | none => ⟨⟨.scalar (.string quotation.text), start, quotation.offset + 1⟩, quotation.rest⟩
  -- Reading the string may stop at an earlier fault than passing over it.
  | some skip =>
    let read := match quotation.text with
      | .error fault => fault
      | .ok _ => skip
    ⟨⟨.brokenString ⟨read, skip⟩, start, quotation.offset⟩, quotation.rest⟩

/-- The token that starts with a character. -/
def scan (start : Nat) (c : Char) (rest : List Char) : Scan :=
  let one (kind : TokenKind) : Scan := ⟨⟨kind, start, start + 1⟩, rest⟩
  match c with
  | '[' => one .openArray
  | ']' => one .closeArray
  | '\x7b' => one .openObject
  | '\x7d' => one .closeObject
  | ',' => one .comma
  | ':' => one .colon
  | '"' => string start rest
  -- The first letter decides which word has to follow.
  | 'n' => word (.scalar .null) start (start + 1) "ull".toList rest
  | 't' => word (.scalar (.bool true)) start (start + 1) "rue".toList rest
  | 'f' => word (.scalar (.bool false)) start (start + 1) "alse".toList rest
  | '-' => unsigned true start (start + 1) rest
  -- A digit is a part of the number, so the number starts with it.
  | _ => if c.isDigit then unsigned false start start (c :: rest) else one .stray

/-- Whether nothing behind the token is looked at. -/
def halts (token : Token) : Bool :=
  match token.kind with
  | .brokenString _ | .broken _ | .stray => true
  | _ => false

theorem length_pastDigits_le (text : List Char) : (pastDigits text).length ≤ text.length :=
  (List.dropWhile_suffix _).length_le

theorem length_rest_word_le (kind : TokenKind) (start offset : Nat) (letters text : List Char) :
    (word kind start offset letters text).rest.length ≤ text.length := by
  -- A word takes one character for every letter that it still expects.
  fun_induction word kind start offset letters text <;> simp_all
  omega

theorem length_rest_exponentDigits_le (negative : Bool) (whole fraction : List Nat) (down : Bool)
    (start offset : Nat) (text : List Char) :
    (exponentDigits negative whole fraction down start offset text).rest.length ≤ text.length := by
  -- Without digits the text is kept, and with digits it is what stands behind them.
  unfold exponentDigits
  dsimp only
  split
  · exact Nat.le_refl _
  · exact length_pastDigits_le text

theorem length_rest_exponent_le (negative : Bool) (whole fraction : List Nat) (start offset : Nat)
    (text : List Char) :
    (exponent negative whole fraction start offset text).rest.length ≤ text.length := by
  unfold exponent
  split
  · exact Nat.le_refl _
  · split
    · -- The letter, and the sign if there is one, come on top of the digits.
      split
      · exact Nat.le_succ_of_le (Nat.le_succ_of_le (length_rest_exponentDigits_le ..))
      · exact Nat.le_succ_of_le (Nat.le_succ_of_le (length_rest_exponentDigits_le ..))
      · exact Nat.le_succ_of_le (length_rest_exponentDigits_le ..)
    · exact Nat.le_refl _

theorem length_rest_fraction_le (negative : Bool) (whole : List Nat) (start offset : Nat)
    (text : List Char) : (fraction negative whole start offset text).rest.length ≤ text.length := by
  -- Behind a point digits are taken, and then an exponent in either case.
  unfold fraction
  split
  next rest =>
    dsimp only
    split
    · exact Nat.le_succ _
    · exact Nat.le_succ_of_le
        (Nat.le_trans (length_rest_exponent_le ..) (length_pastDigits_le rest))
  · exact length_rest_exponent_le ..

theorem length_rest_unsigned_le (negative : Bool) (start offset : Nat) (text : List Char) :
    (unsigned negative start offset text).rest.length ≤ text.length := by
  -- A number takes a lone zero or all its digits, and then a fraction.
  unfold unsigned
  split
  · split
    · exact Nat.le_succ_of_le (length_rest_fraction_le ..)
    · exact Nat.le_succ _
  · dsimp only
    split
    · exact Nat.le_refl _
    · exact Nat.le_trans (length_rest_fraction_le ..) (length_pastDigits_le text)

/-- A number whose first character is a digit takes at least that digit. -/
theorem length_rest_unsigned_cons_le (negative : Bool) (start offset : Nat) (c : Char)
    (rest : List Char) (digit : c.isDigit = true) :
    (unsigned negative start offset (c :: rest)).rest.length ≤ rest.length := by
  -- A zero stands alone; with any other digit the digits behind it are taken as well.
  unfold unsigned
  split
  next zero _ same =>
    obtain ⟨rfl, rfl⟩ := List.cons.inj same
    split
    · exact length_rest_fraction_le ..
    · exact Nat.le_refl _
  · have past : pastDigits (c :: rest) = pastDigits rest := by simp [pastDigits, digit]
    simp only [digits, List.takeWhile_cons, digit, if_true, List.map_cons, List.isEmpty_cons]
    rw [past]
    exact Nat.le_trans (length_rest_fraction_le ..) (length_pastDigits_le rest)

theorem length_rest_string_le (start : Nat) (text : List Char) :
    (string start text).rest.length ≤ text.length := by
  -- A string takes what its quotation takes, whether it was closed or not.
  have shrink := Quotation.length_rest_scan_le (start + 1) text
  unfold string
  dsimp only
  split <;> exact shrink

/-- A token takes at least the character it starts with. -/
theorem length_rest_scan_le (start : Nat) (c : Char) (text : List Char) :
    (scan start c text).rest.length ≤ text.length := by
  -- The first character says what kind of token is scanned from the characters behind it.
  unfold scan
  split
  iterate 6 exact Nat.le_refl _
  · exact length_rest_string_le ..
  iterate 3 exact length_rest_word_le ..
  · exact length_rest_unsigned_le ..
  · split
    next digit => exact length_rest_unsigned_cons_le _ _ _ c text digit
    · exact Nat.le_refl _

/-- The tokens of a text from an offset on; they end where the text breaks. -/
def ofText (offset : Nat) (text : List Char) : List Token :=
  match text with
  | [] => []
  | c :: rest =>
    if isBlank c then ofText (offset + 1) rest
    else
      let found := scan offset c rest
      -- Behind a break nothing can be told apart.
      if found.token.halts then [found.token]
      else found.token :: ofText found.token.stop found.rest
termination_by text.length
decreasing_by
  · simp
  · have := length_rest_scan_le offset c rest
    simp only [List.length_cons]
    omega

end Token

end DocPatch
