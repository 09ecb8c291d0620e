import DocPatch.Json.Printer
import DocPatch.Json.Token

/-! A string that is printed between quotes is scanned as it was. -/

namespace DocPatch

namespace Quotation

/-- Written characters mean one: in front of any others they are scanned as one piece, which is
    decoded as that character. -/
def Means (written : List Char) (c : Char) : Prop :=
  -- What follows is any text, so the pieces of a string can be put together.
  ∀ offset text, ∃ piece next, scan offset (written ++ text) = cons offset piece (scan next text) ∧
    ∀ ending stop rest,
      decode ending stop ((offset, piece) :: rest) = (c :: ·) <$> decode ending stop rest

/-- A character that needs no escape means itself. -/
theorem means_plain {c : Char} (no_quote : c ≠ '"') (no_backslash : c ≠ '\\')
    (visible : ¬ c.toNat < 0x20) : Means [c] c := by
  -- The character is none of those that the scanner stops at.
  intro offset text
  refine ⟨.plain c, offset + c.utf8Size, ?_, fun ending stop rest => decode.eq_2 ..⟩
  rw [List.singleton_append, scan.eq_def]
  simp [no_quote, no_backslash, visible]

/-- An escape means the character that it stands for. -/
theorem means_escape {letter c : Char} (known : escape? letter = some c) :
    Means ['\\', letter] c := by
  -- Behind a backslash the scanner looks the letter up, unless it introduces a number.
  intro offset text
  refine ⟨.escape c, offset + 2, ?_, fun ending stop rest => decode.eq_3 ..⟩
  have no_unit : letter ≠ 'u' := by
    rintro rfl
    simp [escape?] at known
  rw [List.cons_append, List.singleton_append, scan.eq_def]
  simp [known]

/-- Four hexadecimal digits mean the character whose number they write, if it is no
    half of a pair. -/
theorem means_unit {a b c d : Char} {code : Nat} (known : unit? a b c d = some code)
    (single : code < 0xd800) : Means ['\\', 'u', a, b, c, d] (Char.ofNat code) := by
  -- The digits are one unit, and a unit that is no half of a pair is decoded on its own.
  intro offset text
  refine ⟨.unit code, offset + 6, ?_, fun ending stop rest => ?_⟩
  · rw [List.cons_append, List.cons_append, scan.eq_def]
    simp [known]
  · have whole : isTrailing code = false ∧ isLeading code = false := by
      constructor
      · simp [isTrailing]; omega
      · simp [isLeading]; omega
    rw [decode.eq_def]
    simp [whole]

/-- The number of a control character is written in four digits, of which two are zeros. -/
theorem unit_controlEscape : ∀ n < 0x20,
    List.replicate (4 - (Nat.toDigits 16 n).length) '0' ++ Nat.toDigits 16 n =
        ['0', '0', (n / 16).digitChar, (n % 16).digitChar] ∧
      unit? '0' '0' (n / 16).digitChar (n % 16).digitChar = some n := by
  -- There are thirty-two numbers to check.
  decide

/-- Every character is printed as characters that mean it. -/
theorem means_character (c : Char) : Means (Json.character c).toList c := by
  -- The seven characters with a short escape come first, then the other control characters.
  unfold Json.character
  split
  iterate 7 exact means_escape rfl
  · split
    · -- A control character is written by its number in four digits.
      rename_i control
      obtain ⟨digits, known⟩ := unit_controlEscape c.toNat control
      have written : (Json.controlEscape c).toList =
          ['\\', 'u', '0', '0', (c.toNat / 16).digitChar, (c.toNat % 16).digitChar] := by
        simp [Json.controlEscape, digits]
      have means := means_unit known (by omega)
      rwa [Char.ofNat_toNat, ← written] at means
    · rw [Char.toString, String.toList_singleton]
      exact means_plain ‹_› ‹_› ‹_›

/-- What stands between the quotes of a printed string. -/
def inside (chars : List Char) : List Char := chars.flatMap fun c => (Json.character c).toList

/-- Printed characters between quotes are scanned up to the closing quote, and mean what
    was printed. -/
theorem scan_characters (chars : List Char) (offset : Nat) (rest : List Char) :
    ∃ pieces stop, scan offset (inside chars ++ '"' :: rest) =
        ⟨pieces, .closed, stop, rest⟩ ∧ decode .closed stop pieces = .ok chars := by
  -- The induction is on the characters: each is one piece, and the closing quote ends the pieces.
  induction chars generalizing offset with
  | nil =>
    refine ⟨[], offset, ?_, rfl⟩
    rw [inside, List.flatMap_nil, List.nil_append, scan.eq_def]
    simp
  | cons c chars ih =>
    obtain ⟨piece, next, scanned, decoded⟩ := means_character c offset (inside chars ++ '"' :: rest)
    obtain ⟨pieces, stop, others, meant⟩ := ih next
    refine ⟨(offset, piece) :: pieces, stop, ?_, ?_⟩
    · rw [inside, List.flatMap_cons, List.append_assoc, ← inside, scanned, others]
      rfl
    · rw [decoded, meant]
      rfl

end Quotation

theorem Json.toList_stringText (text : String) :
    (stringText text).toList = '"' :: (Quotation.inside text.toList ++ ['"']) := by
  simp [stringText, String.toList_join, Quotation.inside, List.flatMap_def, Function.comp_def]

/-- A printed string is scanned as the string. -/
theorem Token.scan_stringText (text : String) (start : Nat) (rest : List Char) :
    ∃ stop, scan start '"' (Quotation.inside text.toList ++ '"' :: rest) =
      ⟨⟨.scalar (.string (.ok text)), start, stop⟩, rest⟩ := by
  -- The characters between the quotes are scanned and decoded as those of the text.
  obtain ⟨pieces, stop, scanned, meant⟩ := Quotation.scan_characters text.toList (start + 1) rest
  refine ⟨stop + 1, ?_⟩
  show string start (Quotation.inside text.toList ++ '"' :: rest) = _
  have same : String.ofList <$> (Except.ok text.toList : Except Fault (List Char)) = .ok text :=
    congrArg Except.ok String.ofList_toList
  simp only [string, scanned, Quotation.skipFault?, Quotation.text, meant, same]

end DocPatch
