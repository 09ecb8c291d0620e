import Mathlib.Data.List.TakeWhile
import DocPatch.Json.Token

/-! Numbers in front of other text are scanned as they are alone, and integers are scanned as they
    are printed. -/

namespace DocPatch

namespace Token

/-- Whether a number may go on with a character. -/
def goesOn (c : Char) : Bool := c.isDigit || c = '.' || c = 'e' || c = 'E'

/-- A text in front of which a number ends. -/
def Delimited (text : List Char) : Prop := ∀ c ∈ text.head?, goesOn c = false

/-- A number was scanned, and some text is left. -/
def Scan.Holds (n : Number) (rest : List Char) (found : Scan) : Prop :=
  ∃ start stop, found = ⟨⟨.scalar (.number (.ok n)), start, stop⟩, rest⟩

section

variable {n : Number} {rest : List Char}

/-- A delimited text begins with nothing that a number goes on with. -/
theorem Delimited.head {c : Char} {tail : List Char} (delimited : Delimited (c :: tail)) :
    c.isDigit = false ∧ c ≠ '.' ∧ c ≠ 'e' ∧ c ≠ 'E' := by
  -- The first character is one of those that a number does not go on with.
  have head := delimited c rfl
  simpa only [goesOn, Bool.or_eq_false_iff, decide_eq_false_iff_not, and_assoc] using head

/-- No digits stand at the front of a delimited text. -/
theorem Delimited.takeWhile (delimited : Delimited rest) : rest.takeWhile Char.isDigit = [] := by
  -- The text is empty or its first character is no digit.
  cases rest with
  | nil => rfl
  | cons c tail => simp [delimited.head.1]

theorem Delimited.dropWhile (delimited : Delimited rest) : rest.dropWhile Char.isDigit = rest := by
  -- For the same reason nothing is dropped.
  cases rest with
  | nil => rfl
  | cons c tail => simp [delimited.head.1]

/-- The digits at the front stay the same in front of a delimited text. -/
theorem digits_append (text : List Char) (delimited : Delimited rest) :
    digits (text ++ rest) = digits text := by
  -- If all of the text is digits, the search runs on into what follows and stops there at once.
  have same : (text ++ rest).takeWhile Char.isDigit = text.takeWhile Char.isDigit := by
    rw [List.takeWhile_append, delimited.takeWhile, List.append_nil]
    split
    · rename_i all
      exact ((List.takeWhile_prefix _).eq_of_length all).symm
    · rfl
  rw [digits, same, ← digits]

/-- A delimited text stays behind what is left behind the digits. -/
theorem pastDigits_append (text : List Char) (delimited : Delimited rest) :
    pastDigits (text ++ rest) = pastDigits text ++ rest := by
  -- If nothing is left of the text, what follows begins with no digit and stays whole.
  rw [pastDigits, List.dropWhile_append, delimited.dropWhile]
  split
  · rename_i none
    rw [pastDigits, List.isEmpty_iff.mp none, List.nil_append]
  · rfl

/-- What breaks off is no number. -/
theorem not_holds_broken {fault : Break} {start offset : Nat} {text left : List Char} :
    ¬ Scan.Holds n left ⟨⟨.broken fault, start, offset⟩, text⟩ := by
  -- A broken token is not the token of a number.
  rintro ⟨_, _, same⟩
  cases same

/-- A literal with a value is scanned as it, and what is left is what stands behind it. -/
theorem holds_number {literal : Literal} {start offset : Nat} {text left : List Char} :
    (number literal start offset text).Holds n left ↔ literal.value = .ok n ∧ text = left := by
  -- The value of the literal says whether the token is a number.
  unfold number Scan.Holds
  cases literal.value with
  | ok value => simp [Except.mapError]
  | error unread => simp [Except.mapError]

variable {start offset start' offset' : Nat} {text : List Char} {negative down : Bool}
  {whole places : List Nat}

/-- The digits of an exponent are scanned in front of a delimited text as they are alone. -/
theorem Scan.Holds.exponentDigits (delimited : Delimited rest)
    (alone : (exponentDigits negative whole places down start offset text).Holds n []) :
    (exponentDigits negative whole places down start' offset' (text ++ rest)).Holds n rest := by
  -- The digits are the same ones, and there is at least one of them.
  simp only [Token.exponentDigits, digits_append text delimited,
    pastDigits_append text delimited] at alone ⊢
  split at alone
  · exact absurd alone not_holds_broken
  · rename_i some_digits
    obtain ⟨value, nothing⟩ := holds_number.mp alone
    rw [if_neg some_digits, nothing]
    exact holds_number.mpr ⟨value, rfl⟩

/-- An exponent, if there is one, is scanned in front of a delimited text as it is alone. -/
theorem Scan.Holds.exponent (delimited : Delimited rest)
    (alone : (exponent negative whole places start offset text).Holds n []) :
    (exponent negative whole places start' offset' (text ++ rest)).Holds n rest := by
  -- The letter is there in both texts or in neither, and so is the sign behind it.
  unfold Token.exponent at alone
  split at alone
  · -- Nothing is left, and the text behind does not begin with an exponent.
    obtain ⟨value, -⟩ := holds_number.mp alone
    cases rest with
    | nil => exact holds_number.mpr ⟨value, rfl⟩
    | cons c tail =>
      obtain ⟨-, -, no_e, no_E⟩ := delimited.head
      simp only [List.nil_append, Token.exponent, no_e, no_E]
      exact holds_number.mpr ⟨value, rfl⟩
  · rename_i c tail
    split at alone
    · -- With a letter, a sign may follow, and then digits have to.
      rename_i letter
      simp only [List.cons_append, Token.exponent, letter, ↓reduceIte]
      cases tail with
      | nil => exact absurd alone not_holds_broken
      | cons sign tail =>
        split at alone
        iterate 2
          · rename_i same
            obtain ⟨rfl, rfl⟩ := List.cons.inj same
            exact alone.exponentDigits delimited
        · -- The first character is no sign, so it is none in front of more text either.
          rename_i plus minus
          split
          · rename_i same
            exact absurd (congrArg (· :: tail) (List.cons.inj same).1) (plus tail)
          · rename_i same
            exact absurd (congrArg (· :: tail) (List.cons.inj same).1) (minus tail)
          · exact alone.exponentDigits delimited
    · exact absurd (holds_number.mp alone).2 (List.cons_ne_nil _ _)

/-- A fraction and an exponent, if there are any, are scanned in front of a delimited text as
    they are alone. -/
theorem Scan.Holds.fraction (delimited : Delimited rest)
    (alone : (fraction negative whole start offset text).Holds n []) :
    (fraction negative whole start' offset' (text ++ rest)).Holds n rest := by
  -- The point is there in both texts or in neither.
  unfold Token.fraction at alone
  split at alone
  · -- Behind a point digits have to follow, the same ones in both texts.
    rename_i behind
    simp only [List.cons_append, Token.fraction, digits_append behind delimited,
      pastDigits_append behind delimited]
    dsimp only at alone
    split at alone
    · exact absurd alone not_holds_broken
    · rename_i some_digits
      rw [if_neg some_digits]
      exact alone.exponent delimited
  · -- Without a point there is none in front of more text, which begins with none either.
    rename_i no_point
    have no_point : ∀ tail, text ++ rest ≠ '.' :: tail := by
      intro tail same
      cases text with
      | nil =>
        rw [List.nil_append] at same
        subst same
        exact delimited.head.2.1 rfl
      | cons c text => exact no_point text (by rw [(List.cons.inj same).1])
    rw [Token.fraction.eq_2 _ _ _ _ _ no_point]
    exact alone.exponent delimited

/-- A number behind its sign is scanned in front of a delimited text as it is alone. -/
theorem Scan.Holds.unsigned (delimited : Delimited rest)
    (alone : (unsigned negative start offset text).Holds n []) :
    (unsigned negative start' offset' (text ++ rest)).Holds n rest := by
  -- A leading zero stands alone; any other number starts with its digits.
  unfold Token.unsigned at alone
  split at alone
  · -- Behind a zero no digit may follow, and more text adds none.
    rename_i behind
    simp only [List.cons_append, Token.unsigned, digits_append behind delimited]
    split at alone
    · rename_i no_digits
      rw [if_pos no_digits]
      exact alone.fraction delimited
    · exact absurd alone not_holds_broken
  · -- The number has a digit, so that its first character is the same in front of more text.
    rename_i no_zero
    dsimp only at alone
    split at alone
    · exact absurd alone not_holds_broken
    · rename_i some_digits
      have no_zero : ∀ tail, text ++ rest ≠ '0' :: tail := by
        intro tail same
        cases text with
        | nil => exact some_digits rfl
        | cons c text => exact no_zero text (by rw [(List.cons.inj same).1])
      rw [Token.unsigned.eq_2 _ _ _ _ no_zero]
      simp only [digits_append text delimited, pastDigits_append text delimited]
      rw [if_neg some_digits]
      exact alone.fraction delimited

/-- A word is no number. -/
theorem not_holds_word {kind : TokenKind} (no_number : kind ≠ .scalar (.number (.ok n)))
    {letters left : List Char} : ¬ (word kind start offset letters text).Holds n left := by
  -- A word ends in its own token, or breaks off.
  fun_induction word kind start offset letters text with
  | case1 =>
    rintro ⟨_, _, same⟩
    exact no_number (congrArg (·.token.kind) same)
  | case2 => exact not_holds_broken
  | case3 offset letters _ rest ih => exact ih
  | case4 => exact not_holds_broken

/-- A string is no number. -/
theorem not_holds_string {left : List Char} : ¬ (string start text).Holds n left := by
  -- A string ends in a string or in a fault.
  unfold string
  dsimp only
  rintro ⟨_, _, same⟩
  split at same <;> cases same

/-- What starts with a digit is scanned as a number. -/
theorem scan_digit {c : Char} (digit : c.isDigit = true) :
    scan start c text = unsigned false start start (c :: text) := by
  -- None of the other characters that start a token is a digit.
  unfold scan
  split
  iterate 11 cases digit
  rw [if_pos digit]

/-- A number starts with a minus or a digit. -/
theorem Scan.Holds.first {c : Char} {left : List Char} (holds : (scan start c text).Holds n left) :
    c = '-' ∨ c.isDigit = true := by
  -- Every other first character starts another token, or none.
  unfold Token.scan at holds
  split at holds
  iterate 6
    · obtain ⟨_, _, same⟩ := holds
      cases same
  · exact absurd holds not_holds_string
  iterate 3 exact absurd holds (not_holds_word (by simp))
  · exact .inl rfl
  · split at holds
    · exact .inr ‹_›
    · obtain ⟨_, _, same⟩ := holds
      cases same

/-- A number that is scanned alone is scanned in front of a delimited text, wherever it starts. -/
theorem Scan.Holds.scan {c : Char} (delimited : Delimited rest)
    (alone : (scan start c text).Holds n []) : (scan start' c (text ++ rest)).Holds n rest := by
  -- What is scanned behind a minus, or from a digit on, is a number behind its sign.
  rcases alone.first with rfl | digit
  · have alone : (Token.unsigned true start (start + 1) text).Holds n [] := alone
    exact alone.unsigned delimited
  · rw [scan_digit digit] at alone ⊢
    exact alone.unsigned delimited

end

end Token

namespace Literal

/-- Digits are absorbed one after the other. -/
theorem absorb_append {bound value next digit : Nat} {digits : List Nat}
    (before : absorb bound value digits = (next, [])) (fits : next * 10 + digit ≤ bound) :
    absorb bound value (digits ++ [digit]) = (next * 10 + digit, []) := by
  -- The digits in front are absorbed as before, and the last one comes on top.
  induction digits generalizing value with
  | nil =>
    cases before
    simp [absorb, fits]
  | cons first rest ih =>
    simp only [List.cons_append, absorb] at before ⊢
    split at before
    · rename_i small
      rw [if_pos small]
      exact ih before
    · cases before

/-- The digits that a number is printed in. -/
def decimals (n : Nat) : List Nat := (Nat.toDigits 10 n).map fun c => c.toNat - '0'.toNat

/-- The digits of a number within the bound are absorbed as that number. -/
theorem absorb_decimals {bound : Nat} (n : Nat) (fits : n ≤ bound) :
    absorb bound 0 (decimals n) = (n, []) := by
  -- The last digit of the number comes behind the digits of its tenth.
  induction n using Nat.strongRecOn with
  | ind n ih =>
    have digit : ∀ d < 10, d.digitChar.toNat - '0'.toNat = d := by decide
    by_cases small : n < 10
    · -- A number below ten is its only digit.
      rw [decimals, Nat.toDigits_of_lt_base small, List.map_singleton, digit n small]
      simp [absorb, fits]
    · -- The tenth is smaller, so its digits are absorbed as that number.
      have last := digit (n % 10) (Nat.mod_lt _ (by decide))
      rw [decimals, Nat.toDigits_of_base_le (by decide) (Nat.le_of_not_lt small), List.map_append,
        List.map_singleton, last]
      have parts : n / 10 * 10 + n % 10 = n := Nat.div_add_mod' n 10
      have whole := absorb_append (ih (n / 10) (by omega) (by omega))
        (show n / 10 * 10 + n % 10 ≤ bound by omega)
      rwa [parts] at whole

/-- The digits of a number, and nothing else. -/
def plain (negative : Bool) (size : Nat) : Literal := ⟨negative, decimals size, [], none⟩

/-- Digits of a number that fits 64 bits have the value of that number, with its sign. -/
theorem value_plain (negative : Bool) {size : Nat} (fits : size ≤ significandBound) :
    (plain negative size).value = .ok (integer negative size) := by
  simp [value, plain, absorb_decimals size fits]

end Literal

namespace Token

theorem isDigit_decimal {n : Nat} {c : Char} (member : c ∈ Nat.toDigits 10 n) : c.isDigit = true :=
  Nat.isDigit_of_mem_toDigits (by decide) (by decide) member

/-- A number that is printed starts with a digit, which is a zero only if it stands alone. -/
theorem toDigits_eq_cons (n : Nat) :
    ∃ c rest, Nat.toDigits 10 n = c :: rest ∧ (c = '0' → n = 0) := by
  -- The first digit of a number is that of its tenth, unless the number is below ten.
  induction n using Nat.strongRecOn with
  | ind n ih =>
    by_cases small : n < 10
    · have zero : ∀ d < 10, d.digitChar = '0' → d = 0 := by decide
      exact ⟨n.digitChar, [], Nat.toDigits_of_lt_base small, zero n small⟩
    · obtain ⟨c, rest, first, zero⟩ := ih (n / 10) (by omega)
      refine ⟨c, rest ++ [(n % 10).digitChar], ?_, fun same => ?_⟩
      · rw [Nat.toDigits_of_base_le (by decide) (Nat.le_of_not_lt small), first, List.cons_append]
      · -- If the tenth were zero, the number would be below ten.
        have := zero same
        omega

/-- The digits that a number is printed in are scanned as a literal without other parts. -/
theorem unsigned_toDigits (negative : Bool) (size start offset : Nat) : ∃ stop,
    unsigned negative start offset (Nat.toDigits 10 size) =
      number (.plain negative size) start stop [] := by
  -- A zero is scanned by itself; any other number does not start with one.
  obtain ⟨c, rest, printed, zero⟩ := toDigits_eq_cons size
  by_cases first : c = '0'
  · obtain rfl := zero first
    exact ⟨_, rfl⟩
  · have all := fun c => @isDigit_decimal size c
    -- All characters are digits, so all of them are taken and nothing is left.
    have taken : digits (Nat.toDigits 10 size) = Literal.decimals size := by
      rw [digits, List.takeWhile_eq_self_iff.mpr all, Literal.decimals]
    have left : pastDigits (Nat.toDigits 10 size) = [] := List.dropWhile_eq_nil_iff.mpr all
    have some_digits : (Literal.decimals size).isEmpty = false := by
      simp [Literal.decimals, printed]
    have no_zero : ∀ tail, Nat.toDigits 10 size ≠ '0' :: tail := by
      intro tail same
      rw [printed] at same
      exact first (List.cons.inj same).1
    refine ⟨offset + (Literal.decimals size).length, ?_⟩
    rw [unsigned.eq_2 _ _ _ _ no_zero]
    simp only [taken, left, some_digits]
    rfl

end Token

namespace Number

/-- A number whose text, alone, is scanned as the number again. A binary64 number need not be one:
    what is read of a decimal is rounded in steps. -/
def Legible (n : Number) : Prop :=
  ∃ c inner, n.text.toList = c :: inner ∧ (Token.scan 0 c inner).Holds n []

/-- An integer that fits 64 bits is legible. -/
theorem legible_int {value : Int} (above : -(Nat.pow 2 63 : Nat) ≤ value)
    (below : value ≤ (Literal.significandBound : Nat)) : Legible (.int value) := by
  -- The digits of the size are absorbed whole, and the sign is put before them.
  cases value with
  | ofNat size =>
    obtain ⟨c, rest, printed, -⟩ := Token.toDigits_eq_cons size
    have fits : size ≤ Literal.significandBound := Int.ofNat_le.mp below
    have digit : c.isDigit = true := @Token.isDigit_decimal size c (by simp [printed])
    obtain ⟨stop, scanned⟩ := Token.unsigned_toDigits false size 0 0
    refine ⟨c, rest, ?_, ?_⟩
    · rw [← printed]
      exact String.toList_ofList
    · rw [Token.scan_digit digit, ← printed, scanned]
      exact Token.holds_number.mpr ⟨Literal.value_plain false fits, rfl⟩
  | negSucc size =>
    have small : size + 1 ≤ Nat.pow 2 63 := by
      rw [Int.negSucc_eq] at above
      omega
    have fits : size + 1 ≤ Literal.significandBound := Nat.le_trans small (by decide)
    obtain ⟨stop, scanned⟩ := Token.unsigned_toDigits true (size + 1) 0 1
    -- The size is not zero and within the bound, so that the literal is an integer.
    have sign : Literal.integer true (size + 1) = .int (Int.negSucc size) := by
      simp only [Literal.integer, Bool.not_true, Bool.false_eq_true, ↓reduceIte,
        Nat.add_one_ne_zero, decide_false, Bool.false_or, Nat.not_lt.mpr small]
      rfl
    refine ⟨'-', Nat.toDigits 10 (size + 1), ?_, ?_⟩
    · exact String.toList_append.trans (congrArg _ String.toList_ofList)
    · show (Token.unsigned true 0 1 _).Holds _ _
      rw [scanned]
      exact Token.holds_number.mpr ⟨(Literal.value_plain true fits).trans (congrArg _ sign), rfl⟩

end Number

end DocPatch
