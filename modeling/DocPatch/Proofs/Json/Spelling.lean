import DocPatch.Json.Tree
import DocPatch.Json.Reader
import DocPatch.Proofs.Json.Numerals
import DocPatch.Proofs.Json.Quoting

/-! The text of a value, as it is printed without spaces, is taken apart into the tokens
    of the value. -/

namespace DocPatch

namespace Token

/-- Characters spell kinds of tokens: in front of a text where a number ends, they are taken apart
    into tokens of those kinds. -/
def Spells (written : List Char) (kinds : List TokenKind) : Prop :=
  ∀ offset rest, Delimited rest → ∃ tokens stop, tokens.map kind = kinds ∧
    ofText offset (written ++ rest) = tokens ++ ofText stop rest

/-- A character that is a token by itself. -/
inductive Mark : Char → TokenKind → Prop where
  | openArray : Mark '[' .openArray
  | closeArray : Mark ']' .closeArray
  | openObject : Mark '\x7b' .openObject
  | closeObject : Mark '\x7d' .closeObject
  | comma : Mark ',' .comma
  | colon : Mark ':' .colon

/-- Such a character is scanned as its token, whatever is behind it. -/
theorem Mark.scanned {c : Char} {kind : TokenKind} (mark : Mark c kind) (start : Nat)
    (rest : List Char) :
    isBlank c = false ∧ scan start c rest = ⟨⟨kind, start, start + 1⟩, rest⟩ ∧
      halts ⟨kind, start, start + 1⟩ = false := by
  -- There are six such characters.
  cases mark <;> exact ⟨rfl, rfl, rfl⟩

/-- A number ends in front of such a character. -/
theorem Mark.delimits {c : Char} {kind : TokenKind} (mark : Mark c kind) (text : List Char) :
    Delimited (c :: text) := by
  -- No number goes on with any of them.
  rintro _ ⟨⟩
  cases mark <;> rfl

/-- A token that does not halt is followed by the tokens behind it. -/
theorem ofText_cons {c : Char} {text rest : List Char} {offset : Nat} {token : Token}
    (visible : isBlank c = false) (found : scan offset c text = ⟨token, rest⟩)
    (goes : token.halts = false) : ofText offset (c :: text) = token :: ofText token.stop rest := by
  -- The character is not passed over, so that it starts the token.
  rw [ofText]
  simp [visible, found, goes]

/-- No characters spell no tokens. -/
theorem Spells.nil : Spells [] [] := fun offset _ _ => ⟨[], offset, rfl, rfl⟩

/-- A character that is a token by itself spells it, in front of any others. -/
theorem Spells.cons {c : Char} {kind : TokenKind} (mark : Mark c kind) {written : List Char}
    {kinds : List TokenKind} (others : Spells written kinds) :
    Spells (c :: written) (kind :: kinds) := by
  -- The token takes the one character, and the others are taken from the next place on.
  intro offset rest delimited
  obtain ⟨visible, found, goes⟩ := mark.scanned offset (written ++ rest)
  obtain ⟨tokens, stop, same, taken⟩ := others (offset + 1) rest delimited
  refine ⟨⟨kind, offset, offset + 1⟩ :: tokens, stop, by simp [same], ?_⟩
  rw [List.cons_append, ofText_cons visible found goes, taken, List.cons_append]

/-- Characters in front of others, which begin where a number ends, spell their tokens first. -/
theorem Spells.append {written more : List Char} {kinds others : List TokenKind}
    (first : Spells written kinds) (ends : ∀ rest, Delimited (more ++ rest))
    (second : Spells more others) : Spells (written ++ more) (kinds ++ others) := by
  -- The tokens of the first part end where the second part begins.
  intro offset rest delimited
  obtain ⟨tokens, stop, same, taken⟩ := first offset (more ++ rest) (ends rest)
  obtain ⟨after, last, also, followed⟩ := second stop rest delimited
  refine ⟨tokens ++ after, last, by simp [same, also], ?_⟩
  rw [List.append_assoc, taken, followed, List.append_assoc]

/-- Characters that are scanned as a scalar spell it. -/
theorem Spells.scalar {c : Char} {inner : List Char} {scalar : Scalar} (visible : isBlank c = false)
    (scanned : ∀ offset rest, Delimited rest → ∃ start stop,
      scan offset c (inner ++ rest) = ⟨⟨.scalar scalar, start, stop⟩, rest⟩) :
    Spells (c :: inner) [.scalar scalar] := by
  -- The scalar takes all characters up to what delimits it.
  intro offset rest delimited
  obtain ⟨start, stop, found⟩ := scanned offset rest delimited
  refine ⟨[⟨.scalar scalar, start, stop⟩], stop, rfl, ?_⟩
  rw [List.cons_append, ofText_cons visible found rfl, List.singleton_append]

/-- A printed string spells the string. -/
theorem spells_string (text : String) :
    Spells (Json.stringText text).toList [.scalar (.string (.ok text))] := by
  -- The quotes delimit the string, whatever comes behind.
  rw [Json.toList_stringText]
  refine .scalar rfl fun start rest _ => ?_
  rw [List.append_assoc]
  exact ⟨start, scan_stringText text start rest⟩

/-- The text of a legible number spells the number. -/
theorem spells_number {n : Number} (legible : n.Legible) :
    Spells n.text.toList [.scalar (.number (.ok n))] := by
  -- A number starts with a minus or a digit, and neither is passed over.
  obtain ⟨c, inner, printed, alone⟩ := legible
  have visible : isBlank c = false := by
    rcases alone.first with rfl | digit
    · rfl
    · simp only [isBlank, Bool.or_eq_false_iff, decide_eq_false_iff_not]
      refine ⟨⟨⟨?_, ?_⟩, ?_⟩, ?_⟩ <;> rintro rfl <;> simp at digit
  rw [printed]
  exact .scalar visible fun start rest delimited => alone.scan delimited

theorem spells_null : Spells "null".toList [.scalar .null] :=
  .scalar rfl fun _ _ _ => ⟨_, _, rfl⟩

theorem spells_bool (value : Bool) : Spells (toString value).toList [.scalar (.bool value)] := by
  -- Both words are scanned letter by letter.
  cases value
  · exact .scalar rfl fun _ _ _ => ⟨_, _, rfl⟩
  · exact .scalar rfl fun _ _ _ => ⟨_, _, rfl⟩

end Token

namespace Json

open Token (Spells spells_string spells_number)

/-- The comma in front of something, if it is not the first. -/
def comma (behind : Bool) : List TokenKind := if behind then [.comma] else []

mutual

/-- The tokens that a value is written in. -/
def kinds : Json → List TokenKind
  | .null => [.scalar .null]
  | .bool value => [.scalar (.bool value)]
  | .number value => [.scalar (.number (.ok value))]
  | .string value => [.scalar (.string (.ok value))]
  | .array items => .openArray :: kindsItems false items
  | .object fields => .openObject :: kindsFields false fields

/-- The tokens of items, which may stand behind others, up to the closing bracket. -/
def kindsItems (behind : Bool) : List Json → List TokenKind
  | [] => [.closeArray]
  | item :: rest => comma behind ++ (item.kinds ++ kindsItems true rest)

/-- The tokens of entries, which may stand behind others, up to the closing bracket. -/
def kindsFields (behind : Bool) : List (String × Json) → List TokenKind
  | [] => [.closeObject]
  | (key, value) :: rest =>
    comma behind ++ .scalar (.string (.ok key)) :: .colon :: (value.kinds ++ kindsFields true rest)

end

mutual

/-- A value whose text can be read, inside so many brackets: its numbers are legible, and it is not
    nested too deep. -/
def Readable (level : Nat) : Json → Prop
  | .null | .bool _ | .string _ => True
  | .number value => value.Legible
  -- The outermost bracket has the first level.
  | .array items => level + 1 < Tree.levelLimit ∧ ItemsReadable (level + 1) items
  | .object fields => level + 1 < Tree.levelLimit ∧ FieldsReadable (level + 1) fields

/-- Every item can be read. -/
def ItemsReadable (level : Nat) : List Json → Prop
  | [] => True
  | item :: rest => item.Readable level ∧ ItemsReadable level rest

/-- Every value of an entry can be read. -/
def FieldsReadable (level : Nat) : List (String × Json) → Prop
  | [] => True
  | (_, value) :: rest => value.Readable level ∧ FieldsReadable level rest

end

/-- Texts with commas between them, and one in front if they stand behind others. -/
def separated (behind : Bool) : List String → List Char
  | [] => []
  | text :: rest => (if behind then [','] else []) ++ (text.toList ++ separated true rest)

/-- Texts between commas are separated by them. -/
theorem toList_intercalate (texts : List String) :
    (",".intercalate texts).toList = separated false texts := by
  -- The induction is on the texts behind the first one, each with a comma before it.
  cases texts with
  | nil => rfl
  | cons first rest =>
    induction rest generalizing first with
    | nil => simp [separated]
    | cons second rest ih =>
      rw [String.intercalate_cons_cons, String.toList_append, ih, String.toList_append]
      simp [separated]

/-- A number ends in front of what is separated from it, or of the bracket that closes. -/
theorem delimited_separated {c : Char} {kind : TokenKind} (mark : Token.Mark c kind)
    (texts : List String) (rest : List Char) :
    Token.Delimited (separated true texts ++ [c] ++ rest) := by
  -- The next character is a comma or the bracket.
  cases texts with
  | nil => exact mark.delimits rest
  | cons first others => exact Token.Mark.comma.delimits _

/-- A comma in front spells itself. -/
theorem spells_comma (behind : Bool) {written : List Char} {kinds : List TokenKind}
    (spells : Spells written kinds) :
    Spells ((if behind then [','] else []) ++ written) (comma behind ++ kinds) := by
  -- The comma is a token by itself.
  cases behind with
  | false => exact spells
  | true => exact .cons .comma spells

mutual

/-- The text of a value spells its tokens. -/
theorem spells_compact : ∀ {level : Nat} (value : Json), value.Readable level →
    Spells value.compact.toList value.kinds
  -- The induction follows the value, as the printer does.
  | _, .null, _ => Token.spells_null
  | _, .bool value, _ => Token.spells_bool value
  | _, .number value, readable => spells_number readable
  | _, .string text, _ => spells_string text
  | _, .array items, readable => by
    simp only [compact, String.toList_append, toList_intercalate, List.append_assoc]
    exact .cons .openArray (spells_items false items readable.2)
  | _, .object fields, readable => by
    simp only [compact, String.toList_append, toList_intercalate, List.append_assoc]
    exact .cons .openObject (spells_fields false fields readable.2)

/-- The texts of items spell their tokens. -/
theorem spells_items :
    ∀ {level : Nat} (behind : Bool) (items : List Json), ItemsReadable level items →
    Spells (separated behind (compactItems items) ++ [']']) (kindsItems behind items)
  -- Each item ends in front of a comma or of the closing bracket.
  | _, _, [], _ => .cons .closeArray .nil
  | _, behind, item :: rest, readable => by
    simp only [compactItems, separated, List.append_assoc]
    exact spells_comma behind ((spells_compact item readable.1).append
      (delimited_separated .closeArray _) (spells_items true rest readable.2))

/-- The texts of entries spell their tokens. -/
theorem spells_fields : ∀ {level : Nat} (behind : Bool) (fields : List (String × Json)),
    FieldsReadable level fields →
    Spells (separated behind (compactFields fields) ++ ['\x7d']) (kindsFields behind fields)
  -- Each key ends in front of its colon, and each value in front of a comma or of the bracket.
  | _, _, [], _ => .cons .closeObject .nil
  | _, behind, (key, value) :: rest, readable => by
    simp only [compactFields, separated, String.toList_append, List.append_assoc]
    exact spells_comma behind ((spells_string key).append (Token.Mark.colon.delimits ·)
      (.cons .colon ((spells_compact value readable.1).append
        (delimited_separated .closeObject _) (spells_fields true rest readable.2))))

end

end Json

end DocPatch
