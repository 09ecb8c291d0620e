/-! Dotted paths into a document, with placeholders for array elements. -/

namespace DocPatch.Path

/-- Appends a field to a path; behind the empty path it stands alone. -/
def join (path field : String) : String :=
  if path.isEmpty then field else path ++ "." ++ field

/-- The placeholder of every element of an array. -/
def everyElement : String := "$[]"

/-- The placeholder of the elements that an alias selects. -/
def selected (aliasName : String) : String := "$[" ++ aliasName ++ "]"

/-- What a segment on the way of an update stands for. -/
inductive Kind where
  | every
  | selected (aliasName : String)
  | plain
  deriving DecidableEq, Repr

/-- The kind of a segment; a placeholder is closed by its last character. -/
def kind (segment : String) : Kind :=
  if segment = everyElement then .every
  else
    match segment.toList with
    | '$' :: '[' :: rest =>
      -- Whatever stands between the brackets is the alias.
      if rest.getLast? = some ']' then .selected (String.ofList rest.dropLast) else .plain
    | _ => .plain

/-- Whether a segment starts like a placeholder. -/
def isPlaceholder (segment : String) : Bool :=
  match segment.toList with
  | '$' :: '[' :: _ => true
  | _ => false

/-- Whether a key starts like an operator. -/
def isOperator (key : String) : Bool := key.toList.head? = some '$'

/-- The parts between separators; there is always one more than separators. -/
def split (separator : Char) : List Char → List (List Char)
  | [] => [[]]
  | c :: rest =>
    if c = separator then [] :: split separator rest
    else
      -- The character belongs to the first of the parts behind it.
      match split separator rest with
      | [] => [[c]]
      | part :: parts => (c :: part) :: parts

/-- The segments of a path; the empty path has one empty segment. -/
def segments (path : String) : List String := (split '.' path.toList).map String.ofList

/-- A key of an alias filter, split at its first dot into the alias and the path inside the element;
    without a dot the path is empty. -/
def aliasAndField (key : String) : String × String :=
  (String.ofList (key.toList.takeWhile (· != '.')),
    String.ofList ((key.toList.dropWhile (· != '.')).drop 1))

/-- Indices stay below this bound. -/
def indexBound : Nat := Nat.pow 2 64

/-- The array index that a segment writes: decimal digits, and a plus sign at most. -/
def index? (segment : String) : Option Nat :=
  let digits := match segment.toList with
    | '+' :: rest => rest
    | all => all
  -- The value is worked out first, but only counts if all characters are digits.
  let value := digits.foldl (fun value c => value * 10 + (c.toNat - '0'.toNat)) 0
  if !digits.isEmpty && digits.all Char.isDigit && value < indexBound then some value else none

end DocPatch.Path
