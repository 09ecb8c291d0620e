import DocPatch.Json.Shortest

/-! Numbers of a JSON text: exact integers and binary64 values, kept apart. -/

namespace DocPatch

/-- An integer that fits 64 bits, or a finite binary64 number. -/
inductive Number where
  | int (value : Int)
  | float (value : Double)
  deriving DecidableEq, Repr

namespace Number

/-- An integer never equals a binary64 number, even where their values agree. -/
def equal : Number → Number → Bool
  | .int left, .int right => left == right
  | .float left, .float right => left.equal right
  | _, _ => false

/-- Whether the value is zero of either sign. -/
def isZero : Number → Bool
  | .int value => value == 0
  | .float value => value.rank == 0

/-- The digits of a decimal around its point: positional when the leading digit counts between
    `10 ^ -5` and `10 ^ 15`, with an exponent otherwise. -/
def layout (decimal : Decimal) : String :=
  let digits := Nat.toDigits 10 decimal.digits
  let count := digits.length
  -- The point stands after this many digits.
  let point := (count : Int) + decimal.exponent
  if 0 ≤ decimal.exponent && point ≤ 16 then
    String.ofList (digits ++ List.replicate decimal.exponent.toNat '0') ++ ".0"
  else if 0 < point && point ≤ 16 then
    String.ofList (digits.take point.toNat) ++ "." ++ String.ofList (digits.drop point.toNat)
  else if -5 < point && point ≤ 0 then
    "0." ++ String.ofList (List.replicate (-point).toNat '0' ++ digits)
  else
    let lead := String.ofList (digits.take 1)
    let rest := String.ofList (digits.drop 1)
    let mantissa := if rest.isEmpty then lead else lead ++ "." ++ rest
    let exponent := point - 1
    mantissa ++ "e" ++ (if exponent < 0 then "-" else "+") ++ toString exponent.natAbs

/-- A binary64 number is written with the fewest digits that read back, never like an integer. -/
def doubleText (value : Double) : String :=
  let magnitude := if value.rank = 0 then "0.0" else layout (Decimal.shortest value.rank)
  if value.negative then "-" ++ magnitude else magnitude

/-- The text of a number. -/
def text : Number → String
  | .int value => toString value
  | .float value => doubleText value

end Number

end DocPatch
