import DocPatch.Json.Number

/-! The value of a number as it is written: sign, digits, fraction and exponent. -/

namespace DocPatch

/-- The parts of a written number; the fraction may be empty. -/
structure Literal where
  negative : Bool
  whole : List Nat
  fraction : List Nat
  /-- Whether the exponent is negative, and its digits. -/
  exponent : Option (Bool × List Nat)

namespace Literal

/-- Appends digits to a number as long as it stays within a bound; returns the digits left over. -/
def absorb (bound : Nat) (value : Nat) : List Nat → Nat × List Nat
  | [] => (value, [])
  | digit :: rest =>
    -- The first digit that does not fit ends it, whatever follows.
    if value * 10 + digit ≤ bound then absorb bound (value * 10 + digit) rest
    else (value, digit :: rest)

/-- The largest significand that is read digit by digit. -/
def significandBound : Nat := Nat.pow 2 64 - 1

/-- The largest exponent that is read digit by digit. -/
def exponentBound : Nat := Nat.pow 2 31 - 1

/-- The rank of the power of ten nearest to it. -/
def powerRank (exponent : Nat) : Nat := Double.nearestRank (Nat.pow 10 exponent) 1

/-- A significand times a power of ten, rounded after each of the steps: into binary64, and by
    tabulated powers up to the 308th. Nothing when the result is not finite. -/
def scale (significand : Nat) (exponent : Int) : Option Nat :=
  let rank := Double.nearestRank significand 1
  if exponent < 0 then
    let size := exponent.natAbs
    -- Beyond the table, division goes by its last power; three such steps already give zero.
    let steps := min ((size - 1) / 308) 3
    let lower (rank : Nat) (_ : Nat) := Double.divRank rank (powerRank 308)
    let lowered := (List.range steps).foldl lower rank
    some (Double.divRank lowered (powerRank (size - 308 * ((size - 1) / 308))))
  else if exponent ≤ 308 then
    let raised := Double.mulRank rank (powerRank exponent.toNat)
    if raised < Double.rankLimit then some raised else none
  else if rank = 0 then some 0
  else none

/-- A written number that is an integer: one that does not fit 64 bits becomes a binary64 number,
    and so does a negative zero. -/
def integer (negative : Bool) (significand : Nat) : Number :=
  if !negative then .int significand
  -- Negative zero is no integer, since integers have but one zero.
  else if significand = 0 || Nat.pow 2 63 < significand then
    .float ⟨true, Double.nearestRank significand 1⟩
  else .int (-significand)

/-- The value of a written number; out of range, how many of its last digits were not looked at. -/
def value (literal : Literal) : Except Nat Number :=
  let (whole, excess) := absorb significandBound 0 literal.whole
  -- Digits alone need no scaling if they fit the significand.
  if literal.fraction.isEmpty && literal.exponent.isNone && excess.isEmpty then
    .ok (integer literal.negative whole)
  else
    -- Digits beyond the significand are dropped and counted in the exponent.
    let (significand, ignored) := absorb significandBound whole literal.fraction
    let shift : Int := excess.length - (literal.fraction.length - ignored.length)
    let finish (exponent : Int) : Except Nat Number :=
      match scale significand exponent with
      | some rank => .ok (.float ⟨literal.negative, rank⟩)
      | none => .error 0
    match literal.exponent with
    | none => finish shift
    | some (down, digits) =>
      match absorb exponentBound 0 digits with
      | (size, []) => finish (if down then shift - size else shift + size)
      -- An exponent that is too large to be read makes zero, or a number out of range.
      | (_, _ :: unread) =>
        if significand = 0 || down then .ok (.float ⟨literal.negative, 0⟩)
        else .error unread.length

end Literal

end DocPatch
