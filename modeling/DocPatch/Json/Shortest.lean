import DocPatch.Json.Double

/-! The shortest decimal that reads back as a given binary64 magnitude. -/

namespace DocPatch

/-- A decimal number `digits * 10 ^ exponent`. -/
structure Decimal where
  digits : Nat
  exponent : Int
  deriving DecidableEq, Repr

namespace Decimal

/-- A power of ten as a ratio. -/
def powerOfTen (exponent : Int) : Nat × Nat :=
  if exponent < 0 then (1, Nat.pow 10 (-exponent).toNat) else (Nat.pow 10 exponent.toNat, 1)

/-- How many digits a number has in base ten. -/
def digitCount (n : Nat) : Nat := (Nat.toDigits 10 n).length

/-- The exponent of the leading decimal digit of a positive magnitude. -/
def leadingExponent (units : Nat) : Int :=
  if Double.unitsPerOne ≤ units then (digitCount (units / Double.unitsPerOne) : Int) - 1
  else -(digitCount ((Double.unitsPerOne - 1) / units) : Int)

/-- Whether a decimal is read back as the magnitude of this rank: it lies no farther than halfway
    to either neighbour, and the halfway points belong to even ranks. -/
def readsBack (rank : Nat) (candidate : Decimal) : Bool :=
  let (up, down) := powerOfTen candidate.exponent
  -- Everything is doubled, so that the halfway points are whole.
  let doubled := 2 * candidate.digits * up * Double.unitsPerOne
  let low := (Double.units (rank - 1) + Double.units rank) * down
  let high := (Double.units rank + Double.units (rank + 1)) * down
  if rank % 2 = 0 then low ≤ doubled && doubled ≤ high else low < doubled && doubled < high

/-- The neighbour of a magnitude on the grid of a power of ten that reads back, or the nearer. -/
def onGrid? (rank : Nat) (exponent : Int) : Option Decimal :=
  let (up, down) := powerOfTen exponent
  let step := up * Double.unitsPerOne
  let value := Double.units rank * down
  let below : Decimal := ⟨value / step, exponent⟩
  let above : Decimal := ⟨value / step + 1, exponent⟩
  let nearest : Decimal := ⟨Double.roundQuotient value step, exponent⟩
  -- If both neighbours read back, the nearer one is the better.
  if readsBack rank below && readsBack rank above then some nearest
  else if readsBack rank below then some below
  else if readsBack rank above then some above
  else none

/-- Drops trailing zeros, at most as many as the fuel allows. -/
def stripZeros : Nat → Decimal → Decimal
  | 0, decimal => decimal
  | fuel + 1, decimal =>
    -- Zero would have trailing zeros for ever.
    if decimal.digits ≠ 0 && decimal.digits % 10 = 0 then
      stripZeros fuel ⟨decimal.digits / 10, decimal.exponent + 1⟩
    else decimal

/-- The decimal with the fewest digits that reads back as a positive magnitude; 17 are enough. -/
def shortest (rank : Nat) : Decimal :=
  let lead := leadingExponent (Double.units rank)
  let grids := (List.range 17).map fun (drop : Nat) => lead - drop
  stripZeros 17 ((grids.findSome? (onGrid? rank)).getD ⟨0, 0⟩)

end Decimal

end DocPatch
