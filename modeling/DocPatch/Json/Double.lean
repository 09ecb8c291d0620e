/-! Finite binary64 numbers, measured exactly in multiples of the smallest positive one. -/

namespace DocPatch

/-- A finite binary64 number: its sign, and the rank of its magnitude among all magnitudes. -/
structure Double where
  negative : Bool
  rank : Nat
  deriving DecidableEq, Repr

namespace Double

/-- The least significant bit of the smallest positive magnitude counts `2 ^ -1074`. -/
def unitsPerOne : Nat := Nat.pow 2 1074

/-- The first rank beyond the finite magnitudes. -/
def rankLimit : Nat := 2047 * Nat.pow 2 52

/-- The magnitude of a rank, in units: even steps inside a binade, twice as wide in the next. -/
def units (rank : Nat) : Nat :=
  let binade := rank / Nat.pow 2 52
  let fraction := rank % Nat.pow 2 52
  -- The first binade has no leading one, and its steps are those of the next.
  (if binade = 0 then fraction else Nat.pow 2 52 + fraction) * Nat.pow 2 (binade - 1)

/-- The quotient of two numbers to the nearest integer, a half going to the even neighbour. -/
def roundQuotient (numerator denominator : Nat) : Nat :=
  let quotient := numerator / denominator
  let twice := 2 * (numerator % denominator)
  -- Twice the remainder against the divisor tells the nearer side.
  if twice < denominator then quotient
  else if denominator < twice then quotient + 1
  else quotient + quotient % 2

/-- The rank of the magnitude nearest to a ratio; it may lie beyond the finite ones. -/
def nearestRank (numerator denominator : Nat) : Nat :=
  let scaled := numerator * unitsPerOne
  -- A magnitude carries 53 significant bits, so larger values drop their lowest ones.
  let dropped := Nat.log2 (scaled / denominator) - 52
  roundQuotient scaled (denominator * Nat.pow 2 dropped) + dropped * Nat.pow 2 52

/-- The product of two magnitudes, rounded. -/
def mulRank (left right : Nat) : Nat :=
  nearestRank (units left * units right) (unitsPerOne * unitsPerOne)

/-- The quotient of two magnitudes, rounded. -/
def divRank (left right : Nat) : Nat :=
  nearestRank (units left) (units right)

/-- Both zeros are one value; every other number equals itself only. -/
def equal (left right : Double) : Bool :=
  left.rank == right.rank && (left.rank == 0 || left.negative == right.negative)

end Double

end DocPatch
