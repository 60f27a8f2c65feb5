import MiniLogo.Number.Decimal

/-!
# The shortest decimal of a double

A decimal d · 10^k reads back as a finite double if that double is the one nearest to it. Of the decimals that
read back, `shortest` gives one with the fewest digits, of those the nearest to the exact value, and of two equally
near the one with the even last digit.

For 1, 2, … 17 digits it tries the two neighbours of the value on the grid of that many digits. Every candidate is
tested by reading it (`onGrid?`), and the exact expansion, which always reads back, stands behind the last grid.
-/

namespace MiniLogo.Shortest

open Binary64

/-- The value at a rank in steps of 10^k, as a numerator and a denominator. -/
def inSteps (rank : Nat) (k : Int) : Nat × Nat :=
  if 0 ≤ k then (units rank, one * Nat.pow 10 k.toNat) else (units rank * Nat.pow 10 (-k).toNat, one)

/-- The value at a rank in steps of 10^k, cut off. -/
def floorAt (rank : Nat) (k : Int) : Nat := (inSteps rank k).1 / (inSteps rank k).2

/-- The value at a rank in steps of 10^k, rounded; a value in the middle goes to the even step. -/
def roundAt (rank : Nat) (k : Int) : Nat := roundEven (inSteps rank k).1 (inSteps rank k).2

/-- The number of places before the point of the value at a positive rank: the least p with value < 10^p. No such
value is below 10^-324. -/
def places (rank : Nat) : Int := (Decimal.digits (floorAt rank (-324))).length - 324

/-- The neighbour of the value on the grid of steps 10^k that reads back; the nearer, if both do. -/
def onGrid? (rank : Nat) (k : Int) : Option (Nat × Int) :=
  let low := floorAt rank k
  let high := low + 1
  if Decimal.rankOfDecimal low k = rank then
    if Decimal.rankOfDecimal high k = rank then some (roundAt rank k, k) else some (low, k)
  else if Decimal.rankOfDecimal high k = rank then some (high, k)
  else none

/-- The exact decimal expansion of the value at a rank. -/
def exact (rank : Nat) : Nat × Int := (units rank * Nat.pow 5 1074, -1074)

/-- Takes trailing zeros off, at most as many as the first argument says. -/
def strip : Nat → Nat × Int → Nat × Int
  | 0, d => d
  | n + 1, (d, k) => if d % 10 = 0 then strip n (d / 10, k + 1) else (d, k)

/-- The first decimal that reads back, on the grids of 1, 2, … 17 digits. -/
def candidate (rank : Nat) : Nat × Int :=
  let p := places rank
  let found := (List.range 17).findSome? fun n => onGrid? rank (p - (n + 1 : Nat))
  found.getD (exact rank)

/-- The shortest decimal d · 10^k of the value at a positive finite rank, without trailing zeros. -/
def shortest (rank : Nat) : Nat × Int :=
  let decimal := candidate rank
  strip (Decimal.digits decimal.1).length decimal

end MiniLogo.Shortest
