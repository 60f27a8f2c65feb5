import MiniLogo.Text.Blank

/-!
# Binary floating point, exactly

Every finite double is a whole number of units of 2^-1074. The non-negative ones are numbered in increasing
order by their bits, their `rank`; `units` gives the magnitude at a rank, and `nearestRank` the rank nearest to a
ratio of units, a tie going to the even rank. The rank after the last finite one is infinity's.

On units, whole parts and remainders are division of natural numbers, so `wholePart?`, `trunc` and `remainder` are
exact; `toInt64` is the conversion to an integer that stays within 64 bits.
-/

namespace MiniLogo.Binary64

/-- A quotient rounded to the nearest natural number, a tie going to the even one. -/
def roundEven (num den : Nat) : Nat :=
  let q := num / den
  let twice := 2 * (num % den)
  if twice < den ∨ (twice = den ∧ q % 2 = 0) then q else q + 1

/-- The number of units in one. -/
def one : Nat := Nat.pow 2 1074

/-- The number of ranks from one power of two to the next. -/
def binade : Nat := Nat.pow 2 52

/-- The rank of infinity, one above the largest finite one. -/
def infinityRank : Nat := 2047 * binade

/-- The magnitude at a finite rank, in units. -/
def units (rank : Nat) : Nat :=
  if rank < binade then rank else (binade + rank % binade) * Nat.pow 2 (rank / binade - 1)

/-- The rank whose magnitude is nearest to a ratio of units, a tie going to the even rank. -/
def nearestRank (num den : Nat) : Nat :=
  let exponent := Nat.log2 (num / den) - 52
  min (exponent * binade + roundEven num (den * Nat.pow 2 exponent)) infinityRank

/-! ## Sign and rank -/

/-- The bit that makes a double negative. -/
def signBit : Nat := Nat.pow 2 63

/-- The double with a given sign and rank. -/
def ofRank (negative : Bool) (rank : Nat) : Float :=
  Float.ofBits (UInt64.ofNat (if negative then signBit + rank else rank))

/-- The rank of the magnitude of a double; that of a NaN is above infinity's. -/
def rank (x : Float) : Nat := x.toBits.toNat % signBit

/-- Whether the sign bit is set. -/
def isNegative (x : Float) : Bool := decide (signBit ≤ x.toBits.toNat)

def nan : Float := ofRank false (infinityRank + binade / 2)

/-- The double nearest to a ratio. -/
def ofRatio (negative : Bool) (num den : Nat) : Float := ofRank negative (nearestRank (num * one) den)

def ofInt (i : Int) : Float := ofRatio (decide (i < 0)) i.natAbs 1

/-! ## Whole parts and remainders -/

/-- The whole part of a finite double, cut off toward zero. -/
def wholePart? (x : Float) : Option Int :=
  if rank x < infinityRank then
    let whole := units (rank x) / one
    some (if isNegative x then -(whole : Int) else whole)
  else none

/-- A double cut off toward zero, its sign kept; infinities and NaN are left as they are. -/
def trunc (x : Float) : Float :=
  if rank x < infinityRank then ofRatio (isNegative x) (units (rank x) / one) 1 else x

def leastInt : Int := -0x8000000000000000

def greatestInt : Int := 0x7fffffffffffffff

/-- Whether a double is from the range of signed 64-bit integers. The greatest of these is no double: as a bound it is
rounded up to 2^63, which is excluded. -/
def fitsInt64 (x : Float) : Bool := decide (ofInt leastInt ≤ x) && decide (x < ofInt greatestInt)

/-- The whole part of a double as a signed 64-bit integer: the nearer end of the range for what lies outside, zero
for NaN. -/
def toInt64 (x : Float) : Int :=
  match wholePart? x with
  | some whole => max leastInt (min whole greatestInt)
  | none => if infinityRank < rank x then 0 else if isNegative x then leastInt else greatestInt

/-- The whole part of a double, if it is a signed 64-bit integer. -/
def int64? (x : Float) : Option Int :=
  let whole := trunc x
  if fitsInt64 whole then some (toInt64 whole) else none

/-- The remainder of a division toward zero, with the sign of the dividend. -/
def remainder (x y : Float) : Float :=
  if infinityRank ≤ rank x ∨ infinityRank < rank y ∨ rank y = 0 then nan
  else if rank y = infinityRank then x
  else ofRank (isNegative x) (nearestRank (units (rank x) % units (rank y)) 1)

end MiniLogo.Binary64
