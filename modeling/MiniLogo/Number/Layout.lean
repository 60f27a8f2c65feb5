import MiniLogo.Number.Shortest

/-!
# The text of a double

A layout says which magnitudes are written out in places and which with an exponent. Finite doubles are written
with their shortest digits and always with a point or an exponent: `8.0`, `0.30000000000000004`, `1e-7`.
-/

namespace MiniLogo

/-- The places of the point, counted from before the first digit, between which a number is written without an
exponent. -/
structure Layout where
  least : Int
  most : Int

namespace Layout

/-- Numbers from 10^-5 up to, and not including, 10^16 have no exponent. -/
def standard : Layout where
  least := -4
  most := 16

/-- Digits with a point after the given number of them, and zeros where digits are missing. -/
def positional (ds : Text) (point : Int) : Text :=
  if point ≤ 0 then "0.".toList ++ List.replicate (-point).toNat '0' ++ ds
  else
    let whole := point.toNat
    if ds.length ≤ whole then ds ++ List.replicate (whole - ds.length) '0' ++ ".0".toList
    else ds.take whole ++ '.' :: ds.drop whole

/-- Digits with the point after the first of them, and the exponent that this needs. -/
def scientific (ds : Text) (point : Int) : Text :=
  let mantissa := match ds with
    | d :: e :: ds => d :: '.' :: e :: ds
    | ds => ds
  mantissa ++ 'e' :: Decimal.ofInt (point - 1)

/-- The text of the decimal d · 10^k. -/
def decimal (layout : Layout) (d : Nat) (k : Int) : Text :=
  let ds := Decimal.digits d
  let point := ds.length + k
  if layout.least ≤ point ∧ point ≤ layout.most then positional ds point else scientific ds point

/-- The text of the magnitude at a finite rank. -/
def magnitude (layout : Layout) (rank : Nat) : Text :=
  if rank = 0 then "0.0".toList
  else
    let (d, k) := Shortest.shortest rank
    layout.decimal d k

/-- The text of a double. -/
def float (layout : Layout) (x : Float) : Text :=
  let rank := Binary64.rank x
  let sign := if Binary64.isNegative x then ['-'] else []
  if Binary64.infinityRank < rank then "NaN".toList
  else if rank = Binary64.infinityRank then sign ++ "Infinity".toList
  else sign ++ layout.magnitude rank

end Layout

end MiniLogo
