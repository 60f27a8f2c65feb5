import MiniLogo.Number.Binary64

/-!
# Reading decimal numbers

The text of a number is a sign that may be missing, then `inf`, `infinity` or `nan` in any case, or digits with at
most one point among them and an exponent that may be missing. Its value is the double nearest to it.

- `rankOfDecimal`: the rank nearest to m · 10^e. A number of more than 310 places is infinite and one below
  10^-330 is zero, which keeps the powers small;
- `Decimal.read?`: the double that a text denotes, if it is the text of a number.
-/

namespace MiniLogo.Decimal

open Binary64

/-! ## Digits -/

def isDigit (c : Char) : Bool := decide ('0' ≤ c) && decide (c ≤ '9')

/-- The number that a row of digits denotes. -/
def ofDigits (ds : Text) : Nat := ds.foldl (fun n c => 10 * n + (c.toNat - '0'.toNat)) 0

def digits (n : Nat) : Text := Nat.toDigits 10 n

def ofInt (i : Int) : Text := if i < 0 then '-' :: digits i.natAbs else digits i.natAbs

/-! ## Values -/

/-- The rank nearest to m · 10^e. -/
def rankOfDecimal (m : Nat) (e : Int) : Nat :=
  let places := e + (digits m).length
  if m = 0 ∨ places < -330 then 0
  else if 310 < places then infinityRank
  else if 0 ≤ e then nearestRank (m * Nat.pow 10 e.toNat * one) 1
  else nearestRank (m * one) (Nat.pow 10 (-e).toNat)

/-- A sign that may be missing: whether it is a minus, and the text after it. -/
def takeSign : Text → Bool × Text
  | '-' :: t => (true, t)
  | '+' :: t => (false, t)
  | t => (false, t)

/-- The leading digits of a text and what follows them. -/
def takeDigits (t : Text) : Text × Text := (t.takeWhile isDigit, t.dropWhile isDigit)

/-- An exponent that may be missing, at the end of a number. -/
def exponent? : Text → Option Int
  | [] => some 0
  | c :: t =>
    let (negative, t) := takeSign t
    let (ds, rest) := takeDigits t
    if (c = 'e' ∨ c = 'E') ∧ ds ≠ [] ∧ rest = [] then
      some (if negative then -(ofDigits ds : Int) else ofDigits ds)
    else none

/-- The rank that an unsigned row of digits with point and exponent denotes. -/
def magnitude? (t : Text) : Option Nat :=
  let (whole, rest) := takeDigits t
  let (fraction, rest) := match rest with
    | '.' :: t => takeDigits t
    | _ => ([], rest)
  if whole = [] ∧ fraction = [] then none
  else (exponent? rest).map fun e => rankOfDecimal (ofDigits (whole ++ fraction)) (e - fraction.length)

/-- The rank that an unsigned name of a special value denotes, in any case. -/
def special? (t : Text) : Option Nat :=
  let name := t.map Char.toLower
  if name = "inf".toList ∨ name = "infinity".toList then some infinityRank
  else if name = "nan".toList then some (rank nan)
  else none

/-- The double that a text denotes. -/
def read? (t : Text) : Option Float :=
  let (negative, t) := takeSign t
  (magnitude? t <|> special? t).map (ofRank negative)

end MiniLogo.Decimal
