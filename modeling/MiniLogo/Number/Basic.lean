import MiniLogo.Number.Layout

/-!
# Numbers

A number is a double together with its text. A literal keeps the spelling it was written with, a computed number
has the text of its layout. The lenient grammar of literals lets text through that has no value, such as `-` or
`1.2.3`.
-/

namespace MiniLogo

/-- A number with its text; the value is missing if the text denotes none. -/
structure Number where
  value : Option Float
  text : Text
  deriving DecidableEq

namespace Number

def literal (t : Text) : Number where
  value := Decimal.read? t
  text := t

def ofFloat (x : Float) : Number where
  value := some x
  text := Layout.standard.float x

def ofInt (i : Int) : Number where
  value := some (Binary64.ofInt i)
  text := Decimal.ofInt i

end Number

end MiniLogo
