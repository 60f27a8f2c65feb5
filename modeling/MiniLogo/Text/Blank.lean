/-!
# Text and its blanks

Text is a list of characters. A blank is a character with the Unicode property White_Space; blanks separate
tokens and elements (`Text.isBlank`), and trimming takes them off both ends (`Text.trim`).
-/

namespace MiniLogo

/-- Text, as the characters it is made of. -/
abbrev Text := List Char

namespace Text

/-- The ranges of code points with the property White_Space. -/
def blankRanges : List (Nat × Nat) :=
  [(0x9, 0xD), (0x20, 0x20), (0x85, 0x85), (0xA0, 0xA0), (0x1680, 0x1680), (0x2000, 0x200A),
    (0x2028, 0x2029), (0x202F, 0x202F), (0x205F, 0x205F), (0x3000, 0x3000)]

/-- Whether a character is a blank. -/
def isBlank (c : Char) : Bool :=
  blankRanges.any fun r => decide (r.1 ≤ c.toNat) && decide (c.toNat ≤ r.2)

def isAllBlank (t : Text) : Bool := t.all isBlank

def trimLeft (t : Text) : Text := t.dropWhile isBlank

def trim (t : Text) : Text := (trimLeft (trimLeft t).reverse).reverse

/-- The White_Space property has twenty-five characters. -/
example : (blankRanges.map fun r => r.2 + 1 - r.1).sum = 25 := by decide

end Text

end MiniLogo
