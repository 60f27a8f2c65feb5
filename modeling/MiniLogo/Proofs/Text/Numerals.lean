import MiniLogo.Number.Basic

/-!
# The characters of numbers

The text of a computed number is made of digits, points, signs, exponents and the letters of `NaN` and `Infinity`,
whatever the layout (`Layout.numeral_float`, `Decimal.numeral_ofInt`). So it has neither blanks nor brackets.
-/

namespace MiniLogo

variable {s t : Text} {c : Char}

namespace Text

/-- Whether a character may stand in the text of a computed number. -/
def isOfNumber (c : Char) : Bool := c.isDigit || ".-eNaInfity".toList.contains c

def Numeral (t : Text) : Prop := ∀ c ∈ t, isOfNumber c = true

instance (t : Text) : Decidable (Numeral t) := List.decidableBAll _ t

theorem numeral_append : Numeral (s ++ t) ↔ Numeral s ∧ Numeral t := List.forall_mem_append

theorem numeral_cons : Numeral (c :: t) ↔ isOfNumber c = true ∧ Numeral t := List.forall_mem_cons

theorem Numeral.of_subset (ht : Numeral t) (h : s ⊆ t) : Numeral s := fun c hc => ht c (h hc)

/-- What is no character of a number does not stand in one. -/
theorem Numeral.not_mem (ht : Numeral t) (hc : isOfNumber c = false) : c ∉ t := by
  intro hmem
  rw [ht c hmem] at hc
  cases hc

end Text

open Text

/-- Digits are characters of numbers. -/
theorem Decimal.numeral_digits (n : Nat) : Numeral (digits n) := by
  intro c hc
  have hd : c.isDigit = true := Nat.isDigit_of_mem_toDigits (by decide) (by decide) hc
  simp [isOfNumber, hd]

/-- The text of an integer has a sign and digits. -/
theorem Decimal.numeral_ofInt (i : Int) : Numeral (ofInt i) := by
  unfold ofInt
  split
  · exact numeral_cons.2 ⟨by decide, numeral_digits _⟩
  · exact numeral_digits _

namespace Layout

theorem numeral_replicate (n : Nat) : Numeral (List.replicate n '0') := by
  intro c hc
  rw [List.eq_of_mem_replicate hc]
  decide

/-- A point and zeros are characters of numbers. -/
theorem numeral_positional {ds : Text} (h : Numeral ds) (point : Int) : Numeral (positional ds point) := by
  unfold positional
  simp only
  split
  · simp only [numeral_append]
    exact ⟨⟨by decide, numeral_replicate _⟩, h⟩
  · split
    · simp only [numeral_append]
      exact ⟨⟨h, numeral_replicate _⟩, by decide⟩
    · rw [numeral_append, numeral_cons]
      exact ⟨h.of_subset (List.take_subset _ _), by decide, h.of_subset (List.drop_subset _ _)⟩

/-- An exponent is written with characters of numbers. -/
theorem numeral_scientific {ds : Text} (h : Numeral ds) (point : Int) : Numeral (scientific ds point) := by
  unfold scientific
  rw [numeral_append, numeral_cons]
  refine ⟨?_, by decide, Decimal.numeral_ofInt _⟩
  split
  · simp only [numeral_cons] at h ⊢
    exact ⟨h.1, by decide, h.2⟩
  · exact h

theorem numeral_decimal (layout : Layout) (d : Nat) (k : Int) : Numeral (layout.decimal d k) := by
  unfold decimal
  simp only
  split
  · exact numeral_positional (Decimal.numeral_digits d) _
  · exact numeral_scientific (Decimal.numeral_digits d) _

theorem numeral_magnitude (layout : Layout) (rank : Nat) : Numeral (layout.magnitude rank) := by
  unfold magnitude
  by_cases h : rank = 0
  · rw [if_pos h]
    decide
  · rw [if_neg h]
    -- the digits are not to be computed
    generalize Shortest.shortest rank = decimal
    cases decimal with
    | mk d k => exact numeral_decimal layout d k

/-- The text of a double is made of the characters of numbers. -/
theorem numeral_float (layout : Layout) (x : Float) : Numeral (layout.float x) := by
  have hsign : Numeral (if Binary64.isNegative x then ['-'] else []) := by
    split <;> decide
  unfold float
  generalize Binary64.rank x = rank
  simp only
  split
  · decide
  · split
    · exact numeral_append.2 ⟨hsign, by decide⟩
    · exact numeral_append.2 ⟨hsign, numeral_magnitude layout rank⟩

end Layout

end MiniLogo
