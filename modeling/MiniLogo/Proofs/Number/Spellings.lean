import MiniLogo.Operation.Numeric
import MiniLogo.Proofs.Number.Decimals
import MiniLogo.Value.Token

/-!
# Spellings of numbers

The check that makes a token a number is lenient: at most one `0` or `-` in front, then digits and points
(`Token.isNumeric_iff`). Such a token denotes a double just when it has a digit and no second point
(`Decimal.isSome_read?_iff`); the others are numbers without a value, which arithmetic refuses by their spelling
(`Token.spelling_of_number`).

A row of digits and points is cut at its points: it has none, or one, or more (`Decimal.numerals_cases`). In the last
case the reading stops at the second point, which is no exponent.
-/

namespace MiniLogo

open MiniLogo.Operation

variable {c : Char} {raw t : Text}

/-! ## The lenient check -/

namespace Token

/-- Digits and points may stand in a spelled number. -/
theorem isNumeral_iff : isNumeral c = true ↔ c.isDigit = true ∨ c = '.' := by
  rw [isNumeral, Bool.or_eq_true, beq_iff_eq]
  rfl

/-- A row of digits and points behind at most one `0` or `-`. -/
theorem isNumeric_iff : isNumeric t = true ↔ t ≠ [] ∧ ∃ lead rest, t = lead ++ rest ∧
    (lead = [] ∨ lead = ['0'] ∨ lead = ['-']) ∧ ∀ c ∈ rest, c.isDigit = true ∨ c = '.' := by
  cases t with
  | nil => simp [isNumeric]
  | cons c t =>
    simp only [isNumeric, Bool.and_eq_true, Bool.or_eq_true, beq_iff_eq, List.all_eq_true, isNumeral_iff]
    constructor
    · rintro ⟨(rfl | rfl) | hc, ht⟩
      · exact ⟨nofun, ['0'], t, rfl, .inr (.inl rfl), ht⟩
      · exact ⟨nofun, ['-'], t, rfl, .inr (.inr rfl), ht⟩
      · exact ⟨nofun, [], c :: t, rfl, .inl rfl, List.forall_mem_cons.2 ⟨hc, ht⟩⟩
    · rintro ⟨-, lead, rest, h, rfl | rfl | rfl, hrest⟩
      · obtain rfl : c :: t = rest := h
        exact ⟨.inr (hrest c List.mem_cons_self), fun d hd => hrest d (List.mem_cons_of_mem c hd)⟩
      · obtain ⟨rfl, rfl⟩ := List.cons.inj h
        exact ⟨.inl (.inl rfl), hrest⟩
      · obtain ⟨rfl, rfl⟩ := List.cons.inj h
        exact ⟨.inl (.inr rfl), hrest⟩

/-- Only numeric tokens are classified as numbers. -/
theorem isNumeric_of_number (h : classify raw = .number t) : isNumeric t = true := by
  unfold classify at h
  split at h
  · cases h
  · split at h
    · rename_i hn
      exact Token.number.inj h ▸ hn
    · repeat' split at h
      all_goals cases h

/-- Just the numeric tokens are numbers, and they keep their spelling. -/
theorem classify_eq_number_iff : classify raw = .number t ↔ isNumeric raw = true ∧ t = raw := by
  constructor
  · intro h
    obtain rfl : t = raw := by rw [← text_classify raw, h, text]
    exact ⟨isNumeric_of_number h, rfl⟩
  · rintro ⟨h, rfl⟩
    unfold classify
    split
    · simp [isNumeric, isNumeral, Decimal.isDigit] at h
    · rw [if_pos h]

/-- What is read as a number has no bracket. -/
theorem not_mem_of_isNumeric (h : isNumeric t = true) : '[' ∉ t := by
  cases t with
  | nil => exact List.not_mem_nil
  | cons c t =>
    rw [isNumeric, Bool.and_eq_true, List.all_eq_true] at h
    intro hmem
    rcases List.mem_cons.1 hmem with rfl | hmem
    · exact absurd h.1 (by decide)
    · exact absurd (h.2 _ hmem) (by decide)

end Token

/-! ## Rows of digits and points -/

namespace Decimal

variable {ds whole fraction rest : Text}

/-- The text has a digit, and no second point. -/
def HasValue (t : Text) : Prop := (∃ c ∈ t, c.isDigit = true) ∧ t.count '.' ≤ 1

instance (t : Text) : Decidable (HasValue t) :=
  decidable_of_iff (t.any Char.isDigit = true ∧ t.count '.' ≤ 1) (by rw [HasValue, List.any_eq_true])

theorem IsDigits.count_point (h : IsDigits ds) : ds.count '.' = 0 :=
  List.count_eq_zero.2 fun hc => absurd (h '.' hc) (by decide)

/-- Digits have a digit among them unless there are none. -/
theorem IsDigits.exists_digit_iff (h : IsDigits ds) : (∃ c ∈ ds, c.isDigit = true) ↔ ds ≠ [] := by
  constructor
  · rintro ⟨c, hc, -⟩
    exact List.ne_nil_of_mem hc
  · intro hne
    obtain ⟨c, hc⟩ := List.exists_mem_of_ne_nil ds hne
    exact ⟨c, hc, h c hc⟩

/-- A row of digits and points is a row of digits, or it has digits in front of its first point. -/
theorem exists_isDigits_append (h : ∀ c ∈ t, Token.isNumeral c = true) :
    IsDigits t ∨ ∃ ds rest, t = ds ++ '.' :: rest ∧ IsDigits ds ∧ ∀ c ∈ rest, Token.isNumeral c = true := by
  induction t with
  | nil => exact .inl nofun
  | cons c t ih =>
    obtain ⟨hc, ht⟩ := List.forall_mem_cons.1 h
    rcases Token.isNumeral_iff.1 hc with hc | rfl
    · rcases ih ht with hd | ⟨ds, rest, rfl, hd, hrest⟩
      · exact .inl (List.forall_mem_cons.2 ⟨hc, hd⟩)
      · exact .inr ⟨c :: ds, rest, rfl, List.forall_mem_cons.2 ⟨hc, hd⟩, hrest⟩
    · exact .inr ⟨[], t, rfl, nofun, ht⟩

/-- A row of digits and points has no point, or one, or more. -/
theorem numerals_cases (h : ∀ c ∈ t, Token.isNumeral c = true) :
    IsDigits t ∨ (∃ whole fraction, t = whole ++ '.' :: fraction ∧ IsDigits whole ∧ IsDigits fraction) ∨
      ∃ whole fraction rest, t = whole ++ '.' :: (fraction ++ '.' :: rest) ∧ IsDigits whole ∧ IsDigits fraction := by
  rcases exists_isDigits_append h with hd | ⟨whole, rest, rfl, hw, hrest⟩
  · exact .inl hd
  · rcases exists_isDigits_append hrest with hf | ⟨fraction, rest, rfl, hf, -⟩
    · exact .inr (.inl ⟨whole, rest, rfl, hw, hf⟩)
    · exact .inr (.inr ⟨whole, fraction, rest, rfl, hw, hf⟩)

theorem takeDigits_point (hds : IsDigits ds) (rest : Text) : takeDigits (ds ++ '.' :: rest) = (ds, '.' :: rest) :=
  takeDigits_append hds (by simp [isDigit])

/-- A row of digits and points denotes a magnitude just when it has a digit and no second point. -/
theorem isSome_magnitude?_iff (h : ∀ c ∈ t, Token.isNumeral c = true) :
    (magnitude? t).isSome = true ↔ HasValue t := by
  rcases numerals_cases h with hd | ⟨whole, fraction, rfl, hw, hf⟩ | ⟨whole, fraction, rest, rfl, hw, hf⟩
  · rw [HasValue, hd.exists_digit_iff, hd.count_point, magnitude?, takeDigits_of_isDigits hd]
    simp [exponent?]
  · have hdigits := hw.append hf
    have hvalue : HasValue (whole ++ '.' :: fraction) ↔ whole ++ fraction ≠ [] := by
      rw [← hdigits.exists_digit_iff, HasValue, List.count_append, List.count_cons_self, hw.count_point,
        hf.count_point]
      simp [or_and_right, exists_or, show '.'.isDigit = false from rfl]
    rw [hvalue, magnitude?, takeDigits_point hw]
    simp [takeDigits_of_isDigits hf, exponent?]
  · have hvalue : ¬ HasValue (whole ++ '.' :: (fraction ++ '.' :: rest)) := by
      rintro ⟨-, hcount⟩
      simp [List.count_append, List.count_cons_self] at hcount
      omega
    -- the second point begins no exponent
    simp [hvalue, magnitude?, takeDigits_point hw, takeDigits_point hf, exponent?]

/-- A row of digits and points is no name of a special value. -/
theorem special?_of_numerals (h : ∀ c ∈ t, Token.isNumeral c = true) : special? t = none := by
  have hlower : t.map Char.toLower = t := by
    refine (List.map_congr_left fun c hc => ?_).trans (List.map_id t)
    rcases Token.isNumeral_iff.1 (h c hc) with hd | rfl
    · have : c.toNat ≤ 57 := (Char.isDigit_iff_toNat.1 hd).2
      exact dif_neg fun hupper => by
        have : 65 ≤ c.toNat := hupper.1
        omega
    · rfl
  have hletter : 'n' ∉ t := fun hn => absurd (h 'n' hn) (by decide)
  have hname : ∀ name : Text, 'n' ∈ name → t ≠ name := fun name hn ht => hletter (ht ▸ hn)
  unfold special?
  simp only [hlower]
  rw [if_neg (not_or.2 ⟨hname _ (by decide), hname _ (by decide)⟩), if_neg (hname _ (by decide))]

/-- Behind a sign, a spelling is read if and only if it has a value. -/
theorem isSome_signed_iff (negative : Bool) (h : ∀ c ∈ t, Token.isNumeral c = true) :
    ((magnitude? t <|> special? t).map (Binary64.ofRank negative)).isSome = true ↔ HasValue t := by
  rw [special?_of_numerals h, Option.isSome_map, ← isSome_magnitude?_iff h]
  cases magnitude? t <;> rfl

theorem hasValue_cons_minus : HasValue ('-' :: t) ↔ HasValue t := by
  simp [HasValue, show '-'.isDigit = false from rfl]

/-- A numeric token denotes a double just when it has a digit and no second point. -/
theorem isSome_read?_iff (h : Token.isNumeric t = true) : (read? t).isSome = true ↔ HasValue t := by
  cases t with
  | nil => cases h
  | cons c t =>
    simp only [Token.isNumeric, Bool.and_eq_true, Bool.or_eq_true, beq_iff_eq, List.all_eq_true] at h
    obtain ⟨hc, ht⟩ := h
    by_cases hminus : c = '-'
    · subst hminus
      rw [hasValue_cons_minus]
      exact isSome_signed_iff true ht
    · have hnumeral : Token.isNumeral c = true := by
        rcases hc with (rfl | hc) | hc
        · rfl
        · exact absurd hc hminus
        · exact hc
      have hplus : c ≠ '+' := by
        rintro rfl
        cases hnumeral
      rw [read?, takeSign_of_head (by simpa using ⟨hminus, hplus⟩)]
      exact isSome_signed_iff false (List.forall_mem_cons.2 ⟨hnumeral, ht⟩)

end Decimal

/-! ## Numbers with and without a value -/

/-- A number is an operand by its value, and refused by its text without one. -/
theorem Operation.numberOperand_number (b : Builtin) (n : Number) :
    numberOperand b (.number n) = n.value.elim (.error (.malformedNumber n.text)) .ok := by
  cases h : n.value <;> simp [numberOperand, h]

/-- **The spelling of numbers.** A token is numeric just when it is not empty and has digits and points only, but for at
most one `0` or `-` in front, and just the numeric tokens are numbers, spelled as they were. Such a number has a value
just when it has a digit and no second point. Then arithmetic takes this value, and otherwise it refuses the number by
its spelling. A token of any form, read and written, is the token. -/
theorem Token.spelling_of_number (raw : Text) :
    (isNumeric raw = true ↔ raw ≠ [] ∧ ∃ lead rest, raw = lead ++ rest ∧
      (lead = [] ∨ lead = ['0'] ∨ lead = ['-']) ∧ ∀ c ∈ rest, c.isDigit = true ∨ c = '.') ∧
    (∀ t, classify raw = .number t ↔ isNumeric raw = true ∧ t = raw) ∧
    (∀ t, classify raw = .number t →
      let hasValue := (∃ c ∈ raw, c.isDigit = true) ∧ raw.count '.' ≤ 1
      ((∃ x, (Number.literal t).value = some x) ↔ hasValue) ∧
      ∀ b, (∀ x, numberOperand b (.literal t) = .ok x ↔ (Number.literal t).value = some x) ∧
        ∀ e, numberOperand b (.literal t) = .error e ↔ e = .malformedNumber raw ∧ ¬ hasValue) ∧
    (classify raw).text = raw := by
  refine ⟨isNumeric_iff, fun t => classify_eq_number_iff, fun t ht => ?_, text_classify raw⟩
  obtain ⟨hnumeric, rfl⟩ := classify_eq_number_iff.1 ht
  intro hasValue
  have hvalue : (∃ x, (Number.literal t).value = some x) ↔ hasValue := by
    rw [← Option.isSome_iff_exists]
    exact Decimal.isSome_read?_iff hnumeric
  refine ⟨hvalue, fun b => ?_⟩
  have htext : (Number.literal t).text = t := rfl
  rw [Value.literal, numberOperand_number, ← hvalue, htext]
  cases (Number.literal t).value with
  | none => simp [eq_comm]
  | some x => simp

/-- A sign and a point are a number without a value, and so is a number with two points; a point at either end of the
digits is no fault. -/
theorem Token.spelling_of_number_pointed :
    (classify "-.".toList = .number "-.".toList ∧
      numberOperand .add (.literal "-.".toList) = .error (.malformedNumber "-.".toList)) ∧
    (classify "01.2.".toList = .number "01.2.".toList ∧
      numberOperand .add (.literal "01.2.".toList) = .error (.malformedNumber "01.2.".toList)) ∧
    classify "-.5".toList = .number "-.5".toList ∧ ∃ x, numberOperand .add (.literal "-.5".toList) = .ok x := by
  have hsign : classify "-.".toList = .number "-.".toList := by decide
  have hpoints : classify "01.2.".toList = .number "01.2.".toList := by decide
  have hhalf : classify "-.5".toList = .number "-.5".toList := by decide
  have hnone : ¬ Decimal.HasValue "-.".toList ∧ ¬ Decimal.HasValue "01.2.".toList := by decide
  have hsome : Decimal.HasValue "-.5".toList := by decide
  obtain ⟨-, hrefused⟩ := (spelling_of_number "-.".toList).2.2.1 _ hsign
  obtain ⟨-, hrefused'⟩ := (spelling_of_number "01.2.".toList).2.2.1 _ hpoints
  obtain ⟨hvalue, htaken⟩ := (spelling_of_number "-.5".toList).2.2.1 _ hhalf
  obtain ⟨x, hx⟩ := hvalue.2 hsome
  exact ⟨⟨hsign, ((hrefused .add).2 _).2 ⟨rfl, hnone.1⟩⟩, ⟨hpoints, ((hrefused' .add).2 _).2 ⟨rfl, hnone.2⟩⟩,
    hhalf, x, ((htaken .add).1 x).2 hx⟩

end MiniLogo
