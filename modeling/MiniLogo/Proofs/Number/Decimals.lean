import MiniLogo.Number.Decimal
import MiniLogo.Proofs.Number.Rounding

/-!
# Reading decimals

What `Decimal.read?` makes of the parts of a number: digits give back the number they were written for
(`ofDigits_digits`), an exponent too (`exponent?_ofInt`), and a row of digits with a point and an exponent denotes
its digits with the exponent moved by the digits after the point (`magnitude?_point`). The rank that a decimal
denotes does not depend on how the decimal is written: zeros at the end of the digits count for the exponent
(`rankOfDecimal_mul_pow`).
-/

namespace MiniLogo.Decimal

open Binary64

variable {ds whole fraction rest : Text} {m n : Nat} {e : Int}

/-! ## Digits -/

def IsDigits (ds : Text) : Prop := ∀ c ∈ ds, isDigit c = true

theorem IsDigits.append (hw : IsDigits whole) (hf : IsDigits fraction) : IsDigits (whole ++ fraction) :=
  List.forall_mem_append.2 ⟨hw, hf⟩

theorem isDigits_replicate (n : Nat) : IsDigits (List.replicate n '0') := by
  intro c hc
  rw [List.eq_of_mem_replicate hc]
  decide

theorem isDigits_digits (n : Nat) : IsDigits (digits n) := by
  intro c hc
  exact Nat.isDigit_of_mem_toDigits (by decide) (by decide) hc

theorem digits_ne_nil : digits n ≠ [] := Nat.toDigits_ne_nil

/-- The digits of a number denote it. -/
theorem ofDigits_digits (n : Nat) : ofDigits (digits n) = n := Nat.ofDigitChars_toDigits (by decide) (by decide)

/-- Zeros in front do not count. -/
theorem ofDigits_zeros_append : ofDigits (List.replicate n '0' ++ ds) = ofDigits ds := by
  change Nat.ofDigitChars 10 _ 0 = Nat.ofDigitChars 10 ds 0
  rw [Nat.ofDigitChars_append, Nat.ofDigitChars_replicate_zero, Nat.mul_zero]

/-- Each zero at the end makes ten times the number. -/
theorem ofDigits_append_zeros : ofDigits (ds ++ List.replicate n '0') = ofDigits ds * 10 ^ n := by
  change Nat.ofDigitChars 10 _ 0 = Nat.ofDigitChars 10 ds 0 * 10 ^ n
  rw [Nat.ofDigitChars_append, Nat.ofDigitChars_replicate_zero, Nat.mul_comm]

/-- The leading digits of a text are those before the first character that is none. -/
theorem takeDigits_append (hds : IsDigits ds) (hrest : ∀ c ∈ rest.head?, isDigit c = false) :
    takeDigits (ds ++ rest) = (ds, rest) := by
  have htake : rest.takeWhile isDigit = [] := by
    cases rest with
    | nil => rfl
    | cons c rest => exact List.takeWhile_cons_of_neg (by simpa using hrest)
  have hdrop : rest.dropWhile isDigit = rest := by
    cases rest with
    | nil => rfl
    | cons c rest => exact List.dropWhile_cons_of_neg (by simpa using hrest)
  rw [takeDigits, List.takeWhile_append_of_pos hds, List.dropWhile_append_of_pos hds, htake, hdrop, List.append_nil]

/-! ## The rank of a decimal -/

theorem length_digits_le_iff (hn : 0 < n) : (digits m).length ≤ n ↔ m < 10 ^ n :=
  Nat.length_toDigits_le_iff (by decide) hn

/-- Ten times a number has one digit more. -/
theorem length_digits_mul_ten (hm : 0 < m) : (digits (10 * m)).length = (digits m).length + 1 := by
  have happend : digits m ++ digits 0 = digits (10 * m + 0) := Nat.toDigits_append_toDigits (by decide) hm (by decide)
  rw [Nat.add_zero] at happend
  rw [← happend, List.length_append]
  rfl

/-- A zero at the end of the digits counts for the exponent. -/
theorem rankOfDecimal_mul_ten (m : Nat) (e : Int) : rankOfDecimal (10 * m) e = rankOfDecimal m (e + 1) := by
  obtain rfl | hm := Nat.eq_zero_or_pos m
  · simp [rankOfDecimal]
  have hplaces : e + ((digits (10 * m)).length : Nat) = e + 1 + (digits m).length := by
    rw [length_digits_mul_ten hm]
    omega
  have hzero : 10 * m = 0 ↔ m = 0 := by omega
  unfold rankOfDecimal
  simp only [hplaces, hzero, Nat.pow_eq]
  generalize one = u
  split
  · rfl
  split
  · rfl
  obtain he | rfl | he : 0 ≤ e ∨ e = -1 ∨ e < -1 := by omega
  · have hnext : (e + 1).toNat = e.toNat + 1 := by omega
    rw [if_pos he, if_pos (by omega), hnext, Nat.pow_succ]
    congr 1
    ring
  · rw [if_neg (by decide), if_pos (by decide), Nat.mul_assoc]
    have hscale := nearestRank_mul (c := 10) (by decide) (m * u) 1
    simpa using hscale
  · have hnext : (-e).toNat = (-(e + 1)).toNat + 1 := by omega
    rw [if_neg (by omega), if_neg (by omega), hnext, Nat.pow_succ, Nat.mul_comm _ 10, Nat.mul_assoc]
    exact nearestRank_mul (by decide) _ _

/-- Zeros at the end of the digits count for the exponent. -/
theorem rankOfDecimal_mul_pow (m n : Nat) (e : Int) : rankOfDecimal (m * 10 ^ n) e = rankOfDecimal m (e + n) := by
  induction n generalizing e with
  | zero => simp
  | succ n ih =>
    rw [Nat.pow_succ, ← Nat.mul_assoc, Nat.mul_comm _ 10, rankOfDecimal_mul_ten, ih]
    congr 1
    omega

/-- A decimal with digits after the point is rounded, unless it has too many places before or after it. -/
theorem rankOfDecimal_neg (hn : 0 < n) (hlow : n ≤ (digits m).length + 330) (hhigh : (digits m).length ≤ n + 310) :
    rankOfDecimal m (-n) = nearestRank (m * one) (10 ^ n) := by
  obtain rfl | hm := Nat.eq_zero_or_pos m
  · have hpos : 0 < 10 ^ n := Nat.pow_pos (by decide)
    have hzero := nearestRank_units (Nat.zero_le _) hpos
    rw [units_zero, Nat.zero_mul] at hzero
    rw [Nat.zero_mul, hzero]
    simp [rankOfDecimal]
  · unfold rankOfDecimal
    simp only [Nat.pow_eq]
    rw [if_neg (by omega), if_neg (by omega), if_neg (by omega), Int.neg_neg, Int.toNat_natCast]

/-- A whole number is rounded, however large it is. -/
theorem rankOfDecimal_zero (m : Nat) : rankOfDecimal m 0 = nearestRank (m * one) 1 := by
  obtain rfl | hm := Nat.eq_zero_or_pos m
  · decide +kernel
  unfold rankOfDecimal
  simp only
  rw [if_neg (by omega)]
  split
  case isTrue hlarge =>
    have hlength : ¬(digits m).length ≤ 310 := by omega
    rw [length_digits_le_iff (by decide)] at hlength
    have hone := Nat.mul_le_mul_right one (Nat.not_lt.1 hlength)
    refine (nearestRank_of_large (p := 2103) (by decide) ?_).symm
    rw [Nat.div_one]
    exact Nat.le_trans (by decide +kernel) hone
  case isFalse => simp

/-! ## Exponents and points -/

/-- A text that begins with no sign is read as it is. -/
theorem takeSign_of_head {t : Text} (h : ∀ c ∈ t.head?, c ≠ '-' ∧ c ≠ '+') : takeSign t = (false, t) := by
  unfold takeSign
  split
  · simp at h
  · simp at h
  · rfl

/-- Digits have no sign in front. -/
theorem takeSign_of_isDigits (hds : IsDigits ds) : takeSign ds = (false, ds) := by
  apply takeSign_of_head
  intro c hc
  have hdigit : isDigit c = true := hds c (List.mem_of_head? hc)
  constructor <;> rintro rfl <;> cases hdigit

theorem takeDigits_of_isDigits (hds : IsDigits ds) : takeDigits ds = (ds, []) := by
  have h : takeDigits (ds ++ []) = (ds, []) := takeDigits_append hds (by simp)
  rwa [List.append_nil] at h

/-- The text of an integer is its sign and the digits of its magnitude. -/
theorem takeSign_ofInt (i : Int) : takeSign (ofInt i) = (decide (i < 0), digits i.natAbs) := by
  unfold ofInt
  by_cases hi : i < 0
  · rw [if_pos hi, decide_eq_true hi]
    rfl
  · rw [if_neg hi, decide_eq_false hi, takeSign_of_isDigits (isDigits_digits _)]

/-- The exponent that was written is the one that is read. -/
theorem exponent?_ofInt (i : Int) : exponent? ('e' :: ofInt i) = some i := by
  have hvalue : (if decide (i < 0) = true then -(i.natAbs : Int) else i.natAbs) = i := by
    split <;> simp only [decide_eq_true_eq] at * <;> omega
  unfold exponent?
  simp only [takeSign_ofInt, takeDigits_of_isDigits (isDigits_digits _), ofDigits_digits, hvalue]
  exact if_pos ⟨.inl trivial, digits_ne_nil, trivial⟩

/-- Digits and an exponent denote that many times a power of ten. -/
theorem magnitude?_whole (hw : IsDigits whole) (hne : whole ≠ []) (hrest : exponent? rest = some e)
    (hhead : ∀ c ∈ rest.head?, isDigit c = false ∧ c ≠ '.') :
    magnitude? (whole ++ rest) = some (rankOfDecimal (ofDigits whole) e) := by
  unfold magnitude?
  rw [takeDigits_append hw fun c hc => (hhead c hc).1]
  simp only
  split
  · simp at hhead
  · simp [hne, hrest]

/-- The digits behind a point lower the exponent by their number. -/
theorem magnitude?_point (hw : IsDigits whole) (hne : whole ≠ []) (hf : IsDigits fraction)
    (hrest : exponent? rest = some e) (hhead : ∀ c ∈ rest.head?, isDigit c = false) :
    magnitude? (whole ++ '.' :: (fraction ++ rest)) =
      some (rankOfDecimal (ofDigits (whole ++ fraction)) (e - fraction.length)) := by
  unfold magnitude?
  rw [takeDigits_append hw (by simp [isDigit])]
  simp only [takeDigits_append hf hhead]
  simp [hne, hrest]

end MiniLogo.Decimal
