import MiniLogo.Proofs.Number.Bits

/-!
# Rounding what needs no rounding

A magnitude below infinity is m · 2^k units with m of 53 bits, or of fewer if k = 0 (`Normal`), and its rank is
k · 2^52 + m. So `units` is strictly monotone, and `nearestRank` of a magnitude that has a normal form is its rank
(`nearestRank_normal`).
-/

namespace MiniLogo.Binary64

variable {m k r s num den c : Nat}

/-- A significand and an exponent of a magnitude: all 53 bits are used, or the exponent is the lowest. -/
def Normal (m k : Nat) : Prop := m < 2 * binade ∧ (binade ≤ m ∨ k = 0)

/-- Every rank has a normal form. -/
theorem exists_normal (r : Nat) : ∃ m k, Normal m k ∧ r = k * binade + m := by
  simp only [Normal, binade_eq]
  by_cases hr : r < 2 ^ 52
  · exact ⟨r, 0, ⟨by omega, .inr rfl⟩, by omega⟩
  · exact ⟨2 ^ 52 + r % 2 ^ 52, r / 2 ^ 52 - 1, ⟨by omega, .inl (by omega)⟩, by omega⟩

/-- The magnitude of a normal form, also of one that has just become too large. -/
theorem units_eq (hle : m ≤ 2 * binade) (h : binade ≤ m ∨ k = 0) : units (k * binade + m) = m * 2 ^ k := by
  unfold units
  rw [binade_eq] at *
  by_cases hlow : m < 2 ^ 52
  · obtain rfl : k = 0 := h.resolve_left (Nat.not_le.2 hlow)
    rw [if_pos (by omega), Nat.zero_mul, Nat.zero_add, Nat.pow_zero, Nat.mul_one]
  rw [if_neg (by omega), Nat.pow_eq]
  by_cases htop : m = 2 * 2 ^ 52
  · have hdiv : (k * 2 ^ 52 + m) / 2 ^ 52 = k + 2 := by omega
    have hmod : (k * 2 ^ 52 + m) % 2 ^ 52 = 0 := by omega
    rw [hdiv, hmod, htop, Nat.add_sub_assoc (by decide), Nat.pow_succ]
    ring
  · have hdiv : (k * 2 ^ 52 + m) / 2 ^ 52 = k + 1 := by omega
    have hmod : (k * 2 ^ 52 + m) % 2 ^ 52 = m - 2 ^ 52 := by omega
    rw [hdiv, hmod, Nat.add_sub_cancel, Nat.add_sub_cancel' (by omega)]

theorem units_normal (h : Normal m k) : units (k * binade + m) = m * 2 ^ k := units_eq (Nat.le_of_lt h.1) h.2

/-- Magnitudes come in the order of their ranks. -/
theorem units_strictMono : StrictMono units := by
  apply strictMono_nat_of_lt_succ
  intro r
  obtain ⟨m, k, ⟨hlt, hm⟩, rfl⟩ := exists_normal r
  rw [Nat.add_assoc, units_eq hlt (hm.imp_left Nat.le_succ_of_le), units_eq (Nat.le_of_lt hlt) hm]
  exact Nat.mul_lt_mul_of_pos_right (Nat.lt_succ_self m) (Nat.two_pow_pos k)

theorem units_zero : units 0 = 0 := rfl

theorem units_pos (hr : 0 < r) : 0 < units r := units_strictMono hr

/-- The magnitude that the rank of infinity would have. -/
theorem units_infinityRank : units infinityRank = binade * 2 ^ 2046 := by
  have hrank : infinityRank = 2046 * binade + binade := by decide
  rw [hrank, units_eq (by decide) (.inl (Nat.le_refl binade))]

theorem log2_normal (h : Normal m k) : (m * 2 ^ k).log2 - 52 = k := by
  obtain ⟨hlt, hm⟩ := h
  rw [binade_eq] at hlt hm
  by_cases hlow : m < 2 ^ 52
  · obtain rfl : k = 0 := hm.resolve_left (Nat.not_le.2 hlow)
    by_cases hz : m = 0
    · simp [hz]
    · have hlog : m.log2 < 52 := (Nat.log2_lt hz).2 hlow
      rw [Nat.pow_zero, Nat.mul_one]
      omega
  · have hlog : (m * 2 ^ k).log2 = 52 + k := by
      have hle := Nat.mul_le_mul_right (2 ^ k) (Nat.not_lt.1 hlow)
      have hlt := Nat.mul_lt_mul_of_pos_right hlt (Nat.two_pow_pos k)
      refine (Nat.log2_eq_iff (by have := Nat.two_pow_pos k; omega)).2 ⟨?_, ?_⟩
      · rw [Nat.pow_add]; exact hle
      · rw [Nat.add_right_comm, Nat.pow_add]; exact hlt
    rw [hlog, Nat.add_sub_cancel_left]

/-- What divides evenly is not rounded. -/
theorem roundEven_mul (q : Nat) (hden : 0 < den) : roundEven (q * den) den = q := by
  simp [roundEven, Nat.mul_div_cancel _ hden, hden]

/-- A common factor does not change what is rounded. -/
theorem roundEven_mul_mul (hc : 0 < c) (num den : Nat) : roundEven (c * num) (c * den) = roundEven num den := by
  have hlt : 2 * (c * (num % den)) < c * den ↔ 2 * (num % den) < den := by
    rw [Nat.mul_left_comm]
    exact Nat.mul_lt_mul_left hc
  have heq : 2 * (c * (num % den)) = c * den ↔ 2 * (num % den) = den := by
    rw [Nat.mul_left_comm]
    exact Nat.mul_right_inj (Nat.ne_of_gt hc)
  simp only [roundEven, Nat.mul_div_mul_left _ _ hc, Nat.mul_mod_mul_left, hlt, heq]

/-- A magnitude in normal form is rounded to its own rank. -/
theorem nearestRank_normal (h : Normal m k) (hden : 0 < den) :
    nearestRank (m * 2 ^ k * den) den = min (k * binade + m) infinityRank := by
  have hpos : 0 < den * 2 ^ k := Nat.mul_pos hden (Nat.two_pow_pos k)
  have hexact : m * 2 ^ k * den = m * (den * 2 ^ k) := by ring
  unfold nearestRank
  simp only [Nat.pow_eq]
  rw [Nat.mul_div_cancel _ hden, log2_normal h, hexact, roundEven_mul m hpos]

/-- A magnitude is rounded to its own rank. -/
theorem nearestRank_units (hr : r ≤ infinityRank) (hden : 0 < den) : nearestRank (units r * den) den = r := by
  obtain ⟨m, k, h, rfl⟩ := exists_normal r
  rw [units_normal h, nearestRank_normal h hden, Nat.min_eq_left hr]

/-- A ratio of units may be brought to higher terms. -/
theorem nearestRank_mul (hc : 0 < c) (num den : Nat) : nearestRank (c * num) (c * den) = nearestRank num den := by
  unfold nearestRank
  simp only [Nat.pow_eq]
  rw [Nat.mul_div_mul_left _ _ hc, Nat.mul_assoc, roundEven_mul_mul hc]

/-- Above all finite magnitudes there is infinity. -/
theorem nearestRank_of_large {p : Nat} (hp : 2099 ≤ p) (h : 2 ^ p ≤ num / den) :
    nearestRank num den = infinityRank := by
  have hlog : p ≤ (num / den).log2 := (Nat.le_log2 (Nat.ne_of_gt (Nat.lt_of_lt_of_le (Nat.two_pow_pos p) h))).2 h
  have hexp : 2047 * binade ≤ ((num / den).log2 - 52) * binade := Nat.mul_le_mul_right _ (by omega)
  exact Nat.min_eq_right (Nat.le_trans hexp (Nat.le_add_right _ _))

end MiniLogo.Binary64
