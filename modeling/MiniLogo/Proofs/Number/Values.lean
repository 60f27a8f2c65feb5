import MiniLogo.Proofs.Number.Rounding

/-!
# The values of doubles

A double that is finite denotes a rational number (`value?`), which is its magnitude in units over the units in one,
with its sign (`value?_of_lt`). Numbers are compared by their `position`, the rank with the sign: below NaN, `<` and
`≤` on doubles are those on positions (`lt_iff_position`, `le_iff_position`), and NaN compares with nothing.
-/

namespace MiniLogo.Binary64

open Float.Model Float.Model.UnpackedFloat

variable {x y : Float} {m k : Nat}

/-- The sign of a double, as its bit has it. -/
def signOf (negative : Bool) : Sign := if negative then .negative else .positive

/-- The number that a finite double denotes. -/
def value? (x : Float) : Option ℚ :=
  match x.toModel.unpack with
  | .finite s m e _ => some (s.apply m * 2 ^ e)
  | .zero _ => some 0
  | _ => none

/-! ## Unpacking, by the rank -/

/-- The bits of a double, as the format has them. -/
def word (x : Float) : BitVec Format.binary64.numBits := x.toBits.toBitVec

theorem toNat_word (x : Float) : (word x).toNat = x.toBits.toNat := rfl

/-- A double is unpacked from its bits. -/
theorem unpack_eq (x : Float) : x.toModel.unpack = UnpackedFloat.unpack .binary64 (word x) := rfl

/-- The exponent of a double is in the upper bits of its rank. -/
theorem toNat_unpackExponent_word (x : Float) : (unpackExponent (word x)).toNat = rank x / 2 ^ 52 := by
  rw [toNat_unpackExponent, toNat_word, rank, signBit_eq]
  omega

/-- The mantissa of a double is in the lower bits of its rank. -/
theorem toNat_unpackMantissa_word (x : Float) : (unpackMantissa (word x)).toNat = rank x % 2 ^ 52 := by
  rw [toNat_unpackMantissa, toNat_word, rank, signBit_eq]
  omega

theorem unpackExponent_word {e : BitVec 11} (h : rank x / 2 ^ 52 = e.toNat) : unpackExponent (word x) = e :=
  BitVec.eq_of_toNat_eq ((toNat_unpackExponent_word x).trans h)

theorem unpackMantissa_word {m : BitVec 52} (h : rank x % 2 ^ 52 = m.toNat) : unpackMantissa (word x) = m :=
  BitVec.eq_of_toNat_eq ((toNat_unpackMantissa_word x).trans h)

theorem ofBitVec_unpackSign_word (x : Float) : Sign.ofBitVec (unpackSign (word x)) = signOf (isNegative x) := by
  have hlt : x.toBits.toNat < 2 ^ 64 := x.toBits.toNat_lt
  have hsign := toNat_unpackSign (b := word x)
  rw [toNat_word] at hsign
  unfold signOf isNegative
  rw [signBit_eq]
  obtain hbit | hbit := BitVec.eq_zero_or_eq_one (unpackSign (word x))
  · rw [hbit] at hsign ⊢
    rw [decide_eq_false (by simp at hsign; omega)]
    rfl
  · rw [hbit] at hsign ⊢
    rw [decide_eq_true (by simp at hsign; omega)]
    rfl

theorem unpack_of_zero (h : rank x = 0) : x.toModel.unpack = .zero (signOf (isNegative x)) := by
  rw [unpack_eq, unpack_zero (unpackExponent_word (by rw [h]; rfl)) (unpackMantissa_word (by rw [h]; rfl)),
    ofBitVec_unpackSign_word]

theorem unpack_of_infinite (h : rank x = infinityRank) : x.toModel.unpack = .infinity (signOf (isNegative x)) := by
  rw [unpack_eq, unpack_infinity (unpackExponent_word (by rw [h]; rfl)) (unpackMantissa_word (by rw [h]; rfl)),
    ofBitVec_unpackSign_word]

theorem unpack_of_nan (h : infinityRank < rank x) : x.toModel.unpack = .notANumber := by
  have hlt : rank x < 2 ^ 63 := Nat.mod_lt _ (by decide)
  rw [infinityRank_eq] at h
  have hexp : rank x / 2 ^ 52 = (-1#11).toNat := by
    change rank x / 2 ^ 52 = 2047
    omega
  rw [unpack_eq]
  refine unpack_nan (unpackExponent_word hexp) fun hm => ?_
  have hzero := toNat_unpackMantissa_word x
  rw [hm] at hzero
  change 0 = rank x % 2 ^ 52 at hzero
  omega

/-- The rank of a finite double in normal form is the mantissa and exponent it is unpacked to. -/
theorem unpack_of_normal (h : Normal m k) (hm : 0 < m) (hr : rank x = k * binade + m) (hlt : rank x < infinityRank) :
    x.toModel.unpack = .finite (signOf (isNegative x)) m (k - 1074) hm := by
  obtain ⟨hsize, hlow⟩ := h
  rw [binade_eq] at hr hsize hlow
  rw [infinityRank_eq] at hlt
  rw [unpack_eq, ← ofBitVec_unpackSign_word]
  by_cases hmlt : m < 2 ^ 52
  · obtain rfl : k = 0 := hlow.resolve_left (Nat.not_le.2 hmlt)
    have hexp : unpackExponent (word x) = 0#11 := unpackExponent_word (by simp; omega)
    have hman : (unpackMantissa (word x)).toNat = m := by
      rw [toNat_unpackMantissa_word]
      omega
    rw [unpack_subnormal hexp (by omega)]
    simp only [hman]
    rfl
  · have hexp : (unpackExponent (word x)).toNat = k + 1 := by
      rw [toNat_unpackExponent_word]
      omega
    have hman : 2 ^ 52 + (unpackMantissa (word x)).toNat = m := by
      rw [toNat_unpackMantissa_word]
      omega
    have hzero : unpackExponent (word x) ≠ 0#11 := fun h => by
      rw [h] at hexp
      cases hexp
    have hones : unpackExponent (word x) ≠ -1#11 := fun h => by
      rw [h] at hexp
      change 2047 = k + 1 at hexp
      omega
    have hshift : ((k + 1 : Nat) : Int) - 1075 = k - 1074 := by omega
    rw [unpack_normal hzero hones]
    simp only [hman, hexp, hshift]

/-- What a number is unpacked to, and the rank that this has. -/
inductive Form (x : Float) : Prop where
  | zero (h : rank x = 0) (hu : x.toModel.unpack = .zero (signOf (isNegative x)))
  | finite {m k : Nat} (h : Normal m k) (hm : 0 < m) (hr : rank x = k * binade + m) (hlt : rank x < infinityRank)
      (hu : x.toModel.unpack = .finite (signOf (isNegative x)) m (k - 1074) hm)
  | infinite (h : rank x = infinityRank) (hu : x.toModel.unpack = .infinity (signOf (isNegative x)))

/-- A double that is no NaN has one of the three forms. -/
theorem form_of_le (h : rank x ≤ infinityRank) : Form x := by
  obtain hinf | hlt := Nat.eq_or_lt_of_le h
  · exact .infinite hinf (unpack_of_infinite hinf)
  · obtain ⟨m, k, hn, hr⟩ := exists_normal (rank x)
    obtain rfl | hm := Nat.eq_zero_or_pos m
    · obtain rfl : k = 0 := hn.2.resolve_left (by decide)
      rw [Nat.zero_mul] at hr
      exact .zero hr (unpack_of_zero hr)
    · exact .finite hn hm hr hlt (unpack_of_normal hn hm hr hlt)

/-! ## Values -/

theorem cast_mul_zpow (m k n : Nat) : (m : ℚ) * 2 ^ ((k : ℤ) - n) = (m * 2 ^ k : Nat) / (2 ^ n : Nat) := by
  rw [zpow_sub₀ two_ne_zero, zpow_natCast, zpow_natCast, Nat.cast_mul, Nat.cast_pow, Nat.cast_pow, mul_div_assoc]
  rfl

/-- The value of a finite double is its magnitude over the units in one, with its sign. -/
theorem value?_of_lt (h : rank x < infinityRank) :
    value? x = some (if isNegative x then -(units (rank x) / one : ℚ) else units (rank x) / one) := by
  unfold value?
  cases form_of_le (Nat.le_of_lt h) with
  | zero hr hu =>
    rw [hu, hr, units_zero, Nat.cast_zero, zero_div, neg_zero, ite_self]
  | finite hn hm hr hlt hu =>
    rename_i m k
    have hmagnitude : (m : ℚ) * 2 ^ ((k : ℤ) - (1074 : Nat)) = units (rank x) / one := by
      rw [cast_mul_zpow, hr, units_normal hn, one_eq]
    rw [hu, ← hmagnitude]
    cases isNegative x with
    | true => simp [signOf, Sign.apply]
    | false => simp [signOf, Sign.apply]
  | infinite hr hu => omega

/-- Infinities and NaN denote no rational number. -/
theorem value?_of_le (h : infinityRank ≤ rank x) : value? x = none := by
  obtain hinf | hnan := Nat.eq_or_lt_of_le h
  · rw [value?, unpack_of_infinite hinf.symm]
  · rw [value?, unpack_of_nan hnan]

/-! ## Order -/

/-- A natural number with a sign. -/
def signed (negative : Bool) (n : Nat) : Int := if negative then -n else n

@[simp] theorem natAbs_signed (negative : Bool) (n : Nat) : (signed negative n).natAbs = n := by
  cases negative with
  | true => exact Int.natAbs_neg n
  | false => rfl

theorem signed_natAbs (i : Int) : signed (decide (i < 0)) i.natAbs = i := by
  by_cases hi : i < 0
  · rw [decide_eq_true hi, signed, if_pos rfl]
    omega
  · rw [decide_eq_false hi, signed, if_neg Bool.false_ne_true]
    omega

/-- The place of a number among all: its rank, with its sign. -/
def position (x : Float) : Int := signed (isNegative x) (rank x)

/-- Of two normal forms, the one with the larger exponent has the larger rank. -/
theorem rank_lt_of_exponent_lt {m' k' : Nat} (h : Normal m k) (h' : Normal m' k') (hk : k < k') :
    k * binade + m < k' * binade + m' := by
  obtain ⟨hsize, -⟩ := h
  obtain ⟨-, hlow⟩ := h'
  rw [binade_eq] at *
  omega

/-- Normal forms are ordered by the exponent first. -/
theorem compare_normal {m' k' : Nat} (h : Normal m k) (h' : Normal m' k') :
    (compare ((k : Int) - 1074) (k' - 1074)).then (compare m m') = compare (k * binade + m) (k' * binade + m') := by
  obtain hk | rfl | hk := lt_trichotomy k k'
  · rw [compare_lt_iff_lt.2 (rank_lt_of_exponent_lt h h' hk), compare_lt_iff_lt.2 (by omega)]
    rfl
  · rw [compare_eq_iff_eq.2 rfl]
    change compare m m' = _
    obtain hm | rfl | hm := lt_trichotomy m m'
    · rw [compare_lt_iff_lt.2 hm, compare_lt_iff_lt.2 (Nat.add_lt_add_left hm _)]
    · rw [compare_eq_iff_eq.2 rfl, compare_eq_iff_eq.2 rfl]
    · rw [compare_gt_iff_gt.2 hm, compare_gt_iff_gt.2 (Nat.add_lt_add_left hm _)]
  · rw [compare_gt_iff_gt.2 (rank_lt_of_exponent_lt h' h hk), compare_gt_iff_gt.2 (by omega)]
    rfl

/-- The sign of the larger magnitude decides. -/
theorem compare_signed_of_lt (s t : Bool) {a b : Nat} (h : a < b) :
    compare (signed s a) (signed t b) = if t then .gt else .lt := by
  unfold signed
  cases t with
  | true => exact compare_gt_iff_gt.2 (by cases s <;> simp <;> omega)
  | false => exact compare_lt_iff_lt.2 (by cases s <;> simp <;> omega)

theorem compare_signed_of_gt (s t : Bool) {a b : Nat} (h : b < a) :
    compare (signed s a) (signed t b) = if s then .lt else .gt := by
  unfold signed
  cases s with
  | true => exact compare_lt_iff_lt.2 (by cases t <;> simp <;> omega)
  | false => exact compare_gt_iff_gt.2 (by cases t <;> simp <;> omega)

/-- Of two magnitudes with the same sign, the larger negative one comes first. -/
theorem compare_signed (s : Bool) (a b : Nat) :
    compare (signed s a) (signed s b) = if s then (compare a b).swap else compare a b := by
  obtain h | rfl | h := lt_trichotomy a b
  · rw [compare_signed_of_lt s s h, compare_lt_iff_lt.2 h]
    rfl
  · rw [compare_eq_iff_eq.2 rfl, compare_eq_iff_eq.2 rfl]
    cases s <;> rfl
  · rw [compare_signed_of_gt s s h, compare_gt_iff_gt.2 h]
    rfl

/-- A negative number comes before a positive one. -/
theorem compare_signed_ne {s t : Bool} (hst : s ≠ t) {a b : Nat} (ha : 0 < a) (hb : 0 < b) :
    compare (signed s a) (signed t b) = if s then .lt else .gt := by
  unfold signed
  cases s <;> cases t
  · exact absurd rfl hst
  · exact compare_gt_iff_gt.2 (by simp; omega)
  · exact compare_lt_iff_lt.2 (by simp; omega)
  · exact absurd rfl hst

/-- Numbers are compared by their positions. -/
theorem compare_unpack (hx : rank x ≤ infinityRank) (hy : rank y ≤ infinityRank) :
    x.toModel.unpack.compare y.toModel.unpack = some (compare (position x) (position y)) := by
  have hpos : 0 < infinityRank := by decide
  unfold position
  cases form_of_le hx with
  | zero hr hu =>
    cases form_of_le hy with
    | zero hr' hu' =>
      rw [hu, hu', hr, hr']
      cases isNegative x <;> cases isNegative y <;> rfl
    | finite hn' hm' hr' hlt' hu' =>
      rw [hu, hu', compare_signed_of_lt _ _ (by omega)]
      cases isNegative x <;> cases isNegative y <;> rfl
    | infinite hr' hu' =>
      rw [hu, hu', compare_signed_of_lt _ _ (by omega)]
      cases isNegative x <;> cases isNegative y <;> rfl
  | finite hn hm hr hlt hu =>
    cases form_of_le hy with
    | zero hr' hu' =>
      rw [hu, hu', compare_signed_of_gt _ _ (by omega)]
      cases isNegative x <;> cases isNegative y <;> rfl
    | finite hn' hm' hr' hlt' hu' =>
      by_cases hsign : isNegative x = isNegative y
      · rw [hu, hu', hsign, compare_signed, hr, hr', ← compare_normal hn hn']
        cases isNegative y <;> rfl
      · rw [hu, hu', compare_signed_ne hsign (by omega) (by omega)]
        cases hs : isNegative x <;> cases ht : isNegative y
        · exact absurd (hs.trans ht.symm) hsign
        · rfl
        · rfl
        · exact absurd (hs.trans ht.symm) hsign
    | infinite hr' hu' =>
      rw [hu, hu', compare_signed_of_lt _ _ (by omega)]
      cases isNegative x <;> cases isNegative y <;> rfl
  | infinite hr hu =>
    cases form_of_le hy with
    | zero hr' hu' =>
      rw [hu, hu', compare_signed_of_gt _ _ (by omega)]
      cases isNegative x <;> cases isNegative y <;> rfl
    | finite hn' hm' hr' hlt' hu' =>
      rw [hu, hu', compare_signed_of_gt _ _ (by omega)]
      cases isNegative x <;> cases isNegative y <;> rfl
    | infinite hr' hu' =>
      rw [hu, hu', hr, hr']
      cases isNegative x <;> cases isNegative y <;> rfl

/-- The order of doubles is that of what they are unpacked to. -/
theorem lt_iff_compare : x < y ↔ x.toModel.unpack.compare y.toModel.unpack = some .lt := by
  change decide (x.toModel.unpack.lt y.toModel.unpack = true) = true ↔ _
  unfold UnpackedFloat.lt
  simp

theorem le_iff_compare : x ≤ y ↔ ∃ o, x.toModel.unpack.compare y.toModel.unpack = some o ∧ o.isLE = true := by
  change decide (x.toModel.unpack.le y.toModel.unpack = true) = true ↔ _
  unfold UnpackedFloat.le
  simp [Option.any_eq_true]

/-- Below NaN, doubles are ordered as their positions. -/
theorem lt_iff_position (hx : rank x ≤ infinityRank) (hy : rank y ≤ infinityRank) :
    x < y ↔ position x < position y := by
  rw [lt_iff_compare, compare_unpack hx hy, Option.some_inj, compare_lt_iff_lt]

theorem le_iff_position (hx : rank x ≤ infinityRank) (hy : rank y ≤ infinityRank) :
    x ≤ y ↔ position x ≤ position y := by
  rw [le_iff_compare, compare_unpack hx hy]
  simp [← compare_le_iff_le, Ordering.isLE_iff_ne_gt]

/-- Nothing is at most NaN. -/
theorem not_le_of_nan (h : infinityRank < rank y) : ¬x ≤ y := by
  rw [le_iff_compare, unpack_of_nan h]
  cases x.toModel.unpack <;> simp [UnpackedFloat.compare]

end MiniLogo.Binary64
