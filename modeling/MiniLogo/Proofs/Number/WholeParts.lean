import MiniLogo.Proofs.Number.Values

/-!
# Whole parts

The whole part of a double needs no rounding: `trunc` has the magnitude of the whole part exactly (`trunc_eq`), and
`wholePart?` is the value cut off toward zero (`wholePart?_eq`). The range test of `int64?` compares doubles, the
greatest integer being rounded up to 2^63, and yet is exact: the answer is the whole part of a value if that is a
signed 64-bit integer (`int64?_eq_some_iff`).
-/

namespace MiniLogo.Binary64

variable {x : Float} {i : Int} {r w : Nat}

/-- The integer that is left of a number when it is cut off toward zero. -/
def towardZero (q : ℚ) : ℤ := if q < 0 then ⌈q⌉ else ⌊q⌋

/-! ## Whole magnitudes -/

/-- Every multiple of a power of two with at most 53 bits is a magnitude. -/
theorem exists_units_eq (hw : w < 2 * binade) (j : Nat) : ∃ r, units r = w * 2 ^ j := by
  induction j generalizing w with
  | zero => exact ⟨0 * binade + w, units_normal ⟨hw, .inr rfl⟩⟩
  | succ j ih =>
    by_cases hlow : w < binade
    · obtain ⟨r, hr⟩ := ih (Nat.mul_lt_mul_of_pos_left hlow (by decide))
      exact ⟨r, by rw [hr, Nat.pow_succ]; ring⟩
    · exact ⟨(j + 1) * binade + w, units_normal ⟨hw, .inl (Nat.not_lt.1 hlow)⟩⟩

/-- The whole part of a magnitude is a magnitude. -/
theorem exists_units_whole (r : Nat) : ∃ s ≤ r, units s = units r / one * one := by
  have hle : units r / one * one ≤ units r := Nat.div_mul_le_self _ _
  suffices h : ∃ s, units s = units r / one * one by
    obtain ⟨s, hs⟩ := h
    exact ⟨s, units_strictMono.le_iff_le.1 (hs ▸ hle), hs⟩
  obtain ⟨m, k, hn, hr⟩ := exists_normal r
  have hunits : units r = m * 2 ^ k := hr ▸ units_normal hn
  -- all that matters of one is that it is a power of two
  obtain ⟨p, hp⟩ : ∃ p, one = 2 ^ p := ⟨1074, by decide +kernel⟩
  rw [hunits, hp]
  by_cases hk : p ≤ k
  · -- all of the magnitude is whole
    have hwhole : m * 2 ^ k / 2 ^ p * 2 ^ p = m * 2 ^ k :=
      Nat.div_mul_cancel (Nat.dvd_mul_left_of_dvd (Nat.pow_dvd_pow 2 hk) m)
    exact ⟨r, by rw [hunits, hwhole]⟩
  · -- the whole part has no more bits than the significand
    have hdiv : m * 2 ^ k / 2 ^ p ≤ m := by
      apply Nat.div_le_of_le_mul
      rw [Nat.mul_comm]
      exact Nat.mul_le_mul_right m (Nat.pow_le_pow_right (by decide) (Nat.le_of_not_le hk))
    exact exists_units_eq (Nat.lt_of_le_of_lt hdiv hn.1) p

/-- A whole magnitude is not rounded. -/
theorem ofRatio_of_units (negative : Bool) (hr : r ≤ infinityRank) (hw : units r = w * one) :
    ofRatio negative w 1 = ofRank negative r := by
  have hround : nearestRank (units r * 1) 1 = r := nearestRank_units hr (by decide)
  rw [ofRatio, ← hw, ← Nat.mul_one (units r), hround]

/-- Cutting off a finite double rounds nothing. -/
theorem trunc_eq (hx : rank x < infinityRank) :
    ∃ s ≤ rank x, units s = units (rank x) / one * one ∧ trunc x = ofRank (isNegative x) s := by
  obtain ⟨s, hle, hs⟩ := exists_units_whole (rank x)
  have hsle : s ≤ infinityRank := Nat.le_of_lt (Nat.lt_of_le_of_lt hle hx)
  exact ⟨s, hle, hs, by rw [trunc, if_pos hx, ofRatio_of_units _ hsle hs]⟩

/-! ## Cutting off toward zero -/

theorem towardZero_neg (q : ℚ) : towardZero (-q) = -towardZero q := by
  unfold towardZero
  obtain hq | rfl | hq := lt_trichotomy q 0
  · rw [if_neg (by linarith), if_pos hq, Int.floor_neg]
  · simp
  · rw [if_pos (by linarith), if_neg (by linarith), Int.ceil_neg]

/-- A quotient of natural numbers is rounded down. -/
theorem towardZero_div (a b : Nat) : towardZero (a / b) = (a / b : Nat) := by
  rw [towardZero, if_neg (not_lt.2 (by positivity)), Rat.floor_natCast_div_natCast, Int.natCast_ediv]

/-- The whole part of a double is its value, cut off toward zero. -/
theorem wholePart?_eq (x : Float) : wholePart? x = (value? x).map towardZero := by
  unfold wholePart?
  by_cases hx : rank x < infinityRank
  · rw [if_pos hx, value?_of_lt hx]
    cases isNegative x with
    | true => simp only [if_true, Option.map_some, towardZero_neg, towardZero_div]
    | false => simp only [if_false, Option.map_some, towardZero_div, Bool.false_eq_true]
  · rw [if_neg hx, value?_of_le (Nat.not_lt.1 hx)]
    rfl

/-! ## The range of 64 bits -/

/-- The rank of 2^63. -/
def rangeRank : Nat := 1085 * binade + binade

/-- The rank at the end of the range of 64 bits is that of 2^63. -/
theorem units_rangeRank : units rangeRank = 2 ^ 63 * one := by
  rw [rangeRank, units_eq (by decide) (.inl (Nat.le_refl binade))]
  decide +kernel

/-- The least integer of the range is a double. -/
theorem ofInt_leastInt : ofInt leastInt = ofRank true rangeRank := by
  have hround : nearestRank (leastInt.natAbs * one) 1 = rangeRank := by decide +kernel
  rw [ofInt, ofRatio, hround]
  rfl

/-- The greatest integer of the range is rounded up to 2^63. -/
theorem ofInt_greatestInt : ofInt greatestInt = ofRank false rangeRank := by
  have hround : nearestRank (greatestInt.natAbs * one) 1 = rangeRank := by decide +kernel
  rw [ofInt, ofRatio, hround]
  rfl

theorem rangeRank_lt : rangeRank < infinityRank := by decide

/-- The position of a double is the rank it was made from, with its sign. -/
theorem position_ofRank {negative : Bool} (hr : r ≤ infinityRank) :
    position (ofRank negative r) = signed negative r := by
  rw [position, rank_ofRank hr, isNegative_ofRank hr]

/-- A double is in the range if its position is. -/
theorem fitsInt64_iff (hx : rank x ≤ infinityRank) :
    fitsInt64 x = true ↔ -(rangeRank : Int) ≤ position x ∧ position x < rangeRank := by
  have hrange : rangeRank ≤ infinityRank := Nat.le_of_lt rangeRank_lt
  have hrank : ∀ negative, rank (ofRank negative rangeRank) ≤ infinityRank := fun negative => by
    rw [rank_ofRank hrange]
    exact hrange
  rw [fitsInt64, Bool.and_eq_true, decide_eq_true_iff, decide_eq_true_iff, ofInt_leastInt, ofInt_greatestInt,
    le_iff_position (hrank true) hx, lt_iff_position hx (hrank false), position_ofRank hrange, position_ofRank hrange]
  rfl

/-- A whole magnitude is below the rank of 2^63 if it is below 2^63. -/
theorem lt_rangeRank_iff (hr : units r = w * one) : r < rangeRank ↔ w < 2 ^ 63 := by
  rw [← units_strictMono.lt_iff_lt, hr, units_rangeRank]
  exact Nat.mul_lt_mul_right one_pos

/-- A whole magnitude is in the range if and only if it is at most 2^63. -/
theorem le_rangeRank_iff (hr : units r = w * one) : r ≤ rangeRank ↔ w ≤ 2 ^ 63 := by
  rw [← units_strictMono.le_iff_le, hr, units_rangeRank]
  exact Nat.mul_le_mul_right_iff one_pos

/-- The whole part of a finite double is its magnitude in units over the units in one, rounded down, with its sign. -/
theorem wholePart?_of_lt (hx : rank x < infinityRank) :
    wholePart? x = some (signed (isNegative x) (units (rank x) / one)) := by
  rw [wholePart?, if_pos hx]
  rfl

/-- A double with a whole magnitude has it as its whole part. -/
theorem wholePart?_ofRank (negative : Bool) (hr : r < infinityRank) (hw : units r = w * one) :
    wholePart? (ofRank negative r) = some (signed negative w) := by
  have hrank : rank (ofRank negative r) = r := rank_ofRank (Nat.le_of_lt hr)
  rw [wholePart?_of_lt (by rwa [hrank]), hrank, isNegative_ofRank (Nat.le_of_lt hr), hw, Nat.mul_div_cancel _ one_pos]

/-- The range test on the rounded whole part is the range test on the whole part. -/
theorem fitsInt64_trunc_iff (hx : rank x < infinityRank) (hi : wholePart? x = some i) :
    fitsInt64 (trunc x) = true ↔ leastInt ≤ i ∧ i ≤ greatestInt := by
  obtain ⟨s, hle, hs, htrunc⟩ := trunc_eq hx
  have hsle : s ≤ infinityRank := Nat.le_of_lt (Nat.lt_of_le_of_lt hle hx)
  have hlt := lt_rangeRank_iff hs
  have hle' := le_rangeRank_iff hs
  rw [wholePart?_of_lt hx, Option.some_inj] at hi
  rw [htrunc, fitsInt64_iff (by rwa [rank_ofRank hsle]), position_ofRank hsle, ← hi]
  unfold signed leastInt greatestInt
  generalize units (rank x) / one = w at *
  cases isNegative x with
  | true =>
    have hpos : 0 < rangeRank := by decide
    simp only [if_true]
    omega
  | false =>
    simp only [if_false, Bool.false_eq_true]
    omega

/-- Truncating keeps the whole part. -/
theorem wholePart?_trunc (hx : rank x < infinityRank) : wholePart? (trunc x) = wholePart? x := by
  obtain ⟨s, hle, hs, htrunc⟩ := trunc_eq hx
  rw [htrunc, wholePart?_ofRank _ (Nat.lt_of_le_of_lt hle hx) hs, wholePart?_of_lt hx]

/-- What is not finite is out of range. -/
theorem fitsInt64_of_le (hx : infinityRank ≤ rank x) : fitsInt64 x = false := by
  obtain hinf | hnan := Nat.eq_or_lt_of_le hx
  · have hlt := rangeRank_lt
    rw [Bool.eq_false_iff, Ne, fitsInt64_iff (Nat.le_of_eq hinf.symm), position, ← hinf]
    cases isNegative x with
    | true =>
      simp only [signed, if_true]
      omega
    | false =>
      simp only [signed, if_false, Bool.false_eq_true]
      omega
  · rw [fitsInt64, decide_eq_false (not_le_of_nan hnan), Bool.false_and]

/-- Within the range the conversion changes nothing. -/
theorem toInt64_eq (hx : wholePart? x = some i) (hi : leastInt ≤ i ∧ i ≤ greatestInt) : toInt64 x = i := by
  unfold toInt64
  rw [hx]
  change max leastInt (min i greatestInt) = i
  rw [min_eq_left hi.2, max_eq_right hi.1]

/-- The answer is the whole part, if that is a signed 64-bit integer. -/
theorem int64?_eq_some_iff : int64? x = some i ↔ wholePart? x = some i ∧ leastInt ≤ i ∧ i ≤ greatestInt := by
  unfold int64?
  simp only
  by_cases hx : rank x < infinityRank
  · obtain ⟨whole, hwhole⟩ : ∃ whole, wholePart? x = some whole := ⟨_, wholePart?_of_lt hx⟩
    have hfits := fitsInt64_trunc_iff hx hwhole
    rw [hwhole, Option.some_inj]
    by_cases hrange : leastInt ≤ whole ∧ whole ≤ greatestInt
    · rw [if_pos (hfits.2 hrange), toInt64_eq ((wholePart?_trunc hx).trans hwhole) hrange, Option.some_inj]
      exact ⟨fun h => ⟨h, h ▸ hrange⟩, And.left⟩
    · rw [if_neg (mt hfits.1 hrange)]
      constructor
      · intro h
        cases h
      · rintro ⟨rfl, hi⟩
        exact absurd hi hrange
  · have hle : infinityRank ≤ rank x := Nat.not_lt.1 hx
    rw [wholePart?_eq, value?_of_le hle, trunc, if_neg hx, fitsInt64_of_le hle]
    simp

/-- The whole part of a double is a double: the one nearest to it has it as its whole part. -/
theorem wholePart?_ofInt (hx : wholePart? x = some i) : wholePart? (ofInt i) = some i := by
  by_cases hlt : rank x < infinityRank
  · obtain ⟨s, hle, hs⟩ := exists_units_whole (rank x)
    have hslt : s < infinityRank := Nat.lt_of_le_of_lt hle hlt
    rw [wholePart?_of_lt hlt, Option.some_inj] at hx
    have hmagnitude : units (rank x) / one = i.natAbs := by rw [← hx, natAbs_signed]
    rw [hmagnitude] at hs
    rw [ofInt, ofRatio_of_units _ (Nat.le_of_lt hslt) hs, wholePart?_ofRank _ hslt hs, signed_natAbs]
  · rw [wholePart?_eq, value?_of_le (Nat.not_lt.1 hlt)] at hx
    cases hx

/-- Taking the whole part again changes nothing. -/
theorem int64?_ofInt (hx : int64? x = some i) : int64? (ofInt i) = some i := by
  obtain ⟨hwhole, hrange⟩ := int64?_eq_some_iff.1 hx
  exact int64?_eq_some_iff.2 ⟨wholePart?_ofInt hwhole, hrange⟩

end MiniLogo.Binary64
