import MiniLogo.Number.Binary64
import Mathlib

/-!
# The words of doubles

A double is its 64 bits, all NaNs being one. So a double is given by its sign and its rank (`ofRank_rank`), up to the
rank of infinity every sign and rank are those of a double (`rank_ofRank`, `isNegative_ofRank`), and above it there is
only NaN (`eq_nan`). What a word is unpacked to depends on its exponent: there is a lemma for each of the five cases.
-/

namespace MiniLogo.Binary64

open Float.Model Float.Model.UnpackedFloat

/-! ## The constants -/

theorem one_eq : one = 2 ^ 1074 := by decide +kernel

theorem one_pos : 0 < one := by decide +kernel

theorem binade_eq : binade = 2 ^ 52 := rfl

theorem signBit_eq : signBit = 2 ^ 63 := rfl

theorem infinityRank_eq : infinityRank = 2047 * 2 ^ 52 := rfl

/-! ## The fields of a word -/

section

variable {b : BitVec Format.binary64.numBits}

theorem toNat_unpackMantissa : (unpackMantissa b).toNat = b.toNat % 2 ^ 52 := by
  simp [unpackMantissa_def]

theorem toNat_unpackExponent : (unpackExponent b).toNat = b.toNat / 2 ^ 52 % 2 ^ 11 := by
  simp [unpackExponent_def, Nat.shiftRight_eq_div_pow]

theorem toNat_unpackSign : (unpackSign b).toNat = b.toNat / 2 ^ 63 := by
  have hb : b.toNat < 2 ^ 64 := b.isLt
  simp [unpackSign_def, Nat.shiftRight_eq_div_pow]
  omega

/-! ## Unpacking, by the exponent -/

/-- No exponent and no mantissa: a zero. -/
theorem unpack_zero (he : unpackExponent b = 0#11) (hm : unpackMantissa b = 0#52) :
    UnpackedFloat.unpack .binary64 b = .zero (Sign.ofBitVec (unpackSign b)) := by
  unfold UnpackedFloat.unpack
  simp only
  rw [he, if_neg (by decide), if_pos rfl, dif_pos hm]

/-- No exponent, but a mantissa: a number below the normal ones. -/
theorem unpack_subnormal (he : unpackExponent b = 0#11) (hm : 0 < (unpackMantissa b).toNat) :
    UnpackedFloat.unpack .binary64 b = .finite (Sign.ofBitVec (unpackSign b)) (unpackMantissa b).toNat (-1074) hm := by
  have hne : unpackMantissa b ≠ 0#52 := fun h => by simp [h] at hm
  unfold UnpackedFloat.unpack
  simp only
  rw [dif_neg hne, he, if_neg (by decide), if_pos rfl]
  rfl

/-- An exponent in between: a number with a leading bit that is not stored. -/
theorem unpack_normal (he : unpackExponent b ≠ 0#11) (he' : unpackExponent b ≠ -1#11) :
    UnpackedFloat.unpack .binary64 b = .finite (Sign.ofBitVec (unpackSign b)) (2 ^ 52 + (unpackMantissa b).toNat)
      ((unpackExponent b).toNat - 1075) (by omega) := by
  have hsig : (1#1 ++ unpackMantissa b).toNat = 2 ^ 52 + (unpackMantissa b).toNat := by
    rw [BitVec.toNat_append, ← Nat.shiftLeft_add_eq_or_of_lt (unpackMantissa b).isLt, Nat.shiftLeft_eq]
    simp
  unfold UnpackedFloat.unpack
  simp only
  rw [if_neg he', if_neg he]
  simp only [hsig]
  rfl

/-- The highest exponent and no mantissa: an infinity. -/
theorem unpack_infinity (he : unpackExponent b = -1#11) (hm : unpackMantissa b = 0#52) :
    UnpackedFloat.unpack .binary64 b = .infinity (Sign.ofBitVec (unpackSign b)) := by
  unfold UnpackedFloat.unpack
  simp only
  rw [if_pos he, if_pos hm]

/-- The highest exponent and a mantissa: NaN. -/
theorem unpack_nan (he : unpackExponent b = -1#11) (hm : unpackMantissa b ≠ 0#52) :
    UnpackedFloat.unpack .binary64 b = .notANumber := by
  unfold UnpackedFloat.unpack
  simp only
  rw [if_pos he, if_neg hm]

end

variable {x : Float} {negative : Bool} {r : Nat}

/-! ## Words and doubles -/

/-- A word that is no NaN is kept. -/
theorem toBits_ofBits {w : UInt64} (hw : w.toNat % signBit ≤ infinityRank) : (Float.ofBits w).toBits = w := by
  have hvalid : Format.binary64.Valid w.toBitVec := by
    refine ⟨fun he hm => absurd (BitVec.eq_of_toNat_eq ?_) hm⟩
    have hexp : w.toNat / 2 ^ 52 % 2 ^ 11 = 2047 := by
      have := congrArg BitVec.toNat he
      rwa [toNat_unpackExponent] at this
    rw [toNat_unpackMantissa]
    change w.toNat % 2 ^ 52 = 0
    rw [signBit_eq, infinityRank_eq] at hw
    omega
  exact UInt64.eq_of_toBitVec_eq (pack_unpack_of_valid hvalid)

/-- A double is given by its sign and its rank. -/
theorem ofRank_rank (x : Float) : ofRank (isNegative x) (rank x) = x := by
  have hlt : x.toBits.toNat < 2 ^ 64 := x.toBits.toNat_lt
  have hword : UInt64.ofNat (if isNegative x then signBit + rank x else rank x) = x.toBits := by
    apply UInt64.toNat_inj.1
    rw [UInt64.toNat_ofNat']
    unfold isNegative rank
    rw [signBit_eq]
    by_cases hs : 2 ^ 63 ≤ x.toBits.toNat
    · simp only [hs, decide_true, if_true]
      omega
    · simp only [hs, decide_false, if_false, Bool.false_eq_true]
      omega
  rw [ofRank, hword, Float.ofBits_toBits]

theorem toNat_bits (hr : r ≤ infinityRank) :
    (UInt64.ofNat (if negative then signBit + r else r)).toNat = if negative then signBit + r else r := by
  rw [infinityRank_eq] at hr
  rw [UInt64.toNat_ofNat', signBit_eq]
  cases negative <;> simp <;> omega

/-- The bits of a rank are the rank, with the sign in front. -/
theorem toBits_ofRank (hr : r ≤ infinityRank) :
    (ofRank negative r).toBits.toNat = if negative then signBit + r else r := by
  have hword := @toNat_bits negative r hr
  unfold ofRank
  rw [toBits_ofBits, hword]
  rw [hword]
  rw [infinityRank_eq] at hr ⊢
  rw [signBit_eq]
  cases negative <;> simp <;> omega

/-- A rank up to that of infinity is the rank of its double. -/
theorem rank_ofRank (hr : r ≤ infinityRank) : rank (ofRank negative r) = r := by
  rw [rank, toBits_ofRank hr]
  rw [infinityRank_eq] at hr
  rw [signBit_eq]
  cases negative <;> simp <;> omega

/-- A double has the sign it was made with. -/
theorem isNegative_ofRank (hr : r ≤ infinityRank) : isNegative (ofRank negative r) = negative := by
  rw [isNegative, toBits_ofRank hr]
  rw [infinityRank_eq] at hr
  rw [signBit_eq]
  cases negative with
  | false =>
    simp
    omega
  | true => simp

/-- NaN has its rank above that of infinity. -/
theorem rank_nan : rank nan = infinityRank + binade / 2 := by decide +kernel

/-- There is one NaN. -/
theorem eq_nan (h : infinityRank < rank x) : x = nan := by
  have hbits : ∀ y : Float, infinityRank < rank y → y.toBits.toBitVec = packedNaN .binary64 := by
    intro y hy
    have hlt : y.toBits.toNat < 2 ^ 64 := y.toBits.toNat_lt
    unfold rank at hy
    rw [infinityRank_eq, signBit_eq] at hy
    refine y.toModel.valid.eq_packedNaN (BitVec.eq_of_toNat_eq ?_) fun hm => ?_
    · rw [toNat_unpackExponent]
      change y.toBits.toNat / 2 ^ 52 % 2 ^ 11 = 2047
      omega
    · have hzero := congrArg BitVec.toNat hm
      rw [toNat_unpackMantissa] at hzero
      change y.toBits.toNat % 2 ^ 52 = 0 at hzero
      omega
  have hnan : infinityRank < rank nan := by rw [rank_nan, binade_eq]; omega
  exact Float.toBits_inj.1 (UInt64.eq_of_toBitVec_eq ((hbits x h).trans (hbits nan hnan).symm))

end MiniLogo.Binary64
