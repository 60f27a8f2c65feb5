import MiniLogo.Number.Basic
import MiniLogo.Proofs.Number.Decimals
import MiniLogo.Proofs.Text.Numerals

/-!
# The text of a double reads back

The shortest decimal of a finite magnitude denotes that magnitude (`Shortest.readsBack_shortest`): a candidate is
tested by reading it, and the exact expansion needs no rounding. Whatever the layout, a decimal is written so that
it is read as the same decimal (`Layout.magnitude?_decimal`). So the text of a double is read as that double
(`Layout.read?_float`), and the text of an integer as the double nearest to it (`Decimal.read?_ofInt`).

Nothing else that is shown looks at how doubles are written. It relies on two facts only, that their texts read back
and that they are made of the characters of numbers (`Printer`), and every layout provides them (`Layout.printer`).
-/

namespace MiniLogo

open Binary64

/-! ## The shortest decimal -/

namespace Shortest

variable {rank : Nat} {d : Nat × Int} {k : Int}

/-- A decimal denotes the magnitude at a rank. -/
def ReadsBack (rank : Nat) (d : Nat × Int) : Prop := Decimal.rankOfDecimal d.1 d.2 = rank

theorem roundAt_eq (rank : Nat) (k : Int) : roundAt rank k = floorAt rank k ∨ roundAt rank k = floorAt rank k + 1 := by
  unfold roundAt roundEven floorAt
  simp only
  split
  · exact .inl rfl
  · exact .inr rfl

/-- A decimal on a grid is only taken if it reads back. -/
theorem readsBack_onGrid (h : onGrid? rank k = some d) : ReadsBack rank d := by
  unfold onGrid? at h
  simp only at h
  split at h
  case isTrue hlow =>
    split at h
    case isTrue hhigh =>
      cases h
      obtain hround | hround := roundAt_eq rank k
      · exact (congrArg (Decimal.rankOfDecimal · k) hround).trans hlow
      · exact (congrArg (Decimal.rankOfDecimal · k) hround).trans hhigh
    case isFalse =>
      cases h
      exact hlow
  case isFalse =>
    split at h
    case isTrue hhigh =>
      cases h
      exact hhigh
    case isFalse => cases h

/-- Zeros at the end can be taken off. -/
theorem readsBack_strip (n : Nat) (h : ReadsBack rank d) : ReadsBack rank (strip n d) := by
  induction n generalizing d with
  | zero => exact h
  | succ n ih =>
    obtain ⟨d, k⟩ := d
    unfold strip
    split
    case isTrue hd =>
      apply ih
      have hten : d = 10 * (d / 10) := by omega
      unfold ReadsBack at h ⊢
      rwa [hten, Decimal.rankOfDecimal_mul_ten] at h
    case isFalse => exact h

/-- The exact expansion of a finite magnitude has few enough places to be rounded, and needs no rounding. -/
theorem readsBack_exact (hpos : 0 < rank) (hlt : rank < infinityRank) : ReadsBack rank (exact rank) := by
  have hlow : 10 ^ 743 ≤ units rank * Nat.pow 5 1074 :=
    Nat.le_trans (by decide +kernel) (Nat.le_mul_of_pos_left _ (units_pos hpos))
  have hhigh : units rank * Nat.pow 5 1074 < 10 ^ 1384 := by
    have hunits := Nat.mul_lt_mul_of_pos_right (units_strictMono hlt) (by decide +kernel : 0 < Nat.pow 5 1074)
    rw [units_infinityRank] at hunits
    exact Nat.lt_of_lt_of_le hunits (by decide +kernel)
  have hlength : ¬(Decimal.digits (units rank * Nat.pow 5 1074)).length ≤ 743 := by
    rw [Decimal.length_digits_le_iff (by decide)]
    exact Nat.not_lt.2 hlow
  have hlength' := (Decimal.length_digits_le_iff (by decide)).2 hhigh
  have hscale : Nat.pow 5 1074 * one = 10 ^ 1074 := by decide +kernel
  have hread : Decimal.rankOfDecimal (units rank * Nat.pow 5 1074) (-(1074 : Nat)) = rank := by
    rw [Decimal.rankOfDecimal_neg (by decide) (by omega) (by omega), Nat.mul_assoc, hscale]
    exact nearestRank_units (Nat.le_of_lt hlt) (by decide +kernel)
  exact hread

/-- A candidate reads back, be it on a grid or exact. -/
theorem readsBack_candidate (hpos : 0 < rank) (hlt : rank < infinityRank) : ReadsBack rank (candidate rank) := by
  unfold candidate
  simp only
  generalize hfound : (List.range 17).findSome? _ = found
  cases found with
  | none => exact readsBack_exact hpos hlt
  | some d =>
    obtain ⟨n, -, hn⟩ := List.exists_of_findSome?_eq_some hfound
    exact readsBack_onGrid hn

/-- The shortest decimal of a magnitude reads back. -/
theorem readsBack_shortest (hpos : 0 < rank) (hlt : rank < infinityRank) : ReadsBack rank (shortest rank) :=
  readsBack_strip _ (readsBack_candidate hpos hlt)

end Shortest

/-! ## Layouts -/

/-- A text with a magnitude begins with no sign. -/
theorem Decimal.takeSign_of_magnitude? {t : Text} {r : Nat} (h : magnitude? t = some r) : takeSign t = (false, t) := by
  apply takeSign_of_head
  intro c hc
  cases t with
  | nil => cases hc
  | cons c' t =>
    cases hc
    constructor <;> rintro rfl <;> simp [magnitude?, takeDigits, isDigit] at h

/-- The sign of a text is that of the double that is read. -/
theorem Decimal.read?_signed {t : Text} {r : Nat} (negative : Bool) (hsign : takeSign t = (false, t))
    (hread : (magnitude? t <|> special? t) = some r) :
    read? ((if negative then ['-'] else []) ++ t) = some (ofRank negative r) := by
  unfold read?
  cases negative with
  | true => simp [takeSign, hread]
  | false => simp [hsign, hread]

namespace Layout

/-- A number in places denotes its digits, with the exponent that the place of the point says. -/
theorem magnitude?_positional (d : Nat) (point : Int) :
    Decimal.magnitude? (positional (Decimal.digits d) point) =
      some (Decimal.rankOfDecimal d (point - (Decimal.digits d).length)) := by
  have hds := Decimal.isDigits_digits d
  have hd := Decimal.ofDigits_digits d
  have hnil : Decimal.exponent? [] = some 0 := rfl
  have hne : Decimal.digits d ≠ [] := Decimal.digits_ne_nil
  generalize Decimal.digits d = ds at *
  subst hd
  unfold positional
  simp only
  split
  case isTrue hpoint =>
    have hread := Decimal.magnitude?_point (Decimal.isDigits_replicate 1) (by decide)
      ((Decimal.isDigits_replicate (-point).toNat).append hds) hnil (by simp)
    rw [Decimal.ofDigits_zeros_append, Decimal.ofDigits_zeros_append, List.append_nil] at hread
    refine hread.trans ?_
    congr 2
    rw [List.length_append, List.length_replicate]
    omega
  case isFalse hpoint =>
    split
    case isTrue hlen =>
      have hread := Decimal.magnitude?_point (hds.append (Decimal.isDigits_replicate (point.toNat - ds.length)))
        (by simp [hne]) (Decimal.isDigits_replicate 1) hnil (by simp)
      rw [Decimal.ofDigits_append_zeros, Decimal.ofDigits_append_zeros, Decimal.rankOfDecimal_mul_pow,
        Decimal.rankOfDecimal_mul_pow] at hread
      refine hread.trans ?_
      congr 2
      rw [List.length_replicate]
      omega
    case isFalse hlen =>
      have hwhole : Decimal.IsDigits (ds.take point.toNat) := fun c hc => hds c (List.mem_of_mem_take hc)
      have hfraction : Decimal.IsDigits (ds.drop point.toNat) := fun c hc => hds c (List.mem_of_mem_drop hc)
      have hread := Decimal.magnitude?_point hwhole (by simp [hne]; omega) hfraction hnil (by simp)
      rw [List.take_append_drop, List.append_nil] at hread
      refine hread.trans ?_
      congr 2
      rw [List.length_drop]
      omega

/-- A number with an exponent denotes the same as one in places. -/
theorem magnitude?_scientific (d : Nat) (point : Int) :
    Decimal.magnitude? (scientific (Decimal.digits d) point) =
      some (Decimal.rankOfDecimal d (point - (Decimal.digits d).length)) := by
  have hds := Decimal.isDigits_digits d
  have hd := Decimal.ofDigits_digits d
  have hexp := Decimal.exponent?_ofInt (point - 1)
  have hne : Decimal.digits d ≠ [] := Decimal.digits_ne_nil
  generalize Decimal.digits d = ds at *
  subst hd
  unfold scientific
  match ds with
  | [] => exact absurd rfl hne
  | [c] => exact Decimal.magnitude?_whole hds hne hexp (by simp [Decimal.isDigit])
  | c :: c' :: ds =>
    have hfraction : Decimal.IsDigits (c' :: ds) := fun x hx => hds x (List.mem_cons_of_mem _ hx)
    have hwhole : Decimal.IsDigits [c] := fun x hx => hds x (by simp_all)
    have hread := Decimal.magnitude?_point hwhole (by simp) hfraction hexp (by simp [Decimal.isDigit])
    refine hread.trans ?_
    congr 2
    simp
    omega

/-- A layout writes a decimal so that it is read as the same decimal. -/
theorem magnitude?_decimal (layout : Layout) (d : Nat) (k : Int) :
    Decimal.magnitude? (layout.decimal d k) = some (Decimal.rankOfDecimal d k) := by
  have hk : ((Decimal.digits d).length : Int) + k - (Decimal.digits d).length = k := by omega
  unfold decimal
  simp only
  split
  · rw [magnitude?_positional, hk]
  · rw [magnitude?_scientific, hk]

/-- The text of a finite magnitude is read as that magnitude. -/
theorem magnitude?_magnitude (layout : Layout) {rank : Nat} (hlt : rank < infinityRank) :
    Decimal.magnitude? (layout.magnitude rank) = some rank := by
  unfold magnitude
  by_cases hzero : rank = 0
  · rw [if_pos hzero, hzero]
    decide
  · rw [if_neg hzero]
    have hread := Shortest.readsBack_shortest (Nat.pos_of_ne_zero hzero) hlt
    -- the digits are not to be computed
    generalize Shortest.shortest rank = decimal at hread ⊢
    cases decimal with
    | mk d k => exact (magnitude?_decimal layout d k).trans (congrArg some hread)

/-- The text of a double is read as that double. -/
theorem read?_float (layout : Layout) (x : Float) : Decimal.read? (layout.float x) = some x := by
  unfold float
  simp only
  split
  case isTrue hnan =>
    rw [eq_nan hnan]
    exact congrArg some (ofRank_rank nan)
  case isFalse hnan =>
    refine Eq.trans ?_ (congrArg some (ofRank_rank x))
    split
    case isTrue hinf => exact Decimal.read?_signed _ (by decide) (by rw [hinf]; decide)
    case isFalse hinf =>
      have hread := layout.magnitude?_magnitude (Nat.lt_of_le_of_ne (Nat.not_lt.1 hnan) hinf)
      exact Decimal.read?_signed _ (Decimal.takeSign_of_magnitude? hread) (by rw [hread]; rfl)

end Layout

/-- What is relied on in a way to write doubles: each double is what its text is read as, and the text is made of the
characters of numbers. -/
structure Printer (write : Float → Text) : Prop where
  read? (x : Float) : Decimal.read? (write x) = some x
  numeral (x : Float) : Text.Numeral (write x)

/-- With every layout doubles are written so that they read back, in characters of numbers. -/
theorem Layout.printer (layout : Layout) : Printer layout.float where
  read? := layout.read?_float
  numeral := layout.numeral_float

/-- The text of an integer is read as the double nearest to it. -/
theorem Decimal.read?_ofInt (i : Int) : read? (ofInt i) = some (Binary64.ofInt i) := by
  have hread : magnitude? (digits i.natAbs) = some (nearestRank (i.natAbs * one) 1) := by
    have hwhole : magnitude? (digits i.natAbs ++ []) = some (rankOfDecimal (ofDigits (digits i.natAbs)) 0) :=
      magnitude?_whole (isDigits_digits i.natAbs) digits_ne_nil rfl (by simp)
    rwa [List.append_nil, ofDigits_digits, rankOfDecimal_zero] at hwhole
  rw [read?, takeSign_ofInt]
  simp only [hread]
  rfl

end MiniLogo
