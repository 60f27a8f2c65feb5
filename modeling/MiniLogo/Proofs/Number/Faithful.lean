import MiniLogo.Proofs.Number.ReadBack
import MiniLogo.Proofs.Text.Joined

/-!
# Numbers and their texts

A number is `Faithful` if its value is what its text is read as, be it spelled, computed or counted. The text of a
number that has a value has no blanks (`Decimal.not_blank_of_read?`), so that to trim it changes nothing.
-/

namespace MiniLogo

open Text

/-! ## The texts of numbers have no blanks -/

namespace Decimal

variable {c : Char} {t : Text}

/-- Digits are no blanks. -/
theorem not_blank_of_isDigit (h : isDigit c = true) : isBlank c = false := by
  obtain ⟨hlow, hhigh⟩ := Bool.and_eq_true_iff.1 h
  replace hlow : 48 ≤ c.toNat := of_decide_eq_true hlow
  replace hhigh : c.toNat ≤ 57 := of_decide_eq_true hhigh
  simp [isBlank, blankRanges]
  omega

/-- If nothing behind the digits is a blank, then nothing is. -/
theorem not_blank_of_takeDigits (h : ∀ c ∈ (takeDigits t).2, isBlank c = false) : ∀ c ∈ t, isBlank c = false := by
  intro c hc
  rw [← List.takeWhile_append_dropWhile (p := isDigit) (l := t)] at hc
  rcases List.mem_append.1 hc with hc | hc
  · exact not_blank_of_isDigit (List.all_eq_true.1 List.all_takeWhile c hc)
  · exact h c hc

/-- If nothing behind the sign is a blank, then nothing is. -/
theorem not_blank_of_takeSign (h : ∀ c ∈ (takeSign t).2, isBlank c = false) : ∀ c ∈ t, isBlank c = false := by
  unfold takeSign at h
  split at h
  · exact List.forall_mem_cons.2 ⟨by decide, h⟩
  · exact List.forall_mem_cons.2 ⟨by decide, h⟩
  · exact h

theorem not_blank_of_exponent? {e : Int} (h : exponent? t = some e) : ∀ c ∈ t, isBlank c = false := by
  cases t with
  | nil => exact nofun
  | cons c t =>
    unfold exponent? at h
    simp only at h
    split at h
    case isTrue hexp =>
      obtain ⟨hc, -, hrest⟩ := hexp
      refine List.forall_mem_cons.2 ⟨?_, not_blank_of_takeSign (not_blank_of_takeDigits ?_)⟩
      · rcases hc with rfl | rfl <;> decide
      · rw [hrest]
        exact nofun
    case isFalse => cases h

theorem not_blank_of_magnitude? {r : Nat} (h : magnitude? t = some r) : ∀ c ∈ t, isBlank c = false := by
  apply not_blank_of_takeDigits
  unfold magnitude? at h
  simp only at h
  generalize (takeDigits t).2 = rest at h ⊢
  have hexponent : ∀ {p : Prop} [Decidable p] {o : Option Int} {f : Int → Nat},
      (if p then none else o.map f) = some r → ∃ e, o = some e := by
    intro p _ o f h
    split at h
    · cases h
    · obtain ⟨e, he, -⟩ := Option.map_eq_some_iff.1 h
      exact ⟨e, he⟩
  obtain ⟨e, he⟩ := hexponent h
  split at he
  · exact List.forall_mem_cons.2 ⟨by decide, not_blank_of_takeDigits (not_blank_of_exponent? he)⟩
  · exact not_blank_of_exponent? he

/-- Blanks have no case. -/
theorem toLower_of_isBlank (h : isBlank c = true) : c.toLower = c := by
  have hout : ¬(65 ≤ c.toNat ∧ c.toNat ≤ 90) := by
    simp [isBlank, blankRanges] at h
    omega
  exact dif_neg hout

theorem not_blank_of_special? {r : Nat} (h : special? t = some r) : ∀ c ∈ t, isBlank c = false := by
  intro c hc
  by_contra hblank
  have hlower : c.toLower = c := toLower_of_isBlank (Bool.not_eq_false _ ▸ hblank)
  have hmem : c ∈ t.map Char.toLower := hlower ▸ List.mem_map_of_mem hc
  have hname : ∀ c ∈ t.map Char.toLower, isBlank c = false := by
    unfold special? at h
    simp only at h
    split at h
    case isTrue hinf =>
      rcases hinf with h | h <;> simp [h, isBlank, blankRanges]
    case isFalse =>
      split at h
      case isTrue hnan =>
        simp [hnan, isBlank, blankRanges]
      case isFalse => cases h
  exact hblank (hname c hmem)

/-- What is read as a number has no blanks. -/
theorem not_blank_of_read? {x : Float} (h : read? t = some x) : ∀ c ∈ t, isBlank c = false := by
  unfold read? at h
  simp only [Option.map_eq_some_iff] at h
  obtain ⟨r, hr, -⟩ := h
  apply not_blank_of_takeSign
  rcases (Option.orElse_eq_some _ _ _).1 hr with h | ⟨-, h⟩
  · exact not_blank_of_magnitude? h
  · exact not_blank_of_special? h

end Decimal

/-! ## Faithful numbers -/

namespace Number

/-- The value of the number is what its text is read as. -/
def Faithful (n : Number) : Prop := n.value = Decimal.read? n.text

instance (n : Number) : Decidable n.Faithful := inferInstanceAs (Decidable (_ = _))

/-- A literal is given the value of its spelling. -/
theorem faithful_literal (t : Text) : (literal t).Faithful := rfl

/-- A computed number is faithful since the text of a double reads back, which is all that is needed of it. -/
theorem faithful_ofFloat (x : Float) : (ofFloat x).Faithful := (Layout.standard.printer.read? x).symm

/-- An integer is rounded as its text is when it is read. -/
theorem faithful_ofInt (i : Int) : (ofInt i).Faithful := (Decimal.read?_ofInt i).symm

/-- The text of a number that has a value is trimmed. -/
theorem Faithful.trim_text {n : Number} {x : Float} (h : n.Faithful) (hx : n.value = some x) :
    trim n.text = n.text := by
  have hread : Decimal.read? n.text = some x := h.symm.trans hx
  have hinked : ∀ c ∈ n.text, isBlank c = false := Decimal.not_blank_of_read? hread
  exact trim_of_endsInked ⟨fun c hc => hinked c (List.mem_of_head? hc), fun c hc => hinked c (List.mem_of_getLast? hc)⟩

end Number

end MiniLogo
