import MiniLogo.Text.Utf8

/-!
# Text through bytes and back

The bytes of a text read as the text (`decodeLossy_encode`): the machine that reads bytes is between characters
again after those of one character, which it has put out (`decodeFrom_utf8EncodeChar`). What it makes of a lead byte
is said for each length of a character (`start_of_two`, `start_of_three`, `start_of_four`).
-/

namespace MiniLogo.Utf8

/-! ## Lead bytes -/

/-- A byte below 128 is a character. -/
theorem start_of_one {b : Nat} (h : b < 0x80) : start b = ([Char.ofNat b], none) := by
  simp [start, h]

/-- The first byte of a character of two bytes. -/
theorem start_of_two {b : Nat} (hl : 0xC2 ≤ b) (hh : b < 0xE0) :
    start b = ([], some { bits := b - 0xC0, owed := 1 }) := by
  have h₁ : ¬ b < 0x80 := by omega
  have h₂ : ¬ b < 0xC2 := by omega
  simp [start, h₁, h₂, hh]

/-- The first byte of a character of three bytes; the second one is bounded so that no surrogate and no number that
two bytes can hold comes out. -/
theorem start_of_three {b : Nat} (hl : 0xE0 ≤ b) (hh : b < 0xF0) :
    start b = ([], some {
      bits := b - 0xE0
      owed := 2
      low := if b = 0xE0 then 0xA0 else 0x80
      high := if b = 0xED then 0x9F else 0xBF }) := by
  have h₁ : ¬ b < 0x80 := by omega
  have h₂ : ¬ b < 0xC2 := by omega
  have h₃ : ¬ b < 0xE0 := by omega
  by_cases h₀ : b = 0xE0
  · subst h₀
    rfl
  · by_cases hd : b = 0xED
    · subst hd
      rfl
    · simp [start, h₁, h₂, h₃, hh, h₀, hd]

/-- The first byte of a character of four bytes; the second one is bounded so that the number is one of a character
and needs four bytes. -/
theorem start_of_four {b : Nat} (hl : 0xF0 ≤ b) (hh : b ≤ 0xF4) :
    start b = ([], some {
      bits := b - 0xF0
      owed := 3
      low := if b = 0xF0 then 0x90 else 0x80
      high := if b = 0xF4 then 0x8F else 0xBF }) := by
  have hcases : b = 0xF0 ∨ b = 0xF1 ∨ b = 0xF2 ∨ b = 0xF3 ∨ b = 0xF4 := by omega
  rcases hcases with h | h | h | h | h <;> subst h <;> rfl

/-! ## Bytes of one character -/

theorem toNat_ofNat {n : Nat} (h : n < 256) : (UInt8.ofNat n).toNat = n := by
  rw [UInt8.toNat_ofNat']
  exact Nat.mod_eq_of_lt h

theorem decodeFrom_cons (state : Option Pending) (b : UInt8) (bytes : Bytes) :
    decodeFrom state (b :: bytes) = (step state b.toNat).1 ++ decodeFrom (step state b.toNat).2 bytes := by
  cases state <;> rfl

/-- The bytes of a character, by their number. -/
theorem utf8EncodeChar_cases (c : Char) :
    (c.toNat < 0x80 ∧ String.utf8EncodeChar c = [.ofNat c.toNat]) ∨
    ((0x80 ≤ c.toNat ∧ c.toNat < 0x800) ∧ String.utf8EncodeChar c =
      [.ofNat (c.toNat / 64 + 0xC0), .ofNat (c.toNat % 64 + 0x80)]) ∨
    ((0x800 ≤ c.toNat ∧ c.toNat < 0x10000) ∧ String.utf8EncodeChar c =
      [.ofNat (c.toNat / 4096 + 0xE0), .ofNat (c.toNat / 64 % 64 + 0x80), .ofNat (c.toNat % 64 + 0x80)]) ∨
    ((0x10000 ≤ c.toNat ∧ c.toNat < 0x110000) ∧ String.utf8EncodeChar c =
      [.ofNat (c.toNat / 262144 + 0xF0), .ofNat (c.toNat / 4096 % 64 + 0x80), .ofNat (c.toNat / 64 % 64 + 0x80),
        .ofNat (c.toNat % 64 + 0x80)]) := by
  have hv : c.toNat < 0xD800 ∨ 0xDFFF < c.toNat ∧ c.toNat < 0x110000 := c.valid
  unfold String.utf8EncodeChar
  have hval : c.val.toNat = c.toNat := rfl
  rw [hval]
  generalize c.toNat = m at hv
  simp only
  split
  · exact .inl ⟨by omega, rfl⟩
  · split
    · have hlead : m / 64 % 32 = m / 64 := Nat.mod_eq_of_lt (by omega)
      exact .inr (.inl ⟨by omega, by rw [hlead]⟩)
    · split
      · have hlead : m / 4096 % 16 = m / 4096 := Nat.mod_eq_of_lt (by omega)
        exact .inr (.inr (.inl ⟨by omega, by rw [hlead]⟩))
      · have hlead : m / 262144 % 8 = m / 262144 := Nat.mod_eq_of_lt (by omega)
        exact .inr (.inr (.inr ⟨by omega, by rw [hlead]⟩))

/-- A byte that is not the last one of its character. -/
theorem decodeFrom_more {p : Pending} {n : Nat} (hl : p.low ≤ n) (hh : n ≤ p.high) (hn : n < 256) (ho : 1 < p.owed)
    (bytes : Bytes) : decodeFrom (some p) (UInt8.ofNat n :: bytes) =
      decodeFrom (some { bits := p.bits * 64 + (n - 0x80), owed := p.owed - 1 }) bytes := by
  have ho' : ¬ p.owed ≤ 1 := by omega
  simp [decodeFrom_cons, toNat_ofNat hn, step, hl, hh, Pending.extend, ho']

/-- The last byte of a character. -/
theorem decodeFrom_last {p : Pending} {n : Nat} (hl : p.low ≤ n) (hh : n ≤ p.high) (hn : n < 256) (ho : p.owed = 1)
    (bytes : Bytes) : decodeFrom (some p) (UInt8.ofNat n :: bytes) =
      Char.ofNat (p.bits * 64 + (n - 0x80)) :: decodeFrom none bytes := by
  simp [decodeFrom_cons, toNat_ofNat hn, step, hl, hh, Pending.extend, ho]

/-- The first byte of a character of more than one. -/
theorem decodeFrom_lead {n : Nat} {p : Pending} (hn : n < 256) (h : start n = ([], some p)) (bytes : Bytes) :
    decodeFrom none (UInt8.ofNat n :: bytes) = decodeFrom (some p) bytes := by
  simp [decodeFrom_cons, toNat_ofNat hn, step, h]

/-- The bytes of a character are read as the character. -/
theorem decodeFrom_utf8EncodeChar (c : Char) (bytes : Bytes) :
    decodeFrom none (String.utf8EncodeChar c ++ bytes) = c :: decodeFrom none bytes := by
  have hv : c.toNat < 0xD800 ∨ 0xDFFF < c.toNat ∧ c.toNat < 0x110000 := c.valid
  have hchar : ∀ {n}, n = c.toNat → Char.ofNat n :: decodeFrom none bytes = c :: decodeFrom none bytes := by
    rintro n rfl
    rw [Char.ofNat_toNat]
  rcases utf8EncodeChar_cases c with ⟨hm, hc⟩ | ⟨hm, hc⟩ | ⟨hm, hc⟩ | ⟨hm, hc⟩
  · have hs := start_of_one hm
    rw [hc, List.singleton_append, decodeFrom_cons, toNat_ofNat (by omega), step, hs]
    exact hchar rfl
  · have hs := start_of_two (b := c.toNat / 64 + 0xC0) (by omega) (by omega)
    rw [hc, List.cons_append, List.cons_append, List.nil_append, decodeFrom_lead (by omega) hs,
      decodeFrom_last (by simp) (by simp only; omega) (by omega) rfl]
    exact hchar (by simp only; omega)
  · have hs := start_of_three (b := c.toNat / 4096 + 0xE0) (by omega) (by omega)
    simp only [hc, List.cons_append, List.nil_append]
    rw [decodeFrom_lead (by omega) hs,
      decodeFrom_more (by simp only; split <;> omega) (by simp only; split <;> omega) (by omega) (by simp),
      decodeFrom_last (by simp) (by simp only; omega) (by omega) rfl]
    exact hchar (by simp only; omega)
  · have hs := start_of_four (b := c.toNat / 262144 + 0xF0) (by omega) (by omega)
    simp only [hc, List.cons_append, List.nil_append]
    rw [decodeFrom_lead (by omega) hs,
      decodeFrom_more (by simp only; split <;> omega) (by simp only; split <;> omega) (by omega) (by simp),
      decodeFrom_more (by simp) (by simp only; omega) (by omega) (by simp),
      decodeFrom_last (by simp) (by simp only; omega) (by omega) rfl]
    exact hchar (by simp only; omega)

theorem encode_cons (c : Char) (t : Text) : encode (c :: t) = String.utf8EncodeChar c ++ encode t := List.flatMap_cons

/-- The bytes of a text are read as the text. -/
@[simp] theorem decodeLossy_encode (t : Text) : decodeLossy (encode t) = t := by
  unfold decodeLossy
  induction t with
  | nil => rfl
  | cons c t ih => rw [encode_cons, decodeFrom_utf8EncodeChar, ih]

end MiniLogo.Utf8
