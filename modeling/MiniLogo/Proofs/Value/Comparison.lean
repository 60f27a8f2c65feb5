import Mathlib.Data.Char
import Mathlib.Data.List.Lex
import MiniLogo.Operation.Logic
import MiniLogo.Proofs.Text.Utf8

/-!
# Comparison of values

`eq`, `gt` and `lt` look at the canonical texts of their operands and at nothing else. Texts are ordered by their
characters, so that of two values just one of the three holds, and `lt` is a strict order (`comparison_order`).

It makes no difference whether texts are compared by their code points or by their bytes (`Utf8.encode_lt_iff`). A
character has its bits in its bytes from the highest to the lowest, behind a first byte that grows with the number of
bytes (`Utf8.utf8EncodeChar_cases`). So the bytes of the lesser of two characters are less, whatever follows them
(`Utf8.utf8EncodeChar_append_lt`), and the first characters that differ decide.
-/

namespace MiniLogo

/-! ## Texts and their images -/

/-- What is kept in its order is compared as before. -/
theorem Text.image_lt_iff {β : Type} [LT β] [Std.Asymm fun x y : β => x < y] {f : Text → List β}
    (hf : ∀ s t, s < t → f s < f t) (s t : Text) : f s < f t ↔ s < t := by
  refine ⟨fun h => ?_, hf s t⟩
  rcases lt_trichotomy s t with hlt | rfl | hgt
  · exact hlt
  · exact absurd h (List.lt_irrefl _)
  · exact absurd h (List.lt_asymm (hf t s hgt))

/-- Texts are ordered by the numbers of their characters. -/
theorem Text.map_toNat_lt_iff (s t : Text) : s.map Char.toNat < t.map Char.toNat ↔ s < t :=
  image_lt_iff (f := List.map Char.toNat) (fun _ _ h => List.map_lt (fun _ _ hc => UInt32.lt_iff_toNat_lt.1 hc) h) s t

namespace Utf8

variable {m n : Nat} {u v : Bytes} {c d : Char}

/-- The first byte decides, unless it is the same. -/
theorem byte_cons_lt (hm : m < 256) (hn : n < 256) (h : m ≤ n) (hrest : m = n → u < v) :
    UInt8.ofNat m :: u < UInt8.ofNat n :: v := by
  rw [List.cons_lt_cons_iff, UInt8.lt_iff_toNat_lt, ← UInt8.toNat_inj, toNat_ofNat hm, toNat_ofNat hn]
  rcases Nat.lt_or_eq_of_le h with hlt | heq
  · exact .inl hlt
  · exact .inr ⟨heq, hrest heq⟩

theorem byte_cons_lt_of_lt (hn : n < 256) (h : m < n) : UInt8.ofNat m :: u < UInt8.ofNat n :: v :=
  byte_cons_lt (Nat.lt_trans h hn) hn (Nat.le_of_lt h) fun heq => absurd heq (Nat.ne_of_lt h)

/-- The bytes of the lesser of two characters are less, whatever follows them. -/
theorem utf8EncodeChar_append_lt (h : c < d) (u v : Bytes) :
    String.utf8EncodeChar c ++ u < String.utf8EncodeChar d ++ v := by
  have hlt : c.toNat < d.toNat := UInt32.lt_iff_toNat_lt.1 h
  rcases utf8EncodeChar_cases c with ⟨hm, hc⟩ | ⟨hm, hc⟩ | ⟨hm, hc⟩ | ⟨hm, hc⟩
  · rw [hc]
    rcases utf8EncodeChar_cases d with ⟨hn, hd⟩ | ⟨hn, hd⟩ | ⟨hn, hd⟩ | ⟨hn, hd⟩
    all_goals
      rw [hd]
      exact byte_cons_lt_of_lt (by omega) (by omega)
  · rcases utf8EncodeChar_cases d with ⟨hn, -⟩ | ⟨hn, hd⟩ | ⟨hn, hd⟩ | ⟨hn, hd⟩
    · omega
    · rw [hc, hd]
      exact byte_cons_lt (by omega) (by omega) (by omega) fun _ => byte_cons_lt_of_lt (by omega) (by omega)
    all_goals
      rw [hc, hd]
      exact byte_cons_lt_of_lt (by omega) (by omega)
  · rcases utf8EncodeChar_cases d with ⟨hn, -⟩ | ⟨hn, -⟩ | ⟨hn, hd⟩ | ⟨hn, hd⟩
    · omega
    · omega
    · rw [hc, hd]
      exact byte_cons_lt (by omega) (by omega) (by omega) fun _ => byte_cons_lt (by omega) (by omega) (by omega)
        fun _ => byte_cons_lt_of_lt (by omega) (by omega)
    · rw [hc, hd]
      exact byte_cons_lt_of_lt (by omega) (by omega)
  · rcases utf8EncodeChar_cases d with ⟨hn, -⟩ | ⟨hn, -⟩ | ⟨hn, -⟩ | ⟨hn, hd⟩
    · omega
    · omega
    · omega
    · rw [hc, hd]
      exact byte_cons_lt (by omega) (by omega) (by omega) fun _ => byte_cons_lt (by omega) (by omega) (by omega)
        fun _ => byte_cons_lt (by omega) (by omega) (by omega) fun _ => byte_cons_lt_of_lt (by omega) (by omega)

theorem utf8EncodeChar_ne_nil (c : Char) : String.utf8EncodeChar c ≠ [] := by
  rcases utf8EncodeChar_cases c with ⟨-, h⟩ | ⟨-, h⟩ | ⟨-, h⟩ | ⟨-, h⟩ <;> simp [h]

/-- Texts in order are encoded to bytes in order. -/
theorem encode_lt_encode {s t : Text} (h : s < t) : encode s < encode t := by
  induction h with
  | @nil d t =>
    obtain ⟨b, bytes, hb⟩ := List.exists_cons_of_ne_nil (utf8EncodeChar_ne_nil d)
    rw [encode_cons, hb]
    exact List.nil_lt_cons _ _
  | rel h => exact utf8EncodeChar_append_lt h _ _
  | cons _ ih => exact List.append_left_lt ih

/-- Texts are ordered as their bytes are. -/
theorem encode_lt_iff (s t : Text) : encode s < encode t ↔ s < t := Text.image_lt_iff (fun _ _ => encode_lt_encode) s t

end Utf8

/-! ## The three comparisons -/

namespace Operation

variable {x y z : Value}

def comparisons : List Builtin := [.eq, .gt, .lt]

def Holds (b : Builtin) (x y : Value) : Prop := compare b x y = .ok (.bool true)

instance (b : Builtin) (x y : Value) : Decidable (Holds b x y) := inferInstanceAs (Decidable (_ = _))

theorem holds_eq_iff : Holds .eq x y ↔ x.text = y.text := by simp [Holds, compare]

theorem holds_lt_iff : Holds .lt x y ↔ x.text < y.text := by simp [Holds, compare]

theorem compare_gt (x y : Value) : compare .gt x y = compare .lt y x := rfl

theorem holds_gt_iff : Holds .gt x y ↔ y.text < x.text := by
  rw [Holds, compare_gt]
  exact holds_lt_iff

/-- A comparison does not fail. -/
theorem exists_compare_eq {b : Builtin} (hb : b ∈ comparisons) (x y : Value) : ∃ p, compare b x y = .ok (.bool p) := by
  simp only [comparisons, List.mem_cons, List.not_mem_nil, or_false] at hb
  rcases hb with rfl | rfl | rfl <;> exact ⟨_, rfl⟩

/-- A comparison looks at the texts alone. -/
theorem compare_congr {x' y' : Value} (hx : x'.text = x.text) (hy : y'.text = y.text) (b : Builtin) :
    compare b x' y' = compare b x y := by
  unfold compare
  rw [hx, hy]

/-- Each comparison holds in its case of the order of texts. -/
theorem cases_of_holds {b : Builtin} (hb : b ∈ comparisons) (h : Holds b x y) :
    (b = .lt ∧ x.text < y.text) ∨ (b = .eq ∧ x.text = y.text) ∨ (b = .gt ∧ y.text < x.text) := by
  simp only [comparisons, List.mem_cons, List.not_mem_nil, or_false] at hb
  rcases hb with rfl | rfl | rfl
  · exact .inr (.inl ⟨rfl, holds_eq_iff.1 h⟩)
  · exact .inr (.inr ⟨rfl, holds_gt_iff.1 h⟩)
  · exact .inl ⟨rfl, holds_lt_iff.1 h⟩

/-- Just one of the three comparisons holds. -/
theorem existsUnique_holds (x y : Value) : ∃! b, b ∈ comparisons ∧ Holds b x y := by
  rcases lt_trichotomy x.text y.text with h | h | h
  · refine ⟨.lt, ⟨by decide, holds_lt_iff.2 h⟩, fun b hb => ?_⟩
    rcases cases_of_holds hb.1 hb.2 with ⟨rfl, -⟩ | ⟨-, heq⟩ | ⟨-, hgt⟩
    · rfl
    · exact absurd heq (ne_of_lt h)
    · exact absurd hgt (lt_asymm h)
  · refine ⟨.eq, ⟨by decide, holds_eq_iff.2 h⟩, fun b hb => ?_⟩
    rcases cases_of_holds hb.1 hb.2 with ⟨-, hlt⟩ | ⟨rfl, -⟩ | ⟨-, hgt⟩
    · exact absurd h (ne_of_lt hlt)
    · rfl
    · exact absurd h.symm (ne_of_lt hgt)
  · refine ⟨.gt, ⟨by decide, holds_gt_iff.2 h⟩, fun b hb => ?_⟩
    rcases cases_of_holds hb.1 hb.2 with ⟨-, hlt⟩ | ⟨-, heq⟩ | ⟨rfl, -⟩
    · exact absurd hlt (lt_asymm h)
    · exact absurd heq.symm (ne_of_lt h)
    · rfl

/-- **Values are ordered by their texts.** Of two values of any kinds, erased ones among them, just one of `eq`, `gt`
and `lt` holds, and none of them fails; `gt` is `lt` the other way round, and `lt` is transitive. `eq` holds just if the
texts are equal, and a value can be replaced by any other with the same text. `lt` holds just if the text of the first
value comes before that of the second, by the numbers of their characters, which is by their bytes. -/
theorem comparison_order (x y z : Value) :
    (∀ b ∈ comparisons, ∃ p, compare b x y = .ok (.bool p)) ∧
    (∃! b, b ∈ comparisons ∧ Holds b x y) ∧
    compare .gt x y = compare .lt y x ∧
    (Holds .lt x y → Holds .lt y z → Holds .lt x z) ∧
    (Holds .eq x y ↔ x.text = y.text) ∧
    (∀ x' y', x'.text = x.text → y'.text = y.text → ∀ b, compare b x' y' = compare b x y) ∧
    (Holds .lt x y ↔ x.text.map Char.toNat < y.text.map Char.toNat) ∧
    (Holds .lt x y ↔ Utf8.encode x.text < Utf8.encode y.text) := by
  refine ⟨fun b hb => exists_compare_eq hb x y, existsUnique_holds x y, compare_gt x y, fun hxy hyz => ?_, holds_eq_iff,
    fun _ _ hx hy b => compare_congr hx hy b, ?_, ?_⟩
  · exact holds_lt_iff.2 (lt_trans (holds_lt_iff.1 hxy) (holds_lt_iff.1 hyz))
  · rw [holds_lt_iff, Text.map_toNat_lt_iff]
  · rw [holds_lt_iff, Utf8.encode_lt_iff]

/-- What is left of a list comes before every word, and a character of three bytes before one of four. -/
theorem comparison_order_of_kinds :
    let x := Value.erased .list
    let y := Value.word "\uFFFD".toList
    let z := Value.list "😀".toList
    Holds .lt x y ∧ Holds .lt y z ∧ Holds .lt x z ∧ Utf8.encode y.text < Utf8.encode z.text ∧
      compare .lt (.error "\uFFFD".toList) (.function "😀".toList) = compare .lt y z := by
  intro x y z
  have hxy : Holds .lt x y := by decide
  have hyz : Holds .lt y z := by decide
  obtain ⟨-, -, -, htrans, -⟩ := comparison_order x y z
  obtain ⟨-, -, -, -, -, hcongr, -, hbytes⟩ := comparison_order y z x
  exact ⟨hxy, hyz, htrans hxy hyz, hbytes.1 hyz, hcongr (.error _) (.function _) rfl rfl .lt⟩

end Operation

end MiniLogo
