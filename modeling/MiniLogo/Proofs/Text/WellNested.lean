import MiniLogo.Proofs.Text.Words

/-!
# Well-nested text

A text is well nested if no prefix of it closes more brackets than it opens and the whole closes all of them
(`WellNested`). Put into brackets and cut into tokens, such a text comes back to depth zero at its last token and
not before (`WellNested.balance_words_bracket`). Put together again with single blanks, the tokens of any bracketed
text are a bracketed text, with the same tokens inside (`unwords_words_bracket`).
-/

namespace MiniLogo.Text

/-- No prefix closes more brackets than it opens, and the whole closes all that it opens. -/
def WellNested (t : Text) : Prop := (∀ k ≤ t.length, 0 ≤ balance (t.take k)) ∧ balance t = 0

instance (t : Text) : Decidable (WellNested t) := inferInstanceAs (Decidable (_ ∧ _))

/-- A beginning of well-nested text closes no bracket that it does not open. -/
theorem WellNested.balance_nonneg {s t : Text} (h : WellNested (s ++ t)) : 0 ≤ balance s := by
  have := h.1 s.length (by simp)
  rwa [List.take_left] at this

/-! ## The balance as a difference -/

/-- The bracket balance is the difference of two counts. -/
theorem balance_eq_count (t : Text) : balance t = (t.count '[' : Int) - t.count ']' := by
  induction t with
  | nil => rfl
  | cons c t ih =>
    rw [balance_cons, ih]
    rcases weight_cases c with ⟨rfl, hw⟩ | ⟨rfl, hw⟩ | ⟨⟨ho, hc⟩, hw⟩
    · rw [hw, List.count_cons_self, List.count_cons_of_ne (by decide)]
      omega
    · rw [hw, List.count_cons_self, List.count_cons_of_ne (by decide)]
      omega
    · rw [hw, List.count_cons_of_ne ho, List.count_cons_of_ne hc]
      omega

/-- Balanced text has as many opening as closing brackets. -/
theorem balance_eq_zero_iff {t : Text} : balance t = 0 ↔ t.count '[' = t.count ']' := by
  rw [balance_eq_count]
  omega

/-! ## The balance of tokens -/

theorem weight_of_blank {c : Char} (hc : isBlank c = true) : weight c = 0 := by
  rcases weight_cases c with ⟨rfl, -⟩ | ⟨rfl, -⟩ | ⟨-, h⟩
  · cases hc
  · cases hc
  · exact h

/-- Blanks do not count for the balance. -/
theorem balance_filter_not_blank (t : Text) : balance (t.filter fun c => !isBlank c) = balance t := by
  induction t with
  | nil => rfl
  | cons c t ih =>
    cases hc : isBlank c with
    | true => simp [hc, ih, weight_of_blank hc]
    | false => simp [hc, ih]

/-- Blanks do not count for the balance. -/
theorem balance_flatten_words (t : Text) : balance (words t).flatten = balance t := by
  rw [flatten_words, balance_filter_not_blank]

/-! ## In brackets -/

theorem balance_bracket (t : Text) : balance (bracket t) = balance t := by
  simp only [bracket, balance_cons, balance_append, balance_nil, weight_open, weight_close]
  omega

/-- The first token of a bracketed text begins with its bracket. -/
theorem words_bracket (t : Text) : ∃ piece later, words (bracket t) = ('[' :: piece) :: later :=
  ⟨_, _, words_of_not_blank rfl _⟩

/-- The tokens of a bracketed text are that text without its blanks. -/
theorem flatten_words_bracket (t : Text) :
    (words (bracket t)).flatten = '[' :: ((t.filter fun c => !isBlank c) ++ [']']) := by
  have ho : isBlank '[' = false := rfl
  have hc : isBlank ']' = false := rfl
  simp [flatten_words, bracket, ho, hc]

/-- The tokens of a well-nested text in brackets balance at the last one and not before. -/
theorem WellNested.balance_words_bracket {t piece : Text} {later : List Text} (h : WellNested t)
    (hw : words (bracket t) = ('[' :: piece) :: later) :
    balance ('[' :: piece) + balance later.flatten = 0 ∧
      ∀ k < later.length, 0 < balance ('[' :: piece) + balance (later.take k).flatten := by
  constructor
  · rw [← balance_append, ← List.flatten_cons, ← hw, balance_flatten_words, balance_bracket, h.2]
  · intro k hk
    -- what is left after `k` tokens has the closing bracket, so that what was taken is inside
    have hflat := flatten_words_bracket t
    rw [hw, List.flatten_cons, List.cons_append, ← List.take_append_drop k later, List.flatten_append,
      ← List.append_assoc] at hflat
    have hrest : (later.drop k).flatten ≠ [] := by
      have hne : later[k] ≠ [] := ne_nil_of_mem_words (t := bracket t) (by simp [hw])
      rw [List.drop_eq_getElem_cons hk, List.flatten_cons]
      exact List.append_ne_nil_of_left_ne_nil hne _
    obtain ⟨last, rest, hlast⟩ : ∃ last rest, (later.drop k).flatten = rest ++ [last] :=
      ⟨_, _, (List.dropLast_concat_getLast hrest).symm⟩
    rw [hlast, ← List.append_assoc] at hflat
    obtain ⟨hinner, -⟩ := List.append_inj' (List.cons.inj hflat).2 rfl
    obtain ⟨s, u, rfl, hs, -⟩ := List.filter_eq_append_iff.1 hinner.symm
    have hnonneg := h.balance_nonneg
    rw [← balance_filter_not_blank, hs, balance_append] at hnonneg
    rw [balance_cons, weight_open]
    omega

/-- Text that begins with an opening and ends with a closing bracket is a bracketed text. -/
theorem exists_eq_bracket {t : Text} (hh : t.head? = some '[') (hl : t.getLast? = some ']') :
    ∃ u, t = bracket u := by
  obtain ⟨s, rfl⟩ := List.getLast?_eq_some_iff.1 hl
  cases s with
  | nil => cases hh
  | cons c s =>
    obtain rfl : c = '[' := by simpa using hh
    exact ⟨s, rfl⟩

/-- The tokens of a bracketed text put together are a bracketed text with the same tokens inside. -/
theorem unwords_words_bracket (t : Text) : ∃ u, unwords (words (bracket t)) = bracket u ∧ words u = words t := by
  have hne : ∀ w ∈ words (bracket t), w ≠ [] := fun _ => ne_nil_of_mem_words
  have hflat := flatten_words_bracket t
  obtain ⟨u, hu⟩ : ∃ u, unwords (words (bracket t)) = bracket u := by
    refine exists_eq_bracket ?_ ?_
    · rw [head?_unwords hne, hflat, List.head?_cons]
    · rw [getLast?_unwords hne, hflat, ← List.cons_append, List.getLast?_concat]
  refine ⟨u, hu, ?_⟩
  have hw : words (bracket u) = words (bracket t) := by rw [← hu, words_unwords_words]
  exact words_of_words_concat (c := ']') rfl (words_of_words_cons (c := '[') rfl hw)

end MiniLogo.Text
