import MiniLogo.Proofs.Text.Pieces

/-!
# Joined literals

The reader of literals joins tokens by single spaces until their brackets balance. The texts that it makes so are
those that begin with a bracket, are balanced, have single spaces for blanks, and have none at depth zero (`Joined`);
this is the same as being the reading of one's own tokens (`joined_unwords`, `Joined.exists_words`). Such a text need
not be a single group (`IsGroup`): the depth may come to zero, or below it, inside a token.

A joined text that loses elements of its interior at either end stays joined (`Joined.bracket_elements`), and each
element that begins with a bracket is joined too (`joined_of_mem_elements`).
-/

namespace MiniLogo.Text

variable {c : Char} {s t u e : Text} {ws : List Text}

/-! ## Groups -/

/-- One well-nested pair of brackets with what stands in it: the depth is back at zero at the end and not before. -/
def IsGroup (t : Text) : Prop :=
  t.head? = some '[' ∧ t.getLast? = some ']' ∧ (∀ k < t.length, 0 < k → 1 ≤ balance (t.take k)) ∧ balance t = 0

instance (t : Text) : Decidable (IsGroup t) := inferInstanceAs (Decidable (_ ∧ _))

/-! ## Joined texts -/

/-- A text as the reader of literals makes it. -/
structure Joined (t : Text) : Prop where
  opens : t.head? = some '['
  tight : Tight t
  balance_eq : balance t = 0
  unbroken : Unbroken weight 0 t

theorem not_blank_of_mem_bracket_nil : ∀ c ∈ bracket [], isBlank c = false := by
  intro c hc
  have h : c = '[' ∨ c = ']' := by simpa [bracket] using hc
  rcases h with rfl | rfl <;> decide

/-- The empty list is joined. -/
theorem joined_empty : Joined (bracket []) where
  opens := rfl
  tight := tight_of_forall_not_blank not_blank_of_mem_bracket_nil
  balance_eq := by decide
  unbroken := by
    intro s c u h hc
    have hmem : c ∈ bracket [] := by simp [h]
    rw [not_blank_of_mem_bracket_nil c hmem] at hc
    cases hc

/-- The blanks of a joined text stand inside of brackets. -/
theorem Joined.balance_ne_zero (h : Joined (s ++ c :: u)) (hc : isBlank c = true) : balance s ≠ 0 := by
  have := h.unbroken s c u rfl hc
  rwa [depthAfter_weight, Int.zero_add] at this

/-- A joined text has no blank at its ends. -/
theorem Joined.endsInked (h : Joined t) : EndsInked t := by
  constructor
  · intro c hc
    rw [h.opens] at hc
    obtain rfl := Option.some.inj hc
    rfl
  · intro c hc
    obtain ⟨s, rfl⟩ := List.getLast?_eq_some_iff.1 hc
    cases hb : isBlank c with
    | false => rfl
    | true =>
      have hz := h.balance_eq
      rw [balance_append, balance_cons, weight_of_blank hb] at hz
      exact absurd (by simpa using hz) (h.balance_ne_zero hb)

/-! ## Tokens put together -/

theorem not_blank_of_words_eq {w : Text} (h : words w = [w]) : ∀ c ∈ w, isBlank c = false :=
  not_blank_of_mem_words (t := w) (by simp [h])

theorem ne_nil_of_words_eq {w : Text} (h : words w = [w]) : w ≠ [] :=
  ne_nil_of_mem_words (t := w) (by simp [h])

/-- Tokens that are joined begin with what the first of them begins with. -/
theorem head?_unwords_not_blank (h : ∀ w ∈ ws, words w = [w]) : ∀ c ∈ (unwords ws).head?, isBlank c = false := by
  intro c hc
  rw [head?_unwords fun w hw => ne_nil_of_words_eq (h w hw)] at hc
  obtain ⟨w, hw, hcw⟩ := List.mem_flatten.1 (List.mem_of_mem_head? hc)
  exact not_blank_of_words_eq (h w hw) c hcw

/-- Tokens put together are tight. -/
theorem tight_unwords (h : ∀ w ∈ ws, words w = [w]) : Tight (unwords ws) := by
  induction ws with
  | nil => exact tight_of_forall_not_blank (by simp)
  | cons v ws ih =>
    have hv := not_blank_of_words_eq (h v List.mem_cons_self)
    have hws : ∀ w ∈ ws, words w = [w] := fun w hw => h w (List.mem_cons_of_mem v hw)
    by_cases hn : ws = []
    · subst hn
      rw [unwords_singleton]
      exact tight_of_forall_not_blank hv
    · rw [unwords_cons hn]
      exact (tight_of_forall_not_blank hv).append_space (ih hws) (fun c hc => hv c (List.mem_of_mem_getLast? hc))
        (head?_unwords_not_blank hws)

/-- The blanks of tokens put together stand between the tokens. -/
theorem exists_of_unwords_eq_append (h : ∀ w ∈ ws, words w = [w]) (ht : unwords ws = s ++ c :: u)
    (hc : isBlank c = true) : ∃ k, k + 1 < ws.length ∧ s = unwords (ws.take (k + 1)) := by
  induction ws generalizing s with
  | nil =>
    rw [unwords_nil] at ht
    cases s <;> cases ht
  | cons v ws ih =>
    have hv := not_blank_of_words_eq (h v List.mem_cons_self)
    -- a blank after `s` cannot stand in the first token
    have hout : ∀ a b, v = a ++ c :: b → False := by
      intro a b hab
      rw [hv c (by simp [hab])] at hc
      cases hc
    by_cases hn : ws = []
    · subst hn
      rw [unwords_singleton] at ht
      exact (hout s u ht).elim
    · have hlen : 0 < ws.length := List.length_pos_iff.2 hn
      rw [unwords_cons hn] at ht
      rcases List.append_eq_append_iff.1 ht with ⟨a, rfl, ha⟩ | ⟨a, rfl, ha⟩
      · cases a with
        | nil => exact ⟨0, by rw [List.length_cons]; omega, by simp⟩
        | cons b a =>
          obtain ⟨rfl, hat⟩ := List.cons.inj ha
          obtain ⟨k, hk, rfl⟩ := ih (fun w hw => h w (List.mem_cons_of_mem v hw)) hat
          refine ⟨k + 1, by rw [List.length_cons]; omega, ?_⟩
          have hne : ws.take (k + 1) ≠ [] := by simp [hn]
          rw [List.take_succ_cons, unwords_cons hne]
      · cases a with
        | nil => exact ⟨0, by rw [List.length_cons]; omega, by simp⟩
        | cons b a =>
          obtain ⟨rfl, -⟩ := List.cons.inj ha
          exact (hout s a rfl).elim

/-- Two rows of tokens are joined by a single blank. -/
theorem unwords_append {vs us : List Text} (hv : vs ≠ []) (hu : us ≠ []) :
    unwords (vs ++ us) = unwords vs ++ ' ' :: unwords us := by
  induction vs with
  | nil => exact absurd rfl hv
  | cons v vs ih =>
    by_cases hn : vs = []
    · subst hn
      rw [List.singleton_append, unwords_cons hu, unwords_singleton]
    · rw [List.cons_append, unwords_cons (by simp [hn]), ih hn, unwords_cons hn, List.append_assoc]
      rfl

/-! ## Joined texts and their tokens -/

/-- A token with a bracket in front is joined with the tokens that balance it, if none before the last one does. -/
theorem joined_unwords {first : Text} {later : List Text} (hh : first.head? = some '[')
    (hw : ∀ w ∈ first :: later, words w = [w]) (hz : balance first + balance later.flatten = 0)
    (hk : ∀ k < later.length, balance first + balance (later.take k).flatten ≠ 0) :
    Joined (unwords (first :: later)) where
  opens := by
    obtain ⟨t, rfl⟩ : ∃ t, first = '[' :: t := List.head?_eq_some_iff.1 hh
    rw [head?_unwords fun w h => ne_nil_of_words_eq (hw w h)]
    rfl
  tight := tight_unwords hw
  balance_eq := by rw [balance_unwords, List.flatten_cons, balance_append, hz]
  unbroken := by
    intro s c u ht hc
    obtain ⟨k, hlt, rfl⟩ := exists_of_unwords_eq_append hw ht hc
    rw [depthAfter_weight, balance_unwords, List.take_succ_cons, List.flatten_cons, balance_append, Int.zero_add]
    exact hk k (by simpa using hlt)

/-- The tokens of a joined text balance at the last one and not before, and put together they are the text. -/
theorem Joined.exists_words (h : Joined t) : ∃ piece later, words t = ('[' :: piece) :: later ∧
    unwords (words t) = t ∧ balance ('[' :: piece) + balance later.flatten = 0 ∧
      ∀ k < later.length, balance ('[' :: piece) + balance (later.take k).flatten ≠ 0 := by
  obtain ⟨u, rfl⟩ : ∃ u, t = '[' :: u := List.head?_eq_some_iff.1 h.opens
  have hu : unwords (words ('[' :: u)) = '[' :: u := unwords_pieces h.tight h.endsInked
  obtain ⟨piece, later, hw⟩ : ∃ piece later, words ('[' :: u) = ('[' :: piece) :: later :=
    ⟨_, _, words_of_not_blank rfl u⟩
  refine ⟨piece, later, hw, hu, ?_, fun k hlt => ?_⟩
  · rw [← balance_append, ← List.flatten_cons, ← hw, balance_flatten_words, h.balance_eq]
  · -- the text up to the token is followed by a blank
    have hsplit : '[' :: u = unwords (('[' :: piece) :: later.take k) ++ ' ' :: unwords (later.drop k) := by
      rw [← unwords_append (by simp) (by simp; omega), List.cons_append, List.take_append_drop, ← hw, hu]
    rw [hsplit] at h
    rw [← balance_append, ← List.flatten_cons, ← balance_unwords]
    exact h.balance_ne_zero rfl

/-! ## Trimmed texts -/

theorem balance_of_forall_blank (h : ∀ c ∈ t, isBlank c = true) : balance t = 0 := by
  induction t with
  | nil => rfl
  | cons c t ih =>
    rw [balance_cons, weight_of_blank (h c List.mem_cons_self), ih fun d hd => h d (List.mem_cons_of_mem c hd)]
    rfl

theorem head?_trimLeft (t : Text) : ∀ c ∈ (trimLeft t).head?, isBlank c = false := by
  intro c hc
  have := List.head?_dropWhile_not isBlank t
  rw [show (t.dropWhile isBlank).head? = some c from hc] at this
  exact this

/-- Only blanks are trimmed on the left. -/
theorem exists_append_trimLeft (t : Text) : ∃ p, t = p ++ trimLeft t ∧ ∀ c ∈ p, isBlank c = true :=
  ⟨t.takeWhile isBlank, List.takeWhile_append_dropWhile.symm, List.all_eq_true.1 List.all_takeWhile⟩

/-- Trimming takes blanks off both ends, and leaves none there. -/
theorem exists_append_trim (t : Text) : ∃ p q, t = p ++ trim t ++ q ∧ (∀ c ∈ p, isBlank c = true) ∧
    (∀ c ∈ q, isBlank c = true) ∧ EndsInked (trim t) := by
  obtain ⟨p, hp, hpb⟩ := exists_append_trimLeft t
  obtain ⟨q, hq, hqb⟩ := exists_append_trimLeft (trimLeft t).reverse
  have hr : trimLeft t = trim t ++ q.reverse := by
    rw [← List.reverse_reverse (trimLeft t), hq, List.reverse_append]
    rfl
  refine ⟨p, q.reverse, by rw [List.append_assoc, ← hr, ← hp], hpb, fun c hc => hqb c (List.mem_reverse.1 hc), ?_, ?_⟩
  · intro c hc
    refine head?_trimLeft t c ?_
    rw [hr, List.head?_append, show (trim t).head? = some c from hc]
    rfl
  · intro c hc
    refine head?_trimLeft (trimLeft t).reverse c ?_
    rwa [trim, List.getLast?_reverse] at hc

/-- Text that begins with no blank has nothing to trim on the left. -/
theorem trimLeft_of_head? (h : ∀ c ∈ t.head?, isBlank c = false) : trimLeft t = t := by
  cases t with
  | nil => rfl
  | cons c t => simp [trimLeft, h c rfl]

/-- Text with blanks at neither end has nothing to trim. -/
theorem trim_of_endsInked (h : EndsInked t) : trim t = t := by
  rw [trim, trimLeft_of_head? h.1, trimLeft_of_head? (by rw [List.head?_reverse]; exact h.2), List.reverse_reverse]

/-! ## Parts of joined texts -/

section Parts

variable {p q w : Text}

/-- What stands balanced in a joined text, where the depth is that of its interior, is joined in brackets. -/
theorem Joined.bracket_of_balance (h : Joined (bracket (p ++ w ++ q))) (hp : balance p = 0) (hw : balance w = 0) :
    Joined (bracket w) where
  opens := rfl
  tight := (h.tight.of_isInfix ⟨'[' :: p, q ++ [']'], by simp [bracket]⟩).bracket
  balance_eq := by rw [balance_bracket, hw]
  unbroken := by
    intro s c u ht hc
    -- the blank is neither of the brackets, so it stands in `w`
    obtain ⟨s, rfl, hs⟩ : ∃ s', s = '[' :: s' ∧ w ++ [']'] = s' ++ c :: u := by
      cases s with
      | nil =>
        obtain ⟨rfl, -⟩ := List.cons.inj ht
        cases hc
      | cons a s =>
        obtain ⟨rfl, hs⟩ := List.cons.inj ht
        exact ⟨s, rfl, hs⟩
    obtain ⟨v, rfl⟩ : ∃ v, w = s ++ c :: v := by
      rcases List.append_eq_append_iff.1 hs with ⟨a, -, ha⟩ | ⟨a, rfl, ha⟩
      · cases a with
        | nil =>
          obtain ⟨rfl, -⟩ := List.cons.inj ha
          cases hc
        | cons b a => simp at ha
      · cases a with
        | nil =>
          obtain ⟨rfl, -⟩ := List.cons.inj ha
          cases hc
        | cons b a =>
          obtain ⟨rfl, -⟩ := List.cons.inj ha
          exact ⟨a, rfl⟩
    have hsplit : bracket (p ++ (s ++ c :: v) ++ q) = ('[' :: p ++ s) ++ c :: (v ++ q ++ [']']) := by simp [bracket]
    rw [hsplit] at h
    have hne := h.balance_ne_zero hc
    rw [List.cons_append, balance_cons, balance_append, hp] at hne
    rw [depthAfter_weight, balance_cons]
    omega

/-- The elements of the interior, where there is one, and their places in the text. -/
theorem Joined.interior (h : Joined (bracket u)) : ∃ p q, u = p ++ trim u ++ q ∧ balance p = 0 ∧
    balance (trim u) = 0 ∧ Tight (trim u) ∧ EndsInked (trim u) := by
  obtain ⟨p, q, hu, hp, hq, he⟩ := exists_append_trim u
  have hb := h.balance_eq
  rw [balance_bracket, hu, balance_append, balance_append, balance_of_forall_blank hp, balance_of_forall_blank hq] at hb
  refine ⟨p, q, hu, balance_of_forall_blank hp, by omega, h.tight.of_isInfix ⟨'[' :: p, q ++ [']'], ?_⟩, he⟩
  conv => rhs; rw [hu]
  simp [bracket]

/-- An element that begins with a bracket is joined. -/
theorem joined_of_mem_elements (ht : Tight t) (hz : balance t = 0) (he : e ∈ elements t) (hh : e.head? = some '[') :
    Joined e where
  opens := hh
  tight := ht.of_isInfix (infix_of_mem_pieces he)
  balance_eq := balance_of_mem_elements hz he
  unbroken := unbroken_of_mem_pieces he

/-- Texts that are balanced each are balanced together. -/
theorem balance_flatten_of_forall (h : ∀ w ∈ ws, balance w = 0) : balance ws.flatten = 0 := by
  induction ws with
  | nil => rfl
  | cons w ws ih =>
    rw [List.flatten_cons, balance_append, h w List.mem_cons_self, ih fun v hv => h v (List.mem_cons_of_mem w hv)]
    rfl

/-- Some elements of the interior that stand side by side are joined in brackets. -/
theorem Joined.bracket_elements (h : Joined (bracket u)) (hws : ws <:+: elements (trim u)) :
    Joined (bracket (unwords ws)) := by
  obtain ⟨vs, us, he⟩ := hws
  obtain ⟨p, q, hu, hp, hz, ht, hi⟩ := h.interior
  have hall : ∀ e ∈ vs ++ ws ++ us, balance e = 0 := fun e hm => balance_of_mem_elements hz (by rwa [← he])
  have hv : balance (unwords vs) = 0 := by
    rw [balance_unwords]
    exact balance_flatten_of_forall fun e hm => hall e (by simp [hm])
  have hw : balance (unwords ws) = 0 := by
    rw [balance_unwords]
    exact balance_flatten_of_forall fun e hm => hall e (by simp [hm])
  have htrim : unwords (vs ++ ws ++ us) = trim u := by rw [he]; exact unwords_pieces ht hi
  by_cases hn : ws = []
  · rw [hn, unwords_nil]
    exact joined_empty
  -- the elements before and after these, with the spaces beside them
  obtain ⟨a, ha, hab⟩ : ∃ a, unwords (vs ++ ws) = a ++ unwords ws ∧ balance a = 0 := by
    by_cases hvn : vs = []
    · exact ⟨[], by simp [hvn], rfl⟩
    · have hs : weight ' ' = 0 := rfl
      refine ⟨unwords vs ++ [' '], by rw [unwords_append hvn hn]; simp, ?_⟩
      rw [balance_append, hv, balance_cons, hs]
      rfl
  obtain ⟨b, hb⟩ : ∃ b, trim u = unwords (vs ++ ws) ++ b := by
    by_cases hun : us = []
    · exact ⟨[], by rw [← htrim, hun]; simp⟩
    · exact ⟨' ' :: unwords us, by rw [← htrim, unwords_append (by simp [hn]) hun]⟩
  have hplace : u = (p ++ a) ++ unwords ws ++ (b ++ q) := by
    conv => lhs; rw [hu, hb, ha]
    simp
  rw [hplace] at h
  exact h.bracket_of_balance (by rw [balance_append, hp, hab]; rfl) hw

/-- A joined text by itself is its only element. -/
theorem Joined.elements_trim (h : Joined t) : elements (trim t) = [t] := by
  have hne : t ≠ [] := by
    rintro rfl
    cases h.opens
  rw [trim_of_endsInked h.endsInked]
  exact pieces_of_unbroken h.unbroken hne

end Parts

end MiniLogo.Text
