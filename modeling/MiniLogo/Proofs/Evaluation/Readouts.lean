import MiniLogo.Proofs.Evaluation.Balancing
import MiniLogo.Proofs.Text.Elements

/-!
# Elements, token by token

A balanced text can be taken apart in two ways: cut at the blanks outside of brackets (`Text.elements`), or read token
by token, with each token that begins with a bracket completed to a literal (`Feed.readout`). Both come to the same
texts, if each token that is read by itself is balanced (`readout_of_balanced`).

The depth at a blank is that after the tokens before it (`exists_break_of_take_words`). So in a text without a break no
token but the last one comes back to depth zero (`Unbroken.balance_take_words`): a literal that is begun at the first
token of an element is complete at its last one, and a balanced token that begins an element is all of it. From one
break to the next, the reading of a text is one step for each element (`readout_of_unbroken`).
-/

namespace MiniLogo

open MiniLogo.Text

variable {s t : Text} {us : List Text} {f : Feed}

/-! ## The depth between tokens -/

namespace Text

/-- The first tokens of a text, if more follow them, are the tokens of what stands before a blank. -/
theorem exists_break_of_take_words {k : Nat} (hk : 0 < k) (hlt : k < (words t).length) :
    ∃ s c u, t = s ++ c :: u ∧ isBlank c = true ∧ words s = (words t).take k := by
  induction t using breakInduction (fun _ => 0) generalizing k with
  | unbroken t h =>
    by_cases hn : t = []
    · subst hn
      cases hlt
    · have hw : words t = [t] := pieces_of_unbroken h hn
      rw [hw, List.length_singleton] at hlt
      omega
  | broken s c u hs hc hd ih =>
    rw [words_append_blank hc] at hlt ⊢
    by_cases hn : s = []
    · subst hn
      obtain ⟨p, b, q, rfl, hb, hp⟩ := ih hk hlt
      exact ⟨c :: p, b, q, rfl, hb, by rw [← List.nil_append (c :: p), words_append_blank hc, hp]; rfl⟩
    · have hw : words s = [s] := pieces_of_unbroken hs hn
      rw [hw, List.singleton_append] at hlt ⊢
      obtain ⟨k, rfl⟩ : ∃ j, k = j + 1 := ⟨k - 1, by omega⟩
      rw [List.take_succ_cons]
      rcases Nat.eq_zero_or_pos k with rfl | hk
      · exact ⟨s, c, u, rfl, hc, hw⟩
      · obtain ⟨p, b, q, rfl, hb, hp⟩ := ih hk (by simpa using hlt)
        exact ⟨s ++ c :: p, b, q, by simp, hb, by rw [words_append_blank hc, hw, hp]; rfl⟩

/-- In a text without a break the depth is not zero after any of its tokens but the last. -/
theorem Unbroken.balance_take_words (h : Unbroken weight 0 s) {piece : Text} {later : List Text}
    (hw : words s = piece :: later) {k : Nat} (hk : k < later.length) :
    balance piece + balance (later.take k).flatten ≠ 0 := by
  obtain ⟨p, c, q, rfl, hc, hp⟩ := exists_break_of_take_words (Nat.succ_pos k) (by rw [hw]; simpa using hk)
  have hne := h p c q rfl hc
  rw [depthAfter_weight, Int.zero_add, ← balance_flatten_words, hp, hw, List.take_succ_cons, List.flatten_cons,
    balance_append] at hne
  exact hne

/-- A text without a break that is not empty has a first token. -/
theorem Unbroken.exists_words (h : Unbroken weight 0 s) (hn : s ≠ []) : ∃ piece later, words s = piece :: later := by
  obtain ⟨c, s, rfl⟩ := List.exists_cons_of_ne_nil hn
  exact ⟨_, _, words_of_not_blank (h.head?_not_blank c rfl) s⟩

end Text

/-! ## Reading texts -/

/-- Reads texts, at most as many as the first argument says, until no token is left: a token that begins with a
bracket is completed to a literal, and any other one is read by itself. Gives the texts, and the feed that is left or
the fault of a literal that is not complete. -/
def Feed.readout : Nat → Feed → List Text × Except Fault Feed
  | 0, f => ([], .ok f)
  | n + 1, f => match f.next? with
    | (none, f) => ([], .ok f)
    | (some raw, f) =>
      if raw.head? = some '[' then
        match f.readBracketed raw with
        | (.ok v, f) => (v.text :: (readout n f).1, (readout n f).2)
        | (.error e, _) => ([], .error e)
      else (raw :: (readout n f).1, (readout n f).2)

/-- Without tokens there is nothing to read. -/
theorem Feed.readout_of_nil (hf : f.tokens = []) (n : Nat) : ∃ g, f.readout n = ([], .ok g) ∧ g.tokens = [] := by
  cases n with
  | zero => exact ⟨f, rfl, hf⟩
  | succ n =>
    obtain ⟨g, hg, hd⟩ := next?_of_nil hf
    exact ⟨g, by rw [readout, hg], hd.tokens⟩

/-- A token that begins with no bracket is read by itself. -/
theorem Feed.readout_of_loose {raw : Text} (hf : f.tokens = raw :: us) (hh : raw.head? ≠ some '[') (n : Nat) :
    ∃ g : Feed, f.readout (n + 1) = (raw :: (g.readout n).1, (g.readout n).2) ∧ g.tokens = us := by
  obtain ⟨g, hg, hl⟩ := next?_of_cons hf
  exact ⟨g, by rw [readout, hg]; simp only [if_neg hh], hl.tokens⟩

/-- The tokens of a literal are read together. -/
theorem Feed.readout_of_complete {first : Text} {ts : List Text} (hf : f.tokens = first :: (ts ++ us))
    (hh : first.head? = some '[') (hr : read (Want.closings (balance first)) ts = .complete ts.length) (n : Nat) :
    ∃ g : Feed, f.readout (n + 1) = (unwords (first :: ts) :: (g.readout n).1, (g.readout n).2) ∧ g.tokens = us := by
  obtain ⟨g, hg, hl⟩ := next?_of_cons hf
  obtain ⟨h, hh', hl'⟩ := takeClosing_of_complete hr hl.tokens (n := g.size) (by simp [size, hl.tokens])
  refine ⟨h, ?_, hl'.tokens⟩
  rw [readout, hg]
  simp only [if_pos hh, readBracketed, hh', Literal.text_value]

/-- A balanced text without a break is read in one step, if its first token is balanced or begins with a bracket. -/
theorem Feed.readout_of_unbroken (hs : Unbroken weight 0 s) (hn : s ≠ []) (hz : balance s = 0)
    (hf : f.tokens = words s ++ us) {n : Nat}
    (hloose : ∀ e ∈ (f.readout (n + 1)).1, e.head? ≠ some '[' → balance e = 0) :
    ∃ g : Feed, f.readout (n + 1) = (unwords (words s) :: (g.readout n).1, (g.readout n).2) ∧ g.tokens = us := by
  obtain ⟨piece, later, hw⟩ := hs.exists_words hn
  rw [hw] at hf ⊢
  by_cases hh : piece.head? = some '['
  · have hr : read (Want.closings (balance piece)) later = .complete later.length := by
      refine read_closings_eq_complete_iff.2 ⟨Nat.le_refl _, ?_, fun k hk => hs.balance_take_words hw hk⟩
      rw [List.take_length, ← balance_append, ← List.flatten_cons, ← hw, balance_flatten_words, hz]
    exact readout_of_complete hf hh hr n
  · obtain ⟨g, hg, ht⟩ := readout_of_loose hf hh n
    have hpiece : balance piece = 0 := hloose piece (by rw [hg]; exact List.mem_cons_self) hh
    -- a second token would come after a break
    obtain rfl : later = [] := by
      by_contra hlater
      refine hs.balance_take_words hw (List.length_pos_iff.2 hlater) ?_
      simpa using hpiece
    exact ⟨g, by rw [hg, unwords_singleton], ht⟩

/-- Reading a balanced text token by token comes to its elements, with single spaces between their tokens. -/
theorem Feed.readout_eq_map_elements (hz : balance t = 0) (hf : f.tokens = words t) {n : Nat}
    (hsize : (words t).length ≤ n) (hloose : ∀ e ∈ (f.readout n).1, e.head? ≠ some '[' → balance e = 0) :
    ∃ g, f.readout n = ((elements t).map fun e => unwords (words e), .ok g) ∧ g.tokens = [] := by
  unfold elements
  induction t using breakInduction weight generalizing f n with
  | unbroken t h =>
    by_cases hn : t = []
    · subst hn
      exact readout_of_nil hf n
    · rw [pieces_of_unbroken h hn]
      obtain ⟨piece, later, hw⟩ := h.exists_words hn
      obtain ⟨n, rfl⟩ : ∃ k, n = k + 1 := ⟨n - 1, by rw [hw, List.length_cons] at hsize; omega⟩
      obtain ⟨g, hg, ht⟩ := readout_of_unbroken h hn hz (hf.trans (List.append_nil _).symm) hloose
      obtain ⟨g', hg', ht'⟩ := readout_of_nil ht n
      exact ⟨g', by rw [hg, hg']; rfl, ht'⟩
  | broken s c u hs hc hd ih =>
    rw [depthAfter_weight, Int.zero_add] at hd
    have hu : balance u = 0 := by
      rw [balance_append, balance_cons, weight_of_blank hc] at hz
      omega
    rw [words_append_blank hc] at hf hsize
    rw [pieces_append_of_unbroken hs hc (by rw [depthAfter_weight]; omega)]
    by_cases hn : s = []
    · subst hn
      exact ih hu hf hsize hloose
    · obtain ⟨piece, later, hw⟩ := hs.exists_words hn
      obtain ⟨n, rfl⟩ : ∃ k, n = k + 1 := ⟨n - 1, by
        rw [hw, List.length_append, List.length_cons] at hsize
        omega⟩
      obtain ⟨g, hg, ht⟩ := readout_of_unbroken hs hn hd hf hloose
      have hrest : (words u).length ≤ n := by
        rw [hw, List.length_append, List.length_cons] at hsize
        omega
      obtain ⟨g', hg', ht'⟩ := ih hu ht hrest fun e he => hloose e (by rw [hg]; exact List.mem_cons_of_mem _ he)
      refine ⟨g', ?_, ht'⟩
      obtain ⟨a, s, rfl⟩ := List.exists_cons_of_ne_nil hn
      rw [hg, hg']
      rfl

/-! ## Texts with single spaces -/

namespace Text

variable {e : Text}

theorem infix_trimLeft (h : e <:+: t) (hh : ∀ c ∈ e.head?, isBlank c = false) : e <:+: trimLeft t := by
  obtain ⟨p, q, rfl⟩ := h
  cases e with
  | nil => exact List.nil_infix
  | cons c e =>
    have hc : isBlank c = false := hh c rfl
    rw [trimLeft, List.append_assoc, List.dropWhile_append]
    split
    · simp only [List.cons_append, List.dropWhile_cons, hc]
      exact (List.prefix_append (c :: e) q).isInfix
    · exact ⟨_, q, List.append_assoc _ _ _⟩

/-- Trimming takes nothing off a part with no blank at its ends. -/
theorem EndsInked.infix_trim (he : EndsInked e) (h : e <:+: t) : e <:+: trim t := by
  have hleft : e.reverse <:+: (trimLeft t).reverse := List.reverse_infix.2 (infix_trimLeft h he.1)
  have hright := infix_trimLeft hleft (by simpa using he.2)
  rw [trim, ← List.reverse_reverse e]
  exact List.reverse_infix.2 hright

/-- The elements of a balanced text with single spaces between its tokens are their own tokens put together. -/
theorem unwords_words_of_mem_elements (hz : balance t = 0) (ht : trim t = unwords (words t)) (he : e ∈ elements t) :
    unwords (words e) = e := by
  have hinked : EndsInked e := Unbroken.endsInked (unbroken_of_mem_pieces he) (balance_of_mem_elements hz he)
  have htight : Tight (trim t) := by
    rw [ht]
    exact tight_unwords fun _ => words_of_mem_words
  exact unwords_pieces (htight.of_isInfix (hinked.infix_trim (infix_of_mem_pieces he))) hinked

end Text

/-- **A list is read by its elements.** A text that opens as many brackets as it closes is read token by token, where
a token that begins with a bracket is completed to a literal. If every token that is read by itself, up to the end or
to where the reading fails, opens as many brackets as it closes, then the reading does not fail, it takes every token,
and its texts are the elements of the text, with single spaces between their tokens. So they are the elements
themselves if the tokens of the text have single spaces between them. -/
theorem readout_of_balanced (hf : f.tokens = words t) (ht : t.count '[' = t.count ']')
    (hloose : ∀ e ∈ (f.readout f.size).1, e.head? ≠ some '[' → e.count '[' = e.count ']') :
    ∃ g, f.readout f.size = ((elements t).map fun e => unwords (words e), .ok g) ∧ g.tokens = [] ∧
      (trim t = unwords (words t) → (f.readout f.size).1 = elements t) := by
  have hz : balance t = 0 := balance_eq_zero_iff.2 ht
  obtain ⟨g, hg, hend⟩ := Feed.readout_eq_map_elements hz hf (by rw [Feed.size, hf]) fun e he hh =>
    balance_eq_zero_iff.2 (hloose e he hh)
  refine ⟨g, hg, hend, fun hsingle => ?_⟩
  rw [hg]
  exact (List.map_congr_left fun e he => unwords_words_of_mem_elements hz hsingle he).trans (List.map_id _)

/-- A token that closes a bracket before it opens one, a literal whose depth is below zero after its first token, and
groups side by side. -/
theorem readout_of_balanced_of_negative :
    let t := "\tx]y[ [a]b] [c [e][f] z\n".toList
    let f : Feed := .ofText t
    (∀ e ∈ (f.readout f.size).1, e.head? ≠ some '[' → e.count '[' = e.count ']') ∧
      trim t = unwords (words t) ∧ (f.readout f.size).1 = elements t ∧
      elements t = ["x]y[".toList, "[a]b] [c".toList, "[e][f]".toList, "z".toList] := by
  intro t f
  have hloose : ∀ e ∈ (f.readout f.size).1, e.head? ≠ some '[' → e.count '[' = e.count ']' := by decide +kernel
  have hsingle : trim t = unwords (words t) := by decide +kernel
  obtain ⟨-, -, -, helements⟩ := readout_of_balanced (f := f) (Feed.tokens_ofText t) (by decide +kernel) hloose
  exact ⟨hloose, hsingle, helements hsingle, by decide +kernel⟩

end MiniLogo
