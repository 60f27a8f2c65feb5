import MiniLogo.Text.Bracket

/-!
# The tokens of a text

A blank between two texts keeps their tokens apart (`words_append_blank`), and everything else about tokens follows:
they are read from either end (`words_reverse`), they are what the text is without its blanks (`flatten_words`), and
put together again with single blanks they are the same tokens (`words_unwords_words`). A character that is no blank
can be taken off either end of two texts with the same tokens (`words_of_words_cons`, `words_of_words_concat`).
-/

namespace MiniLogo.Text

/-! ## One character at a time -/

/-- What follows the pieces of a text is untouched when the first piece is closed. -/
theorem flush_append (piece : Text) (later more : List Text) :
    flush (piece, later ++ more) = flush (piece, later) ++ more := by
  cases piece <;> rfl

/-- A blank ends the word under way. -/
theorem cut_of_blank {c : Char} (hc : isBlank c = true) (t : Text) :
    cut (fun _ => 0) 0 (c :: t) = ([], words t) := by
  conv => lhs; unfold cut
  rw [if_pos ⟨hc, rfl⟩]
  rfl

/-- Any other character goes to the word under way. -/
theorem cut_of_not_blank {c : Char} (hc : isBlank c = false) (t : Text) :
    cut (fun _ => 0) 0 (c :: t) = (c :: (cut (fun _ => 0) 0 t).1, (cut (fun _ => 0) 0 t).2) := by
  conv => lhs; unfold cut
  simp [hc]

@[simp] theorem words_nil : words [] = [] := rfl

/-- A character that is no blank begins the first word. -/
theorem words_of_not_blank {c : Char} (hc : isBlank c = false) (t : Text) :
    words (c :: t) = (c :: (cut (fun _ => 0) 0 t).1) :: (cut (fun _ => 0) 0 t).2 := by
  unfold words pieces
  rw [cut_of_not_blank hc]
  rfl

/-- A blank ends a word wherever it stands, so the words of what follows do not depend on what is before it. -/
theorem cut_append_blank {c : Char} (hc : isBlank c = true) (s t : Text) : cut (fun _ => 0) 0 (s ++ c :: t) =
    ((cut (fun _ => 0) 0 s).1, (cut (fun _ => 0) 0 s).2 ++ words t) := by
  induction s with
  | nil => exact cut_of_blank hc t
  | cons d s ih =>
    rw [List.cons_append]
    cases hd : isBlank d with
    | true =>
      rw [cut_of_blank hd, cut_of_blank hd, words, pieces, ih, flush_append]
      rfl
    | false => rw [cut_of_not_blank hd, cut_of_not_blank hd, ih]

/-- A blank keeps the tokens on its two sides apart. -/
theorem words_append_blank {c : Char} (hc : isBlank c = true) (s t : Text) :
    words (s ++ c :: t) = words s ++ words t := by
  rw [words, pieces, cut_append_blank hc, flush_append]
  rfl

/-- A text without blanks is one token, unless it is empty. -/
theorem words_of_forall_not_blank {t : Text} (ht : t ≠ []) (h : ∀ c ∈ t, isBlank c = false) : words t = [t] := by
  have hcut : cut (fun _ => 0) 0 t = (t, []) := by
    clear ht
    induction t with
    | nil => rfl
    | cons c t ih =>
      rw [cut_of_not_blank (h c List.mem_cons_self), ih fun d hd => h d (List.mem_cons_of_mem c hd)]
  rw [words, pieces, hcut]
  cases t with
  | nil => exact absurd rfl ht
  | cons c t => rfl

/-! ## What tokens are made of -/

/-- Closing the first piece loses no characters. -/
theorem flatten_flush (p : Text × List Text) : (flush p).flatten = p.1 ++ p.2.flatten := by
  obtain ⟨piece, later⟩ := p
  cases piece <;> rfl

/-- The tokens one after the other are the text without its blanks. -/
theorem flatten_words (t : Text) : (words t).flatten = t.filter fun c => !isBlank c := by
  have hcut : (cut (fun _ => 0) 0 t).1 ++ (cut (fun _ => 0) 0 t).2.flatten = t.filter fun c => !isBlank c := by
    induction t with
    | nil => rfl
    | cons c t ih =>
      cases hc : isBlank c with
      | true => simpa [cut_of_blank hc, hc, words, pieces, flatten_flush] using ih
      | false => simpa [cut_of_not_blank hc, hc] using ih
  rw [words, pieces, flatten_flush, hcut]

theorem ne_nil_of_mem_words {t w : Text} (hw : w ∈ words t) : w ≠ [] := pieces_ne_nil _ t w hw

/-- Words have no blanks. -/
theorem not_blank_of_mem_words {t w : Text} (hw : w ∈ words t) : ∀ c ∈ w, isBlank c = false := by
  intro c hc
  have hmem : c ∈ (words t).flatten := List.mem_flatten.2 ⟨w, hw, hc⟩
  rw [flatten_words] at hmem
  simpa using (List.mem_filter.1 hmem).2

/-! ## Tokens put together -/

@[simp] theorem unwords_nil : unwords [] = [] := rfl

@[simp] theorem unwords_singleton (w : Text) : unwords [w] = w := by
  simp [unwords]

theorem unwords_cons_cons (v w : Text) (ws : List Text) :
    unwords (v :: w :: ws) = v ++ ' ' :: unwords (w :: ws) := by
  simp [unwords]

/-- Texts put together with blanks have the tokens of each. -/
theorem words_unwords (ts : List Text) : words (unwords ts) = ts.flatMap words := by
  induction ts with
  | nil => rfl
  | cons s ts ih =>
    cases ts with
    | nil => simp
    | cons t ts => rw [unwords_cons_cons, words_append_blank (by decide), ih, ← List.flatMap_cons]

/-- A word of a text is a word by itself. -/
theorem words_of_mem_words {t w : Text} (hw : w ∈ words t) : words w = [w] :=
  words_of_forall_not_blank (ne_nil_of_mem_words hw) (not_blank_of_mem_words hw)

/-- A text and its tokens with single blanks between them have the same tokens. -/
theorem words_unwords_words (t : Text) : words (unwords (words t)) = words t := by
  have h : ∀ ws : List Text, (∀ w ∈ ws, words w = [w]) → ws.flatMap words = ws := by
    intro ws hws
    induction ws with
    | nil => rfl
    | cons w ws ih =>
      rw [List.flatMap_cons, hws w List.mem_cons_self, ih fun v hv => hws v (List.mem_cons_of_mem w hv)]
      rfl
  rw [words_unwords, h _ fun _ => words_of_mem_words]

/-- Tokens put together begin as the first token does. -/
theorem head?_unwords {ws : List Text} (hne : ∀ w ∈ ws, w ≠ []) : (unwords ws).head? = ws.flatten.head? := by
  cases ws with
  | nil => rfl
  | cons w ws =>
    obtain ⟨c, w, rfl⟩ := List.exists_cons_of_ne_nil (hne w List.mem_cons_self)
    cases ws with
    | nil => simp
    | cons v ws => simp [unwords_cons_cons]

/-- Tokens put together end as the last token does. -/
theorem getLast?_unwords {ws : List Text} (hne : ∀ w ∈ ws, w ≠ []) :
    (unwords ws).getLast? = ws.flatten.getLast? := by
  induction ws with
  | nil => rfl
  | cons w ws ih =>
    cases ws with
    | nil => simp
    | cons v ws =>
      have hf : (v :: ws).flatten ≠ [] := by
        have hv : v ≠ [] := hne v (by simp)
        simp [hv]
      obtain ⟨c, hc⟩ := Option.ne_none_iff_exists'.1 (mt List.getLast?_eq_none_iff.1 hf)
      have hu : (unwords (v :: ws)).getLast? = some c := by
        rw [ih fun u hu => hne u (List.mem_cons_of_mem w hu), hc]
      rw [unwords_cons_cons, List.flatten_cons, List.getLast?_append, List.getLast?_append, hc, List.getLast?_cons, hu]
      rfl

/-! ## Either end -/

/-- Tokens are read backwards as well as forwards. -/
theorem words_reverse (t : Text) : words t.reverse = ((words t).map List.reverse).reverse := by
  -- the piece under way is kept apart, so that the induction is on the rest of the text
  suffices h : ∀ e : Text, (∀ c ∈ e, isBlank c = false) →
      words (e ++ t).reverse = ((words (e ++ t)).map List.reverse).reverse from h [] (by simp)
  have hpiece : ∀ e : Text, (∀ c ∈ e, isBlank c = false) →
      words e.reverse = ((words e).map List.reverse).reverse := by
    intro e he
    by_cases hn : e = []
    · subst hn
      rfl
    · rw [words_of_forall_not_blank hn he, words_of_forall_not_blank (by simpa using hn) (by simpa using he)]
      rfl
  induction t with
  | nil => simpa using hpiece
  | cons c t ih =>
    intro e he
    cases hc : isBlank c with
    | false =>
      have := ih (e ++ [c]) (by
        intro d hd
        rcases List.mem_append.1 hd with hd | hd
        · exact he d hd
        · rwa [List.mem_singleton.1 hd])
      simpa using this
    | true =>
      have ht : words t.reverse = ((words t).map List.reverse).reverse := ih [] (by simp)
      have hr : (e ++ c :: t).reverse = t.reverse ++ c :: e.reverse := by simp
      rw [hr, words_append_blank hc, words_append_blank hc, ht, hpiece e he, List.map_append, List.reverse_append]

/-- Texts with the same words still have them without the same first character. -/
theorem words_of_words_cons {c : Char} (hc : isBlank c = false) {s t : Text} (h : words (c :: s) = words (c :: t)) :
    words s = words t := by
  rw [words_of_not_blank hc, words_of_not_blank hc] at h
  obtain ⟨h₁, h₂⟩ := List.cons.inj h
  rw [words, pieces, words, pieces, Prod.ext (List.cons.inj h₁).2 h₂]

/-- Texts with the same words still have them without the same last character. -/
theorem words_of_words_concat {c : Char} (hc : isBlank c = false) {s t : Text}
    (h : words (s ++ [c]) = words (t ++ [c])) : words s = words t := by
  have hr : words (c :: s.reverse) = words (c :: t.reverse) := by
    have := congrArg (fun ws => (ws.map List.reverse).reverse) h
    simpa [← words_reverse] using this
  have := congrArg (fun ws => (ws.map List.reverse).reverse) (words_of_words_cons hc hr)
  simpa [← words_reverse] using this

end MiniLogo.Text
