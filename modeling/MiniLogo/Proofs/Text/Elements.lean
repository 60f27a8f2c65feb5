import MiniLogo.Proofs.Text.Joined

/-!
# Elements put together again

Pieces are not empty, are not broken, and come back to depth zero, but for the last one (`separate_pieces`). Texts of
this kind are kept apart by single spaces (`Separate.pieces_unwords`), and so are some of them that stand side by side.
So elements can be put together and cut again without any of them being split or merged (`elements_unwords`).

The trimmed text of a list begins and ends with what is no blank, and so do its elements
(`endsInked_of_mem_elements`) and the texts that are put together of them (`endsInked_unwords`): trimming these again
changes nothing.
-/

namespace MiniLogo.Text

variable {weigh : Char → Int} {c : Char} {s t u e : Text} {ws us : List Text}

/-! ## Texts that are kept apart -/

/-- Each of the texts is a piece, and those that another one follows come back to depth zero. -/
structure Separate (weigh : Char → Int) (ws : List Text) : Prop where
  ne_nil : ∀ w ∈ ws, w ≠ []
  unbroken : ∀ w ∈ ws, Unbroken weigh 0 w
  closed : ∀ w ∈ ws.dropLast, depthAfter weigh 0 w = 0

/-- What a part of a row has before its last item, the row has before its own. -/
theorem dropLast_subset_of_isInfix (h : ws <:+: us) : ws.dropLast ⊆ us.dropLast := by
  obtain ⟨p, q, rfl⟩ := h
  intro w hw
  have hws : ws ≠ [] := by
    rintro rfl
    cases hw
  by_cases hq : q = []
  · subst hq
    rw [List.append_nil, List.dropLast_append_of_ne_nil hws]
    exact List.mem_append_right p hw
  · rw [List.append_assoc, List.dropLast_append_of_ne_nil (by simp [hq]), List.dropLast_append_of_ne_nil hq]
    exact List.mem_append_right p (List.mem_append_left _ (List.dropLast_subset ws hw))

/-- Texts that stand side by side among separate ones are separate. -/
theorem Separate.of_isInfix (h : Separate weigh us) (hw : ws <:+: us) : Separate weigh ws where
  ne_nil w hm := h.ne_nil w (hw.subset hm)
  unbroken w hm := h.unbroken w (hw.subset hm)
  closed w hm := h.closed w (dropLast_subset_of_isInfix hw hm)

/-- Separate texts with spaces between them are cut where they were put together. -/
theorem Separate.pieces_unwords (h : Separate weigh ws) : pieces weigh (unwords ws) = ws := by
  induction ws with
  | nil => rfl
  | cons w ws ih =>
    have hne := h.ne_nil w List.mem_cons_self
    have hunbroken := h.unbroken w List.mem_cons_self
    by_cases hn : ws = []
    · subst hn
      rw [unwords_singleton, pieces_of_unbroken hunbroken hne]
    · have hclosed : depthAfter weigh 0 w = 0 := by
        refine h.closed w ?_
        rw [List.dropLast_cons_of_ne_nil hn]
        exact List.mem_cons_self
      obtain ⟨a, w, rfl⟩ := List.exists_cons_of_ne_nil hne
      rw [unwords_cons hn, pieces_append_of_unbroken hunbroken (by decide) hclosed,
        ih (h.of_isInfix (List.suffix_cons _ ws).isInfix)]
      rfl

/-- The pieces of a text are separate. -/
theorem separate_pieces (weigh : Char → Int) (t : Text) : Separate weigh (pieces weigh t) where
  ne_nil := pieces_ne_nil weigh t
  unbroken _ := unbroken_of_mem_pieces
  closed := by
    induction t using breakInduction weigh with
    | unbroken t h =>
      by_cases hn : t = []
      · subst hn
        simp [pieces, cut, flush]
      · simp [pieces_of_unbroken h hn]
    | broken s c u hs hc hd ih =>
      rw [pieces_append_of_unbroken hs hc hd]
      cases s with
      | nil => exact ih
      | cons a s =>
        have hflush : flush (a :: s, pieces weigh u) = (a :: s) :: pieces weigh u := rfl
        intro w hw
        by_cases hn : pieces weigh u = []
        · rw [hflush, hn] at hw
          cases hw
        · rw [hflush, List.dropLast_cons_of_ne_nil hn] at hw
          rcases List.mem_cons.1 hw with rfl | hw
          · exact hd
          · exact ih w hw

/-- Elements that stand side by side, put together again, are the elements of what this makes. -/
theorem elements_unwords (h : ws <:+: elements t) : elements (unwords ws) = ws :=
  ((separate_pieces weight t).of_isInfix h).pieces_unwords

/-! ## The ends of elements -/

/-- Unbroken text at depth zero does not begin with a blank. -/
theorem Unbroken.head?_not_blank (h : Unbroken weigh 0 t) : ∀ c ∈ t.head?, isBlank c = false := by
  intro c hc
  obtain ⟨t, rfl⟩ := List.head?_eq_some_iff.1 hc
  rw [← Bool.not_eq_true]
  exact fun hb => h [] c t rfl hb rfl

/-- A balanced text without a break has no blank at its ends. -/
theorem Unbroken.endsInked (h : Unbroken weight 0 t) (hz : balance t = 0) : EndsInked t := by
  refine ⟨h.head?_not_blank, fun c hc => ?_⟩
  obtain ⟨s, rfl⟩ := List.getLast?_eq_some_iff.1 hc
  rw [← Bool.not_eq_true]
  intro hb
  refine h s c [] rfl hb ?_
  rw [balance_append, balance_cons, weight_of_blank hb] at hz
  rw [depthAfter_weight]
  simpa using hz

/-- The elements of a text that does not end with a blank have no blank at their ends. -/
theorem endsInked_of_mem_elements (ht : ∀ c ∈ t.getLast?, isBlank c = false) (he : e ∈ elements t) :
    EndsInked e := by
  unfold elements at he
  induction t using breakInduction weight with
  | unbroken t h =>
    obtain rfl := eq_of_mem_pieces h he
    exact ⟨h.head?_not_blank, ht⟩
  | broken s c u hs hc hd ih =>
    rw [pieces_append_of_unbroken hs hc hd] at he
    rcases mem_flush he with rfl | he
    · rw [depthAfter_weight] at hd
      exact hs.endsInked (by omega)
    · refine ih (fun a ha => ht a ?_) he
      rw [List.getLast?_append, List.getLast?_cons, show u.getLast? = some a from ha]
      rfl

/-- Joined tokens have blanks at neither end if this is so of each of them. -/
theorem endsInked_unwords (h : ∀ w ∈ ws, w ≠ [] ∧ EndsInked w) : EndsInked (unwords ws) := by
  have hne : ∀ w ∈ ws, w ≠ [] := fun w hw => (h w hw).1
  constructor
  · rw [head?_unwords hne]
    cases ws with
    | nil => simp
    | cons w ws =>
      obtain ⟨a, w, rfl⟩ := List.exists_cons_of_ne_nil (hne w List.mem_cons_self)
      exact (h (a :: w) List.mem_cons_self).2.1
  · rw [getLast?_unwords hne]
    rcases List.eq_nil_or_concat ws with rfl | ⟨vs, w, rfl⟩
    · simp
    · have hw := h w (by simp)
      obtain ⟨c, hc⟩ := Option.ne_none_iff_exists'.1 (mt List.getLast?_eq_none_iff.1 hw.1)
      intro d hd
      have hflat : (vs.concat w).flatten = vs.flatten ++ w := by simp
      rw [hflat, List.getLast?_append, hc] at hd
      exact hw.2.2 d (by rw [hc]; exact hd)

/-! ## Texts without elements -/

/-- Only texts of blanks have no pieces. -/
theorem pieces_eq_nil_iff : pieces weigh t = [] ↔ ∀ c ∈ t, isBlank c = true := by
  have hunbroken : ∀ s, Unbroken weigh 0 s → (s = [] ↔ ∀ c ∈ s, isBlank c = true) := by
    intro s hs
    refine ⟨fun h => by simp [h], fun h => ?_⟩
    cases s with
    | nil => rfl
    | cons a s =>
      have := hs.head?_not_blank a rfl
      rw [h a List.mem_cons_self] at this
      cases this
  induction t using breakInduction weigh with
  | unbroken t h =>
    rw [← hunbroken t h]
    refine ⟨fun hp => ?_, fun hn => by rw [hn]; rfl⟩
    by_contra hn
    rw [pieces_of_unbroken h hn] at hp
    cases hp
  | broken s b u hs hb hd ih =>
    have hflush : flush (s, pieces weigh u) = [] ↔ s = [] ∧ pieces weigh u = [] := by
      cases s <;> simp [flush]
    have hu : pieces weigh u = [] ↔ ∀ c ∈ u, isBlank c = true := ih
    rw [pieces_append_of_unbroken hs hb hd, hflush, hunbroken s hs, hu]
    simp [or_imp, forall_and, hb]

/-! ## Trimmed texts -/

/-- The first character that is no blank is not changed by blanks around the text. -/
theorem find?_of_blanks {p q : Text} (hp : ∀ c ∈ p, isBlank c = true) (hq : ∀ c ∈ q, isBlank c = true)
    (ht : ∀ c ∈ t.head?, isBlank c = false) : (p ++ t ++ q).find? (fun c => !isBlank c) = t.head? := by
  have hnone : ∀ s : Text, (∀ c ∈ s, isBlank c = true) → s.find? (fun c => !isBlank c) = none :=
    fun s hs => List.find?_eq_none.2 fun c hc => by simp [hs c hc]
  rw [List.find?_append, List.find?_append, hnone p hp, hnone q hq]
  cases t with
  | nil => rfl
  | cons a t => simp [ht a rfl]

/-- Trimmed text begins with the first character that is no blank. -/
theorem head?_trim (t : Text) : (trim t).head? = t.find? fun c => !isBlank c := by
  obtain ⟨p, q, ht, hp, hq, he⟩ := exists_append_trim t
  rw [← find?_of_blanks hp hq he.1, ← ht]

/-- Trimmed text ends with the last character that is no blank. -/
theorem getLast?_trim (t : Text) : (trim t).getLast? = t.reverse.find? fun c => !isBlank c := by
  obtain ⟨p, q, ht, hp, hq, he⟩ := exists_append_trim t
  have hrev : t.reverse = q.reverse ++ (trim t).reverse ++ p.reverse := by
    conv => lhs; rw [ht]
    simp
  rw [hrev, find?_of_blanks (by simpa using hq) (by simpa using hp) (by simpa [List.head?_reverse] using he.2),
    List.head?_reverse]

/-- A trimmed text begins with the first character that is no blank. -/
theorem head?_trim_eq_some_iff (hc : isBlank c = false) :
    (trim t).head? = some c ↔ ∃ p u, t = p ++ c :: u ∧ ∀ a ∈ p, isBlank a = true := by
  rw [head?_trim, List.find?_eq_some_iff_append]
  simp [hc]

/-- A trimmed text ends with the last character that is no blank. -/
theorem getLast?_trim_eq_some_iff (hc : isBlank c = false) :
    (trim t).getLast? = some c ↔ ∃ s q, t = s ++ c :: q ∧ ∀ a ∈ q, isBlank a = true := by
  rw [getLast?_trim, List.find?_eq_some_iff_append]
  simp only [hc, Bool.not_false, Bool.not_not, true_and]
  constructor
  · rintro ⟨as, bs, h, has⟩
    refine ⟨bs.reverse, as.reverse, ?_, by simpa using has⟩
    rw [← List.reverse_reverse t, h]
    simp
  · rintro ⟨s, r, rfl, hr⟩
    exact ⟨r.reverse, s.reverse, by simp, by simpa using hr⟩

/-- Only texts of blanks are trimmed to nothing. -/
theorem forall_mem_trim_iff : (∀ c ∈ trim t, isBlank c = true) ↔ ∀ c ∈ t, isBlank c = true := by
  obtain ⟨p, q, ht, hp, hq, -⟩ := exists_append_trim t
  conv => rhs; rw [ht]
  simp only [List.mem_append, or_imp, forall_and]
  exact ⟨fun h => ⟨⟨hp, h⟩, hq⟩, fun h => h.1.2⟩

/-- Blanks around a text are no part of its tokens. -/
theorem words_append_of_blanks {p q : Text} (hp : ∀ c ∈ p, isBlank c = true) (hq : ∀ c ∈ q, isBlank c = true) :
    words (p ++ t ++ q) = words t := by
  have hnil : ∀ s : Text, (∀ c ∈ s, isBlank c = true) → words s = [] := fun s hs => pieces_eq_nil_iff.2 hs
  have hbehind : ∀ s : Text, words (s ++ q) = words s := fun s => by
    cases q with
    | nil => rw [List.append_nil]
    | cons c q => rw [words_append_blank (hq c List.mem_cons_self), hnil q fun a ha => hq a (List.mem_cons_of_mem c ha),
        List.append_nil]
  rw [hbehind]
  rcases List.eq_nil_or_concat p with rfl | ⟨p, c, rfl⟩
  · rfl
  · rw [List.concat_eq_append, List.append_assoc, List.singleton_append, words_append_blank (hp c (by simp)),
      hnil p fun a ha => hp a (by simp [ha]), List.nil_append]

/-- Trimming keeps the tokens. -/
theorem words_trim (t : Text) : words (trim t) = words t := by
  obtain ⟨p, q, ht, hp, hq, -⟩ := exists_append_trim t
  conv => rhs; rw [ht]
  rw [words_append_of_blanks hp hq]

/-- What stands in brackets that were put together of tokens is, trimmed, its own tokens put together. -/
theorem trim_of_unwords_words {t u : Text} (h : unwords (words t) = bracket u) : trim u = unwords (words u) := by
  have htight : Tight (bracket u) := by
    rw [← h]
    exact tight_unwords fun _ => words_of_mem_words
  obtain ⟨p, q, hu, -, -, he⟩ := exists_append_trim u
  have htrim : Tight (trim u) := htight.of_isInfix ⟨'[' :: p, q ++ [']'], by
    conv => rhs; rw [bracket, hu]
    simp⟩
  rw [← words_trim u]
  exact (unwords_pieces htrim he).symm

end MiniLogo.Text
