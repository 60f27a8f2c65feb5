import MiniLogo.Proofs.Text.Elements

/-!
# A text is its elements and the blanks between them

Cutting a text at the blanks of depth zero loses nothing and makes nothing up (`elements_partition`). The elements stand
in the text in their order, with blanks before them, between them and behind them (`exists_gaps_pieces`); one after the
other they are the text without just those blanks that stand at depth zero (`flatten_elements`), and cutting them again,
put together with single spaces, gives them back.

All of this holds of any text. Where more brackets have been closed than opened the depth is not zero, so that blanks
end no element there; where a bracket is left open the last element is not balanced.
-/

namespace MiniLogo.Text

variable {weigh : Char → Int} {t e : Text}

/-! ## What is left out -/

/-- A text without the blanks that stand at depth zero. -/
def withoutBreaks (t : Text) : Text :=
  (t.zipIdx.filter fun p => !(isBlank p.1 && balance (t.take p.2) = 0)).map Prod.fst

/-- The pieces of what follows a text, at the depth after it, are what follows without the breaks. -/
theorem flatten_cut (s t : Text) : (cut weight (balance s) t).1 ++ (cut weight (balance s) t).2.flatten =
    ((t.zipIdx s.length).filter fun p => !(isBlank p.1 && balance ((s ++ t).take p.2) = 0)).map Prod.fst := by
  induction t generalizing s with
  | nil => rfl
  | cons c t ih =>
    have ih := ih (s ++ [c])
    rw [List.append_assoc, List.singleton_append, List.length_append, List.length_singleton, balance_append,
      balance_cons, balance_nil, Int.add_zero] at ih
    rw [List.zipIdx_cons, List.filter_cons, List.take_left, cut]
    by_cases hc : isBlank c = true ∧ balance s = 0
    · rw [weight_of_blank hc.1, hc.2] at ih
      simpa [hc, flatten_flush] using ih
    · have hkeep : (!(isBlank c && decide (balance s = 0))) = true := by
        rw [Bool.not_eq_true', ← Bool.not_eq_true, Bool.and_eq_true, decide_eq_true_eq]
        exact hc
      rw [if_neg hc, if_pos hkeep, List.map_cons, List.cons_append, ih]

/-- The elements one after the other are the text without the breaks. -/
theorem flatten_elements (t : Text) : (elements t).flatten = withoutBreaks t := by
  have h := flatten_cut [] t
  rw [elements, pieces, flatten_flush]
  exact h

/-! ## What stands between -/

/-- The pieces stand in the text in their order, with nothing but blanks around them, and at least one blank between
two of them. -/
theorem exists_gaps_pieces (weigh : Char → Int) (t : Text) : ∃ lead, ∃ gaps : List (Text × Text),
    gaps.map Prod.fst = pieces weigh t ∧ t = lead ++ gaps.flatMap (fun g => g.1 ++ g.2) ∧
    (∀ c ∈ lead, isBlank c = true) ∧ (∀ g ∈ gaps, ∀ c ∈ g.2, isBlank c = true) ∧ ∀ g ∈ gaps.dropLast, g.2 ≠ [] := by
  induction t using breakInduction weigh with
  | unbroken t h =>
    by_cases hn : t = []
    · subst hn
      exact ⟨[], [], rfl, rfl, nofun, nofun, nofun⟩
    · refine ⟨[], [(t, [])], by rw [pieces_of_unbroken h hn]; rfl, by simp, nofun, ?_, nofun⟩
      intro g hg c hc
      rw [List.mem_singleton.1 hg] at hc
      cases hc
  | broken s c u hs hc hd ih =>
    obtain ⟨lead, gaps, hpieces, rfl, hlead, hgaps, hbetween⟩ := ih
    rw [pieces_append_of_unbroken hs hc hd]
    have hlead' : ∀ a ∈ c :: lead, isBlank a = true := List.forall_mem_cons.2 ⟨hc, hlead⟩
    cases s with
    | nil => exact ⟨c :: lead, gaps, hpieces, by simp, hlead', hgaps, hbetween⟩
    | cons a s =>
      -- the break and the blanks after it are the gap behind the first piece
      refine ⟨[], (a :: s, c :: lead) :: gaps, by rw [List.map_cons, hpieces]; rfl, by simp, nofun,
        List.forall_mem_cons.2 ⟨hlead', hgaps⟩, ?_⟩
      intro g hg
      by_cases hn : gaps = []
      · rw [hn] at hg
        cases hg
      · rw [List.dropLast_cons_of_ne_nil hn] at hg
        rcases List.mem_cons.1 hg with rfl | hg
        · exact List.cons_ne_nil c lead
        · exact hbetween g hg

/-! ## Elements -/

/-- An element begins with a character that is no blank. -/
theorem exists_cons_of_mem_elements (h : e ∈ elements t) : ∃ c u, e = c :: u ∧ isBlank c = false := by
  obtain ⟨c, u, rfl⟩ := List.exists_cons_of_ne_nil (pieces_ne_nil weight t e h)
  exact ⟨c, u, rfl, (unbroken_of_mem_pieces h).head?_not_blank c rfl⟩

/-- No blank of an element stands at depth zero, counted from where the element begins. -/
theorem not_blank_of_mem_elements (h : e ∈ elements t) {s u : Text} {c : Char} (he : e = s ++ c :: u)
    (hs : balance s = 0) : isBlank c = false := by
  rw [← Bool.not_eq_true]
  intro hc
  refine unbroken_of_mem_pieces h s c u he hc ?_
  rw [depthAfter_weight, hs]
  rfl

/-- Only the last element may be left unbalanced. -/
theorem balance_of_mem_dropLast_elements (h : e ∈ (elements t).dropLast) : balance e = 0 := by
  have hclosed := (separate_pieces weight t).closed e h
  rwa [depthAfter_weight, Int.zero_add] at hclosed

/-- **A text is its elements and the blanks between them**, balanced or not. Each element begins with a character that
is no blank and has no blank at depth zero, counted from its own beginning. Each but the last has as many opening
brackets as closing ones. They stand in the text in their order, with blanks between them and at most blanks before and
behind them, and one after the other they are the text without just the blanks that stand at depth zero. Put together
again with single spaces they have the same elements. -/
theorem elements_partition (t : Text) :
    (∀ e ∈ elements t, (∃ c u, e = c :: u ∧ isBlank c = false) ∧
      ∀ s c u, e = s ++ c :: u → s.count '[' = s.count ']' → isBlank c = false) ∧
    (∀ e ∈ (elements t).dropLast, e.count '[' = e.count ']') ∧
    (∃ lead, ∃ gaps : List (Text × Text),
      gaps.map Prod.fst = elements t ∧ t = lead ++ gaps.flatMap (fun g => g.1 ++ g.2) ∧
      (∀ c ∈ lead, isBlank c = true) ∧ (∀ g ∈ gaps, ∀ c ∈ g.2, isBlank c = true) ∧ ∀ g ∈ gaps.dropLast, g.2 ≠ []) ∧
    (elements t).flatten = withoutBreaks t ∧
    elements (unwords (elements t)) = elements t := by
  refine ⟨fun e he => ⟨exists_cons_of_mem_elements he, fun s c u hsplit hs => ?_⟩, fun e he => ?_,
    exists_gaps_pieces weight t, flatten_elements t, elements_unwords (List.infix_refl _)⟩
  · exact not_blank_of_mem_elements he hsplit (balance_eq_zero_iff.2 hs)
  · exact balance_eq_zero_iff.1 (balance_of_mem_dropLast_elements he)

/-- A bracket too many is closed before one is opened, and the last element is left open. -/
theorem elements_partition_of_unbalanced :
    let t := "\ta ]b c[  [d  e]f  [g h".toList
    let es := ["a".toList, "]b c[".toList, "[d  e]f".toList, "[g h".toList]
    elements t = es ∧ ("]b c[".toList.count '[' = "]b c[".toList.count ']') ∧
      "a]b c[[d  e]f[g h".toList = withoutBreaks t ∧ elements (unwords es) = es := by
  intro t es
  have hes : elements t = es := by decide +kernel
  obtain ⟨-, hbalanced, -, hflatten, hagain⟩ := elements_partition t
  rw [hes] at hbalanced hflatten hagain
  exact ⟨hes, hbalanced _ (by decide), hflatten, hagain⟩

end MiniLogo.Text
