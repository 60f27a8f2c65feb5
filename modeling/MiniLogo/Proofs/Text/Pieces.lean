import MiniLogo.Proofs.Text.WellNested
import Mathlib.Data.List.Chain

/-!
# Pieces, from one break to the next

A text is unbroken at a depth if no blank of it stands at depth zero (`Unbroken`). Every text is unbroken or has a
first break (`unbroken_or_exists_break`), and is cut there: an unbroken text is one piece (`pieces_of_unbroken`), and
what comes after a break is cut on its own (`pieces_append_of_unbroken`). What holds of pieces is shown by induction
from one break to the next (`breakInduction`):

- no piece is broken (`unbroken_of_mem_pieces`);
- a tight text, that is one with single spaces for blanks and none at its ends, is its pieces put together again
  (`unwords_pieces`);
- the elements of a balanced text are balanced (`balance_of_mem_elements`).
-/

namespace MiniLogo.Text

variable {weigh : Char → Int} {c : Char} {s t u e : Text}

/-! ## Breaks -/

/-- The depth after a text that is begun at a given depth. -/
def depthAfter (weigh : Char → Int) (depth : Int) (t : Text) : Int := t.foldl (fun d c => d + weigh c) depth

@[simp] theorem depthAfter_nil (weigh : Char → Int) (depth : Int) : depthAfter weigh depth [] = depth := rfl

@[simp] theorem depthAfter_cons (weigh : Char → Int) (depth : Int) (c : Char) (t : Text) :
    depthAfter weigh depth (c :: t) = depthAfter weigh (depth + weigh c) t := rfl

/-- With brackets for weights the depth grows by the balance. -/
theorem depthAfter_weight (depth : Int) (t : Text) : depthAfter weight depth t = depth + balance t := by
  induction t generalizing depth with
  | nil => simp
  | cons c t ih =>
    rw [depthAfter_cons, ih, balance_cons]
    omega

/-- No blank stands at depth zero. -/
def Unbroken (weigh : Char → Int) (depth : Int) (t : Text) : Prop :=
  ∀ s c u, t = s ++ c :: u → isBlank c = true → depthAfter weigh depth s ≠ 0

theorem unbroken_nil (weigh : Char → Int) (depth : Int) : Unbroken weigh depth [] := by
  intro s c u h
  cases s <;> cases h

/-- Text is unbroken if it does not begin with a blank at depth zero, and goes on unbroken at the depth after its
first character. -/
theorem unbroken_cons_iff {depth : Int} : Unbroken weigh depth (c :: t) ↔
    ¬ (isBlank c = true ∧ depth = 0) ∧ Unbroken weigh (depth + weigh c) t := by
  constructor
  · intro h
    refine ⟨fun ⟨hc, hd⟩ => h [] c t rfl hc hd, fun s d u ht hb => ?_⟩
    exact h (c :: s) d u (by rw [ht]; rfl) hb
  · rintro ⟨hc, ht⟩ s d u hs hb
    cases s with
    | nil =>
      obtain ⟨rfl, -⟩ := List.cons.inj hs
      exact fun hd => hc ⟨hb, hd⟩
    | cons a s =>
      obtain ⟨rfl, rfl⟩ := List.cons.inj hs
      exact ht s d u rfl hb

/-- A text is unbroken or has a first break. -/
theorem unbroken_or_exists_break (weigh : Char → Int) (depth : Int) (t : Text) : Unbroken weigh depth t ∨
    ∃ s c u, t = s ++ c :: u ∧ Unbroken weigh depth s ∧ isBlank c = true ∧ depthAfter weigh depth s = 0 := by
  induction t generalizing depth with
  | nil => exact .inl (unbroken_nil weigh depth)
  | cons a t ih =>
    by_cases ha : isBlank a = true ∧ depth = 0
    · exact .inr ⟨[], a, t, rfl, unbroken_nil weigh depth, ha.1, ha.2⟩
    · rcases ih (depth + weigh a) with h | ⟨s, c, u, rfl, hs, hc, hd⟩
      · exact .inl (unbroken_cons_iff.2 ⟨ha, h⟩)
      · exact .inr ⟨a :: s, c, u, rfl, unbroken_cons_iff.2 ⟨ha, hs⟩, hc, hd⟩

/-- What holds of unbroken texts and is kept by putting an unbroken text and a break in front, holds of all. -/
theorem breakInduction (weigh : Char → Int) {motive : Text → Prop}
    (unbroken : ∀ t, Unbroken weigh 0 t → motive t)
    (broken : ∀ s c u, Unbroken weigh 0 s → isBlank c = true → depthAfter weigh 0 s = 0 → motive u →
      motive (s ++ c :: u)) (t : Text) : motive t := by
  induction hn : t.length using Nat.strong_induction_on generalizing t with
  | _ n ih =>
    subst hn
    rcases unbroken_or_exists_break weigh 0 t with h | ⟨s, c, u, rfl, hs, hc, hd⟩
    · exact unbroken t h
    · refine broken s c u hs hc hd (ih u.length ?_ u rfl)
      rw [List.length_append, List.length_cons]
      omega

/-! ## Cutting -/

/-- Unbroken text is one piece. -/
theorem cut_of_unbroken {depth : Int} (h : Unbroken weigh depth t) : cut weigh depth t = (t, []) := by
  induction t generalizing depth with
  | nil => rfl
  | cons c t ih =>
    obtain ⟨hc, ht⟩ := unbroken_cons_iff.1 h
    unfold cut
    rw [if_neg hc, ih ht]

/-- Unbroken text before a blank at depth zero is the first piece. -/
theorem cut_append_of_unbroken {depth : Int} (h : Unbroken weigh depth s) (hc : isBlank c = true)
    (hd : depthAfter weigh depth s = 0) (u : Text) : cut weigh depth (s ++ c :: u) = (s, pieces weigh u) := by
  induction s generalizing depth with
  | nil =>
    have hd : depth = 0 := hd
    show cut weigh depth (c :: u) = _
    unfold cut
    rw [if_pos ⟨hc, hd⟩]
    rfl
  | cons a s ih =>
    obtain ⟨ha, hs⟩ := unbroken_cons_iff.1 h
    show cut weigh depth (a :: (s ++ c :: u)) = _
    unfold cut
    rw [if_neg ha, ih hs hd]

/-- An unbroken text is one piece, unless it is empty. -/
theorem pieces_of_unbroken (h : Unbroken weigh 0 t) (ht : t ≠ []) : pieces weigh t = [t] := by
  obtain ⟨c, t, rfl⟩ := List.exists_cons_of_ne_nil ht
  rw [pieces, cut_of_unbroken h]
  rfl

/-- What comes after the first break is cut on its own. -/
theorem pieces_append_of_unbroken (h : Unbroken weigh 0 s) (hc : isBlank c = true) (hd : depthAfter weigh 0 s = 0)
    (u : Text) : pieces weigh (s ++ c :: u) = flush (s, pieces weigh u) := by
  rw [pieces, cut_append_of_unbroken h hc hd]

/-- Every piece is the first one or among the later ones. -/
theorem mem_flush {piece w : Text} {later : List Text} (h : w ∈ flush (piece, later)) : w = piece ∨ w ∈ later := by
  cases piece with
  | nil => exact .inr h
  | cons a piece => exact List.mem_cons.1 h

/-- The only piece of an unbroken text is the text. -/
theorem eq_of_mem_pieces (h : Unbroken weigh 0 t) (he : e ∈ pieces weigh t) : e = t := by
  by_cases hn : t = []
  · subst hn
    cases he
  · rwa [pieces_of_unbroken h hn, List.mem_singleton] at he

/-- No piece is broken. -/
theorem unbroken_of_mem_pieces (h : e ∈ pieces weigh t) : Unbroken weigh 0 e := by
  induction t using breakInduction weigh with
  | unbroken t ht =>
    rw [eq_of_mem_pieces ht h]
    exact ht
  | broken s c u hs hc hd ih =>
    rw [pieces_append_of_unbroken hs hc hd] at h
    rcases mem_flush h with rfl | h
    · exact hs
    · exact ih h

/-- Pieces stand in the text. -/
theorem infix_of_mem_pieces (h : e ∈ pieces weigh t) : e <:+: t := by
  induction t using breakInduction weigh with
  | unbroken t ht =>
    obtain rfl := eq_of_mem_pieces ht h
    exact List.infix_refl e
  | broken s c u hs hc hd ih =>
    rw [pieces_append_of_unbroken hs hc hd] at h
    rcases mem_flush h with rfl | h
    · exact (List.prefix_append _ _).isInfix
    · exact (ih h).trans ((List.suffix_cons c u).trans (List.suffix_append s _)).isInfix

/-! ## Tight texts -/

/-- The only blanks are single spaces. -/
structure Tight (t : Text) : Prop where
  single : t.IsChain fun a b => ¬ (isBlank a = true ∧ isBlank b = true)
  space : ∀ c ∈ t, isBlank c = true → c = ' '

/-- What stands in a tight text is tight. -/
theorem Tight.of_isInfix {s t : Text} (ht : Tight t) (h : s <:+: t) : Tight s where
  single := List.IsChain.infix ht.single h
  space := fun c hc => ht.space c (h.subset hc)

/-- Text without blanks is tight. -/
theorem tight_of_forall_not_blank (h : ∀ c ∈ t, isBlank c = false) : Tight t where
  single := by
    induction t with
    | nil => exact .nil
    | cons c t ih =>
      refine List.isChain_cons.2 ⟨fun d _ hcd => ?_, ih fun d hd => h d (List.mem_cons_of_mem c hd)⟩
      rw [h c List.mem_cons_self] at hcd
      exact Bool.false_ne_true hcd.1
  space := fun c hc hb => by
    rw [h c hc] at hb
    cases hb

/-- Tight texts with a character that is no blank between them are tight together. -/
theorem Tight.append_cons {s u : Text} (hs : Tight s) (hc : isBlank c = false) (hu : Tight u) :
    Tight (s ++ c :: u) where
  single := by
    refine List.isChain_append.2 ⟨hs.single, List.isChain_cons.2 ⟨fun a _ h => ?_, hu.single⟩, fun a _ b hb h => ?_⟩
    · rw [hc] at h
      exact Bool.false_ne_true h.1
    · obtain rfl : c = b := by simpa using hb
      rw [hc] at h
      exact Bool.false_ne_true h.2
  space := by
    intro a ha hb
    rcases List.mem_append.1 ha with ha | ha
    · exact hs.space a ha hb
    · rcases List.mem_cons.1 ha with rfl | ha
      · rw [hc] at hb
        cases hb
      · exact hu.space a ha hb

/-- Tight texts with a space between them are tight together, if the space has no blank beside it. -/
theorem Tight.append_space {s u : Text} (hs : Tight s) (hu : Tight u) (hl : ∀ c ∈ s.getLast?, isBlank c = false)
    (hh : ∀ c ∈ u.head?, isBlank c = false) : Tight (s ++ ' ' :: u) where
  single := by
    refine List.isChain_append.2 ⟨hs.single, List.isChain_cons.2 ⟨fun b hb h => ?_, hu.single⟩, fun a ha b _ h => ?_⟩
    · rw [hh b hb] at h
      exact Bool.false_ne_true h.2
    · rw [hl a ha] at h
      exact Bool.false_ne_true h.1
  space := by
    intro a ha hb
    rcases List.mem_append.1 ha with ha | ha
    · exact hs.space a ha hb
    · rcases List.mem_cons.1 ha with rfl | ha
      · rfl
      · exact hu.space a ha hb

/-- Brackets around tight text leave it tight. -/
theorem Tight.bracket (h : Tight t) : Tight (bracket t) := by
  have hnil : Tight [] := tight_of_forall_not_blank (by simp)
  have hopen : Tight ([] ++ '[' :: (t ++ [']'])) := hnil.append_cons rfl (h.append_cons rfl hnil)
  exact hopen

/-- A text neither of whose ends is a blank. -/
def EndsInked (t : Text) : Prop :=
  (∀ c ∈ t.head?, isBlank c = false) ∧ ∀ c ∈ t.getLast?, isBlank c = false

theorem unwords_cons {w : Text} {ws : List Text} (h : ws ≠ []) : unwords (w :: ws) = w ++ ' ' :: unwords ws := by
  obtain ⟨v, ws, rfl⟩ := List.exists_cons_of_ne_nil h
  exact unwords_cons_cons w v ws

/-- A tight text is its pieces with single spaces between them. -/
theorem unwords_pieces (ht : Tight t) (he : EndsInked t) : unwords (pieces weigh t) = t := by
  induction t using breakInduction weigh with
  | unbroken t h =>
    by_cases hn : t = []
    · subst hn
      rfl
    · rw [pieces_of_unbroken h hn, unwords_singleton]
  | broken s c u hs hc hd ih =>
    obtain ⟨hh, hl⟩ := he
    -- the break has inked characters on both sides
    obtain ⟨a, s, rfl⟩ : ∃ a s', s = a :: s' := by
      cases s with
      | nil =>
        rw [List.nil_append] at hh
        rw [hh c rfl] at hc
        cases hc
      | cons a s => exact ⟨a, s, rfl⟩
    obtain ⟨b, u, rfl⟩ : ∃ b u', u = b :: u' := by
      cases u with
      | nil =>
        rw [hl c (by rw [List.getLast?_concat]; rfl)] at hc
        cases hc
      | cons b u => exact ⟨b, u, rfl⟩
    obtain rfl : c = ' ' := ht.space c (by simp) hc
    have hb : isBlank b = false := by
      have hchain := (List.isChain_append_cons_cons.1 ht.single).2.1
      simpa [hc] using hchain
    have hu : unwords (pieces weigh (b :: u)) = b :: u := by
      refine ih (ht.of_isInfix ⟨a :: s ++ [' '], [], by simp⟩) ⟨fun d hd => ?_, fun d hd => hl d ?_⟩
      · obtain rfl : b = d := by simpa using hd
        exact hb
      · rw [List.getLast?_append, List.getLast?_cons_cons, show (b :: u).getLast? = some d from hd]
        rfl
    have hne : pieces weigh (b :: u) ≠ [] := by
      intro h
      rw [h] at hu
      cases hu
    rw [pieces_append_of_unbroken hs hc hd]
    show unwords ((a :: s) :: pieces weigh (b :: u)) = _
    rw [unwords_cons hne, hu]

/-! ## Elements -/

/-- The blanks between joined tokens do not count for the balance. -/
theorem balance_unwords (ws : List Text) : balance (unwords ws) = balance ws.flatten := by
  have hs : weight ' ' = 0 := rfl
  induction ws with
  | nil => rfl
  | cons w ws ih =>
    cases ws with
    | nil => simp
    | cons v ws =>
      rw [unwords_cons_cons, balance_append, balance_cons, ih, hs, List.flatten_cons (l := w), balance_append]
      omega

/-- The elements of a balanced text are balanced. -/
theorem balance_of_mem_elements (ht : balance t = 0) (h : e ∈ elements t) : balance e = 0 := by
  unfold elements at h
  induction t using breakInduction weight with
  | unbroken t hu =>
    rw [eq_of_mem_pieces hu h]
    exact ht
  | broken s c u hs hc hd ih =>
    rw [depthAfter_weight] at hd
    rw [balance_append, balance_cons, weight_of_blank hc] at ht
    rw [pieces_append_of_unbroken hs hc (by rw [depthAfter_weight]; exact hd)] at h
    rcases mem_flush h with rfl | h
    · omega
    · exact ih (by omega) h

end MiniLogo.Text
