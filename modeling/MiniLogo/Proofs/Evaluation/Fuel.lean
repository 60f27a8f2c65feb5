import MiniLogo.Proofs.Evaluation.Drive
import MiniLogo.Proofs.Evaluation.Uniform

/-!
# How evaluations end

More fuel keeps the end of an evaluation (`approximates_evalNext`, `approximates_run`), which is one more relation
that evaluation respects (`approximates_congruence`). So an evaluation ends in one way or in none, whatever fuel it is
given: `Ends` is that end, and it is unique (`Ends.unique`).
-/

namespace MiniLogo

open MiniLogo.Action

variable {α β : Type}

/-! ## More fuel -/

/-- Where the one action ends, the other one ends in the same way. -/
def Approximates (x y : Action α) : Prop := ∀ s, x s = .unfinished ∨ x s = y s

theorem Approximates.refl (x : Action α) : Approximates x x := fun _ => .inr rfl

theorem Approximates.trans {x y z : Action α} (hxy : Approximates x y) (hyz : Approximates y z) :
    Approximates x z := by
  intro s
  rcases hxy s with h | h
  · exact .inl h
  · rw [h]
    exact hyz s

/-- One action after another approximates another such pair, if both do. -/
theorem Approximates.bind {x y : Action α} {f g : α → Action β} (hx : Approximates x y)
    (hf : ∀ a, Approximates (f a) (g a)) : Approximates (x >>= f) (y >>= g) := by
  intro s
  rw [bind_apply, bind_apply]
  rcases hx s with h | h
  · rw [h]
    exact .inl rfl
  · rw [← h]
    cases x s with
    | done a after => exact hf a after
    | failed e after => exact .inr rfl
    | unfinished => exact .inl rfl

theorem Approximates.within {x y : Action α} (h : Approximates x y) (feed : Feed) :
    Approximates (within feed x) (within feed y) := by
  intro s
  unfold Action.within
  rcases h { s with feed } with h | h
  · rw [h]
    exact .inl rfl
  · rw [h]
    exact .inr rfl

/-- An action that ends is as good as what it approximates. -/
theorem Approximates.apply_eq {x y : Action α} (h : Approximates x y) {s : State} {r : Except Fault α} {m : Machine}
    {f : Feed} (hx : x s = .of r m f) : y s = .of r m f := by
  rcases h s with hs | hs
  · rw [hs] at hx
    cases r <;> cases hx
  · rw [← hs, hx]

theorem approximates_uniform : Uniform fun x y => Approximates x y where
  pure _ := .refl _
  fail _ := .refl _
  bind hx hf := hx.bind hf
  onFeed _ := .refl _
  lookup _ := .refl _
  isBound _ := .refl _
  define _ _ := .refl _
  draw := .refl _
  halt := .refl _
  isHalted := .refl _

theorem approximates_congruence : Congruence fun _ x y => Approximates x y where
  toQuietCongruence := approximates_uniform.quiet
  writeLine _ := .refl _

/-- A run goes on in the same way with better operands and more fuel. -/
theorem approximates_drive {next next' : Action Value} (hnext : Approximates next next') {n k : Nat} (h : n ≤ k)
    (last : Option Value) : Approximates (drive next n last) (drive next' k last) := by
  induction n generalizing k last with
  | zero => exact fun s => .inl rfl
  | succ n ih =>
    obtain ⟨k, rfl⟩ : ∃ k', k = k' + 1 := ⟨k - 1, by omega⟩
    refine (Approximates.refl isHalted).bind fun halted => ?_
    cases halted with
    | true => exact .refl _
    | false =>
      refine (Approximates.refl hasNext).bind fun more => ?_
      cases more with
      | true => exact hnext.bind fun v => ih (by omega) (some v)
      | false => exact .refl _

/-- One more unit of fuel changes nothing that has ended. -/
theorem approximates_evalNext_succ (files : Files) (n : Nat) :
    Approximates (evalNext files n) (evalNext files (n + 1)) := by
  induction n with
  | zero => exact (Approximates.refl nextToken).bind fun raw s => .inl rfl
  | succ n ih =>
    have hl : ∀ feed, Approximates (within feed (run files n)) (within feed (run files (n + 1))) := fun feed =>
      (approximates_drive ih (Nat.le_succ n) none).within feed
    exact approximates_congruence.expression ih hl

/-- More fuel keeps the end of an expression. -/
theorem approximates_evalNext (files : Files) {n k : Nat} (h : n ≤ k) :
    Approximates (evalNext files n) (evalNext files k) := by
  induction h with
  | refl => exact .refl _
  | step _ ih => exact ih.trans (approximates_evalNext_succ files _)

/-- More fuel keeps the end of a run. -/
theorem approximates_run (files : Files) {n k : Nat} (h : n ≤ k) : Approximates (run files n) (run files k) :=
  approximates_drive (approximates_evalNext files h) h none

/-! ## Ends -/

/-- With enough fuel the evaluation ends: with this result, this machine and these tokens left. -/
def Ends (x : Nat → Action α) (s : State) (r : Except Fault α) (m : Machine) (us : List Text) : Prop :=
  ∃ (fuel : Nat) (f : Feed), x fuel s = .of r m f ∧ f.tokens = us

/-- A run ends in the same way with every feed that has the same tokens and does not fail. -/
theorem ends_run_of_tokens_eq {files : Files} {m m' : Machine} {f g : Feed} {r : Except Fault (Option Value)}
    {us : List Text} (h : Ends (run files) ⟨m, f⟩ r m' us) (ht : g.tokens = f.tokens) (hf : f.failure = none)
    (hg : g.failure = none) : Ends (run files) ⟨m, g⟩ r m' us := by
  obtain ⟨n, f', hn, rfl⟩ := h
  obtain ⟨o, g', rfl, hg', ht'⟩ := drive_of_tokens_eq (reads_evalNext files n) hn ht hf hg none
  exact ⟨n, g', by rw [map_or_none] at hg' ⊢; exact hg', ht'⟩

/-- An evaluation ends in one way. -/
theorem Ends.unique {x : Nat → Action α} (hx : ∀ {n k}, n ≤ k → Approximates (x n) (x k)) {s : State}
    {r r' : Except Fault α} {m m' : Machine} {us us' : List Text} (h : Ends x s r m us) (h' : Ends x s r' m' us') :
    r = r' ∧ m = m' ∧ us = us' := by
  obtain ⟨n, f, hn, rfl⟩ := h
  obtain ⟨k, f', hk, rfl⟩ := h'
  have hn' := (hx (Nat.le_max_left n k)).apply_eq hn
  have hk' := (hx (Nat.le_max_right n k)).apply_eq hk
  obtain ⟨rfl, rfl, rfl⟩ := Outcome.of_inj (hn'.symm.trans hk')
  exact ⟨rfl, rfl, rfl⟩

end MiniLogo
