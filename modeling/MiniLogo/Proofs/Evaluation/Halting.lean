import MiniLogo.Proofs.Evaluation.Bodies
import MiniLogo.Proofs.Evaluation.Uniform

/-!
# Halted machines

On a halted machine a run does nothing at all (`run_of_halted`), and so a body that `run`, `if` or `load` executes has
no effect (`runList_of_halted`, `load_of_halted`). Only operands are still evaluated, and these take tokens. So every
expression ends there, whatever the variables and the files hold (`endsHalted_evalNext`), by induction on the number
of tokens that are left.
-/

namespace MiniLogo

open MiniLogo.Action

variable {α β : Type} {files : Files} {k : Nat} {s : State}

/-! ## Runs -/

theorem Feed.takeFailure?_eq_of_none {f : Feed} (h : f.failure = none) : f.takeFailure? = (none, f) := by
  unfold takeFailure?
  split <;> simp [← h]

/-- On a halted machine a run takes no token, changes nothing and has no value. -/
theorem run_of_halted (hh : s.halted = true) (hf : s.feed.failure = none) (files : Files) (fuel : Nat) :
    run files (fuel + 1) s = .done none s := by
  have ht := Feed.takeFailure?_eq_of_none hf
  unfold run
  rw [drive_halted hh, finish_of_none (by rw [ht]), ht]

/-- On a halted machine a text is not run. -/
theorem within_of_halted (hh : s.halted = true) (t : Text) (files : Files) (fuel : Nat) :
    within (.ofText t) (run files (fuel + 1)) s = .done none s := by
  unfold within
  rw [run_of_halted (s := { s with feed := .ofText t }) hh rfl]

/-- On a halted machine the body that `run` or `if` executes has no effect. -/
theorem runList_of_halted (hh : s.halted = true) (files : Files) (fuel : Nat) (v : Value) :
    runList (run files (fuel + 1)) v s =
      if (Text.unbracket? v.text).isSome then .done .emptyList s else .failed (.notAList v.text) s := by
  unfold runList
  cases Text.unbracket? v.text with
  | some interior =>
    simp only
    rw [bind_apply, within_of_halted hh]
    rfl
  | none => rfl

/-- On a halted machine the file that `load` evaluates has no effect. -/
theorem load_of_halted (hh : s.halted = true) (files : Files) (fuel : Nat) (path : Text) :
    load files (fuel + 1) path s = match files path with
      | .ok _ => .done (.bool true) s
      | .error reason => .failed (.unreadableFile path reason) s := by
  unfold load loadFile
  cases files path with
  | ok bytes =>
    simp only
    rw [bind_apply, within_of_halted hh]
    rfl
  | error reason => rfl

/-! ## Expressions -/

/-- From a halted machine and at most `k` tokens the action ends, and so it leaves them. -/
def EndsHalted (k : Nat) (x : Action α) : Prop :=
  ∀ s, s.halted = true → s.feed.size ≤ k → ∃ r m f, x s = .of r m f ∧ m.halted = true ∧ f.size ≤ k

theorem EndsHalted.bind {x : Action α} {f : α → Action β} (hx : EndsHalted k x) (hf : ∀ a, EndsHalted k (f a)) :
    EndsHalted k (x >>= f) := by
  intro s hh hs
  obtain ⟨r, m, g, hxs, hm, hg⟩ := hx s hh hs
  rw [bind_apply, hxs]
  cases r with
  | ok a => exact hf a ⟨m, g⟩ hm hg
  | error e => exact ⟨.error e, m, g, rfl, hm, hg⟩

/-- What leaves the feed alone and has an end ends. -/
theorem endsHalted_of_end {x : Action α}
    (h : ∀ s, ∃ r m, x s = .of r m s.feed ∧ (s.halted = true → m.halted = true)) : EndsHalted k x := by
  intro s hh hs
  obtain ⟨r, m, hx, hm⟩ := h s
  exact ⟨r, m, s.feed, hx, hm hh, hs⟩

theorem endsHalted_lookup (name : Text) : EndsHalted k (lookup name) := by
  refine endsHalted_of_end fun s => ?_
  obtain ⟨r, hr, -⟩ := lookup_ends name s.toMachine
  exact ⟨r, s.toMachine, hr s.feed, id⟩

theorem endsHalted_writeLine (t : Text) : EndsHalted k (writeLine t) := by
  refine endsHalted_of_end fun s => ?_
  obtain ⟨r, hr⟩ := writeLine_ends t s.toMachine
  exact ⟨r, _, hr s.feed, id⟩

/-- All that evaluation is made of, but for the writing of lines, ends on a halted machine. -/
theorem endsHalted_uniform (k : Nat) : Uniform fun x _ => EndsHalted k x where
  pure a := endsHalted_of_end fun s => ⟨.ok a, s.toMachine, rfl, id⟩
  fail e := endsHalted_of_end fun s => ⟨.error e, s.toMachine, rfl, id⟩
  bind hx hf := hx.bind hf
  onFeed {_ f} hf := fun s hh hs => ⟨.ok (f s.feed).1, s.toMachine, (f s.feed).2, rfl, hh,
    Nat.le_trans (hf s.feed).length_le hs⟩
  lookup := endsHalted_lookup
  isBound name := endsHalted_of_end fun s => ⟨.ok (s.environment.contains name), s.toMachine, rfl, id⟩
  define name v := endsHalted_of_end fun s =>
    ⟨.ok (), { s.toMachine with environment := s.environment.define name v }, rfl, id⟩
  draw := endsHalted_of_end fun s => ⟨.ok s.generator.draw.1, _, rfl, id⟩
  halt := endsHalted_of_end fun s => ⟨.ok (), { s.toMachine with halted := true }, rfl, fun _ => rfl⟩
  isHalted := endsHalted_of_end fun s => ⟨.ok s.halted, s.toMachine, rfl, id⟩

/-- On a halted machine all that evaluation is made of ends. -/
theorem endsHalted_congruence (k : Nat) : Congruence fun _ x _ => EndsHalted k x where
  toQuietCongruence := (endsHalted_uniform k).quiet
  writeLine := endsHalted_writeLine

/-- On a halted machine runs on a feed of their own end, whatever they are given. -/
theorem endsHalted_within (files : Files) (fuel : Nat) (feed : Feed) :
    EndsHalted k (within feed (run files (fuel + 1))) := by
  intro s hh hs
  have hrun : run files (fuel + 1) ⟨s.toMachine, feed⟩ = finish none ⟨s.toMachine, feed⟩ := drive_halted hh
  obtain ⟨r, m, f, hf, hm, -⟩ :=
    (endsHalted_uniform feed.size).finish none ⟨s.toMachine, feed⟩ hh (Nat.le_refl feed.size)
  exact ⟨r, m, s.feed, within_eq_of_iff.2 ⟨rfl, f, hrun.trans hf⟩, hm, hs⟩

/-- Without a token an expression ends with a fault. -/
theorem evalNext_of_nil {m : Machine} {f : Feed} (h : f.tokens = []) (files : Files) (n : Nat) :
    ∃ g, evalNext files n ⟨m, f⟩ = .of (.error (Want.raw.fault f.failure)) m g ∧ g.tokens = [] := by
  obtain ⟨g, hg, hnil, -⟩ := nextToken_of_nil (m := m) h
  exact ⟨g, bind_eq_of_iff.2 (.inl ⟨_, hg, rfl⟩), hnil⟩

/-- On a halted machine an expression ends with as much fuel as there are tokens, and one unit more. -/
theorem endsHalted_evalNext (files : Files) (k : Nat) : EndsHalted k (evalNext files (k + 1)) := by
  induction k with
  | zero =>
    intro s hh hs
    have ht : s.feed.tokens = [] := List.length_eq_zero_iff.1 (Nat.le_zero.1 hs)
    obtain ⟨g, hg, hnil⟩ := evalNext_of_nil (m := s.toMachine) ht files 1
    exact ⟨_, s.toMachine, g, hg, hh, by simp [Feed.size, hnil]⟩
  | succ k ih =>
    intro s hh hs
    cases ht : s.feed.tokens with
    | nil =>
      obtain ⟨g, hg, hnil⟩ := evalNext_of_nil (m := s.toMachine) ht files (k + 2)
      exact ⟨_, s.toMachine, g, hg, hh, by simp [Feed.size, hnil]⟩
    | cons t us =>
      -- the token is gone when its operands are evaluated
      obtain ⟨g, hg, hl⟩ := evalNext_of_cons (m := s.toMachine) ht files (k + 1)
      have hsize : g.size ≤ k := by
        rw [Feed.size, ht, List.length_cons] at hs
        rw [Feed.size, hl.tokens]
        omega
      have hwith : EndsHalted k (evalWith files (evalNext files (k + 1)) (run files (k + 1)) t) := by
        cases hw : Want.ofToken t with
        | some ws =>
          exact @Congruence.evalWith _ files _ giveUp _ giveUp (endsHalted_congruence k) ih
            (endsHalted_within files k) t ws hw
        | none =>
          rw [Congruence.evalWith_eq_fail hw]
          exact (endsHalted_uniform k).fail _
      obtain ⟨r, m, f, hf, hm, hfk⟩ := hwith ⟨s.toMachine, g⟩ hh hsize
      exact ⟨r, m, f, hg.trans hf, hm, Nat.le_succ_of_le hfk⟩

/-- On a halted machine every expression ends, whatever the variables and the files hold. -/
theorem evalNext_of_halted (hh : s.halted = true) (files : Files) :
    ∃ r m f, evalNext files (s.feed.size + 1) s = .of r m f ∧ m.halted = true := by
  obtain ⟨r, m, f, h, hm, -⟩ := endsHalted_evalNext files s.feed.size s hh (Nat.le_refl _)
  exact ⟨r, m, f, h, hm⟩

end MiniLogo
