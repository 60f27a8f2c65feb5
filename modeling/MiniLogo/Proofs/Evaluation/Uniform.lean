import MiniLogo.Proofs.Evaluation.Congruence

/-!
# Relations that do not look at wants

Many properties of actions have nothing to do with the tokens they want. Such a relation between actions is shown of
evaluation from what it is made of in the end: questions to the feed, actions on the machine, failing, and one action
after another. It may still be broken by the binding of names and by the writing of lines (`Plain`). The actions on the
feed follow, and runs are related if their expressions are (`Plain.drive`). If names may be bound too (`Uniform`), then
the relation is a congruence but for the writing of lines (`Uniform.quiet`).

A relation that respects the writing of lines too, and going to another feed and giving up, holds between every
evaluation and itself (`Hereditary.eval`, `Hereditary.evalNext`, `Hereditary.run`, `Hereditary.load`).
-/

namespace MiniLogo

open MiniLogo.Action

/-- The relation respects what actions are made of, but for the binding of names and the writing of lines. -/
structure Plain (R : ∀ {α : Type}, Action α → Action α → Prop) : Prop where
  pure {α : Type} (a : α) : R (Pure.pure a) (Pure.pure a)
  fail {α : Type} (e : Fault) : R (Action.fail (α := α) e) (Action.fail e)
  bind {α β : Type} {x y : Action α} {f g : α → Action β} (hx : R x y) (hf : ∀ a, R (f a) (g a)) :
    R (x >>= f) (y >>= g)
  /-- A question to the feed, which puts no tokens into it. -/
  onFeed {α : Type} {f : Feed → α × Feed} (hf : ∀ feed, (f feed).2.tokens <:+ feed.tokens) :
    R (onFeed f) (Action.onFeed f)
  lookup (name : Text) : R (lookup name) (Action.lookup name)
  isBound (name : Text) : R (isBound name) (Action.isBound name)
  draw : R draw Action.draw
  halt : R halt Action.halt
  isHalted : R isHalted Action.isHalted

/-- The relation respects what actions are made of, but for the writing of lines. -/
structure Uniform (R : ∀ {α : Type}, Action α → Action α → Prop) : Prop extends Plain R where
  define (name : Text) (v : Value) : R (define name v) (Action.define name v)

/-- The relation respects all that evaluation does. -/
structure Hereditary (R : ∀ {α : Type}, Action α → Action α → Prop) : Prop extends Uniform R where
  giveUp {α : Type} : R (Action.giveUp (α := α)) Action.giveUp
  within {α : Type} {x y : Action α} (hx : R x y) (feed : Feed) : R (within feed x) (Action.within feed y)
  writeLine (t : Text) : R (writeLine t) (Action.writeLine t)

/-! ## The feed -/

/-- Tokens are only ever taken from the front. -/
theorem Feed.tokens_takeClosing_suffix (n : Nat) (depth : Int) (f : Feed) :
    (f.takeClosing n depth).2.tokens <:+ f.tokens := by
  induction n generalizing depth f with
  | zero =>
    unfold takeClosing
    split
    · exact List.suffix_refl _
    · simpa using List.tail_suffix f.tokens
  | succ n ih =>
    by_cases hd : depth = 0
    · simp [hd]
    · have ht : f.next?.2.tokens <:+ f.tokens := by simpa using List.tail_suffix f.tokens
      cases hn : f.next? with
      | mk o g =>
        rw [hn] at ht
        cases o with
        | some t =>
          rw [takeClosing_of_next? hd hn]
          exact (ih _ g).trans ht
        | none =>
          rw [takeClosing_of_next?_none hd hn]
          exact ht

theorem Feed.tokens_readBracketed_suffix (first : Text) (f : Feed) :
    (f.readBracketed first).2.tokens <:+ f.tokens := by
  have h := f.tokens_takeClosing_suffix f.size (Text.balance first)
  unfold readBracketed
  simp only
  split <;> exact h

namespace Plain

variable {R : ∀ {α : Type}, Action α → Action α → Prop} {next next' : Action Value}

/-- A computation is a value or a failure. -/
theorem ofExcept {α : Type} (h : Plain R) (r : Except Fault α) : R (ofExcept r) (Action.ofExcept r) := by
  cases r with
  | ok a => exact h.pure a
  | error e => exact h.fail e

theorem hasNext (h : Plain R) : R hasNext Action.hasNext :=
  h.onFeed fun feed => by simp

/-- To report a failure is to ask the feed for it, and to fail if there is one. -/
theorem reportFailure (h : Plain R) : R reportFailure Action.reportFailure :=
  h.bind (h.onFeed fun feed => by simp) fun o => by
    cases o with
    | some reason => exact h.fail _
    | none => exact h.pure ()

/-- To take a token is to ask the feed for it, and to fail if there is none. -/
theorem nextToken (h : Plain R) : R nextToken Action.nextToken :=
  h.bind (h.onFeed fun feed => by simpa using List.tail_suffix feed.tokens) fun o => by
    cases o with
    | some t => exact h.pure t
    | none => exact h.bind h.reportFailure fun _ => h.fail _

theorem readBracketed (h : Plain R) (first : Text) : R (readBracketed first) (Action.readBracketed first) :=
  h.bind (h.onFeed (Feed.tokens_readBracketed_suffix first)) h.ofExcept

/-! ## Evaluation -/

theorem finish (h : Plain R) (last : Option Value) : R (finish last) (Action.finish last) :=
  h.bind h.reportFailure fun _ => h.pure last

/-- Runs are related if their expressions are. -/
theorem drive (h : Plain R) (hg : R (giveUp (α := Option Value)) giveUp) (hn : R next next') (n : Nat)
    (last : Option Value) : R (drive next n last) (Action.drive next' n last) := by
  induction n generalizing last with
  | zero => exact hg
  | succ n ih =>
    refine h.bind h.isHalted fun halted => ?_
    cases halted with
    | true => exact h.finish last
    | false =>
      refine h.bind h.hasNext fun more => ?_
      cases more with
      | true => exact h.bind hn fun v => ih (some v)
      | false => exact h.finish last

end Plain

/-- The relation is a congruence but for the writing of lines, whatever is wanted. -/
theorem Uniform.quiet {R : ∀ {α : Type}, Action α → Action α → Prop} (h : Uniform R) :
    QuietCongruence fun _ x y => R x y where
  pure := h.pure
  fail _ e := h.fail e
  bind hx hf := h.bind hx hf
  nextToken := h.nextToken
  start hs hn := h.bind h.nextToken fun raw => by
    cases hw : Want.ofToken raw with
    | some ws => exact hs raw ws hw
    | none =>
      obtain ⟨e, hf, hg⟩ := hn raw hw
      rw [hf, hg]
      exact h.fail e
  readBracketed := h.readBracketed
  lookup := h.lookup
  isBound := h.isBound
  define := h.define
  draw := h.draw
  halt := h.halt

namespace Hereditary

variable {R : ∀ {α : Type}, Action α → Action α → Prop}

/-- Nothing breaks the relation. -/
theorem congruence (h : Hereditary R) : Congruence fun _ x y => R x y where
  toQuietCongruence := h.quiet
  writeLine := h.writeLine

/-- The induction on the fuel, done once for all such relations. -/
theorem eval (h : Hereditary R) (files : Files) (fuel : Nat) (raw : Text) :
    R (eval files fuel raw) (Action.eval files fuel raw) := by
  induction fuel generalizing raw with
  | zero => exact h.giveUp
  | succ fuel ih =>
    have hn : R (evalNext files fuel) (evalNext files fuel) := h.bind h.nextToken ih
    rw [eval_succ]
    cases hr : Want.ofToken raw with
    | some ws => exact h.congruence.evalWith hn (h.within (h.drive h.giveUp hn fuel none)) hr
    | none =>
      rw [Congruence.evalWith_eq_fail hr]
      exact h.fail _

theorem evalNext (h : Hereditary R) (files : Files) (fuel : Nat) :
    R (evalNext files fuel) (Action.evalNext files fuel) :=
  h.bind h.nextToken (h.eval files fuel)

theorem run (h : Hereditary R) (files : Files) (fuel : Nat) : R (run files fuel) (Action.run files fuel) :=
  h.drive h.giveUp (h.evalNext files fuel) fuel none

theorem load (h : Hereditary R) (files : Files) (fuel : Nat) (path : Text) :
    R (load files fuel path) (Action.load files fuel path) :=
  h.quiet.loadFile (h.within (h.run files fuel)) path

end Hereditary

end MiniLogo
