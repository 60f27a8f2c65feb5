import Mathlib.Control.Monad.Basic
import MiniLogo.Proofs.Evaluation.Consumption
import MiniLogo.Proofs.Evaluation.Uniform

/-!
# What evaluation does to the machine

Evaluation does four things to the machine: it binds names, writes, draws and halts. A reflexive and transitive
relation between machines that none of the four breaks (`Advances`) relates the machine that an evaluation finds to
the one it leaves, however it ends (`moves_hereditary`). If only the binding of names breaks it (`Steady`), then it
does so for all that binds no names (`moves_plain`).

One such relation says that the stream of draws is never exchanged for another one (`sameDraws_advances`). Streams
cannot be compared by computing, but all else that an evaluation leaves can; so where it leaves the rest of a given
outcome, it has that outcome (`Moves.eq_of_visible`, `run_eq_of_visible`).
-/

namespace MiniLogo

open MiniLogo.Action

variable {α β : Type} {Q : Machine → Machine → Prop}

/-- However the action ends, the machine it finds is related to the one it leaves. -/
def Moves (Q : Machine → Machine → Prop) (x : Action α) : Prop := ∀ s r m f, x s = .of r m f → Q s.toMachine m

/-- The relation holds after each change that evaluation makes to a machine without binding a name, and after any number
of them. -/
structure Steady (Q : Machine → Machine → Prop) : Prop where
  refl (m : Machine) : Q m m
  trans {m₁ m₂ m₃ : Machine} (h : Q m₁ m₂) (h' : Q m₂ m₃) : Q m₁ m₃
  write (m : Machine) (bytes : Bytes) : Q m { m with output := (m.output.write bytes).2 }
  draw (m : Machine) : Q m { m with generator := m.generator.draw.2 }
  halt (m : Machine) : Q m { m with halted := true }

/-- The relation holds after each change that evaluation makes to a machine, and after any number of them. -/
structure Advances (Q : Machine → Machine → Prop) : Prop extends Steady Q where
  define (m : Machine) (name : Text) (v : Value) : Q m { m with environment := m.environment.define name v }

/-- What has one end moves the machine as that end does. -/
theorem moves_of_end {x : Action α} (h : ∀ s, ∃ r m f, x s = .of r m f ∧ Q s.toMachine m) : Moves Q x := by
  intro s r m f hx
  obtain ⟨r', m', f', hx', hm⟩ := h s
  obtain ⟨-, rfl, -⟩ := Outcome.of_inj (hx'.symm.trans hx)
  exact hm

theorem moves_giveUp : Moves Q (giveUp (α := α)) := fun s r m f h => by cases r <;> cases h

/-- The machine moves on a feed of its own as it does on any other. -/
theorem Moves.within {x : Action α} (h : Moves Q x) (feed : Feed) : Moves Q (within feed x) := by
  intro s r m f hw
  obtain ⟨-, f₀, hx⟩ := within_eq_of_iff.1 hw
  exact h ⟨s.toMachine, feed⟩ r m f₀ hx

/-- One move after another is a move, and a fault leaves the machine where it happened. -/
theorem Moves.bind (hQ : Steady Q) {x : Action α} {k : α → Action β} (hx : Moves Q x) (hk : ∀ a, Moves Q (k a)) :
    Moves Q (x >>= k) := by
  intro s r m f h
  rcases bind_eq_of_iff.1 h with ⟨e, he, -⟩ | ⟨a, after, ha, hka⟩
  · exact hx s (.error e) m f he
  · exact hQ.trans (hx s (.ok a) after.toMachine after.feed ha) (hk a after r m f hka)

theorem moves_lookup (hQ : Steady Q) (name : Text) : Moves Q (lookup name) := by
  refine moves_of_end fun s => ?_
  obtain ⟨r, hr, -⟩ := lookup_ends name s.toMachine
  exact ⟨r, _, s.feed, hr s.feed, hQ.refl _⟩

theorem moves_writeLine (hQ : Steady Q) (t : Text) : Moves Q (writeLine t) := by
  refine moves_of_end fun s => ?_
  obtain ⟨r, hr⟩ := writeLine_ends t s.toMachine
  exact ⟨r, _, s.feed, hr s.feed, hQ.write _ _⟩

/-- What evaluation is made of but for the binding of names moves the machine along a steady relation. -/
theorem moves_plain (hQ : Steady Q) : Plain fun x _ => Moves Q x where
  pure a := moves_of_end fun s => ⟨.ok a, _, s.feed, rfl, hQ.refl _⟩
  fail e := moves_of_end fun s => ⟨.error e, _, s.feed, rfl, hQ.refl _⟩
  bind hx hf := hx.bind hQ hf
  onFeed {_ f} _ := moves_of_end fun s => ⟨.ok (f s.feed).1, _, (f s.feed).2, rfl, hQ.refl _⟩
  lookup := moves_lookup hQ
  isBound name := moves_of_end fun s => ⟨.ok (s.environment.contains name), _, s.feed, rfl, hQ.refl _⟩
  draw := moves_of_end fun s => ⟨.ok s.generator.draw.1, _, s.feed, rfl, hQ.draw _⟩
  halt := moves_of_end fun s => ⟨.ok (), _, s.feed, rfl, hQ.halt _⟩
  isHalted := moves_of_end fun s => ⟨.ok s.halted, _, s.feed, rfl, hQ.refl _⟩

/-- All that evaluation is made of moves the machine along a relation that advances. -/
theorem moves_hereditary (hQ : Advances Q) : Hereditary fun x _ => Moves Q x where
  toPlain := moves_plain hQ.toSteady
  define _ _ := moves_of_end fun s => ⟨.ok (), _, s.feed, rfl, hQ.define _ _ _⟩
  giveUp := moves_giveUp
  within hx := hx.within
  writeLine := moves_writeLine hQ.toSteady

/-! ## Draws -/

/-- Both machines draw from one stream, though they may have come to different places of it. -/
def Machine.SameDraws (m m' : Machine) : Prop := m'.generator.draws = m.generator.draws

/-- The stream of draws is never exchanged. -/
theorem sameDraws_advances : Advances Machine.SameDraws where
  refl _ := rfl
  trans h h' := h'.trans h
  define _ _ _ := rfl
  write _ _ := rfl
  draw _ := rfl
  halt _ := rfl

/-- Evaluation draws from the stream it found. -/
theorem sameDraws_hereditary : Hereditary fun x _ => Moves Machine.SameDraws x := moves_hereditary sameDraws_advances

/-- All of a state but the stream of draws. -/
structure Visible where
  environment : Environment
  output : Sink
  drawn : Nat
  halted : Bool
  feed : Feed
  deriving DecidableEq

def State.visible (s : State) : Visible where
  environment := s.environment
  output := s.output
  drawn := s.generator.drawn
  halted := s.halted
  feed := s.feed

/-- All of an outcome but the stream of draws. -/
def Outcome.visible? : Outcome α → Option (Except Fault α × Visible)
  | .done a s => some (.ok a, s.visible)
  | .failed e s => some (.error e, s.visible)
  | .unfinished => none

/-- The stream of draws that an outcome leaves. -/
def Outcome.draws? : Outcome α → Option (Nat → Float)
  | .done _ s | .failed _ s => some s.generator.draws
  | .unfinished => none

theorem State.eq_of_visible {s t : State} (h : s.visible = t.visible)
    (hd : s.generator.draws = t.generator.draws) : s = t := by
  obtain ⟨⟨environment, output, ⟨draws, drawn⟩, halted⟩, feed⟩ := s
  obtain ⟨⟨environment', output', ⟨draws', drawn'⟩, halted'⟩, feed'⟩ := t
  obtain ⟨rfl, rfl, rfl, rfl, rfl⟩ := Visible.mk.inj h
  obtain rfl : draws = draws' := hd
  rfl

/-- Outcomes are the same if all of them but the stream is, and the stream too. -/
theorem Outcome.eq_of_visible {o o' : Outcome α} (h : o.visible? = o'.visible?) (hd : o.draws? = o'.draws?) :
    o = o' := by
  cases o <;> cases o' <;> simp only [visible?, draws?, Option.some.injEq, Prod.mk.injEq, reduceCtorEq,
    Except.ok.injEq, Except.error.injEq, false_and] at h hd
  case done.done =>
    obtain ⟨rfl, h⟩ := h
    rw [State.eq_of_visible h hd]
  case failed.failed =>
    obtain ⟨rfl, h⟩ := h
    rw [State.eq_of_visible h hd]
  case unfinished.unfinished => rfl

/-- An outcome is known as soon as all of it but the draws is. -/
theorem Moves.eq_of_visible {x : Action α} (hx : Moves Machine.SameDraws x) {s : State} {o : Outcome α}
    (hd : o.draws? = some s.generator.draws) (h : (x s).visible? = o.visible?) : x s = o := by
  refine Outcome.eq_of_visible h ?_
  rw [hd]
  cases hxs : x s with
  | done a after => exact congrArg some (hx s (.ok a) after.toMachine after.feed hxs)
  | failed e after => exact congrArg some (hx s (.error e) after.toMachine after.feed hxs)
  | unfinished =>
    rw [hxs] at h
    cases o <;> cases h
    cases hd

theorem eval_eq_of_visible {files : Files} {fuel : Nat} {raw : Text} {s : State} {o : Outcome Value}
    (hd : o.draws? = some s.generator.draws) (h : (eval files fuel raw s).visible? = o.visible?) :
    eval files fuel raw s = o :=
  (sameDraws_hereditary.eval files fuel raw).eq_of_visible hd h

theorem evalNext_eq_of_visible {files : Files} {fuel : Nat} {s : State} {o : Outcome Value}
    (hd : o.draws? = some s.generator.draws) (h : (evalNext files fuel s).visible? = o.visible?) :
    evalNext files fuel s = o :=
  (sameDraws_hereditary.evalNext files fuel).eq_of_visible hd h

/-- What a run leaves can be computed, for any stream of draws that it finds. -/
theorem run_eq_of_visible {files : Files} {fuel : Nat} {s : State} {o : Outcome (Option Value)}
    (hd : o.draws? = some s.generator.draws) (h : (run files fuel s).visible? = o.visible?) : run files fuel s = o :=
  (sameDraws_hereditary.run files fuel).eq_of_visible hd h

end MiniLogo
