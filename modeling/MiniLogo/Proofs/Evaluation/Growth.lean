import Mathlib.Logic.Relation
import MiniLogo.Proofs.Evaluation.Bodies
import MiniLogo.Proofs.Evaluation.Moves

/-!
# What evaluation leaves in place

However an evaluation ends, with a value or with a fault, the machine it leaves extends the one it began with
(`Machine.Extends`): the frames below the top one are the same, the top one still binds what it did, a halt stays, and
what was written stays in front of what is written. Each of the four things that evaluation does to a machine keeps to
this (`extends_advances`), and so does all that evaluation is made of (`grows_hereditary`).

Calls into evaluation follow one another in a session, whatever source each of them has and whether or not those
before it failed (`Call`). Since machines only grow, a name for which `isname` was true once stays one
(`session_extends`).
-/

namespace MiniLogo

open MiniLogo.Action

variable {α β : Type} {m m' : Machine} {name : Text}

/-! ## Machines that extend others -/

/-- The second machine has what evaluation leaves in place of the first one. -/
structure Machine.Extends (m m' : Machine) : Prop where
  below : m'.environment.below = m.environment.below
  bound {name : Text} (h : m.environment.top.contains name = true) : m'.environment.top.contains name = true
  halted (h : m.halted = true) : m'.halted = true
  written : m.output.written <+: m'.output.written
  /-- Output without a limit stays so. -/
  unlimited (h : m.output.room = none) : m'.output.room = none

namespace Machine.Extends

theorem refl (m : Machine) : m.Extends m := ⟨rfl, id, id, List.prefix_refl _, id⟩

theorem trans {m₁ m₂ m₃ : Machine} (h : m₁.Extends m₂) (h' : m₂.Extends m₃) : m₁.Extends m₃ where
  below := h'.below.trans h.below
  bound hb := h'.bound (h.bound hb)
  halted hh := h'.halted (h.halted hh)
  written := h.written.trans h'.written
  unlimited hr := h'.unlimited (h.unlimited hr)

theorem depth (h : m.Extends m') : m'.environment.depth = m.environment.depth := by
  simp [Environment.depth, h.below]

/-- A name that some frame binds is still bound by it. -/
theorem contains (h : m.Extends m') (hn : m.environment.contains name = true) :
    m'.environment.contains name = true := by
  unfold Environment.contains at hn ⊢
  rw [List.any_cons, Bool.or_eq_true] at hn ⊢
  exact hn.imp h.bound fun hb => h.below ▸ hb

end Machine.Extends

/-- Binding a name leaves the others bound. -/
theorem Frame.contains_insert {f : Frame} (h : f.contains name = true) (other : Text) (v : Value) :
    (f.insert other v).contains name = true := by
  unfold Frame.contains at h ⊢
  by_cases hn : other = name
  · rw [hn, Frame.get?_insert_self]
    rfl
  · rwa [Frame.get?_insert_of_ne hn]

theorem Sink.room_write {s : Sink} (h : s.room = none) (bytes : Bytes) : (s.write bytes).2.room = none := by
  simp [Sink.write, h]

/-! ## Actions under which machines grow -/

/-- Extending a machine is kept by all that evaluation does to it. -/
theorem extends_advances : Advances Machine.Extends where
  refl := .refl
  trans h h' := h.trans h'
  define _ name v := ⟨rfl, fun h => Frame.contains_insert h name v, id, List.prefix_refl _, id⟩
  write m bytes := ⟨rfl, id, id, m.output.written_prefix_write bytes, fun h => Sink.room_write h bytes⟩
  draw _ := ⟨rfl, id, id, List.prefix_refl _, id⟩
  halt _ := ⟨rfl, id, fun _ => rfl, List.prefix_refl _, id⟩

/-- However the action ends, the machine it leaves extends the one it began with. -/
def Grows (x : Action α) : Prop := Moves Machine.Extends x

theorem Grows.bind {x : Action α} {k : α → Action β} (hx : Grows x) (hk : ∀ a, Grows (k a)) : Grows (x >>= k) :=
  Moves.bind extends_advances.toSteady hx hk

/-- Under all that evaluation is made of, machines grow. -/
theorem grows_hereditary : Hereditary fun x _ => Grows x := moves_hereditary extends_advances

/-! ## Sessions -/

/-- A call into evaluation that ends, be it with a value or with a fault: the machine it finds and the one it
leaves. -/
inductive Call : Machine → Machine → Prop where
  | run {files : Files} {fuel : Nat} {m m' : Machine} {f g : Feed} {r : Except Fault (Option Value)}
    (h : run files fuel ⟨m, f⟩ = .of r m' g) : Call m m'
  | expression {files : Files} {fuel : Nat} {m m' : Machine} {f g : Feed} {r : Except Fault Value}
    (h : evalNext files fuel ⟨m, f⟩ = .of r m' g) : Call m m'
  | token {files : Files} {fuel : Nat} {raw : Text} {m m' : Machine} {f g : Feed} {r : Except Fault Value}
    (h : eval files fuel raw ⟨m, f⟩ = .of r m' g) : Call m m'
  | file {files : Files} {fuel : Nat} {path : Text} {m m' : Machine} {f g : Feed} {r : Except Fault Value}
    (h : load files fuel path ⟨m, f⟩ = .of r m' g) : Call m m'

/-- One call makes the machine grow. -/
theorem Call.extends (h : Call m m') : m.Extends m' := by
  cases h with
  | run h => exact grows_hereditary.run _ _ _ _ _ _ h
  | expression h => exact grows_hereditary.evalNext _ _ _ _ _ _ h
  | token h => exact grows_hereditary.eval _ _ _ _ _ _ _ h
  | file h => exact grows_hereditary.load _ _ _ _ _ _ _ h

def Session : Machine → Machine → Prop := Relation.ReflTransGen Call

/-- A whole session makes the machine grow. -/
theorem Session.extends (h : Session m m') : m.Extends m' := by
  induction h with
  | refl => exact .refl m
  | tail _ hc ih => exact ih.trans hc.extends

/-- `isname` asks for its operand's text. -/
theorem eval_isName {fuel : Nat} {s after : State} {v : Value} (h : evalNext files fuel s = .done v after) :
    eval files (fuel + 1) Builtin.isName.name s = .done (.bool (after.environment.contains v.text)) after := by
  rw [eval_succ, evalWith_name, apply, bind_apply, h]
  rfl

/-- **Machines only grow.** A call that ends, with a value or with a fault, and so a session of calls, leaves as many
frames as it found, those below the top one as they were, what the top one binds bound, a halt in place, and what was
written before in front of what is written. So a name for which `isname` has given true is one for which it does so in
the rest of the session. -/
theorem session_extends (h : Session m m') :
    m.Extends m' ∧ m'.environment.depth = m.environment.depth ∧
    ∀ {files₀ files : Files} {fuel₀ fuel : Nat} {s₀ after₀ after : State} {f₀ f : Feed} {v₀ v : Value},
      evalNext files₀ fuel₀ s₀ = .done v₀ after₀ →
      eval files₀ (fuel₀ + 1) Builtin.isName.name s₀ = .done (.bool true) ⟨m, f₀⟩ →
      evalNext files fuel ⟨m', f⟩ = .done v after → v.text = v₀.text →
      eval files (fuel + 1) Builtin.isName.name ⟨m', f⟩ = .done (.bool true) after := by
  refine ⟨h.extends, h.extends.depth, fun h₀ hname hv ht => ?_⟩
  rw [eval_isName h₀] at hname
  obtain ⟨hc, rfl⟩ := Outcome.done.inj hname
  have he : m.Extends _ := h.extends.trans (grows_hereditary.evalNext _ _ _ (.ok _) _ _ hv)
  rw [eval_isName hv, ht, he.contains (Value.bool.inj hc)]

/-- A call that erases a variable and prints before it fails, and one that exits: both names are still there. -/
theorem session_extends_of_failure :
    let below : List Frame := [[(['y'], .bool true)]]
    let m : Machine :=
      { environment := { top := [(['x'], .word ['a'])], below }, output := { written := Utf8.encode ['b'] } }
    let m' : Machine :=
      { environment := { top := [(['x'], .erased .word)], below }, halted := true,
        output := { written := Utf8.encode "b5\n".toList } }
    let isName (m : Machine) (t : Text) : Outcome Value :=
      eval (fun _ => .error .notFound) 2 Builtin.isName.name ⟨m, { pending := [t] }⟩
    let isSo (m : Machine) : Outcome Value := .done (.bool true) ⟨m, { pending := [] }⟩
    Session m m' ∧ m.Extends m' ∧ m'.environment.depth = 2 ∧
      isName m' "\"x".toList = isSo m' ∧ isName m' "\"y".toList = isSo m' := by
  intro below m m' isName isSo
  have hrun : Call m { m' with halted := false } := by
    have h : run (fun _ => .error .notFound) 4 ⟨m, .ofText "erase :x print 5 foo \"z".toList⟩ =
        .of (.error (.unknownInstruction "foo".toList)) { m' with halted := false }
          { pending := ["\"z".toList] } := run_eq_of_visible rfl (by decide +kernel)
    exact .run h
  have hexit : Call { m' with halted := false } m' := by
    have h : evalNext (fun _ => .error .notFound) 1 ⟨{ m' with halted := false }, .ofText "exit".toList⟩ =
        .of (.ok (.bool false)) m' { pending := [] } :=
      evalNext_eq_of_visible rfl (by decide +kernel)
    exact .expression h
  have hs : Session m m' := .tail (.single hrun) hexit
  obtain ⟨he, hd, hn⟩ := session_extends hs
  have hword : ∀ (c : Char) (m : Machine), evalNext (fun _ => .error .notFound) 1
      ⟨m, { pending := [['"', c]] }⟩ = .done (.word [c]) ⟨m, { pending := [] }⟩ := fun _ _ => rfl
  have hx : isName m "\"x".toList = isSo m :=
    eval_eq_of_visible rfl (by decide +kernel)
  have hy : isName m "\"y".toList = isSo m :=
    eval_eq_of_visible rfl (by decide +kernel)
  exact ⟨hs, he, hd, hn (hword 'x' m) hx (hword 'x' m') rfl, hn (hword 'y' m) hy (hword 'y' m') rfl⟩

end MiniLogo
