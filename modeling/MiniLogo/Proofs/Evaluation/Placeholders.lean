import MiniLogo.Proofs.Evaluation.Settling
import MiniLogo.Proofs.Evaluation.SoundBuiltins

/-!
# Where the value of a variable goes

A placeholder in the variables stands for a value that is not there yet. Evaluation goes on with it (`evalPlaced`): a
variable may give it, `make` may bind it to a name, a body may come to it, and a run may end with it. The builtins that
consume it (`Builtin.consumes`) are given an erased value of the right kind instead, `if` is so too as its condition,
and to run it is refused as running any value without brackets is. Every other use of it raises an alarm, which is an
action in the place of the operand: to look it up as a name, to print it, to compare it and to read it as a number; and,
if the value is a list, to run it.

The values that a placeholder stands for are the erased and the empty one of a kind (`StandsFor`). What consumes them
does not tell them apart (`settleOne_like`, `settleTwo_like`).
-/

namespace MiniLogo

open MiniLogo.Action

/-! ## Placeholders -/

/-- What no variable holds, as a placeholder for what one will hold. -/
def Value.placeholder : Value := .error []

def Value.isPlaceholder : Value → Bool
  | error _ => true
  | _ => false

/-- The value, or what is filled in for a placeholder. -/
def Value.fill (v stand : Value) : Value := if v.isPlaceholder then stand else v

def Frame.fill (f : Frame) (stand : Value) : Frame := f.map fun b => (b.1, b.2.fill stand)

def Environment.fill (e : Environment) (stand : Value) : Environment where
  top := e.top.fill stand
  below := e.below.map fun f => f.fill stand

def State.fill (s : State) (stand : Value) : State := { s with environment := s.environment.fill stand }

/-- The builtins that consume an erased value as they do an empty one. -/
def Builtin.consumes : Builtin → Bool
  | first | last | butFirst | butLast | isEmpty | isNumber | isBool | isWord | isList | and | or | not => true
  | _ => false

namespace Action

/-- The next value, an erased one in the place of a placeholder. -/
def supplied (k : Kind) (next : Action Value) : Action Value := do return (← next).fill (.erased k)

/-- The next value, with an alarm in the place of a placeholder. -/
def alarmed (alarm next : Action Value) : Action Value := do
  let v ← next
  if v.isPlaceholder then alarm else return v

/-- Runs a list. A placeholder is refused for its lack of brackets; that of a list raises the alarm. -/
def runPlacedList (k : Kind) (alarm : Action Value) (loop : Action (Option Value)) (v : Value) : Action Value :=
  if v.isPlaceholder then
    if k = .list then alarm >>= runList loop else fail (.notAList [])
  else runList loop v

/-- Erases the variable that a token names; what is left of a placeholder is an erased value. -/
def erasePlaced (k : Kind) : Text → Action Value
  | ':' :: name => do
    let erased := ((← lookup name).fill (.erased k)).erase
    define name erased
    return erased
  | token => fail (.expectedVariable token)

/-- What a builtin does where placeholders of this kind may be among its operands. -/
def applyPlaced (files : Files) (k : Kind) (alarm next : Action Value) (loop : Action (Option Value)) (b : Builtin) :
    Action Value :=
  match b with
  | .run => do runPlacedList k alarm loop (← next)
  | .ifElse => do
    let condition ← supplied k next
    match condition.truth? with
    | some flag => do
      let consequence ← next
      let alternative ← next
      runPlacedList k alarm loop (if flag then consequence else alternative)
    | none => fail (.typeMismatch b .bool condition.kind)
  | .make => do
    let name ← alarmed alarm next
    let v ← next
    settleTwo b name v
  | .erase => do erasePlaced k (← nextToken)
  | b => apply files (if b.consumes then supplied k next else alarmed alarm next) loop b

/-- Evaluates the expression that starts with a given token, with placeholders of this kind among the variables. -/
def evalPlaced (files : Files) (k : Kind) (alarm : Action Value) : Nat → Text → Action Value
  | 0, _ => giveUp
  | fuel + 1, raw =>
    let next := do evalPlaced files k alarm fuel (← nextToken)
    let loop := drive next fuel none
    match Builtin.ofName? raw with
    | some b => applyPlaced files k alarm next loop b
    | none => evalWith files (alarmed alarm next) loop raw

/-- Evaluates the next expression, with placeholders of this kind among the variables. -/
def nextPlaced (files : Files) (k : Kind) (alarm : Action Value) (fuel : Nat) : Action Value := do
  evalPlaced files k alarm fuel (← nextToken)

/-- Evaluates all tokens, with placeholders of this kind among the variables. -/
def runPlaced (files : Files) (k : Kind) (alarm : Action Value) (fuel : Nat) : Action (Option Value) :=
  drive (nextPlaced files k alarm fuel) fuel none

/-- Four builtins deal with placeholders themselves; the others leave it to their operands. -/
theorem applyPlaced_of_not_mem {files : Files} {k : Kind} {alarm next : Action Value} {loop : Action (Option Value)}
    {b : Builtin} (hb : b ∉ [.run, .ifElse, .make, .erase]) : applyPlaced files k alarm next loop b =
      apply files (if b.consumes then supplied k next else alarmed alarm next) loop b := by
  cases b with
  | run | ifElse | make | erase => exact absurd (by decide) hb
  | _ => rfl

theorem applyPlaced_of_consumes {files : Files} {k : Kind} {alarm next : Action Value} {loop : Action (Option Value)}
    {b : Builtin} (hb : b.consumes = true) :
    applyPlaced files k alarm next loop b = apply files (supplied k next) loop b := by
  rw [applyPlaced_of_not_mem, if_pos hb]
  cases b with
  | run | ifElse | make | erase => cases hb
  | _ => decide

theorem evalPlaced_succ (files : Files) (k : Kind) (alarm : Action Value) (fuel : Nat) (raw : Text) :
    evalPlaced files k alarm (fuel + 1) raw = match Builtin.ofName? raw with
      | some b => applyPlaced files k alarm (nextPlaced files k alarm fuel) (runPlaced files k alarm fuel) b
      | none => evalWith files (alarmed alarm (nextPlaced files k alarm fuel)) (runPlaced files k alarm fuel) raw :=
  rfl

end Action

/-! ## What is filled in -/

/-- The value of each kind that is empty: false, the empty word and the empty list. -/
def Value.empty : Kind → Value
  | .bool => bool false
  | .word => word []
  | .list => emptyList
  | k => erased k

@[simp] theorem Value.kind_empty (k : Kind) : (empty k).kind = k := by
  cases k <;> rfl

/-- The kinds that have an empty value. -/
def emptyKinds : List Kind := [.bool, .word, .list]

/-- The value stands in for one of the kind, erased or empty. -/
def StandsFor (k : Kind) (stand : Value) : Prop := k ∈ emptyKinds ∧ (stand = .erased k ∨ stand = .empty k)

/-- The builtins that consume values do not tell these two apart. -/
structure Value.Like (v w : Value) : Prop where
  kind : v.kind = w.kind
  truth : v.truth? = w.truth?
  part (p : Part) : p.ofValue? v = p.ofValue? w
  isEmpty : Operation.isEmpty v = Operation.isEmpty w

section

variable {k : Kind} {stand v v' w w' : Value} {b : Builtin} {loop : Action (Option Value)}

theorem Value.Like.refl (v : Value) : v.Like v := ⟨rfl, rfl, fun _ => rfl, rfl⟩

theorem cases_of_mem_emptyKinds (h : k ∈ emptyKinds) : k = .bool ∨ k = .word ∨ k = .list := by
  simpa [emptyKinds] using h

theorem StandsFor.like (h : StandsFor k stand) : stand.Like (.erased k) := by
  obtain ⟨hk, rfl | rfl⟩ := h
  · exact .refl _
  · rcases cases_of_mem_emptyKinds hk with rfl | rfl | rfl
    · exact ⟨rfl, rfl, fun p => rfl, by decide⟩
    · exact ⟨rfl, rfl, fun p => rfl, by decide⟩
    · exact ⟨rfl, rfl, fun p => by cases p <;> decide +kernel, by decide +kernel⟩

theorem StandsFor.isPlaceholder (h : StandsFor k stand) : stand.isPlaceholder = false := by
  obtain ⟨hk, rfl | rfl⟩ := h
  · rfl
  · cases k <;> rfl

/-- Unless it is a list, what stands in is no text in brackets. -/
theorem StandsFor.unbracket? (h : StandsFor k stand) (hk : k ≠ .list) : Text.unbracket? stand.text = none := by
  obtain ⟨hmem, rfl | rfl⟩ := h
  · rfl
  · rcases cases_of_mem_emptyKinds hmem with rfl | rfl | rfl
    · decide +kernel
    · rfl
    · exact absurd rfl hk

theorem boolOperand_like (h : v.Like w) (b : Builtin) : Operation.boolOperand b v = Operation.boolOperand b w := by
  unfold Operation.boolOperand
  rw [h.truth, h.kind]

theorem access_like (h : v.Like w) (b : Builtin) (p : Part) : access (pure v) b p = access (pure w) b p := by
  unfold access
  rw [pure_bind, pure_bind, h.part, h.kind]

/-- A builtin that consumes a value does the same to values that are like each other. -/
theorem settleOne_like (hb : b.consumes = true) (h : v.Like w) : settleOne loop b v = settleOne loop b w := by
  cases b with
  | not => rw [settleOne, settleOne, Operation.not, Operation.not, boolOperand_like h]
  | isEmpty => rw [settleOne, settleOne, h.isEmpty]
  | isNumber | isBool | isWord | isList =>
    rw [settleOne, settleOne]
    unfold Operation.isKind
    rw [h.kind]
  | first | last | butFirst | butLast => exact access_like h _ _
  | and | or => rfl
  | _ => cases hb

/-- A builtin that consumes its operands does not tell values apart that are like each other. -/
theorem settleTwo_like (hb : b.consumes = true) (hv : v.Like v') (hw : w.Like w') :
    settleTwo b v w = settleTwo b v' w' := by
  cases b with
  | and | or =>
    rw [settleTwo, settleTwo, Operation.logic, Operation.logic, boolOperand_like hv, boolOperand_like hw]
  | not | isEmpty | isNumber | isBool | isWord | isList | first | last | butFirst | butLast => rfl
  | _ => cases hb

end

end MiniLogo
