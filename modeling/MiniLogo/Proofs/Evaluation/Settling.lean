import MiniLogo.Proofs.Evaluation.Bodies

/-!
# Operands first

A builtin takes all its operands before it does anything else: `apply` is `operands` followed by `settle`, which says
what the builtin does with them (`apply_eq`). Operands are the values of expressions, or tokens as they are, and are
taken one after the other (`gather`); a condition that is no truth value leaves `if` without branches
(`Builtin.wanting`). Three builtins then run a text (`Builtin.body?`), and the others act on the machine at once.
-/

namespace MiniLogo

open MiniLogo.Action

instance : LawfulMonad Action := LawfulMonad.mk' Action
  (fun x => by
    funext s
    show (x >>= Pure.pure) s = x s
    rw [bind_apply]
    cases x s <;> rfl)
  (fun _ _ => rfl)
  (fun x f g => by
    funext s
    simp only [bind_apply]
    cases x s <;> rfl)

/-- What a builtin takes: the value of an expression, or a token as it is. -/
inductive Operand where
  | value (v : Value)
  | token (t : Text)
  deriving DecidableEq

/-- Whether the operand decides between branches. -/
def Operand.decides : Operand → Bool
  | .value v => v.truth?.isSome
  | .token _ => false

/-- What a builtin wants after these operands. -/
def Builtin.wanting (b : Builtin) (ops : List Operand) : Option Want :=
  if b = .ifElse ∧ ops.head?.any (!·.decides) then none else b.wants[ops.length]?

namespace Action

/-- Takes what is wanted: the next token as it is, or the value of the next expression. -/
def takeOperand (next : Action Value) : Want → Action Operand
  | .raw => do return .token (← nextToken)
  | _ => do return .value (← next)

/-- Takes the operands of a builtin, at most this many. -/
def gather (next : Action Value) (b : Builtin) : Nat → Action (List Operand)
  | 0 => pure []
  | n + 1 => do
    let ops ← gather next b n
    match b.wanting ops with
    | some w => return ops ++ [← takeOperand next w]
    | none => return ops

def operands (next : Action Value) (b : Builtin) : Action (List Operand) := gather next b b.wants.length

/-- What a builtin does with one value. -/
def settleOne (loop : Action (Option Value)) (b : Builtin) (v : Value) : Action Value :=
  match b with
  | .not => ofExcept (Operation.not v)
  | .isNumber => pure (Operation.isKind .number v)
  | .isBool => pure (Operation.isKind .bool v)
  | .isWord => pure (Operation.isKind .word v)
  | .isList => pure (Operation.isKind .list v)
  | .isEmpty => ofExcept (Operation.isEmpty v)
  | .isName => do return .bool (← isBound v.text)
  | .first => access (pure v) b .first
  | .last => access (pure v) b .last
  | .butFirst => access (pure v) b .butFirst
  | .butLast => access (pure v) b .butLast
  | .random => do
    let bound := Binary64.trunc (← ofExcept (Operation.numericText v))
    return .ofFloat ((← draw) * bound)
  | .int => do return .ofInt (← ofExcept (Operation.truncate v))
  | .sqrt => do return .ofFloat (← ofExcept (Operation.numericText v)).sqrt
  | .print => do
    writeLine v.display
    return v
  | .run => runList loop v
  | .ifElse => fail (.typeMismatch b .bool v.kind)
  | _ => giveUp

def settleTwo (b : Builtin) (left right : Value) : Action Value :=
  match b with
  | .add | .sub | .mul | .div | .mod => ofExcept (Operation.arithmetic b left right)
  | .and | .or => ofExcept (Operation.logic b left right)
  | .eq | .gt | .lt => ofExcept (Operation.compare b left right)
  | .make => do
    match Procedure.ofLiteral? left.text right with
    | some _ => pure ()
    | none => define left.text right
    return right
  | _ => giveUp

def settleToken (files : Files) (loop : Action (Option Value)) (b : Builtin) (t : Text) : Action Value :=
  match b with
  | .erase => erase t
  | .load => loadFile files loop (unquote t)
  | .read => pure (.word t)
  | _ => giveUp

/-- What a builtin does with its operands. It gives up on operands that it never has. -/
def settle (files : Files) (loop : Action (Option Value)) (b : Builtin) : List Operand → Action Value
  | [] => do
    halt
    return .bool false
  | [.token t] => settleToken files loop b t
  | [.value v] => settleOne loop b v
  | [.value left, .value right] => settleTwo b left right
  | [.value condition, .value consequence, .value alternative] =>
    runList loop (if condition.truth? = some true then consequence else alternative)
  | _ => giveUp

end Action

/-- The text that a builtin runs, given its operands. -/
def Builtin.body? (files : Files) (b : Builtin) : List Operand → Option Text
  | [.token t] => if b = .load then (files (unquote t)).toOption.map Utf8.decodeLossy else none
  | [.value v] => if b = .run then Text.unbracket? v.text else none
  | [.value condition, .value consequence, .value alternative] =>
    Text.unbracket? (if condition.truth? = some true then consequence else alternative).text
  | _ => none

section

variable {files : Files} {next : Action Value} {loop : Action (Option Value)} {b : Builtin}

/-! ## The operands of each builtin -/

theorem gather_succ (next : Action Value) (b : Builtin) (n : Nat) : gather next b (n + 1) = (do
    let ops ← gather next b n
    match b.wanting ops with
    | some w => return ops ++ [← takeOperand next w]
    | none => return ops) := rfl

theorem wanting_of_ne {b : Builtin} (hb : b ≠ .ifElse) (ops : List Operand) : b.wanting ops = b.wants[ops.length]? :=
  if_neg fun h => hb h.1

/-- Most builtins of one operand evaluate an expression for it. -/
theorem operands_one (hb : b.wants = [.expression]) : operands next b = (do return [.value (← next)]) := by
  have hne : b ≠ .ifElse := by
    rintro rfl
    cases hb
  simp [operands, hb, gather, wanting_of_ne hne, takeOperand]

theorem operands_two (hb : b.wants = [.expression, .expression]) : operands next b = (do
    let left ← next
    let right ← next
    return [.value left, .value right]) := by
  have hne : b ≠ .ifElse := by
    rintro rfl
    cases hb
  simp [operands, hb, gather, wanting_of_ne hne, takeOperand]

theorem operands_token (hb : b.wants = [.raw]) : operands next b = (do return [.token (← nextToken)]) := by
  have hne : b ≠ .ifElse := by
    rintro rfl
    cases hb
  simp [operands, hb, gather, wanting_of_ne hne, takeOperand]

/-- `if` takes its branches only behind a condition that has a truth. -/
theorem operands_ifElse : operands next .ifElse = (do
    let condition ← next
    match condition.truth? with
    | some _ =>
      let consequence ← next
      let alternative ← next
      return [.value condition, .value consequence, .value alternative]
    | none => return [.value condition]) := by
  have hfirst : Builtin.wanting .ifElse [] = some .expression := rfl
  simp only [operands, Builtin.wants, List.length_cons, List.length_nil, gather, pure_bind, hfirst, takeOperand,
    bind_assoc, List.nil_append]
  refine congrArg (next >>= ·) (funext fun condition => ?_)
  cases hc : condition.truth? with
  | none =>
    have hw : Builtin.wanting .ifElse [.value condition] = none := by simp [Builtin.wanting, Operand.decides, hc]
    simp [hw]
  | some flag =>
    have hw (ops : List Operand) : Builtin.wanting .ifElse (.value condition :: ops) =
        Builtin.ifElse.wants[ops.length + 1]? := by simp [Builtin.wanting, Operand.decides, hc]
    simp [hw, Builtin.wants]

/-- **A builtin takes its operands, and then it acts.** -/
theorem apply_eq (files : Files) (next : Action Value) (loop : Action (Option Value)) (b : Builtin) :
    apply files next loop b = operands next b >>= settle files loop b := by
  cases b with
  | add | sub | mul | div | mod | and | or | eq | gt | lt | make =>
    rw [operands_two rfl]
    simp only [bind_assoc, pure_bind]
    rfl
  | not | isNumber | isBool | isWord | isList | isEmpty | isName | first | last | butFirst | butLast | random | int
  | sqrt | print | run =>
    rw [operands_one rfl]
    simp only [bind_assoc, pure_bind]
    rfl
  | erase | load | read =>
    rw [operands_token rfl]
    simp only [bind_assoc, pure_bind]
    rfl
  | ifElse =>
    rw [operands_ifElse]
    simp only [bind_assoc]
    refine congrArg (next >>= ·) (funext fun condition => ?_)
    cases hc : condition.truth? with
    | none => simp [settle, settleOne]
    | some flag => simp [settle, hc]
  | exit => rfl

end

end MiniLogo
