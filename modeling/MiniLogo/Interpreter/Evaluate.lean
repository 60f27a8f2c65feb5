import MiniLogo.Interpreter.Action
import MiniLogo.Interpreter.Files
import MiniLogo.Operation.Logic
import MiniLogo.Operation.Numeric
import MiniLogo.Value.Part
import MiniLogo.Value.Procedure
import MiniLogo.Value.Token

/-!
# Evaluation

A builtin takes its operands by evaluating the tokens that follow it, so `add mul 2 3 1` has `mul 2 3` as its first
operand. `run`, `if` and `load` evaluate tokens of their own and leave those of the caller alone.

Evaluation is built in three layers. `apply` and `evalWith` say what one token does, given an action that evaluates
the next expression and one that runs the feed to its end; `drive` is that run; and `eval` ties the two together
(`eval_succ`), each level of evaluation and each expression of a run using one unit of fuel.

- `eval`, `evalNext`, `run`, `load`: evaluation of a given token, of the next expression, of all tokens and of a
  file.
-/

namespace MiniLogo.Action

/-! ## One token -/

/-- Runs the interior of a list's text, with `loop` running its tokens. Without tokens the value is an empty
list. -/
def runList (loop : Action (Option Value)) (v : Value) : Action Value :=
  match Text.unbracket? v.text with
  | some interior => do
    return (← within (.ofText interior) loop).getD .emptyList
  | none => fail (.notAList v.text)

/-- Evaluates the file at a path, with `loop` running its tokens. Without tokens the value is true. -/
def loadFile (files : Files) (loop : Action (Option Value)) (path : Text) : Action Value :=
  match files path with
  | .ok bytes => do
    return (← within (.ofText (Utf8.decodeLossy bytes)) loop).getD (.bool true)
  | .error reason => fail (.unreadableFile path reason)

/-- A part of the value of the next expression. -/
def access (next : Action Value) (b : Builtin) (p : Part) : Action Value := do
  let v ← next
  match p.ofValue? v with
  | some part => pure part
  | none => fail (.typeMismatch b .wordOrList v.kind)

/-- Erases the variable that a token names. -/
def erase : Text → Action Value
  | ':' :: name => do
    let erased := (← lookup name).erase
    define name erased
    return erased
  | token => fail (.expectedVariable token)

/-- The path that a token names, quoted or not. -/
def unquote : Text → Text
  | '"' :: t => t
  | t => t

/-- What a builtin does, with `next` evaluating the next expression and `loop` running all tokens. -/
def apply (files : Files) (next : Action Value) (loop : Action (Option Value)) (b : Builtin) : Action Value :=
  match b with
  | .add | .sub | .mul | .div | .mod => do
    let left ← next
    let right ← next
    ofExcept (Operation.arithmetic b left right)
  | .and | .or => do
    let left ← next
    let right ← next
    ofExcept (Operation.logic b left right)
  | .eq | .gt | .lt => do
    let left ← next
    let right ← next
    ofExcept (Operation.compare b left right)
  | .not => do ofExcept (Operation.not (← next))
  | .isNumber => do return Operation.isKind .number (← next)
  | .isBool => do return Operation.isKind .bool (← next)
  | .isWord => do return Operation.isKind .word (← next)
  | .isList => do return Operation.isKind .list (← next)
  | .isEmpty => do ofExcept (Operation.isEmpty (← next))
  | .isName => do return .bool (← isBound (← next).text)
  | .first => access next b .first
  | .last => access next b .last
  | .butFirst => access next b .butFirst
  | .butLast => access next b .butLast
  | .random => do
    let bound := Binary64.trunc (← ofExcept (Operation.numericText (← next)))
    return .ofFloat ((← draw) * bound)
  | .int => do return .ofInt (← ofExcept (Operation.truncate (← next)))
  | .sqrt => do return .ofFloat (← ofExcept (Operation.numericText (← next))).sqrt
  | .make => do
    let name ← next
    let v ← next
    match Procedure.ofLiteral? name.text v with
    | some _ => pure ()
    | none => define name.text v
    return v
  | .print => do
    let v ← next
    writeLine v.display
    return v
  | .erase => do erase (← nextToken)
  | .load => do loadFile files loop (unquote (← nextToken))
  | .run => do runList loop (← next)
  | .ifElse => do
    let condition ← next
    match condition.truth? with
    | some flag => do
      let consequence ← next
      let alternative ← next
      runList loop (if flag then consequence else alternative)
    | none => fail (.typeMismatch b .bool condition.kind)
  | .read => do return .word (← nextToken)
  | .exit => do
    halt
    return .bool false

/-- Evaluates the expression that starts with a given token. -/
def evalWith (files : Files) (next : Action Value) (loop : Action (Option Value)) (raw : Text) : Action Value :=
  match Token.classify raw with
  | .word t => pure (.word t)
  | .number t => pure (.literal t)
  | .bool b => pure (.bool b)
  | .thing => do lookup (← next).text
  | .reference name => lookup name
  | .listStart first => readBracketed first
  | .name name => match Builtin.ofName? name with
    | some b => apply files next loop b
    | none => fail (.unknownInstruction name)

/-! ## All tokens -/

/-- The end of a run, with the value it gives. A failure of the input shows here at the latest. -/
def finish (last : Option Value) : Action (Option Value) := do
  reportFailure
  return last

/-- Evaluates expressions until the machine is halted or the tokens have run out; `last` is the value so far. A
halted machine does not look for further tokens. -/
def drive (next : Action Value) : Nat → Option Value → Action (Option Value)
  | 0, _ => giveUp
  | fuel + 1, last => do
    if ← isHalted then finish last
    else if ← hasNext then drive next fuel (some (← next))
    else finish last

/-- Evaluates the expression that starts with a given token. -/
def eval (files : Files) : Nat → Text → Action Value
  | 0, _ => giveUp
  | fuel + 1, raw =>
    let next := do eval files fuel (← nextToken)
    evalWith files next (drive next fuel none) raw

def evalNext (files : Files) (fuel : Nat) : Action Value := do eval files fuel (← nextToken)

/-- Evaluates all tokens and gives the last value, if there was one. -/
def run (files : Files) (fuel : Nat) : Action (Option Value) := drive (evalNext files fuel) fuel none

/-- One more unit of fuel goes into the next expression and into the run of all tokens. -/
theorem eval_succ (files : Files) (fuel : Nat) (raw : Text) :
    eval files (fuel + 1) raw = evalWith files (evalNext files fuel) (run files fuel) raw := rfl

def load (files : Files) (fuel : Nat) (path : Text) : Action Value := loadFile files (run files fuel) path

end MiniLogo.Action
