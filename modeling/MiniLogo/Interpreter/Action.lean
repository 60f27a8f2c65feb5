import MiniLogo.Interpreter.Environment
import MiniLogo.Interpreter.Feed
import MiniLogo.Interpreter.Generator
import MiniLogo.Interpreter.Sink
import MiniLogo.Value.Fault
import MiniLogo.Value.Literal

/-!
# Actions

Evaluation acts on a machine (variables, output, random draws and the halt flag) and on a feed of tokens. An action
ends with a value or with a fault, and in both cases with the state it left, or it does not end within the fuel it
was given (`Outcome`). A fault keeps every effect that came before it.

- `nextToken`, `hasNext`, `takeFailure?`, `readBracketed`: actions on the feed;
- `within`: an action on a feed of its own, after which the former feed is back;
- `lookup`, `isBound`, `define`, `writeLine`, `draw`, `isHalted`, `halt`: actions on the machine.
-/

namespace MiniLogo

/-- What evaluation acts on, tokens aside. -/
structure Machine where
  environment : Environment
  output : Sink := {}
  generator : Generator := .ofSeed 0
  /-- Whether `exit` was evaluated. -/
  halted : Bool := false

/-- A machine together with the tokens it is given. -/
structure State extends Machine where
  feed : Feed

/-- How an action ends. -/
inductive Outcome (α : Type) where
  | done (value : α) (after : State)
  | failed (fault : Fault) (after : State)
  /-- The fuel did not suffice. -/
  | unfinished

/-- A computation that acts on a state. -/
def Action (α : Type) : Type := State → Outcome α

namespace Action

variable {α β : Type}

protected def pure (a : α) : Action α := fun s => .done a s

/-- One action after another; a fault of the first ends both. -/
protected def bind (x : Action α) (f : α → Action β) : Action β := fun s =>
  match x s with
  | .done a s => f a s
  | .failed e s => .failed e s
  | .unfinished => .unfinished

instance : Monad Action where
  pure := Action.pure
  bind := Action.bind

@[simp] theorem pure_apply (a : α) (s : State) : (pure a : Action α) s = .done a s := rfl

theorem bind_apply (x : Action α) (f : α → Action β) (s : State) :
    (x >>= f) s = match x s with
      | .done a s => f a s
      | .failed e s => .failed e s
      | .unfinished => .unfinished := rfl

def fail (e : Fault) : Action α := fun s => .failed e s

/-- Gives up for want of fuel. -/
def giveUp : Action α := fun _ => .unfinished

/-- The result of a computation that may fail. -/
def ofExcept : Except Fault α → Action α
  | .ok a => pure a
  | .error e => fail e

/-! ## The feed -/

def onFeed (f : Feed → α × Feed) : Action α := fun s =>
  let answer := f s.feed
  .done answer.1 { s with feed := answer.2 }

def hasNext : Action Bool := onFeed Feed.hasNext

/-- Fails if the input was cut off by a failure that was not reported yet. -/
def reportFailure : Action Unit := do
  match ← onFeed Feed.takeFailure? with
  | some reason => fail (.input reason)
  | none => pure ()

theorem reportFailure_apply (s : State) : reportFailure s = match s.feed.takeFailure?.1 with
    | some reason => .failed (.input reason) { s with feed := s.feed.takeFailure?.2 }
    | none => .done () { s with feed := s.feed.takeFailure?.2 } := by
  unfold reportFailure
  rw [bind_apply]
  simp only [onFeed]
  cases s.feed.takeFailure?.1 <;> rfl

/-- The next token, which has to be there. -/
def nextToken : Action Text := do
  match ← onFeed Feed.next? with
  | some t => pure t
  | none => do
    reportFailure
    fail .endOfInput

/-- Runs an action on another feed and goes back to the former one. -/
def within (feed : Feed) (x : Action α) : Action α := fun s =>
  match x { s with feed } with
  | .done a after => .done a { after with feed := s.feed }
  | .failed e after => .failed e { after with feed := s.feed }
  | .unfinished => .unfinished

end Action

/-! ## Bracketed literals -/

namespace Feed

/-- Takes tokens, at most as many as the first argument says, until a bracket depth has come back to zero. -/
def takeClosing : Nat → Int → Feed → Option (List Text) × Feed
  | n, depth, f =>
    if depth = 0 then (some [], f)
    else match n, f.next? with
      | n + 1, (some t, f) =>
        let rest := takeClosing n (depth + Text.balance t) f
        (rest.1.map (t :: ·), rest.2)
      | _, (_, f) => (none, f)

@[simp] theorem takeClosing_zero (n : Nat) (f : Feed) : takeClosing n 0 f = (some [], f) := by
  unfold takeClosing
  rw [if_pos rfl]

theorem takeClosing_of_next? {depth : Int} {f g : Feed} {t : Text} (hd : depth ≠ 0) (h : f.next? = (some t, g))
    (n : Nat) : takeClosing (n + 1) depth f =
      ((takeClosing n (depth + Text.balance t) g).1.map (t :: ·), (takeClosing n (depth + Text.balance t) g).2) := by
  conv => lhs; unfold takeClosing
  rw [if_neg hd, h]

theorem takeClosing_of_next?_none {depth : Int} {f g : Feed} (hd : depth ≠ 0) (h : f.next? = (none, g)) (n : Nat) :
    takeClosing n depth f = (none, g) := by
  unfold takeClosing
  rw [if_neg hd, h]
  cases n <;> rfl

def readBracketed (first : Text) (f : Feed) : Except Fault Value × Feed :=
  let taken := f.takeClosing f.size (Text.balance first)
  match taken.1 with
  | some ts => (.ok (Literal.value (Text.unwords (first :: ts))), taken.2)
  | none => (.error .endOfInput, taken.2)

end Feed

namespace Action

/-- Reads a bracketed literal from the feed. -/
def readBracketed (first : Text) : Action Value := do
  ofExcept (← onFeed (Feed.readBracketed first))

/-! ## The machine -/

/-- The value of a name in the top frame. -/
def lookup (name : Text) : Action Value := fun s =>
  match s.environment.get? name with
  | some v => .done v s
  | none => .failed (.undefinedVariable name) s

/-- Whether a name is bound in any frame. -/
def isBound (name : Text) : Action Bool := fun s => .done (s.environment.contains name) s

/-- Binds a name in the top frame. -/
def define (name : Text) (v : Value) : Action Unit := fun s =>
  .done () { s with environment := s.environment.define name v }

def writeLine (t : Text) : Action Unit := fun s =>
  let (fits, output) := s.output.write (Utf8.encode (t ++ ['\n']))
  if fits then .done () { s with output } else .failed (.output Sink.full) { s with output }

def draw : Action Float := fun s =>
  let (x, generator) := s.generator.draw
  .done x { s with generator }

def isHalted : Action Bool := fun s => .done s.halted s

def halt : Action Unit := fun s => .done () { s with halted := true }

end Action

end MiniLogo
