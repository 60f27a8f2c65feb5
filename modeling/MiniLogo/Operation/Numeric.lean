import MiniLogo.Value.Fault

/-!
# Numeric operations

Arithmetic asks for numbers; `random`, `int` and `sqrt` ask only that the text of their operand reads as one.
Both operands of a binary operation are checked, the left one first, before anything is computed.

- `numberOperand`, `numericText`: the double of an operand, by its kind or by its text;
- `truncate`: the whole part, within the range of signed 64-bit integers;
- `arithmetic`: `add`, `sub`, `mul`, `div` and `mod`; a division by either zero is a fault.
-/

namespace MiniLogo.Operation

/-- The double of an operand that has to be a number. -/
def numberOperand (b : Builtin) : Value → Except Fault Float
  | .number n => match n.value with
    | some x => .ok x
    | none => .error (.malformedNumber n.text)
  | .erased .number => .error (.malformedNumber [])
  | v => .error (.typeMismatch b .number v.kind)

/-- The double that the text of a value denotes, blanks around it aside. -/
def readText (v : Value) : Except Fault Float :=
  match Decimal.read? (Text.trim v.text) with
  | some x => .ok x
  | none => .error (.malformedNumber v.text)

/-- The double of a value: the one it has, or the one its text denotes. -/
def numericText : Value → Except Fault Float
  | .number { value := some x, .. } => .ok x
  | v => readText v

/-- The whole part of a value, if it is a signed 64-bit integer. -/
def truncate (v : Value) : Except Fault Int := do
  match Binary64.int64? (← numericText v) with
  | some i => .ok i
  | none => .error (.malformedNumber v.text)

/-- Arithmetic on two doubles. -/
def compute (b : Builtin) (x y : Float) : Except Fault Float :=
  match b with
  | .add => .ok (x + y)
  | .sub => .ok (x - y)
  | .mul => .ok (x * y)
  | .div => if Binary64.rank y = 0 then .error .divisionByZero else .ok (x / y)
  | .mod => if Binary64.rank y = 0 then .error .divisionByZero else .ok (Binary64.remainder x y)
  | b => .error (.unknownInstruction b.name)

def arithmetic (b : Builtin) (left right : Value) : Except Fault Value := do
  let x ← numberOperand b left
  let y ← numberOperand b right
  return .ofFloat (← compute b x y)

end MiniLogo.Operation
