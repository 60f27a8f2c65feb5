import MiniLogo.Value.Fault

/-!
# Truth values, comparison and kinds

`and`, `or` and `not` ask for truth values. `eq`, `gt` and `lt` compare the canonical texts of their operands, code
point by code point, whatever their kinds are: `gt 9 10` is true.
-/

namespace MiniLogo.Operation

/-- The truth value of an operand. -/
def boolOperand (b : Builtin) (v : Value) : Except Fault Bool :=
  match v.truth? with
  | some p => .ok p
  | none => .error (.typeMismatch b .bool v.kind)

/-- `and` and `or`, on operands that are both evaluated. -/
def logic (b : Builtin) (left right : Value) : Except Fault Value := do
  let p ← boolOperand b left
  let q ← boolOperand b right
  match b with
  | .and => .ok (.bool (p && q))
  | .or => .ok (.bool (p || q))
  | b => .error (.unknownInstruction b.name)

def not (v : Value) : Except Fault Value := do
  return .bool !(← boolOperand .not v)

/-- `eq`, `gt` and `lt`, on the canonical texts. -/
def compare (b : Builtin) (left right : Value) : Except Fault Value :=
  match b with
  | .eq => .ok (.bool (left.text = right.text))
  | .gt => .ok (.bool (right.text < left.text))
  | .lt => .ok (.bool (left.text < right.text))
  | b => .error (.unknownInstruction b.name)

/-- Whether a value is of a kind. -/
def isKind (k : Kind) (v : Value) : Value := .bool (v.kind = k)

/-- Whether a word or list holds nothing but blanks. -/
def isEmpty : Value → Except Fault Value
  | .word t => .ok (.bool (Text.isAllBlank t))
  | .list t => .ok (.bool (Text.isAllBlank ((Text.unbracket? t).getD t)))
  | .erased .word | .erased .list => .ok (.bool true)
  | v => .error (.typeMismatch .isEmpty .wordOrList v.kind)

end MiniLogo.Operation
