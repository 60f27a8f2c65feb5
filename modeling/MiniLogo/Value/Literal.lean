import MiniLogo.Value.Basic

/-!
# Bracketed literals

A bracketed text is a function literal if its interior has exactly two groups and begins and ends with a bracket,
blanks aside; any other is a list. Its text is kept as it is (`Literal.text_value`).
-/

namespace MiniLogo

namespace Literal

/-- Whether a bracketed text is a function literal. -/
def isFunction (t : Text) : Bool :=
  match Text.unbracket? t with
  | some interior =>
    let trimmed := Text.trim interior
    (Text.groups interior).length == 2 && trimmed.head? == some '[' && trimmed.getLast? == some ']'
  | none => false

/-- The value of a bracketed text. -/
def value (t : Text) : Value := if isFunction t then .function t else .list t

@[simp] theorem text_value (t : Text) : (value t).text = t := by
  unfold value
  split <;> rfl

end Literal

end MiniLogo
