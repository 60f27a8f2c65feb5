import MiniLogo.Number.Decimal

/-!
# Tokens

How a single token is read before it is looked up as a builtin. The forms are tried in a fixed order: a quoted
word, a number, the two truth values, `thing`, a variable, the start of a bracketed literal, and else a name.

The numeric check is lenient: after one leading `0` or `-` only digits and points may follow, so that `-`, `.`,
`1.2.3` and `007` pass. No form loses a character of its token (`Token.text_classify`).
-/

namespace MiniLogo

/-- The reading of a token. -/
inductive Token where
  /-- A quoted word, without its quote. -/
  | word (t : Text)
  | number (t : Text)
  | bool (b : Bool)
  /-- The look-up of a computed name. -/
  | thing
  /-- A variable, without its colon. -/
  | reference (name : Text)
  /-- The first token of a bracketed literal. -/
  | listStart (t : Text)
  /-- The name of a builtin, or no instruction. -/
  | name (t : Text)
  deriving DecidableEq

namespace Token

def isNumeral (c : Char) : Bool := Decimal.isDigit c || c == '.'

/-- The lenient numeric check. -/
def isNumeric : Text → Bool
  | [] => false
  | c :: t => (c == '0' || c == '-' || isNumeral c) && t.all isNumeral

/-- Reads a token. -/
def classify (raw : Text) : Token :=
  match raw with
  | '"' :: t => word t
  | _ =>
    if isNumeric raw then number raw
    else if raw = "true".toList then bool true
    else if raw = "false".toList then bool false
    else if raw = "thing".toList then thing
    else match raw with
      | ':' :: t => reference t
      | '[' :: _ => listStart raw
      | _ => name raw

/-- The token as it was written. -/
def text : Token → Text
  | word t => '"' :: t
  | number t | listStart t | name t => t
  | bool b => if b then "true".toList else "false".toList
  | thing => "thing".toList
  | reference t => ':' :: t

/-- A token read and written is the token. -/
theorem text_classify (raw : Text) : (classify raw).text = raw := by
  unfold classify
  split
  · rfl
  · split
    · rfl
    · split
      · simp_all [text]
      · split
        · simp_all [text]
        · split
          · simp_all [text]
          · split <;> rfl

end Token

end MiniLogo
