import MiniLogo.Number.Basic
import MiniLogo.Text.Bracket

/-!
# Values

A value is a truth value, a number, a word, a list, a function or an error, or what is left of one of these after
it was erased: its kind, with empty text. Lists and functions are kept as their bracketed text.

- `Value.text`: the canonical text, on which comparisons and `run` work;
- `Value.interior?`: what stands between the outer brackets of a list or function;
- `Value.display`: what `print` shows; a list loses its outer brackets and the blanks inside them.
-/

namespace MiniLogo

/-- The six kinds of value. -/
inductive Kind where
  | bool
  | number
  | word
  | list
  | error
  | function
  deriving DecidableEq, Repr

def Kind.name : Kind → Text
  | bool => "BOOL".toList
  | number => "NUMBER".toList
  | word => "WORD".toList
  | list => "LIST".toList
  | error => "ERROR".toList
  | function => "FUNCTION".toList

/-- A value. -/
inductive Value where
  | bool (b : Bool)
  | number (n : Number)
  | word (t : Text)
  /-- A list, as its whole text with the outer brackets. -/
  | list (t : Text)
  /-- A function literal, as its whole text with the outer brackets. -/
  | function (t : Text)
  | error (t : Text)
  /-- What erasing leaves of a value. -/
  | erased (k : Kind)
  deriving DecidableEq

namespace Value

def emptyList : Value := list "[]".toList

def ofFloat (x : Float) : Value := number (.ofFloat x)

def ofInt (i : Int) : Value := number (.ofInt i)

def literal (t : Text) : Value := number (.literal t)

/-- The kind of a value; erasing keeps it. -/
def kind : Value → Kind
  | bool _ => .bool
  | number _ => .number
  | word _ => .word
  | list _ => .list
  | function _ => .function
  | error _ => .error
  | erased k => k

/-- The canonical text of a value. -/
def text : Value → Text
  | bool b => if b then "true".toList else "false".toList
  | number n => n.text
  | word t | list t | function t | error t => t
  | erased _ => []

/-- What stands between the outer brackets of a list or function. -/
def interior? : Value → Option Text
  | list t | function t => Text.unbracket? t
  | _ => none

/-- What `print` shows of a value. -/
def display : Value → Text
  | list t => ((Text.unbracket? t).map Text.trim).getD t
  | v => v.text

/-- The truth value of a value; an erased one counts as false. -/
def truth? : Value → Option Bool
  | bool b => some b
  | erased .bool => some false
  | _ => none

/-- A value after it was erased. -/
def erase (v : Value) : Value := erased v.kind

@[simp] theorem kind_erase (v : Value) : v.erase.kind = v.kind := rfl

@[simp] theorem text_erase (v : Value) : v.erase.text = [] := rfl

end Value

end MiniLogo
