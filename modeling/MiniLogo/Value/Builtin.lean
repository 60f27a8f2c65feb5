import MiniLogo.Value.Basic

/-!
# Builtins

The instructions of the language and their names. Looking a name up finds exactly the builtin of that name
(`Builtin.ofName?_name`).
-/

namespace MiniLogo

/-- A builtin instruction. -/
inductive Builtin where
  | add | sub | mul | div | mod
  | make | print | erase
  | random | int | sqrt
  | load
  | isName | isNumber | isBool | isWord | isList | isEmpty
  | and | or | not
  | run | ifElse
  | eq | gt | lt
  | first | last | butFirst | butLast
  | read | exit
  deriving DecidableEq, Repr

namespace Builtin

def name : Builtin → Text
  | add => "add".toList
  | sub => "sub".toList
  | mul => "mul".toList
  | div => "div".toList
  | mod => "mod".toList
  | make => "make".toList
  | print => "print".toList
  | erase => "erase".toList
  | random => "random".toList
  | int => "int".toList
  | sqrt => "sqrt".toList
  | load => "load".toList
  | isName => "isname".toList
  | isNumber => "isnumber".toList
  | isBool => "isbool".toList
  | isWord => "isword".toList
  | isList => "islist".toList
  | isEmpty => "isempty".toList
  | and => "and".toList
  | or => "or".toList
  | not => "not".toList
  | run => "run".toList
  | ifElse => "if".toList
  | eq => "eq".toList
  | gt => "gt".toList
  | lt => "lt".toList
  | first => "first".toList
  | last => "last".toList
  | butFirst => "butfirst".toList
  | butLast => "butlast".toList
  | read => "read".toList
  | exit => "exit".toList

def all : List Builtin :=
  [add, sub, mul, div, mod, make, print, erase, random, int, sqrt, load, isName, isNumber, isBool, isWord,
    isList, isEmpty, and, or, not, run, ifElse, eq, gt, lt, first, last, butFirst, butLast, read, exit]

def ofName? (t : Text) : Option Builtin := all.find? fun b => b.name == t

/-- Every builtin is found by its name. -/
@[simp] theorem ofName?_name (b : Builtin) : ofName? b.name = some b := by
  cases b <;> decide

/-- A builtin that is found has the name that was looked up. -/
theorem name_of_ofName? {t : Text} {b : Builtin} (h : ofName? t = some b) : b.name = t := by
  simpa using List.find?_some h

end Builtin

end MiniLogo
