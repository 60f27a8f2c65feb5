import MiniLogo.Number.Decimal

/-!
# Command line options

An option has a long name, may have a one-letter name, and may take an argument. The arguments are scanned from left
to right: what starts with a dash and is longer than it is an option, `--` ends the options, and the rest is free.
The scan, the refusal of an option that is given twice, and the help text are those of the library `getopts`, written
out for this table of options. The settings that are made of the options are the program's own.

- `scan`: the options that were given and the free arguments;
- `parse`: the settings of a run, or what else was asked for;
- `usage`: the help text, made from the same table of options.
-/

namespace MiniLogo.CommandLine

/-- The options. -/
inductive Flag where
  | interactive
  | seed
  | log
  | help
  | version
  deriving DecidableEq, Repr

namespace Flag

def all : List Flag := [interactive, seed, log, help, version]

def long : Flag → Text
  | interactive => "interactive".toList
  | seed => "seed".toList
  | log => "log".toList
  | help => "help".toList
  | version => "version".toList

def short? : Flag → Option Char
  | interactive => some 'i'
  | help => some 'h'
  | version => some 'V'
  | seed | log => none

/-- What the argument of an option is called in the help text, if it takes one. -/
def argument? : Flag → Option Text
  | seed => some "N".toList
  | log => some "FILTER".toList
  | interactive | help | version => none

def description : Flag → Text
  | interactive => "read from the line editor even if stdin is piped".toList
  | seed => "seed the random generator".toList
  | log => "tracing filter, e.g. `mua_interpreter=debug`".toList
  | help => "print this help".toList
  | version => "print the version".toList

/-- The option of a one-letter name. -/
def ofLetter? (c : Char) : Option Flag := all.find? fun o => o.short? == some c

/-- The option of a name. As in `getopts`, a name of a single byte is a one-letter name, so that `--i` is `-i`, and a
longer one has to be written out in full. -/
def ofName? : Text → Option Flag
  | [c] => if c.toNat < 0x80 then ofLetter? c else none
  | name => all.find? fun o => o.long == name

end Flag

/-! ## Scanning -/

/-- Why arguments cannot be used. -/
inductive ArgumentFault where
  | unrecognized (name : Text)
  | unexpectedArgument (name : Text)
  | missingArgument (name : Text)
  | repeated (option : Flag)
  | invalidSeed (text : Text)
  | tooManyScripts (count : Nat)
  deriving DecidableEq

def ArgumentFault.message : ArgumentFault → Text
  | unrecognized name => "Unrecognized option: '".toList ++ name ++ ['\'']
  | unexpectedArgument name => "Option '".toList ++ name ++ "' does not take an argument".toList
  | missingArgument name => "Argument to option '".toList ++ name ++ "' missing".toList
  | repeated option => "Option '".toList ++ option.long ++ "' given more than once".toList
  | invalidSeed text => "invalid seed `".toList ++ text ++ "`, expected an unsigned integer".toList
  | tooManyScripts count => "expected at most one script but got ".toList ++ Decimal.digits count

/-- What a scan finds: the options given, each with its argument if it takes one, and the free arguments. -/
structure Scan where
  options : List (Flag × Option Text) := []
  free : List Text := []
  deriving DecidableEq

namespace Scan

def addOption (o : Flag) (argument : Option Text) (s : Scan) : Scan :=
  { s with options := (o, argument) :: s.options }

def addFree (t : Text) (s : Scan) : Scan := { s with free := t :: s.free }

def given (s : Scan) (o : Flag) : List (Option Text) :=
  (s.options.filter fun p => p.1 = o).map Prod.snd

def has (s : Scan) (o : Flag) : Bool := !(s.given o).isEmpty

def argument? (s : Scan) (o : Flag) : Option Text := (s.given o).head?.join

end Scan

/-- The options of a group of letters after one dash, as `getopts` has them. No option with a letter takes an argument,
so that each letter of the group is an option. -/
def scanLetters : Text → Except ArgumentFault (List (Flag × Option Text))
  | [] => .ok []
  | c :: t => match Flag.ofLetter? c with
    | some o => do return (o, none) :: (← scanLetters t)
    | none => .error (.unrecognized [c])

/-- Splits the text of a long option at its first equals sign. -/
def splitValue (t : Text) : Text × Option Text :=
  (t.takeWhile (· ≠ '='), (t.dropWhile (· ≠ '=')).tail?)

/-- Scans arguments. This stands for the documented behaviour of `getopts`, whose options may stand among the free
arguments: the first `--` is dropped and makes free all that follows it; `--name=value` is split at its first equals
sign; an option that takes an argument and has none takes the next one, whatever that looks like; and the first
argument that cannot be used decides the error. -/
def scan : List Text → Except ArgumentFault Scan
  | [] => .ok {}
  | ['-', '-'] :: rest => .ok { free := rest }
  | ('-' :: '-' :: t) :: rest =>
    let (name, value?) := splitValue t
    match Flag.ofName? name with
    | none => .error (.unrecognized name)
    | some o => match o.argument?, value?, rest with
      | none, none, rest => do return (← scan rest).addOption o none
      | none, some _, _ => .error (.unexpectedArgument name)
      | some _, some value, rest => do return (← scan rest).addOption o (some value)
      | some _, none, value :: rest => do return (← scan rest).addOption o (some value)
      | some _, none, [] => .error (.missingArgument name)
  | ('-' :: c :: t) :: rest => do
    let group ← scanLetters (c :: t)
    let later ← scan rest
    return { later with options := group ++ later.options }
  | t :: rest => do return (← scan rest).addFree t

/-! ## Settings -/

/-- The settings of a run. -/
structure Settings where
  /-- The script to be evaluated in the place of standard input. -/
  script : Option Text := none
  interactive : Bool := false
  seed : Option UInt64 := none
  /-- Which log lines are asked for. They go to a log of their own and are no part of what a run answers. -/
  logFilter : Option Text := none
  deriving DecidableEq

/-- What a command line asks for. -/
inductive Request where
  | run (settings : Settings)
  | help
  | version
  deriving DecidableEq

/-- The unsigned 64-bit number that a text denotes: digits with an optional plus before them. -/
def readSeed? (t : Text) : Option UInt64 :=
  let ds := match t with
    | '+' :: ds => ds
    | ds => ds
  let n := Decimal.ofDigits ds
  if ds ≠ [] ∧ ds.all Decimal.isDigit ∧ n < UInt64.size then some (UInt64.ofNat n) else none

/-- Reads the arguments after the name of the program. An option that was given twice is refused before any is looked
at; then help comes before the version, and both before settings that are wrong. -/
def parse (arguments : List Text) : Except ArgumentFault Request := do
  let found ← scan arguments
  match Flag.all.find? fun o => decide (1 < (found.given o).length) with
  | some o => .error (.repeated o)
  | none =>
    if found.has .help then return .help
    else if found.has .version then return .version
    else
      let seed ← match found.argument? .seed with
        | none => pure none
        | some t => match readSeed? t with
          | some n => pure (some n)
          | none => .error (.invalidSeed t)
      if 1 < found.free.length then .error (.tooManyScripts found.free.length)
      else
        return .run
          { script := found.free.head?, interactive := found.has .interactive, seed,
            logFilter := found.argument? .log }

/-! ## Help -/

/-- A text with blanks after it up to a width. -/
def padRight (width : Nat) (t : Text) : Text := t ++ List.replicate (width - t.length) ' '

def Flag.usage (o : Flag) : Text :=
  let letter := match o.short? with
    | some c => ['-', c, ',', ' ']
    | none => "    ".toList
  let argument := match o.argument? with
    | some name => ' ' :: name
    | none => []
  padRight 24 ("    ".toList ++ letter ++ "--".toList ++ o.long ++ argument) ++ o.description ++ ['\n']

/-- The help text for a program of a given name, as `getopts` lays it out. -/
def usage (program : Text) : Text :=
  "Usage: ".toList ++ program ++ " [options] [SCRIPT]\n\nOptions:\n".toList ++ Flag.all.flatMap Flag.usage

end MiniLogo.CommandLine
