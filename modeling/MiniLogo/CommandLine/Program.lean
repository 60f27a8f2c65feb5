import MiniLogo.CommandLine.Console
import MiniLogo.CommandLine.Options

/-!
# The program

What the program writes and the status it ends with, as a function of its arguments, its standard input, the files it
can read and the draws that a seed stands for. A script is loaded; standard input is evaluated as it is, or line by
line on the console.

A fault is reported on standard output, after everything that was printed, and ends the program with status 1.
Arguments that cannot be used are reported on standard error and end it with status 2.
-/

namespace MiniLogo.CommandLine

/-- What the program is given. -/
structure Context where
  /-- The name it was called by. -/
  program : Text := "mua".toList
  arguments : List Text := []
  input : Bytes := []
  files : Files
  /-- Whether standard input is a terminal. -/
  interactive : Bool := false
  /-- The type of the terminal, if it is known. -/
  terminal : Option Text := none
  /-- The seed that is used where none is given. -/
  seed : UInt64 := 0
  /-- What is drawn for a seed. -/
  generator : UInt64 → Generator := .ofSeed

/-- How the program ends. -/
structure Ending where
  output : Bytes := []
  errors : Text := []
  status : Nat := 0
  /-- The fault that ended the evaluation. -/
  fault : Option Fault := none

def version : Text := "0.1.0".toList

def banner : Text := "mua language v".toList ++ version ++ ['\n']

def report (e : Fault) : Text := "[ERROR] : ".toList ++ e.message ++ ['\n']

/-- The ending of an evaluation; `finish` makes standard output of the state it left. -/
def Ending.ofOutcome {α : Type} (finish : State → Bytes) : Outcome α → Option Ending
  | .done _ s => some { output := finish s }
  | .failed e s => some { output := finish s ++ Utf8.encode (report e), status := 1, fault := some e }
  | .unfinished => none

def runConsole (context : Context) (fuel : Nat) (machine : Machine) : Option Ending :=
  let (lines, cutOff) := consoleLines context.input
  let action := Action.run context.files fuel
  let places := if (context.terminal.map isDumb).getD false then promptsAt action machine lines else []
  Ending.ofOutcome
    (fun s =>
      Utf8.encode banner ++ insertAt (Utf8.encode prompt) 0 places s.output.written
        ++ if cutOff ∧ s.feed.ended then Utf8.encode badLineNotice else [])
    (action { machine with feed := .ofLines lines })

def runWith (context : Context) (fuel : Nat) (settings : Settings) : Option Ending :=
  let machine : Machine :=
    { environment := .withConstants, generator := context.generator (settings.seed.getD context.seed) }
  match settings.script with
  | some path =>
    Ending.ofOutcome (·.output.written)
      (Action.load context.files fuel path { machine with feed := .ofText [] })
  | none =>
    if settings.interactive || context.interactive then runConsole context fuel machine
    else
      Ending.ofOutcome (·.output.written)
        (Action.run context.files fuel { machine with feed := .ofBytes context.input })

/-- Runs the program; without an ending it needs more fuel. -/
def execute (context : Context) (fuel : Nat) : Option Ending :=
  match parse context.arguments with
  | .ok .help => some { output := Utf8.encode (usage context.program) }
  | .ok .version => some { output := Utf8.encode ("mua ".toList ++ version ++ ['\n']) }
  | .ok (.run settings) => runWith context fuel settings
  | .error e =>
    some { errors := "error: ".toList ++ e.message ++ ['\n'] ++ usage context.program, status := 2 }

end MiniLogo.CommandLine
