import MiniLogo.Interpreter.Evaluate

/-!
# The console

On the console the interpreter is given one line at a time, and the next one only when it asks for a token and has
none. The console ends at the first line that is not UTF-8, with a notice. A terminal that cannot edit lines is sent
a prompt before each line. The lines come from the line editor `rustyline`, of which only this much is written out:
what it hands over when its input is no terminal (`consoleLines`), and which terminals it takes for ones that cannot
edit lines (`isDumb`).

What has been printed when a line is asked for depends only on the lines before it. So the prompts are placed by
running on the first k lines, for each k: if that run asks for one line more, a prompt follows what it printed
(`promptsAt`).
-/

namespace MiniLogo.CommandLine

/-- The lines that can be read from bytes, and whether a line that is not UTF-8 follows them. This stands for the
documented behaviour of `rustyline` on input that is no terminal: it hands over one line at each call, the last one also
without a line break, and fails at a line that is not UTF-8; after the last line it reports the end. -/
def consoleLines (bytes : Bytes) : List Text × Bool :=
  let (complete, rest) := Utf8.splitLines bytes
  let lines := (if rest = [] then complete else complete ++ [rest]).map Utf8.decode?
  (lines.takeWhile Option.isSome |>.filterMap id, lines.any Option.isNone)

/-- What a terminal that cannot edit lines is sent before each line. -/
def prompt : Text := ">> ".toList

/-- What is printed for a line that is not UTF-8: the error of `rustyline` as it shows for debugging. -/
def badLineNotice : Text :=
  "Error: Io(Error \x7b kind: InvalidData, message: \"stream did not contain valid UTF-8\" \x7d)\n".toList

/-- Whether a terminal of a given type cannot edit lines, by the list that `rustyline` has of such types. -/
def isDumb (terminal : Text) : Bool :=
  ["dumb".toList, "cons25".toList, "emacs".toList].contains (terminal.map Char.toLower)

/-- For each line that a run asks for, how many bytes were written before. -/
def promptsAt {α : Type} (run : Action α) (machine : Machine) (lines : List Text) : List Nat :=
  (List.range (lines.length + 1)).filterMap fun k =>
    match run { machine with feed := .ofLines (lines.take k) } with
    | .done _ s | .failed _ s => if s.feed.ended then some s.output.written.length else none
    | .unfinished => none

/-- Puts a text into bytes at given places, which are counted from a first one on. -/
def insertAt (t : Bytes) : Nat → List Nat → Bytes → Bytes
  | _, [], bytes => bytes
  | start, place :: places, bytes =>
    bytes.take (place - start) ++ t ++ insertAt t place places (bytes.drop (place - start))

end MiniLogo.CommandLine
