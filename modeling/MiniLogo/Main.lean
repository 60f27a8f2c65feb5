import MiniLogo.CommandLine.Program

/-!
# The command line program

Reads the arguments, standard input and the files that the program asks for, and writes what it answers. A file is
read when a run fails for want of it; the run is then repeated with its contents, so that the program itself stays a
function of what it is given.
-/

namespace MiniLogo.CommandLine

/-- Reads a stream to its end. -/
partial def readToEnd (stream : IO.FS.Stream) (chunks : List ByteArray) : IO Bytes := do
  let chunk ← stream.read 65536
  if chunk.isEmpty then return chunks.reverse.flatMap ByteArray.toList
  else readToEnd stream (chunk :: chunks)

/-- Reads a file, or says why it cannot be read. -/
def readFile (path : Text) : IO (Except FileFault Bytes) := do
  if '\x00' ∈ path then return .error .nulInName
  try
    return .ok (← IO.FS.readBinFile (String.ofList path)).toList
  catch
    | .noFileOrDirectory .. => return .error .notFound
    | .inappropriateType .. => return .error .isDirectory
    | e => return .error (.other (toString e).toList)

/-- Runs with the files that are known, and again whenever another one is asked for. -/
partial def executeReading (context : Context) (known : List (Text × Except FileFault Bytes)) : IO Ending := do
  let files : Files := fun path => (known.lookup path).getD (.error .notFound)
  match execute { context with files } (Nat.pow 2 40) with
  | none => return { status := 1 }
  | some ending =>
    match ending.fault with
    | some (.unreadableFile path _) =>
      if (known.lookup path).isSome then return ending
      else executeReading context ((path, ← readFile path) :: known)
    | _ => return ending

/-- What the program is given by the system. Standard input is read only where no script takes its place. -/
def systemContext (arguments : List Text) : IO Context := do
  let stdin ← IO.getStdin
  let input ← match parse arguments with
    | .ok (.run { script := none, .. }) => readToEnd stdin []
    | _ => pure []
  let interactive ← stdin.isTty
  let terminal := (← IO.getEnv "TERM").map String.toList
  let seed := UInt64.ofNat (← IO.monoNanosNow)
  return { arguments, input, files := fun _ => .error .notFound, interactive, terminal, seed, generator := .ofSeed }

/-- Runs the program on the arguments after its name, and gives its status. -/
def runSystem (arguments : List Text) : IO UInt32 := do
  let ending ← executeReading (← systemContext arguments) []
  let stdout ← IO.getStdout
  stdout.write ⟨ending.output.toArray⟩
  stdout.flush
  (← IO.getStderr).putStr (String.ofList ending.errors)
  return UInt32.ofNat ending.status

end MiniLogo.CommandLine

def main (arguments : List String) : IO UInt32 :=
  MiniLogo.CommandLine.runSystem (arguments.map String.toList)
