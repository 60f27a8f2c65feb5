import MiniLogo.Value.Builtin

/-!
# Faults

Why an evaluation fails. Every fault ends the run it occurs in. The wording is in `Fault.message`.
-/

namespace MiniLogo

/-- What a builtin asks of an operand that it does not get. -/
inductive Expected where
  | number
  | bool
  | wordOrList
  deriving DecidableEq, Repr

def Expected.name : Expected → Text
  | number => Kind.number.name
  | bool => Kind.bool.name
  | wordOrList => "WORD or LIST".toList

/-- Why a file cannot be read. -/
inductive FileFault where
  | notFound
  | isDirectory
  | notDirectory
  | nameTooLong
  | nulInName
  /-- Any other reason, in the system's words. -/
  | other (reason : Text)
  deriving DecidableEq

/-- The system's words for the reason. -/
def FileFault.message : FileFault → Text
  | notFound => "No such file or directory (os error 2)".toList
  | isDirectory => "Is a directory (os error 21)".toList
  | notDirectory => "Not a directory (os error 20)".toList
  | nameTooLong => "File name too long (os error 36)".toList
  | nulInName => "file name contained an unexpected NUL byte".toList
  | other reason => reason

/-- Why an evaluation fails. -/
inductive Fault where
  /-- A token that is no literal, no variable and no builtin. -/
  | unknownInstruction (token : Text)
  /-- A name that the top frame does not bind. -/
  | undefinedVariable (name : Text)
  /-- An operand of a kind that the builtin does not take. -/
  | typeMismatch (builtin : Builtin) (expected : Expected) (found : Kind)
  | divisionByZero
  /-- The text of an operand denotes no number, or none in range. -/
  | malformedNumber (text : Text)
  /-- Text to be run that does not stand in brackets. -/
  | notAList (text : Text)
  /-- A token to be erased that is no variable. -/
  | expectedVariable (token : Text)
  | unreadableFile (path : Text) (reason : FileFault)
  /-- A token was needed where no more were left. -/
  | endOfInput
  | input (reason : Text)
  | output (reason : Text)
  deriving DecidableEq

def Fault.message : Fault → Text
  | unknownInstruction token => "Unknown instruction: ".toList ++ token
  | undefinedVariable name => "The variable [".toList ++ name ++ "] cannot be found in table.".toList
  | typeMismatch builtin expected found =>
    "Type of [".toList ++ builtin.name ++ "] should be ".toList ++ expected.name ++ " but got ".toList ++ found.name
      ++ ['.']
  | divisionByZero => "The division cannot be 0.".toList
  | malformedNumber text => '[' :: text ++ "] is not a valid number.".toList
  | notAList text => "This is not a LIST: ".toList ++ text
  | expectedVariable token => "Expected a variable in the form :name but got ".toList ++ token
  | unreadableFile path reason => path ++ " (".toList ++ reason.message ++ [')']
  | endOfInput => "Unexpected end of input.".toList
  | input reason => "Failed to read input: ".toList ++ reason
  | output reason => "Failed to write output: ".toList ++ reason

end MiniLogo
