import MiniLogo.Text.Utf8
import MiniLogo.Value.Fault

/-!
# Files

What evaluation knows of the file system is what reading a path gives. `Tree` is a working directory with given
files in it and nothing else. A path is followed one component at a time: `.` stays, `..` goes up, a name has to be
there, and what is not the last component has to be a directory. A slash at the end asks for a directory too.
-/

namespace MiniLogo

/-- What reading a file at a path gives. -/
abbrev Files := Text → Except FileFault Bytes

/-- The files of a working directory, each with its path as the names on the way to it. -/
structure Tree where
  files : List (List Text × Bytes)

namespace Tree

/-- The parts of a path between its slashes. -/
def components : Text → List Text
  | [] => [[]]
  | c :: t =>
    if c = '/' then [] :: components t
    else match components t with
      | [] => [[c]]
      | part :: parts => (c :: part) :: parts

/-- The tree of files given with their paths. -/
def ofFiles (files : List (Text × Bytes)) : Tree where
  files := files.map fun f => ((components f.1).filter fun c => c ≠ [] ∧ c ≠ ['.'], f.2)

/-- Where a path leads. -/
inductive Place where
  /-- The names on the way from the working directory, last first. -/
  | inside (names : List Text)
  /-- A directory outside the working directory, in which nothing is known to be. -/
  | outside
  deriving DecidableEq

/-- The contents of the file at a place, if there is one. -/
def file? (tree : Tree) : Place → Option Bytes
  | .inside names => tree.files.lookup names.reverse
  | _ => none

def isDirectory (tree : Tree) : Place → Bool
  | .inside names => names.isEmpty || tree.files.any fun f => names.reverse.isPrefixOf f.1 && f.1 ≠ names.reverse
  | _ => true

def longestName : Nat := 255

def longestPath : Nat := 4095

/-- One step from a directory. -/
def enter (tree : Tree) (place : Place) (name : Text) : Except FileFault Place :=
  if name = [] ∨ name = ['.'] then .ok place
  else if name = ['.', '.'] then
    .ok (match place with
      | .inside (_ :: names) => .inside names
      | .inside [] | .outside => .outside)
  else if longestName < (Utf8.encode name).length then .error .nameTooLong
  else match place with
    | .inside names =>
      let next := .inside (name :: names)
      if (tree.file? next).isSome ∨ tree.isDirectory next then .ok next else .error .notFound
    | _ => .error .notFound

def follow (tree : Tree) : Place → List Text → Except FileFault Place
  | place, [] => .ok place
  | place, name :: names =>
    if tree.isDirectory place then do follow tree (← tree.enter place name) names
    else .error .notDirectory

def read (tree : Tree) : Files := fun path =>
  if '\x00' ∈ path then .error .nulInName
  else if path = [] then .error .notFound
  else if longestPath < (Utf8.encode path).length then .error .nameTooLong
  else do
    let start := if path.head? = some '/' then .outside else .inside []
    let place ← tree.follow start (components path)
    match tree.file? place with
    | some bytes => .ok bytes
    | none => .error .isDirectory

end Tree

end MiniLogo
