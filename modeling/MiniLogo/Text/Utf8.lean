import MiniLogo.Text.Blank

/-!
# UTF-8

Bytes are read by a machine that takes one byte at a time (`step`): between characters it holds nothing, inside a
character it holds the bits read so far, how many bytes are still owed and the range of the next one. The ranges
are those of well-formed UTF-8, so that a sequence is given up at the first byte which no character could have
there. What was read up to that byte is replaced by one replacement character, and the byte itself is read again
from between characters.

- `encode`, `decodeLossy`: text as bytes and back;
- `decode?`: bytes as text if they are well formed, that is if their lossy text gives the bytes back;
- `splitLines`: the complete lines of a byte sequence and the unfinished rest (`splitLines_flatten`).
-/

namespace MiniLogo

/-- A sequence of bytes. -/
abbrev Bytes := List UInt8

namespace Utf8

def encode (t : Text) : Bytes := t.flatMap String.utf8EncodeChar

@[simp] theorem encode_nil : encode [] = [] := rfl

@[simp] theorem encode_append (s t : Text) : encode (s ++ t) = encode s ++ encode t :=
  List.flatMap_append

/-- The character that stands for bytes which are no character. -/
def replacement : Char := '\uFFFD'

/-- A character under way: its bits so far, the bytes still owed, and the range of the next byte. -/
structure Pending where
  bits : Nat
  owed : Nat
  low : Nat := 0x80
  high : Nat := 0xBF
  deriving DecidableEq, Repr

/-- Reads a byte between characters. -/
def start (b : Nat) : Text × Option Pending :=
  if b < 0x80 then ([Char.ofNat b], none)
  else if b < 0xC2 then ([replacement], none)
  else if b < 0xE0 then ([], some { bits := b - 0xC0, owed := 1 })
  else if b = 0xE0 then ([], some { bits := 0, owed := 2, low := 0xA0 })
  else if b = 0xED then ([], some { bits := 0xD, owed := 2, high := 0x9F })
  else if b < 0xF0 then ([], some { bits := b - 0xE0, owed := 2 })
  else if b = 0xF0 then ([], some { bits := 0, owed := 3, low := 0x90 })
  else if b < 0xF4 then ([], some { bits := b - 0xF0, owed := 3 })
  else if b = 0xF4 then ([], some { bits := 4, owed := 3, high := 0x8F })
  else ([replacement], none)

/-- Takes a byte of the allowed range into a character under way. -/
def Pending.extend (p : Pending) (b : Nat) : Text × Option Pending :=
  let bits := p.bits * 64 + (b - 0x80)
  if p.owed ≤ 1 then ([Char.ofNat bits], none) else ([], some { bits, owed := p.owed - 1 })

/-- One byte: the characters it completes or gives up, and what is under way after it. -/
def step (state : Option Pending) (b : Nat) : Text × Option Pending :=
  match state with
  | none => start b
  | some p =>
    if p.low ≤ b ∧ b ≤ p.high then p.extend b
    else (replacement :: (start b).1, (start b).2)

/-- The text of bytes read from a given state. -/
def decodeFrom : Option Pending → Bytes → Text
  | none, [] => []
  | some _, [] => [replacement]
  | state, b :: bytes =>
    (step state b.toNat).1 ++ decodeFrom (step state b.toNat).2 bytes

/-- The text of bytes, with one replacement character for each longest run of bytes that begins a character and
cannot go on, and for each byte that begins none. -/
def decodeLossy (bytes : Bytes) : Text := decodeFrom none bytes

/-- The text of well-formed bytes. -/
def decode? (bytes : Bytes) : Option Text :=
  let t := decodeLossy bytes
  if encode t = bytes then some t else none

/-! ## Lines -/

/-- The complete lines, each with its line feed, and the unfinished rest. -/
def splitLines : Bytes → List Bytes × Bytes
  | [] => ([], [])
  | b :: bytes =>
    let (lines, rest) := splitLines bytes
    if b = 10 then ([b] :: lines, rest)
    else match lines with
      | [] => ([], b :: rest)
      | line :: lines => ((b :: line) :: lines, rest)

/-- Lines and rest together are the bytes. -/
theorem splitLines_flatten (bytes : Bytes) : (splitLines bytes).1.flatten ++ (splitLines bytes).2 = bytes := by
  induction bytes with
  | nil => rfl
  | cons b bytes ih =>
    unfold splitLines
    split
    rename_i lines rest h
    rw [h] at ih
    split
    · simpa using ih
    · cases lines <;> simpa using ih

end Utf8

end MiniLogo
