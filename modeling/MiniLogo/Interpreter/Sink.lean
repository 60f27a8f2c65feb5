import MiniLogo.Text.Utf8

/-!
# Output

A sink keeps the bytes that were written to it. It may have room for a limited number of them: a write that does not
fit stores the bytes that do and fails.
-/

namespace MiniLogo

/-- Where output goes. -/
structure Sink where
  written : Bytes := []
  /-- The number of bytes that still fit; without it every write does. -/
  room : Option Nat := none
  deriving DecidableEq

namespace Sink

def full : Text := "sink full".toList

/-- Writes bytes: whether they all fitted, and the sink after it. -/
def write (s : Sink) (bytes : Bytes) : Bool × Sink :=
  match s.room with
  | none => (true, { s with written := s.written ++ bytes })
  | some n => (decide (bytes.length ≤ n), { written := s.written ++ bytes.take n, room := some (n - bytes.length) })

/-- What was written before stays. -/
theorem written_prefix_write (s : Sink) (bytes : Bytes) : s.written <+: (s.write bytes).2.written := by
  unfold write
  split <;> exact List.prefix_append _ _

/-- Bytes are written in one piece as in two, the second of which is kept back if the first one does not fit. So it
makes no difference whether a line and its line feed are written at once or one after the other. -/
theorem write_append (s : Sink) (a b : Bytes) :
    s.write (a ++ b) = if (s.write a).1 then (s.write a).2.write b else s.write a := by
  unfold write
  cases hr : s.room with
  | none => simp
  | some n =>
    by_cases ha : a.length ≤ n
    · simp [ha, List.take_append, List.take_of_length_le ha, Nat.sub_sub]
      omega
    · have h₁ : n - a.length = 0 := by omega
      have h₂ : ¬ a.length + b.length ≤ n := by omega
      have h₃ : n - (a.length + b.length) = 0 := by omega
      simp [ha, List.take_append, h₁, h₂, h₃]

end Sink

end MiniLogo
