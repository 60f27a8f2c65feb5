import MiniLogo.Proofs.Evaluation.Settling
import MiniLogo.Proofs.Number.WholeParts

/-!
# The whole part of a value

`int` gives the number that its operand denotes, cut off toward zero, and gives it exactly: it answers just when that
integer is a signed 64-bit integer, and otherwise names the text of the operand (`truncate_exact`). Its answer is a
number that it leaves as it is.
-/

namespace MiniLogo

open MiniLogo.Action MiniLogo.Operation

variable {α β : Type} {v : Value} {x : Float} {i : Int} {e : Fault}

theorem Operation.ok_bind (a : α) (f : α → Except Fault β) : (Except.ok a >>= f) = f a := rfl

theorem Action.ofExcept_bind (r : Except Fault α) (f : α → Except Fault β) :
    ofExcept (r >>= f) = ofExcept r >>= fun a => ofExcept (f a) := by
  cases r <;> rfl

/-- Text is refused as it is. -/
theorem Operation.readText_eq_error (h : readText v = .error e) : e = .malformedNumber v.text := by
  unfold readText at h
  split at h
  · cases h
  · exact (Except.error.inj h).symm

/-- What denotes no number is named by its text. -/
theorem Operation.numericText_eq_error (h : numericText v = .error e) : e = .malformedNumber v.text := by
  unfold numericText at h
  split at h
  · cases h
  · exact readText_eq_error h

/-- A value that denotes a number is cut off, or named if the whole part is out of range. -/
theorem Operation.truncate_of_ok (h : numericText v = .ok x) :
    truncate v = ((Binary64.int64? x).elim (.error (.malformedNumber v.text)) .ok) := by
  rw [truncate, h, ok_bind]
  -- the whole part is not to be computed
  generalize Binary64.int64? x = whole
  cases whole <;> rfl

theorem Operation.truncate_of_error (h : numericText v = .error e) : truncate v = .error (.malformedNumber v.text) := by
  rw [← numericText_eq_error h, truncate, h]
  rfl

/-- A value with a number is truncated if and only if its whole part is in the range. -/
theorem Operation.truncate_eq_ok_of_ok (h : numericText v = .ok x) :
    truncate v = .ok i ↔ Binary64.int64? x = some i := by
  rw [truncate_of_ok h]
  generalize Binary64.int64? x = whole
  cases whole <;> simp

/-- The integer that a value denotes when it is cut off toward zero, within 64 bits. -/
theorem Operation.truncate_eq_ok_iff : truncate v = .ok i ↔ ∃ x q, numericText v = .ok x ∧
    Binary64.value? x = some q ∧ i = Binary64.towardZero q ∧ -2 ^ 63 ≤ i ∧ i < 2 ^ 63 := by
  cases hn : numericText v with
  | error e =>
    rw [truncate_of_error hn]
    constructor
    · intro h
      cases h
    · rintro ⟨x, q, hx, -⟩
      cases hx
  | ok x =>
    rw [truncate_eq_ok_of_ok hn, Binary64.int64?_eq_some_iff, Binary64.wholePart?_eq, Option.map_eq_some_iff]
    unfold Binary64.leastInt Binary64.greatestInt
    constructor
    · rintro ⟨⟨q, hq, rfl⟩, hlow, hhigh⟩
      exact ⟨x, q, rfl, hq, rfl, by omega, by omega⟩
    · rintro ⟨x, q, hx, hq, rfl, hlow, hhigh⟩
      cases hx
      exact ⟨⟨q, hq, rfl⟩, by omega, by omega⟩

/-- A value without such an integer is named by its text. -/
theorem Operation.truncate_eq_error (h : truncate v = .error e) : e = .malformedNumber v.text := by
  cases hn : numericText v with
  | error e' =>
    rw [truncate_of_error hn] at h
    exact (Except.error.inj h).symm
  | ok x =>
    rw [truncate_of_ok hn] at h
    generalize Binary64.int64? x = whole at h
    cases whole with
    | some i => cases h
    | none => exact (Except.error.inj h).symm

/-- The answer is a number with itself as its whole part. -/
theorem Operation.truncate_ofInt (h : truncate v = .ok i) : truncate (.ofInt i) = .ok i := by
  cases hn : numericText v with
  | error e =>
    rw [truncate_of_error hn] at h
    cases h
  | ok x =>
    have hagain : numericText (.ofInt i) = .ok (Binary64.ofInt i) := rfl
    exact (truncate_eq_ok_of_ok hagain).2 (Binary64.int64?_ofInt ((truncate_eq_ok_of_ok hn).1 h))

/-- **The whole part is exact.** `int` answers just when the number that its operand denotes is finite and, cut off
toward zero, lies from -2^63 up to, and not including, 2^63; its answer is then that integer. Otherwise, and when the
text of the operand is no number, it fails and names this text. To take the whole part of the answer, or of what any
expression comes to, a second time changes nothing. -/
theorem truncate_exact (v : Value) :
    (∀ i, truncate v = .ok i ↔ ∃ x q, numericText v = .ok x ∧ Binary64.value? x = some q ∧
      i = Binary64.towardZero q ∧ -2 ^ 63 ≤ i ∧ i < 2 ^ 63) ∧
    (∀ e, truncate v = .error e ↔ e = .malformedNumber v.text ∧ ¬∃ x q, numericText v = .ok x ∧
      Binary64.value? x = some q ∧ -2 ^ 63 ≤ Binary64.towardZero q ∧ Binary64.towardZero q < 2 ^ 63) ∧
    (do truncate (.ofInt (← truncate v))) = truncate v ∧
    ∀ (files : Files) (next : Action Value) (loop : Action (Option Value)),
      apply files (apply files next loop .int) loop .int = apply files next loop .int := by
  have hagain : ∀ w : Value, (truncate w >>= fun i => truncate (.ofInt i)) = truncate w := fun w => by
    cases h : truncate w with
    | ok i => exact (ok_bind i _).trans (truncate_ofInt h)
    | error e => rfl
  refine ⟨fun i => truncate_eq_ok_iff, fun e => ⟨fun h => ⟨truncate_eq_error h, ?_⟩, ?_⟩, hagain v,
    fun files next loop => ?_⟩
  · rintro ⟨x, q, hx, hq, hrange⟩
    rw [truncate_eq_ok_iff.2 ⟨x, q, hx, hq, rfl, hrange⟩] at h
    cases h
  · rintro ⟨rfl, hnone⟩
    cases h : truncate v with
    | ok i =>
      obtain ⟨x, q, hx, hq, rfl, hrange⟩ := truncate_eq_ok_iff.1 h
      exact absurd ⟨x, q, hx, hq, hrange⟩ hnone
    | error e => rw [truncate_eq_error h]
  · have happly : ∀ x : Action Value, apply files x loop .int = x >>= fun w => ofExcept (truncate w) >>= fun i =>
        pure (Value.ofInt i) := fun x => rfl
    rw [happly, happly, bind_assoc]
    refine congrArg (next >>= ·) (funext fun w => ?_)
    -- the first answer is the operand of the second
    simp only [bind_assoc, pure_bind]
    rw [← bind_assoc, ← ofExcept_bind, hagain]

/-- The least integer of 64 bits is a double, and the greatest is read as 2^63. -/
example : truncate (.word "-9223372036854775808".toList) = .ok (-2 ^ 63) ∧
    truncate (.word "9223372036854775807".toList) = .error (.malformedNumber "9223372036854775807".toList) := by
  decide +kernel

end MiniLogo
