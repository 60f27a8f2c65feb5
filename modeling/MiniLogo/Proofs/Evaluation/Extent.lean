import MiniLogo.Interpreter.Evaluate

/-!
# How far expressions reach

Operands are evaluated while they are read, and yet the tokens of an expression are fixed before any of them is
evaluated. `read` goes through a list of tokens with a stack of wants (an expression, a raw token, the rest of a
bracketed literal) and no machine: each token meets the topmost want and puts its own wants in the place of it
(`Want.after`). The reading is complete, or lacks a token that is wanted, or is refused by a token that is no
instruction.

- `read_append`: wants are read one after the other;
- `read_append_tokens`: a complete reading does not see the tokens after it;
- `read_closings_eq_complete_iff`: a literal takes the fewest tokens that bring its bracket depth to zero;
- `extent`: the number of tokens of the expression at the front.
-/

namespace MiniLogo

/-- What a token is wanted for. -/
inductive Want where
  /-- To start an expression. -/
  | expression
  /-- To be taken as it is. -/
  | raw
  /-- To go on with a bracketed literal at this depth. -/
  | closing (depth : Int)
  deriving DecidableEq

/-- What a builtin takes after its name: operands that are evaluated, a raw token, or nothing. -/
def Builtin.wants : Builtin → List Want
  | .add | .sub | .mul | .div | .mod | .and | .or | .eq | .gt | .lt | .make => [.expression, .expression]
  | .not | .isNumber | .isBool | .isWord | .isList | .isEmpty | .isName | .first | .last | .butFirst | .butLast
  | .random | .int | .sqrt | .print | .run => [.expression]
  | .ifElse => [.expression, .expression, .expression]
  | .erase | .load | .read => [.raw]
  | .exit => []

namespace Want

/-- What a literal wants at a bracket depth: its rest, unless the brackets balance. -/
def closings (depth : Int) : List Want := if depth = 0 then [] else [closing depth]

/-- What an expression wants after its first token; a token that is no instruction starts none. -/
def ofToken (raw : Text) : Option (List Want) :=
  match Token.classify raw with
  | .word _ | .number _ | .bool _ | .reference _ => some []
  | .thing => some [expression]
  | .listStart first => some (closings (Text.balance first))
  | .name name => (Builtin.ofName? name).map Builtin.wants

/-- What stays wanted when a want meets a token. -/
def after : Want → Text → Option (List Want)
  | expression, t => ofToken t
  | raw, _ => some []
  | closing depth, t => some (closings (depth + Text.balance t))

end Want

/-- How a reading ends. -/
inductive Reading where
  /-- All wants were met by this many tokens. -/
  | complete (taken : Nat)
  /-- The tokens ran out where this was wanted. -/
  | lacking (w : Want)
  /-- A token that is no instruction stood where an expression was wanted. -/
  | refused
  deriving DecidableEq

namespace Reading

/-- The reading with so many more tokens in front. -/
def add (n : Nat) : Reading → Reading
  | complete k => complete (n + k)
  | lacking w => lacking w
  | refused => refused

/-- The number of tokens, if the reading is complete. -/
def taken? : Reading → Option Nat
  | complete n => some n
  | _ => none

@[simp] theorem add_zero (r : Reading) : r.add 0 = r := by
  cases r <;> simp [add]

@[simp] theorem add_add (m n : Nat) (r : Reading) : (r.add n).add m = r.add (m + n) := by
  cases r <;> simp [add, Nat.add_assoc]

theorem add_eq_complete_iff {n k : Nat} {r : Reading} :
    r.add n = complete k ↔ ∃ j, r = complete j ∧ k = n + j := by
  cases r <;> simp [add, eq_comm]

@[simp] theorem add_eq_lacking_iff {n : Nat} {w : Want} {r : Reading} : r.add n = lacking w ↔ r = lacking w := by
  cases r <;> simp [add]

end Reading

/-- Reads tokens for a stack of wants. -/
def read : List Want → List Text → Reading
  | [], _ => .complete 0
  | w :: _, [] => .lacking w
  | w :: ws, t :: ts =>
    match w.after t with
    | some vs => (read (vs ++ ws) ts).add 1
    | none => .refused

@[simp] theorem read_nil (ts : List Text) : read [] ts = .complete 0 := by
  cases ts <;> rfl

@[simp] theorem read_cons_nil (w : Want) (ws : List Want) : read (w :: ws) [] = .lacking w := rfl

theorem read_cons_some {w : Want} {ws vs : List Want} {t : Text} {ts : List Text} (h : w.after t = some vs) :
    read (w :: ws) (t :: ts) = (read (vs ++ ws) ts).add 1 := by
  simp [read, h]

theorem read_cons_none {w : Want} {ws : List Want} {t : Text} {ts : List Text} (h : w.after t = none) :
    read (w :: ws) (t :: ts) = .refused := by
  simp [read, h]

/-- A raw token is the next one. -/
theorem read_raw (t : Text) (ts : List Text) : read [.raw] (t :: ts) = .complete 1 := by
  have ha : Want.raw.after t = some [] := rfl
  rw [read_cons_some ha, List.append_nil, read_nil]
  rfl

/-! ## Wants one after the other -/

/-- A stack of wants is read from the top, each part where the one above it ends. -/
theorem read_append (ws ws' : List Want) (ts : List Text) :
    read (ws ++ ws') ts = match read ws ts with
      | .complete n => (read ws' (ts.drop n)).add n
      | .lacking w => .lacking w
      | .refused => .refused := by
  induction ts generalizing ws with
  | nil => cases ws <;> simp
  | cons t ts ih =>
    cases ws with
    | nil => simp
    | cons w ws =>
      cases h : w.after t with
      | none => rw [List.cons_append, read_cons_none h, read_cons_none h]
      | some vs =>
        rw [List.cons_append, read_cons_some h, read_cons_some h, ← List.append_assoc, ih]
        cases read (vs ++ ws) ts with
        | complete n =>
          show ((read ws' (ts.drop n)).add n).add 1 = (read ws' ((t :: ts).drop (1 + n))).add (1 + n)
          rw [Reading.add_add, Nat.add_comm 1 n, List.drop_succ_cons]
        | lacking w => rfl
        | refused => rfl

/-- Wants that are met leave the tokens behind them to the wants that follow. -/
theorem read_append_of_complete {ws : List Want} {ts : List Text} {n : Nat} (h : read ws ts = .complete n)
    (ws' : List Want) : read (ws ++ ws') ts = (read ws' (ts.drop n)).add n := by
  rw [read_append, h]

/-- Wants that tokens run out on are lacking whatever follows them. -/
theorem read_append_of_lacking {ws : List Want} {ts : List Text} {w : Want} (h : read ws ts = .lacking w)
    (ws' : List Want) : read (ws ++ ws') ts = .lacking w := by
  rw [read_append, h]

/-- What completes a stack of wants completes the upper part of it first. -/
theorem complete_of_read_append {ws ws' : List Want} {ts : List Text} {n : Nat}
    (h : read (ws ++ ws') ts = .complete n) :
    ∃ k j, read ws ts = .complete k ∧ read ws' (ts.drop k) = .complete j ∧ n = k + j := by
  rw [read_append] at h
  cases hk : read ws ts with
  | complete k =>
    rw [hk] at h
    obtain ⟨j, hj, rfl⟩ := Reading.add_eq_complete_iff.1 h
    exact ⟨k, j, rfl, hj, rfl⟩
  | lacking w => rw [hk] at h; cases h
  | refused => rw [hk] at h; cases h

/-! ## Tokens in front of others -/

/-- A complete reading does not depend on the tokens after it. -/
theorem read_append_tokens {ws : List Want} {ts : List Text} {n : Nat} (h : read ws ts = .complete n)
    (us : List Text) : read ws (ts ++ us) = .complete n := by
  induction ts generalizing ws n with
  | nil =>
    cases ws with
    | nil => simpa using h
    | cons w ws => cases h
  | cons t ts ih =>
    cases ws with
    | nil => simpa using h
    | cons w ws =>
      cases hw : w.after t with
      | none => rw [read_cons_none hw] at h; cases h
      | some vs =>
        rw [read_cons_some hw] at h
        obtain ⟨j, hj, rfl⟩ := Reading.add_eq_complete_iff.1 h
        rw [List.cons_append, read_cons_some hw, ih hj]
        rfl

/-- A complete reading depends on no more tokens than it takes. -/
theorem read_take {ws : List Want} {ts : List Text} {n : Nat} (h : read ws ts = .complete n) :
    read ws (ts.take n) = .complete n := by
  induction ts generalizing ws n with
  | nil => simpa using h
  | cons t ts ih =>
    cases ws with
    | nil =>
      rw [read_nil] at h ⊢
      exact h
    | cons w ws =>
      cases hw : w.after t with
      | none => rw [read_cons_none hw] at h; cases h
      | some vs =>
        rw [read_cons_some hw] at h
        obtain ⟨j, hj, rfl⟩ := Reading.add_eq_complete_iff.1 h
        rw [Nat.add_comm 1 j, List.take_succ_cons, read_cons_some hw, ih hj]
        exact congrArg Reading.complete (Nat.add_comm 1 j)

/-- A complete reading takes tokens that are there. -/
theorem le_length_of_read {ws : List Want} {ts : List Text} {n : Nat} (h : read ws ts = .complete n) :
    n ≤ ts.length := by
  induction ts generalizing ws n with
  | nil =>
    cases ws with
    | nil => cases h; exact Nat.le_refl 0
    | cons w ws => cases h
  | cons t ts ih =>
    cases ws with
    | nil => rw [read_nil] at h; cases h; exact Nat.zero_le _
    | cons w ws =>
      cases hw : w.after t with
      | none => rw [read_cons_none hw] at h; cases h
      | some vs =>
        rw [read_cons_some hw] at h
        obtain ⟨j, hj, rfl⟩ := Reading.add_eq_complete_iff.1 h
        have := ih hj
        simp only [List.length_cons]
        omega

/-! ## Literals -/

/-- A literal takes the fewest tokens that bring its bracket depth to zero. -/
theorem read_closings_eq_complete_iff {depth : Int} {ts : List Text} {n : Nat} :
    read (Want.closings depth) ts = .complete n ↔
      n ≤ ts.length ∧ depth + Text.balance (ts.take n).flatten = 0 ∧
        ∀ k < n, depth + Text.balance (ts.take k).flatten ≠ 0 := by
  induction ts generalizing depth n with
  | nil =>
    by_cases hd : depth = 0
    · simp [Want.closings, hd, eq_comm]
      rintro rfl
      simp
    · simp [Want.closings, hd]
  | cons t ts ih =>
    by_cases hd : depth = 0
    · subst hd
      simp only [Want.closings, if_true, read_nil, Reading.complete.injEq]
      constructor
      · rintro rfl
        simp
      · rintro ⟨-, -, hk⟩
        cases n with
        | zero => rfl
        | succ n => exact absurd (by simp) (hk 0 (Nat.succ_pos n))
    · have hc : Want.closings depth = [.closing depth] := by simp [Want.closings, hd]
      have ha : (Want.closing depth).after t = some (Want.closings (depth + Text.balance t)) := rfl
      rw [hc, read_cons_some ha, List.append_nil, Reading.add_eq_complete_iff]
      constructor
      · rintro ⟨j, hj, rfl⟩
        obtain ⟨hl, hz, hk⟩ := ih.1 hj
        refine ⟨by simp; omega, by simpa [Nat.add_comm 1 j, Int.add_assoc] using hz, fun k hlt => ?_⟩
        cases k with
        | zero => simpa using hd
        | succ k => simpa [Int.add_assoc] using hk k (by omega)
      · rintro ⟨hl, hz, hk⟩
        cases n with
        | zero => simp at hz; exact absurd hz hd
        | succ n =>
          refine ⟨n, ih.2 ⟨by simpa using hl, by simpa [Int.add_assoc] using hz, fun k hlt => ?_⟩, Nat.add_comm n 1⟩
          simpa [Int.add_assoc] using hk (k + 1) (by omega)

/-! ## The expression at the front -/

/-- The number of tokens of the expression that a token sequence starts with, if it starts with one. -/
def extent (ts : List Text) : Option Nat := (read [.expression] ts).taken?

/-- The extent is the number of tokens that complete an expression. -/
theorem extent_eq_some_iff {ts : List Text} {n : Nat} : extent ts = some n ↔ read [.expression] ts = .complete n := by
  unfold extent
  cases read [.expression] ts <;> simp [Reading.taken?]

/-- `mul 2 3` is the first operand of this `add`; the literal is the second one. -/
example : extent ["add".toList, "mul".toList, "2".toList, "3".toList, "[a".toList, "[b]".toList, "c]".toList,
    "print".toList] = some 7 := by decide

end MiniLogo
