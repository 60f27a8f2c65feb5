import MiniLogo.Proofs.Evaluation.Printing
import MiniLogo.Proofs.Evaluation.Settling

/-!
# Faults of builtins themselves

A builtin fails because an operand does, because the text that it runs does, or for a reason of its own, which lies in
its operands, in the variables, in the files or in the output (`Fault.isOwn`). For a reason of its own it fails where
its operands were taken and leaves everything as they left it; only `print` may have written a part of its line
(`failsOwn_settle`).

The builtins of two operands that are computed with ask for kinds of value. Both operands are taken before either is
looked at, and the left one is looked at first (`settleTwo_failed_iff`).
-/

namespace MiniLogo

open MiniLogo.Action

/-! ## Failing in place -/

/-- Whether a builtin fails with this for a reason of its own. -/
def Fault.isOwn : Fault → Bool
  | typeMismatch .. | divisionByZero | malformedNumber _ | notAList _ | expectedVariable _ | undefinedVariable _
  | unreadableFile .. | output _ => true
  | unknownInstruction _ | endOfInput | input _ => false

/-- A fault of the result is one of the builtin itself. -/
def OwnFailure {α : Type} (r : Except Fault α) : Prop := ∀ e, r = .error e → e.isOwn = true

/-- The action fails for a reason of the builtin itself, and then it has changed nothing. -/
def FailsInPlace {α : Type} (x : Action α) : Prop :=
  ∀ s e after, x s = .failed e after → e.isOwn = true ∧ after = s

section

variable {α β : Type} {v w : Value}

theorem ownFailure_ok (a : α) : OwnFailure (.ok a) := nofun

theorem ownFailure_error {e : Fault} (h : e.isOwn = true) : OwnFailure (α := α) (.error e) :=
  fun _ he => Except.error.inj he ▸ h

/-- One computation after another fails for reasons of its own if both do. -/
theorem OwnFailure.bind {r : Except Fault α} {k : α → Except Fault β} (hr : OwnFailure r)
    (hk : ∀ a, OwnFailure (k a)) : OwnFailure (r >>= k) := by
  cases r with
  | ok a => exact hk a
  | error e => exact ownFailure_error (hr e rfl)

/-- An action that always ends with a value does not fail. -/
theorem failsInPlace_of_done {x : Action α} (h : ∀ s, ∃ a after, x s = .done a after) : FailsInPlace x := by
  intro s e after hx
  obtain ⟨a, after', ha⟩ := h s
  rw [ha] at hx
  cases hx

theorem failsInPlace_pure (a : α) : FailsInPlace (pure a) := failsInPlace_of_done fun s => ⟨a, s, rfl⟩

theorem failsInPlace_giveUp : FailsInPlace (α := α) giveUp := fun _ _ _ h => by cases h

theorem failsInPlace_fail {e : Fault} (h : e.isOwn = true) : FailsInPlace (α := α) (fail e) := by
  intro s e' after hx
  obtain ⟨rfl, rfl⟩ := Outcome.failed.inj hx
  exact ⟨h, rfl⟩

/-- An action goes on in place from a result, for a result changes nothing. -/
theorem OwnFailure.failsInPlace_bind {r : Except Fault α} {k : α → Action β} (hr : OwnFailure r)
    (hk : ∀ a, FailsInPlace (k a)) : FailsInPlace (ofExcept r >>= k) := by
  cases r with
  | ok a => exact hk a
  | error e => exact failsInPlace_fail (hr e rfl)

/-- A computation that fails leaves the state it found. -/
theorem ofExcept_failed_iff {r : Except Fault α} {e : Fault} {s after : State} :
    Action.ofExcept r s = .failed e after ↔ after = s ∧ r = .error e := by
  cases r with
  | ok a => exact ⟨nofun, fun h => by cases h.2⟩
  | error e' =>
    constructor
    · intro h
      obtain ⟨rfl, rfl⟩ := Outcome.failed.inj h
      exact ⟨rfl, rfl⟩
    · rintro ⟨rfl, h⟩
      cases h
      rfl

/-- A computation that fails for reasons of its own fails in place. -/
theorem OwnFailure.failsInPlace {r : Except Fault α} (hr : OwnFailure r) : FailsInPlace (ofExcept r) := by
  cases r with
  | ok a => exact failsInPlace_pure a
  | error e => exact failsInPlace_fail (hr e rfl)

/-- A variable that is not there is a reason of its own, and changes nothing. -/
theorem failsInPlace_lookup (name : Text) : FailsInPlace (lookup name) := by
  intro s e after hx
  unfold lookup at hx
  split at hx
  · cases hx
  · obtain ⟨rfl, rfl⟩ := Outcome.failed.inj hx
    exact ⟨rfl, rfl⟩

/-- Erasing fails before it binds anything, if at all. -/
theorem failsInPlace_erase (t : Text) : FailsInPlace (erase t) := by
  unfold erase
  split
  · intro s e after hx
    -- once the name is found, nothing fails
    rcases bind_eq_of_iff (r := .error e) (m := after.toMachine) (f := after.feed).1 hx with
      ⟨e', he, h⟩ | ⟨v, after', -, h⟩
    · obtain rfl := Except.error.inj h
      exact failsInPlace_lookup _ s e after he
    · cases h
  · exact failsInPlace_fail rfl

/-! ## Two operands -/

/-- The double of a value, if it is a number that has one. -/
def Value.float? : Value → Option Float
  | number n => n.value
  | _ => none

/-- Whether a value is a number that is zero, of either sign. -/
def Value.isZero (v : Value) : Bool := v.float?.any fun x => x.toBits = 0 ∨ x.toBits = 0x8000000000000000

/-- The builtins that compute with two operands. -/
def Builtin.binary : List Builtin := [add, sub, mul, div, mod, and, or, eq, gt, lt]

/-- What is wrong with an operand by itself: arithmetic asks for a number that has a double, `and` and `or` ask for a
truth value, and comparison for nothing. -/
def Builtin.objection (b : Builtin) (v : Value) : Option Fault :=
  match b with
  | add | sub | mul | div | mod =>
    if v.kind ≠ .number then some (.typeMismatch b .number v.kind)
    else if v.float?.isNone then some (.malformedNumber v.text) else none
  | and | or => if v.kind ≠ .bool then some (.typeMismatch b .bool v.kind) else none
  | _ => none

/-- What is wrong with two operands: the left one, else the right one, else a division by zero. -/
def Builtin.refusal (b : Builtin) (left right : Value) : Option Fault :=
  (b.objection left).or ((b.objection right).or
    (if b ∈ [div, mod] ∧ right.isZero then some .divisionByZero else none))

/-- The rank zero is that of both zeros. -/
theorem Binary64.rank_eq_zero_iff (x : Float) :
    rank x = 0 ↔ x.toBits = 0 ∨ x.toBits = 0x8000000000000000 := by
  have hlt : x.toBits.toNat < 2 ^ 64 := x.toBits.toNat_lt
  have hsign : signBit = 2 ^ 63 := by decide
  rw [← UInt64.toNat_inj, ← UInt64.toNat_inj]
  show x.toBits.toNat % signBit = 0 ↔ x.toBits.toNat = 0 ∨ x.toBits.toNat = 0x8000000000000000
  rw [hsign]
  omega

/-- Truth values, erased or not, are what has a truth. -/
theorem isSome_truth?_iff : v.truth?.isSome = true ↔ v.kind = .bool := by
  cases v with
  | erased k => cases k <;> simp [Value.truth?, Value.kind]
  | _ => simp [Value.truth?, Value.kind]

/-- Only numbers have a value to compute with. -/
theorem kind_of_float? {x : Float} (h : v.float? = some x) : v.kind = .number := by
  cases v with
  | number n => rfl
  | _ => cases h

/-- Arithmetic objects to exactly the operands that have no double. -/
theorem objection_arithmetic {b : Builtin} (hb : b ∈ [.add, .sub, .mul, .div, .mod]) (v : Value) :
    b.objection v = match v.float? with
      | some _ => none
      | none => some (if v.kind ≠ .number then .typeMismatch b .number v.kind else .malformedNumber v.text) := by
  have hb : b.objection v = if v.kind ≠ .number then some (.typeMismatch b .number v.kind)
      else if v.float?.isNone then some (.malformedNumber v.text) else none := by
    cases b <;> first | rfl | simp at hb
  rw [hb]
  cases hv : v.float? with
  | some x => simp [kind_of_float? hv]
  | none => split <;> simp_all

/-- An operand is refused for its kind, and a number without a value for its text. -/
theorem numberOperand_eq (b : Builtin) (v : Value) : Operation.numberOperand b v = match v.float? with
    | some x => .ok x
    | none => .error (if v.kind ≠ .number then .typeMismatch b .number v.kind else .malformedNumber v.text) := by
  cases v with
  | number n => cases hn : n.value <;> simp [Operation.numberOperand, Value.float?, Value.kind, Value.text, hn]
  | erased k => cases k <;> rfl
  | _ => rfl

/-- Only a division by zero fails. -/
theorem compute_eq_error_iff {b : Builtin} (hb : b ∈ [.add, .sub, .mul, .div, .mod]) {x y : Float} {e : Fault} :
    Operation.compute b x y = .error e ↔ (b ∈ [.div, .mod] ∧ Binary64.rank y = 0) ∧ e = .divisionByZero := by
  simp only [List.mem_cons, List.not_mem_nil, or_false] at hb
  rcases hb with rfl | rfl | rfl | rfl | rfl
  · simp [Operation.compute]
  · simp [Operation.compute]
  · simp [Operation.compute]
  · by_cases hy : Binary64.rank y = 0 <;> simp [Operation.compute, hy, eq_comm]
  · by_cases hy : Binary64.rank y = 0 <;> simp [Operation.compute, hy, eq_comm]

/-- Arithmetic fails exactly as its refusal says. -/
theorem arithmetic_eq_error_iff {b : Builtin} (hb : b ∈ [.add, .sub, .mul, .div, .mod]) {e : Fault} :
    Operation.arithmetic b v w = .error e ↔ b.refusal v w = some e := by
  unfold Operation.arithmetic Builtin.refusal
  rw [numberOperand_eq, numberOperand_eq, objection_arithmetic hb, objection_arithmetic hb]
  cases hv : v.float? with
  | none => simp [bind, Except.bind]
  | some x =>
    cases hw : w.float? with
    | none => simp [bind, Except.bind]
    | some y =>
      have hz : w.isZero = true ↔ Binary64.rank y = 0 := by
        rw [Binary64.rank_eq_zero_iff]
        simp [Value.isZero, hw]
      have hc : (do return Value.ofFloat (← Operation.compute b x y) : Except Fault Value) = .error e ↔
          Operation.compute b x y = .error e := by
        cases Operation.compute b x y <;> simp [bind, Except.bind, pure, Except.pure]
      simp only [Option.none_or]
      refine hc.trans ((compute_eq_error_iff hb).trans ?_)
      rw [← hz]
      by_cases h : b ∈ [.div, .mod] ∧ w.isZero = true
      · rw [if_pos h]
        exact ⟨fun he => congrArg some he.2.symm, fun he => ⟨h, (Option.some.inj he).symm⟩⟩
      · rw [if_neg h]
        exact ⟨fun he => absurd he.1 h, nofun⟩

/-- `and` and `or` object to exactly the operands that have no truth value. -/
theorem objection_logic {b : Builtin} (hb : b ∈ [.and, .or]) (v : Value) : b.objection v = match v.truth? with
    | some _ => none
    | none => some (.typeMismatch b .bool v.kind) := by
  have hb : b.objection v = if v.kind ≠ .bool then some (.typeMismatch b .bool v.kind) else none := by
    cases b <;> first | rfl | simp at hb
  have hkind := isSome_truth?_iff (v := v)
  rw [hb]
  cases hv : v.truth? with
  | some p => simp [hkind.1 (by rw [hv]; rfl)]
  | none => simp [mt hkind.2 (by simp [hv])]

/-- The logical builtins fail exactly as their refusal says. -/
theorem logic_eq_error_iff {b : Builtin} (hb : b ∈ [.and, .or]) {e : Fault} :
    Operation.logic b v w = .error e ↔ b.refusal v w = some e := by
  have hdiv : b ∉ [.div, .mod] := by
    revert hb
    cases b <;> decide
  unfold Operation.logic Operation.boolOperand Builtin.refusal
  rw [objection_logic hb, objection_logic hb, if_neg fun h => hdiv h.1]
  cases v.truth? with
  | none => simp [bind, Except.bind]
  | some p =>
    cases w.truth? with
    | none => simp [bind, Except.bind]
    | some q =>
      simp only [List.mem_cons, List.not_mem_nil, or_false] at hb
      rcases hb with rfl | rfl <;> simp [bind, Except.bind]

/-- A comparison fails exactly as its refusal says. -/
theorem compare_eq_error_iff {b : Builtin} (hb : b ∈ [.eq, .gt, .lt]) {e : Fault} :
    Operation.compare b v w = .error e ↔ b.refusal v w = some e := by
  simp only [List.mem_cons, List.not_mem_nil, or_false] at hb
  rcases hb with rfl | rfl | rfl <;> simp [Operation.compare, Builtin.refusal, Builtin.objection]

/-- A builtin of two operands that are computed with fails exactly as its operands are refused, and in place. -/
theorem settleTwo_failed_iff {b : Builtin} (hb : b ∈ Builtin.binary) {e : Fault} {s after : State} :
    settleTwo b v w s = .failed e after ↔ after = s ∧ b.refusal v w = some e := by
  cases b with
  | add | sub | mul | div | mod => rw [settleTwo, ofExcept_failed_iff, arithmetic_eq_error_iff (by decide)]
  | and | or => rw [settleTwo, ofExcept_failed_iff, logic_eq_error_iff (by decide)]
  | eq | gt | lt => rw [settleTwo, ofExcept_failed_iff, compare_eq_error_iff (by decide)]
  | _ => exact absurd hb (by decide)

theorem isOwn_of_objection {b : Builtin} {e : Fault} (h : b.objection v = some e) : e.isOwn = true := by
  unfold Builtin.objection at h
  split at h
  any_goals split at h
  any_goals split at h
  all_goals cases h <;> rfl

/-- To refuse operands is a reason of its own. -/
theorem isOwn_of_refusal {b : Builtin} {e : Fault} (h : b.refusal v w = some e) : e.isOwn = true := by
  rcases Option.or_eq_some_iff.1 h with h | ⟨-, h⟩
  · exact isOwn_of_objection h
  · rcases Option.or_eq_some_iff.1 h with h | ⟨-, h⟩
    · exact isOwn_of_objection h
    · split at h
      · cases h
        rfl
      · cases h

/-! ## One operand -/

theorem ownFailure_boolOperand (b : Builtin) (v : Value) : OwnFailure (Operation.boolOperand b v) := by
  unfold Operation.boolOperand
  cases v.truth? with
  | some p => exact ownFailure_ok p
  | none => exact ownFailure_error rfl

theorem ownFailure_isEmpty (v : Value) : OwnFailure (Operation.isEmpty v) := by
  unfold Operation.isEmpty
  split
  · exact ownFailure_ok _
  · exact ownFailure_ok _
  · exact ownFailure_ok _
  · exact ownFailure_ok _
  · exact ownFailure_error rfl

/-- A text that is no number is a reason of its own. -/
theorem ownFailure_numericText (v : Value) : OwnFailure (Operation.numericText v) := by
  unfold Operation.numericText
  split
  · exact ownFailure_ok _
  · unfold Operation.readText
    cases Decimal.read? (Text.trim v.text) with
    | some x => exact ownFailure_ok x
    | none => exact ownFailure_error rfl

theorem ownFailure_truncate (v : Value) : OwnFailure (Operation.truncate v) := by
  refine (ownFailure_numericText v).bind fun x => ?_
  cases Binary64.int64? x with
  | some i => exact ownFailure_ok i
  | none => exact ownFailure_error rfl

/-- A value without parts is refused in place. -/
theorem failsInPlace_access (b : Builtin) (p : Part) (v : Value) : FailsInPlace (access (pure v) b p) := by
  unfold access
  rw [pure_bind]
  cases p.ofValue? v with
  | some part => exact failsInPlace_pure part
  | none => exact failsInPlace_fail rfl

/-! ## All builtins -/

variable {files : Files} {loop : Action (Option Value)} {b : Builtin} {s after : State} {e : Fault}

/-- The builtin left things as they were, but that `print` may have written the first bytes of its line. -/
def Builtin.LeftAs (b : Builtin) (ops : List Operand) (s after : State) : Prop :=
  after = s ∨ ∃ v k, b = .print ∧ ops = [.value v] ∧ after = { s with output := after.output } ∧
    after.output.written = s.output.written ++ (Utf8.encode (v.display ++ ['\n'])).take k

/-- The failure is that of the text that the builtin runs, or it is one of the builtin itself, which left things as
they were. -/
def Builtin.FailsOwn (files : Files) (loop : Action (Option Value)) (b : Builtin) (ops : List Operand) (s : State)
    (e : Fault) (after : State) : Prop :=
  match b.body? files ops with
  | some body => within (.ofText body) loop s = .failed e after
  | none => e.isOwn = true ∧ b.LeftAs ops s after

/-- A builtin that runs nothing and fails in place does so for reasons of its own. -/
theorem FailsInPlace.failsOwn {x : Action Value} {ops : List Operand} (hx : FailsInPlace x)
    (hb : b.body? files ops = none) (h : x s = .failed e after) : b.FailsOwn files loop ops s e after := by
  obtain ⟨he, ha⟩ := hx s e after h
  unfold Builtin.FailsOwn
  rw [hb]
  exact ⟨he, .inl ha⟩

/-- Running a text fails as its run does. -/
theorem runText_failed_iff {t : Text} : runText loop t v s = .failed e after ↔
    within (.ofText t) loop s = .failed e after := by
  unfold runText
  rw [bind_apply]
  cases within (.ofText t) loop s <;> simp

/-- Running a list fails because its text does, or because it is none. -/
theorem failsOwn_runList {ops : List Operand} (hb : b.body? files ops = Text.unbracket? v.text)
    (h : runList loop v s = .failed e after) : b.FailsOwn files loop ops s e after := by
  cases hu : Text.unbracket? v.text with
  | some interior =>
    rw [runList_of_unbracket? hu, runText_failed_iff] at h
    unfold Builtin.FailsOwn
    rwa [hb, hu]
  | none =>
    rw [runList, hu] at h
    exact (failsInPlace_fail rfl).failsOwn (hb.trans hu) h

/-- `load` fails in place for a file that cannot be read, and else as the run of its text does. -/
theorem failsOwn_loadFile {t : Text} (h : loadFile files loop (unquote t) s = .failed e after) :
    Builtin.load.FailsOwn files loop [.token t] s e after := by
  cases hf : files (unquote t) with
  | ok bytes =>
    have hb : Builtin.load.body? files [.token t] = some (Utf8.decodeLossy bytes) := by
      simp [Builtin.body?, hf, Except.toOption]
    rw [loadFile_of_ok hf, runText_failed_iff] at h
    unfold Builtin.FailsOwn
    rwa [hb]
  | error reason =>
    rw [loadFile, hf] at h
    exact (failsInPlace_fail rfl).failsOwn (by simp [Builtin.body?, hf, Except.toOption]) h

/-- Output that has no room for a line takes the first bytes of it. -/
theorem Sink.written_write_prefix (o : Sink) (bytes : Bytes) :
    ∃ k, (o.write bytes).2.written = o.written ++ bytes.take k := by
  unfold write
  cases o.room with
  | none => exact ⟨bytes.length, by rw [List.take_length]⟩
  | some n => exact ⟨n, rfl⟩

/-- `print` fails as the output does, which may have taken a part of the line. -/
theorem failsOwn_print (h : settleOne loop .print v s = .failed e after) :
    Builtin.print.FailsOwn files loop [.value v] s e after := by
  rw [settleOne, bind_apply, writeLine_apply] at h
  cases ht : s.takesLine v.display with
  | true =>
    rw [ht] at h
    cases h
  | false =>
    rw [ht] at h
    obtain ⟨rfl, rfl⟩ := Outcome.failed.inj h
    obtain ⟨k, hk⟩ := s.output.written_write_prefix (Utf8.encode (v.display ++ ['\n']))
    exact ⟨rfl, .inr ⟨v, k, rfl, rfl, rfl, hk⟩⟩

/-- Each builtin of one operand fails for its own reasons or with the run of its body. -/
theorem failsOwn_settleOne (h : settleOne loop b v s = .failed e after) :
    b.FailsOwn files loop [.value v] s e after := by
  cases b with
  | print => exact failsOwn_print h
  | run => exact failsOwn_runList rfl h
  | not =>
    exact ((ownFailure_boolOperand .not v).bind fun _ => ownFailure_ok _).failsInPlace.failsOwn rfl h
  | isEmpty => exact (ownFailure_isEmpty v).failsInPlace.failsOwn rfl h
  | isNumber | isBool | isWord | isList => exact (failsInPlace_pure _).failsOwn rfl h
  | isName => exact (failsInPlace_of_done fun s => ⟨_, s, rfl⟩).failsOwn rfl h
  | first | last | butFirst | butLast => exact (failsInPlace_access _ _ v).failsOwn rfl h
  | random =>
    exact ((ownFailure_numericText v).failsInPlace_bind fun _ =>
      failsInPlace_of_done fun s => ⟨_, _, rfl⟩).failsOwn rfl h
  | int => exact ((ownFailure_truncate v).failsInPlace_bind fun _ => failsInPlace_pure _).failsOwn rfl h
  | sqrt => exact ((ownFailure_numericText v).failsInPlace_bind fun _ => failsInPlace_pure _).failsOwn rfl h
  | ifElse => exact (failsInPlace_fail rfl).failsOwn rfl h
  | _ => exact failsInPlace_giveUp.failsOwn rfl h

/-- The builtins of two operands compute or bind, and run nothing. -/
theorem failsOwn_settleTwo (h : settleTwo b v w s = .failed e after) :
    b.FailsOwn files loop [.value v, .value w] s e after := by
  by_cases hb : b ∈ Builtin.binary
  · obtain ⟨rfl, hr⟩ := (settleTwo_failed_iff hb).1 h
    exact ⟨isOwn_of_refusal hr, .inl rfl⟩
  · cases b with
    | make =>
      refine (failsInPlace_of_done fun s => ?_).failsOwn rfl h
      unfold settleTwo
      cases Procedure.ofLiteral? v.text w <;> exact ⟨_, _, rfl⟩
    | add | sub | mul | div | mod | and | or | eq | gt | lt => exact absurd (by decide) hb
    | _ => exact failsInPlace_giveUp.failsOwn rfl h

/-- The builtins of a raw token look at a variable, a file or nothing. -/
theorem failsOwn_settleToken {t : Text} (h : settleToken files loop b t s = .failed e after) :
    b.FailsOwn files loop [.token t] s e after := by
  cases b with
  | erase => exact (failsInPlace_erase t).failsOwn rfl h
  | load => exact failsOwn_loadFile h
  | read => exact (failsInPlace_pure _).failsOwn rfl h
  | _ => exact failsInPlace_giveUp.failsOwn rfl h

/-- **Builtins fail in place.** -/
theorem failsOwn_settle {ops : List Operand} (h : settle files loop b ops s = .failed e after) :
    b.FailsOwn files loop ops s e after := by
  unfold settle at h
  split at h
  · exact (failsInPlace_of_done fun s => ⟨_, _, rfl⟩).failsOwn rfl h
  · exact failsOwn_settleToken h
  · exact failsOwn_settleOne h
  · exact failsOwn_settleTwo h
  · exact failsOwn_runList rfl h
  · cases h

end

/-! ## Evaluation -/

/-- Evaluating the name of a builtin takes its operands and settles them. -/
theorem eval_name (files : Files) (fuel : Nat) (b : Builtin) : eval files (fuel + 1) b.name =
    operands (evalNext files fuel) b >>= settle files (run files fuel) b := by
  rw [← apply_eq, ← evalWith_name]
  rfl

/-- **A builtin that fails has no effect of its own.** If an operand fails, so does the builtin, as the operand left
things. After operands that did not fail, the builtin fails as the text does that it runs, or else for a reason of its
own, and then everything is as the operands left it, but that `print` may have written the first bytes of its line.

The builtins that compute with two operands take both of them, the left one first, whatever the left one is. Then they
fail exactly if the operands are refused: the left one, else the right one, else a zero of either sign as the divisor
of a number. `if` refuses a condition that is no truth value where the condition was taken. -/
theorem eval_builtin_failed (files : Files) (fuel : Nat) (b : Builtin) (s : State) :
    let next := evalNext files fuel
    let ends := eval files (fuel + 1) b.name s
    (∀ e after, operands next b s = .failed e after → ends = .failed e after) ∧
    (∀ ops s₁ e after, operands next b s = .done ops s₁ → ends = .failed e after →
      b.FailsOwn files (run files fuel) ops s₁ e after) ∧
    (∀ left s₁, b ∈ Builtin.binary → next s = .done left s₁ →
      (∀ e after, next s₁ = .failed e after → ends = .failed e after) ∧
      ∀ right s₂, next s₁ = .done right s₂ → operands next b s = .done [.value left, .value right] s₂ ∧
        ∀ e after, ends = .failed e after ↔ after = s₂ ∧ b.refusal left right = some e) ∧
    ∀ condition s₁, b = .ifElse → next s = .done condition s₁ → condition.kind ≠ .bool →
      ends = .failed (.typeMismatch b .bool condition.kind) s₁ := by
  intro next ends
  have hends : ends = (operands next b >>= settle files (run files fuel) b) s :=
    congrFun (eval_name files fuel b) s
  refine ⟨fun e after h => ?_, fun ops s₁ e after h he => ?_, fun left s₁ hb hleft => ?_,
    fun condition s₁ hb hc hk => ?_⟩
  · rw [hends, bind_apply, h]
  · rw [hends, bind_apply, h] at he
    exact failsOwn_settle he
  · have hops : operands next b = (do
        let left ← next
        let right ← next
        return [.value left, .value right]) := by
      refine operands_two ?_
      revert hb
      cases b <;> decide
    refine ⟨fun e after hright => ?_, fun right s₂ hright => ?_⟩
    · rw [hends, hops, bind_apply, bind_apply, hleft]
      simp only
      rw [bind_apply, hright]
    · have hboth : operands next b s = .done [.value left, .value right] s₂ := by
        rw [hops, bind_apply, hleft]
        simp only
        rw [bind_apply, hright]
        rfl
      refine ⟨hboth, fun e after => ?_⟩
      rw [hends, bind_apply, hboth]
      exact settleTwo_failed_iff hb
  · subst hb
    have htruth : condition.truth? = none :=
      Option.not_isSome_iff_eq_none.1 (mt isSome_truth?_iff.1 hk)
    rw [hends, operands_ifElse, bind_apply, bind_apply, hc]
    simp only [htruth]
    rfl

/-- The right operand of `and` prints although the left one is a word; a line that does not fit is cut off; and `if`
leaves the tokens of its branches after a word. -/
theorem eval_builtin_failed_each :
    let files : Files := fun _ => .error .notFound
    let s (written room : Text) (tokens : List Text) : State :=
      ⟨{ environment := .empty, output := { written := Utf8.encode written, room := some room.length } },
        { pending := tokens }⟩
    eval files 3 Builtin.and.name (s [] "abc".toList ["\"a".toList, "print".toList, "\"z".toList]) =
        .failed (.typeMismatch .and .bool .word) (s "z\n".toList ['c'] []) ∧
      (∃ after, eval files 3 Builtin.print.name (s [] "ab".toList ["\"xyz".toList]) =
          .failed (.output Sink.full) after ∧
        Builtin.print.LeftAs [.value (.word "xyz".toList)] (s [] "ab".toList []) after) ∧
      eval files 3 Builtin.ifElse.name (s [] [] ["\"a".toList, "exit".toList]) =
        .failed (.typeMismatch .ifElse .bool .word) (s [] [] ["exit".toList]) := by
  intro files s
  refine ⟨?_, ?_, ?_⟩
  · have hleft : evalNext files 2 (s [] "abc".toList ["\"a".toList, "print".toList, "\"z".toList]) =
        .done (.word ['a']) (s [] "abc".toList ["print".toList, "\"z".toList]) :=
      evalNext_eq_of_visible rfl (by decide +kernel)
    have hright : evalNext files 2 (s [] "abc".toList ["print".toList, "\"z".toList]) =
        .done (.word ['z']) (s "z\n".toList ['c'] []) :=
      evalNext_eq_of_visible rfl (by decide +kernel)
    have hboth := (eval_builtin_failed files 2 .and _).2.2.1 _ _ (by decide) hleft
    exact ((hboth.2 _ _ hright).2 _ _).2 ⟨rfl, by decide +kernel⟩
  · have hops : operands (evalNext files 2) .print (s [] "ab".toList ["\"xyz".toList]) =
        .done [.value (.word "xyz".toList)] (s [] "ab".toList []) := by
      have hv : evalNext files 2 (s [] "ab".toList ["\"xyz".toList]) =
          .done (.word "xyz".toList) (s [] "ab".toList []) :=
        evalNext_eq_of_visible rfl (by decide +kernel)
      rw [operands_one rfl, bind_apply, hv]
      rfl
    have hends : eval files 3 Builtin.print.name (s [] "ab".toList ["\"xyz".toList]) =
        .failed (.output Sink.full) (s "xy".toList [] []) :=
      eval_eq_of_visible rfl (by decide +kernel)
    exact ⟨_, hends, ((eval_builtin_failed files 2 .print _).2.1 _ _ _ _ hops hends).2⟩
  · have hc : evalNext files 2 (s [] [] ["\"a".toList, "exit".toList]) =
        .done (.word ['a']) (s [] [] ["exit".toList]) :=
      evalNext_eq_of_visible rfl (by decide +kernel)
    exact (eval_builtin_failed files 2 .ifElse _).2.2.2 _ _ rfl hc (by decide)

end MiniLogo
