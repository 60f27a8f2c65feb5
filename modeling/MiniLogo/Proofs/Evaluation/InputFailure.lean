import MiniLogo.Proofs.Evaluation.Drive

/-!
# Runs whose input fails

Bytes are read line by line up to a failure. A run that asks for a token beyond their complete lines fails, and it is
the tokens of these lines that decide how (`run_ofBytes_failure`): if they break off inside a bracketed literal, the
fault is the end of the input, for the literal reader does not ask what ended it; anywhere else, be it at the next
expression, at an operand or at a raw token, the fault is the failure of the input. The first case is real
(`endOfInput_of_failure_in_literal`).

The run keeps the invariant that the end of the lines was not met (`drive_of_failure`); where the next expression
meets it, `Starves` names the want that was not satisfied.
-/

namespace MiniLogo

open MiniLogo.Action

/-! ## Tokens that break off -/

/-- Tokens that, read as one expression after another, break off inside a bracketed literal. -/
def EndsInLiteral (ts : List Text) : Prop :=
  ∃ k d, read (List.replicate k .expression) ts = .lacking (.closing d)

/-- What is lacking stays lacking when more expressions are wanted. -/
theorem read_replicate_of_lacking {k : Nat} {ts : List Text} {w : Want}
    (h : read (List.replicate k .expression) ts = .lacking w) (j : Nat) :
    read (List.replicate (k + j) .expression) ts = .lacking w := by
  rw [← List.replicate_append_replicate]
  exact read_append_of_lacking h _

theorem lacking_unique {j k : Nat} {ts : List Text} {v w : Want}
    (hj : read (List.replicate j .expression) ts = .lacking v)
    (hk : read (List.replicate k .expression) ts = .lacking w) : v = w := by
  have h₁ := read_replicate_of_lacking hj k
  have h₂ := read_replicate_of_lacking hk j
  rw [Nat.add_comm, h₁] at h₂
  exact Reading.lacking.inj h₂

/-- The want that is lacking decides the fault. -/
theorem fault_of_lacking {k : Nat} {ts : List Text} {w : Want} (reason : Text)
    (h : read (List.replicate k .expression) ts = .lacking w) :
    (EndsInLiteral ts → w.fault (some reason) = .endOfInput) ∧
      (¬ EndsInLiteral ts → w.fault (some reason) = .input reason) := by
  refine ⟨fun ⟨j, d, hj⟩ => ?_, fun hn => ?_⟩
  · rw [lacking_unique h hj]
    rfl
  · cases w with
    | expression => rfl
    | raw => rfl
    | closing d => exact absurd ⟨k, d, h⟩ hn

/-! ## The run -/

theorem Feed.takeFailure?_of_ended {f : Feed} (h : f.ended = true) : f.takeFailure?.1 = f.failure := by
  simp [takeFailure?, h]

theorem Feed.takeFailure?_of_not_ended {f : Feed} (h : f.ended = false) : f.takeFailure? = (none, f) := by
  simp [takeFailure?, h]

/-- A run that meets the end of the lines fails, and a want of the tokens says how. -/
theorem drive_of_failure {next : Action Value} (hnext : Reads [.expression] next) (n : Nat) (last : Option Value)
    {reason : Text} {s : State} (hf : s.feed.failure = some reason) (he : s.feed.ended = false) :
    match drive next n last s with
    | .done _ after => after.feed.ended = false
    | .failed e after => after.feed.ended = true → ∃ k w,
        read (List.replicate k .expression) s.feed.tokens = .lacking w ∧ e = w.fault (some reason)
    | .unfinished => True := by
  induction n generalizing last s with
  | zero => trivial
  | succ n ih =>
    cases hh : s.halted with
    | true =>
      have ht := Feed.takeFailure?_of_not_ended he
      rw [drive_halted hh, finish_of_none (by rw [ht]), ht]
      exact he
    | false =>
      by_cases ht : s.feed.tokens = []
      · have hr : s.asked.feed.takeFailure?.1 = some reason := by
          rw [Feed.takeFailure?_of_ended (by simp [ht]), State.failure_asked, hf]
        rw [drive_of_nil hh ht, finish_of_some hr]
        exact fun _ => ⟨1, .expression, by rw [ht]; rfl, rfl⟩
      · have hfa : s.asked.feed.failure = some reason := s.failure_asked.trans hf
        have hea : s.asked.feed.ended = false := by simp [he, ht]
        rw [drive_of_cons hh ht, bind_apply]
        cases hx : next s.asked with
        | unfinished => trivial
        | failed e after =>
          intro hend
          rcases hnext.failed hx with ⟨ts, us, hs, -, hu⟩ | hst
          · -- a fault of its own does not come from the end of the lines
            rw [(hu.leaves hs hx).ended, hea] at hend
            cases hend
          · obtain ⟨w, hw, rfl, -⟩ := hst.fault_eq hx
            exact ⟨1, w, by rwa [State.tokens_asked] at hw, by rw [hfa]⟩
        | done v after =>
          obtain ⟨i, hi, hl⟩ := (hnext.done hx).read_eq hx
          rw [State.tokens_asked] at hi hl
          have h := ih (some v) (hl.failure.trans hfa) (hl.ended.trans hea)
          simp only
          cases hd : drive next n (some v) after with
          | unfinished => trivial
          | done o after' => rw [hd] at h; exact h
          | failed e after' =>
            rw [hd] at h
            intro hend
            obtain ⟨k, w, hk, rfl⟩ := h hend
            refine ⟨1 + k, w, ?_, rfl⟩
            rw [← List.replicate_append_replicate, List.replicate_one, read_append_of_complete hi, ← hl.tokens, hk]
            rfl

/-- **A run over input that fails**: it succeeds only without having asked for a token beyond the complete lines, and
having asked for one it fails with the failure of the input, unless the tokens of these lines break off inside a
bracketed literal, where it fails with the end of the input. -/
theorem run_ofBytes_failure (files : Files) (fuel : Nat) (m : Machine) (bytes : Bytes) (reason : Text) :
    match run files fuel ⟨m, .ofBytes bytes (some reason)⟩ with
    | .done _ after => after.feed.ended = false
    | .failed e after => after.feed.ended = true →
        (EndsInLiteral (Feed.ofBytes bytes (some reason)).tokens → e = .endOfInput) ∧
          (¬ EndsInLiteral (Feed.ofBytes bytes (some reason)).tokens → e = .input reason)
    | .unfinished => True := by
  have hrun := drive_of_failure (reads_evalNext files fuel) fuel none
    (s := ⟨m, .ofBytes bytes (some reason)⟩) rfl rfl
  unfold run
  cases hd : drive (evalNext files fuel) fuel none ⟨m, .ofBytes bytes (some reason)⟩ with
  | unfinished => trivial
  | done o after => rw [hd] at hrun; exact hrun
  | failed e after =>
    rw [hd] at hrun
    intro hend
    obtain ⟨k, w, hk, rfl⟩ := hrun hend
    exact fault_of_lacking reason hk

/-- The second operand of `make` is not there, and the line under way is lost. -/
theorem run_ofBytes_failure_operand :
    let feed := Feed.ofBytes (Utf8.encode "make \"x\n\"lost".toList) (some "gone".toList)
    ∃ e after, run (fun _ => .error .notFound) 3 ⟨{ environment := .empty }, feed⟩ = .failed e after ∧
      after.feed.ended = true ∧ ¬ EndsInLiteral feed.tokens ∧ e = .input "gone".toList := by
  have h : run (fun _ => .error .notFound) 3 ⟨{ environment := .empty },
      .ofBytes (Utf8.encode "make \"x\n\"lost".toList) (some "gone".toList)⟩ =
      .failed (.input "gone".toList) ⟨{ environment := .empty }, { pending := [], ended := true }⟩ :=
    run_eq_of_visible rfl (by decide +kernel)
  have hn : ¬ EndsInLiteral
      (Feed.ofBytes (Utf8.encode "make \"x\n\"lost".toList) (some "gone".toList)).tokens := by
    rintro ⟨k, d, hk⟩
    have hl : read (List.replicate 1 .expression)
        (Feed.ofBytes (Utf8.encode "make \"x\n\"lost".toList) (some "gone".toList)).tokens =
        .lacking .expression := by decide +kernel
    cases lacking_unique hl hk
  have hr := run_ofBytes_failure (fun _ => .error .notFound) 3 { environment := .empty }
    (Utf8.encode "make \"x\n\"lost".toList) "gone".toList
  rw [h] at hr
  exact ⟨_, _, h, rfl, hn, (hr rfl).2 hn⟩

/-- The input fails inside a literal, and the run reports the end of it. -/
theorem endOfInput_of_failure_in_literal :
    ∃ after, run (fun _ => .error .notFound) 3 ⟨{ environment := .empty },
        .ofBytes (Utf8.encode "print [a\n".toList) (some "gone".toList)⟩ = .failed .endOfInput after ∧
      after.feed.ended = true := by
  refine ⟨⟨{ environment := .empty }, { pending := [], failure := some "gone".toList, ended := true }⟩, ?_, rfl⟩
  exact run_eq_of_visible rfl (by decide +kernel)

end MiniLogo
