import MiniLogo.Proofs.Evaluation.Reads

/-!
# Runs, one expression at a time

A run either finishes, because the machine is halted (`drive_halted`) or because no token is left (`drive_of_nil`), or
it evaluates an expression and goes on from there (`drive_of_cons`). If its input does not fail, then these are all
the ways in which it ends (`drive_cases`); the value it had before shows only if it had nothing to evaluate
(`drive_of_tokens_eq`, `eq_none_iff_of_drive`).
-/

namespace MiniLogo

open MiniLogo.Action

variable {next : Action Value} {n : Nat} {last : Option Value} {s : State}

/-- The state after a run has asked for another token. -/
def State.asked (s : State) : State := { s with feed := s.feed.hasNext.2 }

@[simp] theorem State.toMachine_asked (s : State) : s.asked.toMachine = s.toMachine := rfl

@[simp] theorem State.tokens_asked (s : State) : s.asked.feed.tokens = s.feed.tokens := Feed.tokens_hasNext s.feed

@[simp] theorem State.failure_asked (s : State) : s.asked.feed.failure = s.feed.failure := Feed.failure_hasNext s.feed

@[simp] theorem State.ended_asked (s : State) : s.asked.feed.ended = (s.feed.ended || s.feed.tokens.isEmpty) :=
  Feed.ended_hasNext s.feed

/-! ## Three ways to go on -/

/-- Without a failure a run ends with its last value. -/
theorem finish_of_none (h : s.feed.takeFailure?.1 = none) :
    finish last s = .done last { s with feed := s.feed.takeFailure?.2 } := by
  unfold finish
  rw [bind_apply, reportFailure_apply, h]
  rfl

/-- A failure that was not reported is reported at the end of the run. -/
theorem finish_of_some {reason : Text} (h : s.feed.takeFailure?.1 = some reason) :
    finish last s = .failed (.input reason) { s with feed := s.feed.takeFailure?.2 } := by
  unfold finish
  rw [bind_apply, reportFailure_apply, h]

/-- A halted run ends at once. -/
theorem drive_halted (hh : s.halted = true) : drive next (n + 1) last s = finish last s := by
  unfold drive
  rw [bind_apply]
  simp only [isHalted, hh, if_true]

/-- A run ends when it has asked for a token and there is none. -/
theorem drive_of_nil (hh : s.halted = false) (ht : s.feed.tokens = []) :
    drive next (n + 1) last s = finish last s.asked := by
  have hn : hasNext s = .done false s.asked := by
    simp [hasNext, onFeed, Feed.hasNext_fst, ht, State.asked]
  unfold drive
  rw [bind_apply]
  simp only [isHalted, hh, Bool.false_eq_true, if_false]
  rw [bind_apply, hn]
  rfl

/-- With a token left a run evaluates an expression and goes on. -/
theorem drive_of_cons (hh : s.halted = false) (ht : s.feed.tokens ≠ []) :
    drive next (n + 1) last s = (next >>= fun v => drive next n (some v)) s.asked := by
  have hn : hasNext s = .done true s.asked := by
    simp [hasNext, onFeed, Feed.hasNext_fst, ht, State.asked]
  conv => lhs; unfold drive
  rw [bind_apply]
  simp only [isHalted, hh, Bool.false_eq_true, if_false]
  rw [bind_apply, hn]
  rfl

theorem drive_of_failed {e : Fault} {after : State} (hh : s.halted = false) (ht : s.feed.tokens ≠ [])
    (hx : next s.asked = .failed e after) : drive next (n + 1) last s = .failed e after := by
  rw [drive_of_cons hh ht, bind_apply, hx]

theorem drive_of_done {v : Value} {after : State} (hh : s.halted = false) (ht : s.feed.tokens ≠ [])
    (hx : next s.asked = .done v after) : drive next (n + 1) last s = drive next n (some v) after := by
  rw [drive_of_cons hh ht, bind_apply, hx]

/-! ## Runs over tokens whose end is no failure -/

/-- To ask for a failure where there is none finds none, and changes no tokens. -/
theorem Feed.takeFailure?_of_none {f : Feed} (h : f.failure = none) :
    f.takeFailure?.1 = none ∧ f.takeFailure?.2.tokens = f.tokens ∧ f.takeFailure?.2.failure = none := by
  unfold takeFailure?
  split
  · exact ⟨h, rfl, rfl⟩
  · exact ⟨rfl, rfl, h⟩

/-- A run with nothing to evaluate gives the value it has. -/
theorem drive_finished {m : Machine} {f : Feed} (hf : f.failure = none) (h : m.halted = true ∨ f.tokens = [])
    (next : Action Value) (n : Nat) (last : Option Value) :
    ∃ g, drive next (n + 1) last ⟨m, f⟩ = .of (.ok last) m g ∧ g.tokens = f.tokens ∧ g.failure = none := by
  cases hh : m.halted with
  | true =>
    obtain ⟨h₁, h₂, h₃⟩ := Feed.takeFailure?_of_none hf
    exact ⟨_, by rw [drive_halted hh, finish_of_none h₁]; rfl, h₂, h₃⟩
  | false =>
    have ht : f.tokens = [] := by
      rw [hh] at h
      exact h.resolve_left Bool.false_ne_true
    have hq : (State.asked ⟨m, f⟩).feed.failure = none := by simpa using hf
    obtain ⟨h₁, h₂, h₃⟩ := Feed.takeFailure?_of_none hq
    refine ⟨_, by rw [drive_of_nil hh ht, finish_of_none h₁]; rfl, ?_, h₃⟩
    rw [h₂, State.tokens_asked]

/-- The ways in which a run ends: it is finished, its next expression fails, or it goes on after that. -/
theorem drive_cases {m m' : Machine} {f f' : Feed} {r : Except Fault (Option Value)} (hf : f.failure = none)
    (h : drive next (n + 1) last ⟨m, f⟩ = .of r m' f') :
    ((m.halted = true ∨ f.tokens = []) ∧ r = .ok last ∧ m' = m ∧ f'.tokens = f.tokens) ∨
    (m.halted = false ∧ f.tokens ≠ [] ∧
      ((∃ e, next (State.asked ⟨m, f⟩) = .failed e ⟨m', f'⟩ ∧ r = .error e) ∨
        ∃ v after, next (State.asked ⟨m, f⟩) = .done v after ∧ drive next n (some v) after = .of r m' f')) := by
  by_cases hfin : m.halted = true ∨ f.tokens = []
  · obtain ⟨g, hg, htg, -⟩ := drive_finished hf hfin next n last
    obtain ⟨rfl, rfl, rfl⟩ := Outcome.of_inj (hg.symm.trans h)
    exact .inl ⟨hfin, rfl, rfl, htg⟩
  · obtain ⟨hh, ht⟩ := not_or.1 hfin
    have hh : m.halted = false := Bool.eq_false_iff.2 hh
    refine .inr ⟨hh, ht, ?_⟩
    cases hx : next (State.asked ⟨m, f⟩) with
    | unfinished =>
      rw [drive_of_cons hh ht, bind_apply, hx] at h
      cases r <;> cases h
    | failed e after =>
      rw [drive_of_failed hh ht hx] at h
      obtain ⟨rfl, rfl, rfl⟩ := Outcome.of_inj (r := .error e) h
      exact .inl ⟨e, rfl, rfl⟩
    | done v after =>
      rw [drive_of_done hh ht hx] at h
      exact .inr ⟨v, after, rfl, h⟩

/-! ## The value of a run -/

theorem map_or_none (r : Except Fault (Option Value)) : r.map (·.or none) = r := by
  cases r <;> simp [Except.map]

theorem map_or_some (r : Except Fault (Option Value)) (v : Value) (l : Option Value) :
    (r.map (·.or (some v))).map (·.or l) = r.map (·.or (some v)) := by
  rcases r with e | o
  · rfl
  · cases o <;> rfl

/-- Runs over the same tokens agree, up to the value that they had before. -/
theorem drive_of_tokens_eq (hnext : Reads [.expression] next) {m m' : Machine} {f f' g : Feed}
    {l : Option Value} {r : Except Fault (Option Value)} (h : drive next n l ⟨m, f⟩ = .of r m' f')
    (ht : g.tokens = f.tokens) (hf : f.failure = none) (hg : g.failure = none) (l' : Option Value) :
    ∃ (o : Except Fault (Option Value)) (g' : Feed), r = o.map (·.or l) ∧
      drive next n l' ⟨m, g⟩ = .of (o.map (·.or l')) m' g' ∧ g'.tokens = f'.tokens := by
  induction n generalizing l l' m f g r with
  | zero => cases r <;> cases h
  | succ n ih =>
    have hta : (State.asked ⟨m, g⟩).feed.tokens = (State.asked ⟨m, f⟩).feed.tokens := by simpa using ht
    have hfa : (State.asked ⟨m, g⟩).feed.failure = (State.asked ⟨m, f⟩).feed.failure := by simp [hf, hg]
    rcases drive_cases hf h with ⟨hfin, rfl, rfl, htf⟩ | ⟨hh, hne, ⟨e, hx, rfl⟩ | ⟨v, after, hx, hd⟩⟩
    · obtain ⟨g', hg', htg, -⟩ := drive_finished hg (by rwa [ht]) next n l'
      exact ⟨.ok none, g', rfl, hg', by rw [htg, htf, ht]⟩
    · obtain ⟨g', hxg, htg, -⟩ := hnext.of_tokens_eq (r := .error e) hx hta hfa
      exact ⟨.error e, g', rfl, drive_of_failed hh (ht ▸ hne) hxg, htg⟩
    · have hfe : after.feed.failure = none := (hnext.failure_eq hx).trans ((State.failure_asked _).trans hf)
      obtain ⟨g₁, hxg, htg, hfg⟩ := hnext.of_tokens_eq (r := .ok v) hx hta hfa
      obtain ⟨o, g', ho, hdg, ht'⟩ := ih hd htg hfe (by rw [hfg v rfl]; simpa using hg) (some v)
      -- once there is a value, the one before the run is forgotten
      refine ⟨o.map (·.or (some v)), g', by rw [map_or_some, ho], ?_, ht'⟩
      rw [drive_of_done hh (ht ▸ hne) hxg, map_or_some]
      exact hdg

/-- A run that was not halted at first gives no value exactly if it had no tokens. -/
theorem eq_none_iff_of_drive (hnext : Reads [.expression] next) {m m' : Machine} {f f' : Feed} {o : Option Value}
    (h : drive next n none ⟨m, f⟩ = .of (.ok o) m' f') (hh : m.halted = false) (hf : f.failure = none) :
    o = none ↔ f.tokens = [] := by
  cases n with
  | zero => cases h
  | succ n =>
    rcases drive_cases hf h with ⟨hfin, ho, -⟩ | ⟨-, hne, ⟨e, -, he⟩ | ⟨v, after, hx, hd⟩⟩
    · have ht : f.tokens = [] := hfin.resolve_left (by simp [hh])
      simp [Except.ok.inj ho, ht]
    · cases he
    · -- the value of the first expression stays unless a later one takes its place
      have hfa : after.feed.failure = none := (hnext.failure_eq hx).trans ((State.failure_asked _).trans hf)
      obtain ⟨o', g', ho, -⟩ := drive_of_tokens_eq hnext hd rfl hfa hfa none
      rcases o' with e | x
      · cases ho
      · cases ho
        cases x <;> simp [hne]

end MiniLogo
