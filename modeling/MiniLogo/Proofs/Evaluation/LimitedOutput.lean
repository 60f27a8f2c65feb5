import MiniLogo.Proofs.Evaluation.Growth

/-!
# Output that fails

Output may have room for so many bytes only. A run on such output is the run on output without a limit, up to the
first line that does not fit, and ends there (`run_limited`): the bytes that fit are written, the fault is that of the
output, and nothing is evaluated or bound any more.

Where that is shows in the run without a limit when it is stopped (`runUntil`) as soon as an expression has brought
the machine beyond the capacity. `Truncates` relates an action to the same one with such stops: both are the same and
stay within the capacity, or the stops end the second one where the limit ends the first one. All that evaluation is
made of but `print` keeps this, and `print` is an expression that is stopped as soon as it has written.
-/

namespace MiniLogo

open MiniLogo.Action

variable {α β : Type} {k : Nat} {files : Files}

/-! ## Limits -/

/-- The sink with room for `k` bytes in all, that has lost what was written beyond them. -/
def Sink.limit (k : Nat) (s : Sink) : Sink where
  written := s.written.take k
  room := some (k - s.written.length)

/-- Writing with a limit is writing without one, as far as there is room. -/
theorem Sink.write_limit {s : Sink} (hr : s.room = none) (hk : s.written.length ≤ k) (bytes : Bytes) :
    (s.limit k).write bytes =
      (decide ((s.write bytes).2.written.length ≤ k), (s.write bytes).2.limit k) := by
  have hle : bytes.length ≤ k - s.written.length ↔ s.written.length + bytes.length ≤ k := by omega
  simp [write, limit, hr, hle, List.take_append, List.take_of_length_le hk, Nat.sub_sub]

def Machine.limit (k : Nat) (m : Machine) : Machine := { m with output := m.output.limit k }

def State.limit (k : Nat) (s : State) : State := ⟨s.toMachine.limit k, s.feed⟩

def Outcome.limit (k : Nat) : Outcome α → Outcome α
  | .done a s => .done a (s.limit k)
  | .failed e s => .failed e (s.limit k)
  | .unfinished => .unfinished

/-- The output has no limit, and a capacity of `k` bytes would have done so far. -/
structure Machine.Fits (k : Nat) (m : Machine) : Prop where
  unlimited : m.output.room = none
  le : m.output.written.length ≤ k

/-- A machine that has written more than the capacity. -/
def Machine.Over (k : Nat) (m : Machine) : Prop := k < m.output.written.length

instance (k : Nat) (m : Machine) : Decidable (m.Over k) := inferInstanceAs (Decidable (k < m.output.written.length))

/-! ## Stopped evaluation -/

section

variable (stop : Machine → Prop) [DecidablePred stop] (e : Fault)

/-- Fails where the action has ended with a value and a machine at which to stop. -/
def stopWhen (x : Action Value) : Action Value := fun s =>
  match x s with
  | .done v after => if stop after.toMachine then .failed e after else .done v after
  | .failed e' after => .failed e' after
  | .unfinished => .unfinished

/-- Evaluates as `eval` does, and stops as soon as an expression has brought the machine to where it is to stop. -/
def evalUntil (files : Files) : Nat → Text → Action Value
  | 0, _ => giveUp
  | fuel + 1, raw =>
    let next := do evalUntil files fuel (← nextToken)
    stopWhen stop e (evalWith files next (drive next fuel none) raw)

/-- Evaluates all tokens as `run` does, and stops as soon as an expression has brought the machine to where it is to
stop. -/
def runUntil (files : Files) (fuel : Nat) : Action (Option Value) :=
  drive (do evalUntil stop e files fuel (← nextToken)) fuel none

theorem evalUntil_succ (files : Files) (fuel : Nat) (raw : Text) : evalUntil stop e files (fuel + 1) raw =
    stopWhen stop e (evalWith files (do evalUntil stop e files fuel (← nextToken)) (runUntil stop e files fuel) raw) :=
  rfl

end

/-! ## The limit and the stop -/

/-- What an action does from a state, what it does there with stops, and what it does on limited output. -/
inductive TruncatesAt (k : Nat) (x y : Action α) (s : State) : Prop where
  /-- It stays within the capacity: then neither the stops nor the limit show. -/
  | fits (hy : y s = x s) (hl : x (s.limit k) = (x s).limit k) (hf : ∀ r m f, x s = .of r m f → m.Fits k)
  /-- It goes beyond the capacity: the limit ends it where the stops do, and what it had written by then stays in
  front of whatever it would write. -/
  | exceeds (t : State) (ht : t.toMachine.Over k) (hy : y s = .failed (.output Sink.full) t)
    (hl : x (s.limit k) = .failed (.output Sink.full) (t.limit k))
    (hp : ∀ r m f, x s = .of r m f → t.output.written <+: m.output.written)

/-- From every state whose output fits, the action is truncated where it is stopped. -/
structure Truncates (k : Nat) (x y : Action α) : Prop where
  grows : Grows x
  truncatesAt (s : State) (hs : s.toMachine.Fits k) : TruncatesAt k x y s

/-- One action after another truncates another such pair, if both do. -/
theorem Truncates.bind {x y : Action α} {f g : α → Action β} (hx : Truncates k x y)
    (hf : ∀ a, Truncates k (f a) (g a)) : Truncates k (x >>= f) (y >>= g) := by
  refine ⟨hx.grows.bind fun a => (hf a).grows, fun s hs => ?_⟩
  cases hx.truncatesAt s hs with
  | fits hy hl hfits =>
    cases hxs : x s with
    | done a after =>
      rw [hxs] at hy hl
      have hb : (x >>= f) s = f a after := by rw [bind_apply, hxs]
      have hb' : (x >>= f) (s.limit k) = f a (after.limit k) := by rw [bind_apply, hl]; rfl
      have hc : (y >>= g) s = g a after := by rw [bind_apply, hy]
      cases (hf a).truncatesAt after (hfits (.ok a) after.toMachine after.feed hxs) with
      | fits hy' hl' hfits' =>
        exact .fits (by rw [hc, hb, hy']) (by rw [hb', hb, hl']) fun r m f h => hfits' r m f (hb ▸ h)
      | exceeds t ht hy' hl' hp =>
        exact .exceeds t ht (by rw [hc, hy']) (by rw [hb', hl']) fun r m f h => hp r m f (hb ▸ h)
    | failed e after =>
      rw [hxs] at hy hl
      have hb : (x >>= f) s = .failed e after := by rw [bind_apply, hxs]
      refine .fits (by rw [bind_apply, hy, hb]) (by rw [bind_apply, hl, hb]; rfl) fun r m f h => ?_
      obtain ⟨-, rfl, -⟩ := Outcome.of_inj (r := .error e) (m := after.toMachine) (f := after.feed) (hb.symm.trans h)
      exact hfits (.error e) after.toMachine after.feed hxs
    | unfinished =>
      rw [hxs] at hy hl
      have hb : (x >>= f) s = .unfinished := by rw [bind_apply, hxs]
      refine .fits (by rw [bind_apply, hy, hb]) (by rw [bind_apply, hl, hb]; rfl) fun r m f h => ?_
      rw [hb] at h
      cases r <;> cases h
  | exceeds t ht hy hl hp =>
    refine .exceeds t ht (by rw [bind_apply, hy]) (by rw [bind_apply, hl]) fun r m f' h => ?_
    rcases bind_eq_of_iff.1 h with ⟨e, he, -⟩ | ⟨a, after, ha, hk⟩
    · exact hp (.error e) m f' he
    · exact (hp (.ok a) after.toMachine after.feed ha).trans ((hf a).grows after r m f' hk).written

/-- An action that writes nothing is the same on limited output. -/
theorem truncates_of_silent {x : Action α} (hl : ∀ s, x (s.limit k) = (x s).limit k)
    (ho : ∀ s r m f, x s = .of r m f → m.output = s.output) (hg : Grows x) : Truncates k x x :=
  ⟨hg, fun s hs => .fits rfl (hl s) fun r m f h => by
    have hm := ho s r m f h
    exact ⟨by rw [hm]; exact hs.unlimited, by rw [hm]; exact hs.le⟩⟩

theorem Truncates.within {x y : Action α} (h : Truncates k x y) (feed : Feed) :
    Truncates k (within feed x) (within feed y) := by
  refine ⟨Moves.within h.grows feed, fun s hs => ?_⟩
  have hends : ∀ {r m f}, Action.within feed x s = .of r m f → ∃ f₀, x ⟨s.toMachine, feed⟩ = .of r m f₀ :=
    fun hw => (within_eq_of_iff.1 hw).2
  cases h.truncatesAt ⟨s.toMachine, feed⟩ hs with
  | fits hy hl hf =>
    refine .fits ?_ ?_ fun r m f hw => ?_
    · unfold Action.within
      rw [show y { s with feed } = x { s with feed } from hy]
    · unfold Action.within
      rw [show x { s.limit k with feed } = (x { s with feed }).limit k from hl]
      cases x { s with feed } <;> rfl
    · obtain ⟨f₀, hx⟩ := hends hw
      exact hf r m f₀ hx
  | exceeds t ht hy hl hp =>
    refine .exceeds ⟨t.toMachine, s.feed⟩ ht ?_ ?_ fun r m f hw => ?_
    · unfold Action.within
      rw [show y { s with feed } = _ from hy]
    · unfold Action.within
      rw [show x { s.limit k with feed } = _ from hl]
      rfl
    · obtain ⟨f₀, hx⟩ := hends hw
      exact hp r m f₀ hx

/-- Stopping where there is nothing to stop. -/
theorem Truncates.stopWhen {x y : Action Value} (h : Truncates k x y) :
    Truncates k x (stopWhen (Machine.Over k) (.output Sink.full) y) := by
  refine ⟨h.grows, fun s hs => ?_⟩
  cases h.truncatesAt s hs with
  | fits hy hl hf =>
    refine .fits ?_ hl hf
    unfold MiniLogo.stopWhen
    rw [hy]
    cases hx : x s with
    | done v after =>
      have hn : ¬ after.toMachine.Over k := Nat.not_lt.2 (hf (.ok v) after.toMachine after.feed hx).le
      simp only [if_neg hn]
    | failed e after => rfl
    | unfinished => rfl
  | exceeds t ht hy hl hp =>
    refine .exceeds t ht ?_ hl hp
    unfold MiniLogo.stopWhen
    rw [hy]

/-- An action that goes on from another one is stopped where what it goes on with is. -/
theorem stopWhen_bind (stop : Machine → Prop) [DecidablePred stop] (e : Fault) (x : Action α) (f : α → Action Value) :
    stopWhen stop e (x >>= f) = x >>= fun a => stopWhen stop e (f a) := by
  funext s
  rw [bind_apply]
  simp only [stopWhen, bind_apply]
  cases x s <;> rfl

/-- The writing of a line, stopped where it has gone beyond the capacity. -/
theorem truncates_writeLine (t : Text) (v : Value) : Truncates k (do writeLine t; return v)
    (stopWhen (Machine.Over k) (.output Sink.full) (do writeLine t; return v)) := by
  refine ⟨(grows_hereditary.writeLine t).bind fun _ => grows_hereditary.pure v, fun s hs => ?_⟩
  generalize hbytes : Utf8.encode (t ++ ['\n']) = bytes
  have hw : s.output.write bytes = (true, (s.output.write bytes).2) := by
    simp [Sink.write, hs.unlimited]
  have hl := Sink.write_limit hs.unlimited hs.le bytes
  have hx : (do writeLine t; return v : Action Value) s =
      .done v { s with output := (s.output.write bytes).2 } := by
    rw [bind_apply, writeLine, hbytes, hw]
    rfl
  by_cases hle : (s.output.write bytes).2.written.length ≤ k
  · have hn : ¬ Machine.Over k { s.toMachine with output := (s.output.write bytes).2 } := Nat.not_lt.2 hle
    refine .fits ?_ ?_ fun r m f h => ?_
    · simp only [stopWhen, hx, if_neg hn]
    · rw [hx, bind_apply, writeLine, hbytes]
      simp only [State.limit, Machine.limit, hl, hle, decide_true, if_true]
      rfl
    · obtain ⟨-, rfl, -⟩ := Outcome.of_inj (r := .ok v) (f := s.feed) (hx.symm.trans h)
      exact ⟨Sink.room_write hs.unlimited bytes, hle⟩
  · have ho : Machine.Over k { s.toMachine with output := (s.output.write bytes).2 } := Nat.not_le.1 hle
    refine .exceeds { s with output := (s.output.write bytes).2 } ho ?_ ?_ fun r m f h => ?_
    · simp only [stopWhen, hx, if_pos ho]
    · rw [bind_apply, writeLine, hbytes]
      simp only [State.limit, Machine.limit, hl, hle, decide_false, Bool.false_eq_true, if_false]
    · obtain ⟨-, rfl, -⟩ := Outcome.of_inj (r := .ok v) (f := s.feed) (hx.symm.trans h)
      exact List.prefix_refl _

/-- An action that ends, does not write, and does the same on limited output. -/
theorem truncates_of_end {x : Action α} (hg : Grows x)
    (h : ∀ s, ∃ r m f, m.output = s.output ∧ x s = .of r m f ∧ x (s.limit k) = (x s).limit k) : Truncates k x x := by
  refine truncates_of_silent (fun s => ?_) (fun s r m f hx => ?_) hg
  · obtain ⟨-, -, -, -, -, hl⟩ := h s
    exact hl
  · obtain ⟨r', m', f', ho, hx', -⟩ := h s
    obtain ⟨-, rfl, -⟩ := Outcome.of_inj (hx'.symm.trans hx)
    exact ho

theorem truncates_giveUp : Truncates k (giveUp (α := α)) giveUp :=
  truncates_of_silent (fun _ => rfl) (fun s r m f h => by cases r <;> cases h) grows_hereditary.giveUp

theorem truncates_lookup (name : Text) : Truncates k (lookup name) (lookup name) := by
  refine truncates_of_end (grows_hereditary.lookup name) fun s => ?_
  have he : (s.limit k).environment = s.environment := rfl
  unfold lookup
  rw [he]
  cases s.environment.get? name with
  | some v => exact ⟨.ok v, _, s.feed, rfl, rfl, rfl⟩
  | none => exact ⟨.error (.undefinedVariable name), _, s.feed, rfl, rfl, rfl⟩

theorem truncates_draw : Truncates k draw draw := by
  refine truncates_of_end grows_hereditary.draw fun s => ?_
  have hg : (s.limit k).generator = s.generator := rfl
  unfold draw
  rw [hg]
  -- the draw itself is not to be computed
  cases s.generator.draw with
  | mk x generator => exact ⟨.ok x, { s.toMachine with generator }, s.feed, rfl, rfl, rfl⟩

/-- All that evaluation is made of, but for the writing of lines, is the same on limited output. -/
theorem truncates_uniform (k : Nat) : Uniform fun x y => Truncates k x y where
  pure a := truncates_of_end (grows_hereditary.pure a) fun s => ⟨.ok a, _, s.feed, rfl, rfl, rfl⟩
  fail e := truncates_of_end (grows_hereditary.fail e) fun s => ⟨.error e, _, s.feed, rfl, rfl, rfl⟩
  bind hx hf := hx.bind hf
  onFeed {_ f} hf := truncates_of_end (grows_hereditary.onFeed hf)
    fun s => ⟨.ok (f s.feed).1, _, (f s.feed).2, rfl, rfl, rfl⟩
  lookup := truncates_lookup
  isBound name := truncates_of_end (grows_hereditary.isBound name) fun s => ⟨.ok _, _, s.feed, rfl, rfl, rfl⟩
  define name v := truncates_of_end (grows_hereditary.define name v)
    fun s => ⟨.ok (), { s.toMachine with environment := s.environment.define name v }, s.feed, rfl, rfl, rfl⟩
  draw := truncates_draw
  halt := truncates_of_end grows_hereditary.halt
    fun s => ⟨.ok (), { s.toMachine with halted := true }, s.feed, rfl, rfl, rfl⟩
  isHalted := truncates_of_end grows_hereditary.isHalted fun s => ⟨.ok s.halted, _, s.feed, rfl, rfl, rfl⟩

/-! ## Evaluation -/

/-- An expression is truncated where it is stopped. -/
theorem truncates_eval (k : Nat) (files : Files) (fuel : Nat) (raw : Text) :
    Truncates k (eval files fuel raw) (evalUntil (Machine.Over k) (.output Sink.full) files fuel raw) := by
  have hU := truncates_uniform k
  induction fuel generalizing raw with
  | zero => exact truncates_giveUp
  | succ fuel ih =>
    have hn : Truncates k (evalNext files fuel)
        (do evalUntil (Machine.Over k) (.output Sink.full) files fuel (← nextToken)) := hU.bind hU.nextToken ih
    have hl := (hU.drive truncates_giveUp hn fuel none).within
    rw [eval_succ, evalUntil_succ]
    by_cases hp : raw = Builtin.print.name
    · rw [hp, evalWith_name, evalWith_name, apply, apply, stopWhen_bind]
      exact hn.bind fun v => truncates_writeLine v.display v
    · refine Truncates.stopWhen ?_
      cases hr : Want.ofToken raw with
      | some ws =>
        refine hU.quiet.evalWith hn hr fun b hb => hU.quiet.apply hn hl fun h => hp ?_
        rw [← hb, h]
      | none =>
        rw [Congruence.evalWith_eq_fail hr, Congruence.evalWith_eq_fail hr]
        exact hU.fail _

/-- A run is truncated where it is stopped. -/
theorem truncates_run (k : Nat) (files : Files) (fuel : Nat) :
    Truncates k (run files fuel) (runUntil (Machine.Over k) (.output Sink.full) files fuel) :=
  (truncates_uniform k).drive truncates_giveUp ((truncates_uniform k).bind (truncates_uniform k).nextToken
    (truncates_eval k files fuel)) fuel none

/-! ## Runs on limited output -/

theorem Outcome.limit_of (k : Nat) (r : Except Fault α) (m : Machine) (f : Feed) :
    (Outcome.of r m f).limit k = .of r (m.limit k) f := by
  cases r <;> rfl

/-- The machine whose output has room for `n` more bytes. -/
def Machine.withRoom (n : Nat) (m : Machine) : Machine := { m with output := { m.output with room := some n } }

/-- Where nothing is lost, a limit leaves room for what is missing to it. -/
theorem Machine.limit_eq_withRoom {m : Machine} {n : Nat} (h : k = m.output.written.length + n) :
    m.limit k = m.withRoom n := by
  simp [limit, withRoom, Sink.limit, h, List.take_of_length_le]

/-- **Failing output only truncates a run.** A run on output without a limit has written some bytes `w` when it ends.
If there is room for them, then the run on output with that room ends in the same way, with the same machine but for the
room that is used. If there is not, then it ends with the fault of the output and the bytes of `w` that fit, on the
machine and with the tokens that the run without a limit had right after the expression that first went beyond the
room. -/
theorem run_limited (files : Files) (fuel n : Nat) {m m' : Machine} {f f' : Feed} {r : Except Fault (Option Value)}
    (hm : m.output.room = none) (h : run files fuel ⟨m, f⟩ = .of r m' f') :
    let stopped := runUntil (Machine.Over (m.output.written.length + n)) (.output Sink.full) files fuel ⟨m, f⟩
    ∃ w, m'.output.written = m.output.written ++ w ∧
      (w.length ≤ n → stopped = .of r m' f' ∧
        run files fuel ⟨m.withRoom n, f⟩ = .of r (m'.withRoom (n - w.length)) f') ∧
      (n < w.length → ∃ p g, stopped = .of (.error (.output Sink.full)) p g ∧
        p.output.written <+: m'.output.written ∧
        run files fuel ⟨m.withRoom n, f⟩ = .of (.error (.output Sink.full))
          { p with output := { written := m.output.written ++ w.take n, room := some 0 } } g) := by
  intro stopped
  have hT := truncates_run (m.output.written.length + n) files fuel
  have hs : (⟨m, f⟩ : State).limit (m.output.written.length + n) = ⟨m.withRoom n, f⟩ := by
    rw [State.limit, Machine.limit_eq_withRoom rfl]
  obtain ⟨w, hw⟩ := (hT.grows ⟨m, f⟩ r m' f' h).written
  have hlen : m'.output.written.length = m.output.written.length + w.length := by rw [← hw, List.length_append]
  refine ⟨w, hw.symm, ?_⟩
  cases hT.truncatesAt ⟨m, f⟩ ⟨hm, Nat.le_add_right _ n⟩ with
  | fits hy hl hf =>
    have hle := (hf r m' f' h).le
    refine ⟨fun _ => ⟨hy.trans h, ?_⟩, fun hlt => absurd hlt (by omega)⟩
    have hk : m.output.written.length + n = m'.output.written.length + (n - w.length) := by omega
    rw [← hs, hl, h, Outcome.limit_of, Machine.limit_eq_withRoom hk]
  | exceeds t ht hy hl hp =>
    obtain ⟨u, hu⟩ := hp r m' f' h
    have ht : m.output.written.length + n < t.output.written.length := ht
    have htu : t.output.written.length + u.length = m'.output.written.length := by rw [← hu, List.length_append]
    refine ⟨fun hle => absurd hle (by omega), fun _ => ⟨t.toMachine, t.feed, hy, ⟨u, hu⟩, ?_⟩⟩
    have htake : t.output.written.take (m.output.written.length + n) = m.output.written ++ w.take n := by
      have hsame : (t.output.written ++ u).take (m.output.written.length + n) =
          t.output.written.take (m.output.written.length + n) := List.take_append_of_le_length (Nat.le_of_lt ht)
      rw [← hsame, hu, ← hw, List.take_length_add_append]
    have hroom : m.output.written.length + n - t.output.written.length = 0 := by omega
    rw [← hs, hl]
    simp only [State.limit, Machine.limit, Sink.limit, htake, hroom]
    rfl

/-- A body prints a character of two bytes when there is room for the first of them, and binds nothing after that. -/
theorem run_limited_inside_character :
    let text := "print \"ab run [make \"x 1 print \"é make \"y 2] print \"c".toList
    let m : Machine := { environment := .empty }
    let bound : Environment := .define .empty ['x'] (.literal ['1'])
    ∃ g, run (fun _ => .error .notFound) 5 ⟨m.withRoom 4, .ofText text⟩ = .of (.error (.output Sink.full))
      { environment := bound, output := { written := [97, 98, 10, 0xC3], room := some 0 } } g := by
  intro text m bound
  have hrun : run (fun _ => .error .notFound) 5 ⟨m, .ofText text⟩ = .of (.ok (some (.word ['c'])))
      { environment := bound.define ['y'] (.literal ['2']), output := { written := Utf8.encode "ab\né\nc\n".toList } }
      { pending := [], ended := true } := run_eq_of_visible rfl (by decide +kernel)
  have hstop : (runUntil (Machine.Over 4) (.output Sink.full) (fun _ => .error .notFound) 5
      ⟨m, .ofText text⟩).visible? = (Outcome.of (.error (.output Sink.full))
        { environment := bound, output := { written := Utf8.encode "ab\né\n".toList } }
        { pending := ["print".toList, "\"c".toList] }).visible? := by decide +kernel
  obtain ⟨w, hw, -, hover⟩ := run_limited (fun _ => .error .notFound) 5 4 rfl hrun
  obtain rfl : w = Utf8.encode "ab\né\nc\n".toList := hw.symm
  obtain ⟨p, g, hp, -, hlim⟩ := hover (by decide +kernel)
  have hdraws : p.generator.draws = m.generator.draws := sameDraws_hereditary.run _ _ _ _ _ _ hlim
  have hvisible := (congrArg Outcome.visible? hp).symm.trans hstop
  obtain ⟨-, rfl, -⟩ := Outcome.of_inj (Outcome.eq_of_visible hvisible (congrArg some hdraws))
  exact ⟨g, hlim⟩

end MiniLogo
