import MiniLogo.Proofs.Evaluation.SoundBuiltins
import MiniLogo.Proofs.Text.Lines

/-!
# Watched evaluation

What a run comes to on its way does not show in its end. So a run can be watched (`runWatched`): the value of each
expression is looked at, in whatever operand or body the expression stands, and where it is not as it should be an
alarm is run in the place of what would follow. A watched run that is the same as the run, whatever the alarm does, is
one in which no such value arises.

If evaluation keeps a property of values (`Kept`), then from a sound state every watched run is the run
(`agree_runWatched`), by induction on the fuel.
-/

namespace MiniLogo

open MiniLogo.Action

variable {P : Value → Prop} {files : Files} {next next' : Action Value} {loop loop' : Action (Option Value)}

/-! ## One token -/

/-- A literal starts with a token that begins with a bracket. -/
theorem Token.head?_of_listStart {raw first : Text} (h : classify raw = .listStart first) :
    first = raw ∧ first.head? = some '[' := by
  have ht : first = raw := by
    have := text_classify raw
    rwa [h] at this
  refine ⟨ht, ?_⟩
  unfold classify at h
  split at h
  · cases h
  · split at h
    · cases h
    · split at h
      · cases h
      · split at h
        · cases h
        · split at h
          · cases h
          · split at h
            · cases h
            · obtain rfl := Token.listStart.inj h
              rfl
            · cases h

/-- Evaluations of a token agree if its operands and runs do. -/
theorem agree_evalWith (hP : Kept P) (hn : Agree P P next next') (hl : Agree P (Last P) loop loop') {raw : Text}
    (hr : Text.words raw = [raw]) : Agree P P (evalWith files next loop raw) (evalWith files next' loop' raw) := by
  have ht := Token.text_classify raw
  unfold evalWith
  cases hc : Token.classify raw with
  | word t | number t | bool b => exact agree_pure (hP.literal hr (by rw [hc]; rfl))
  | thing => exact hn.bind fun v hv => (agree_lookup (quotes_of_quoted_eq_text rfl hv)).mono fun _ h => h.1
  | reference name =>
    rw [hc] at ht
    have hs : name <:+ raw := ht ▸ List.suffix_cons ':' name
    exact (agree_lookup (quotes_of_quoted_eq_suffix rfl hr hs)).mono fun _ h => h.1
  | listStart first =>
    obtain ⟨rfl, hh⟩ := Token.head?_of_listStart hc
    exact agree_readBracketed hP hr hh
  | name name =>
    rw [hc] at ht
    obtain rfl : name = raw := ht
    simp only
    cases Builtin.ofName? name with
    | some b => exact agree_apply hP hn hl b
    | none => exact agree_fail (quotes_of_quoted_eq_suffix rfl hr (List.suffix_refl _))

/-! ## All tokens -/

theorem last_none : Last P none := nofun

theorem agree_finish {last : Option Value} (h : Last P last) : Agree P (Last P) (finish last) (finish last) :=
  agree_reportFailure.bind fun _ _ => agree_pure h

/-- Runs agree if their expressions do. -/
theorem agree_drive (hn : Agree P P next next') (n : Nat) {last : Option Value} (h : Last P last) :
    Agree P (Last P) (drive next n last) (drive next' n last) := by
  induction n generalizing last with
  | zero => exact .refl fun _ _ => trivial
  | succ n ih =>
    refine agree_isHalted.bind fun halted _ => ?_
    cases halted with
    | true => exact agree_finish h
    | false =>
      refine agree_hasNext.bind fun more _ => ?_
      cases more with
      | true =>
        refine hn.bind fun v hv => ih fun w hw => ?_
        obtain rfl := Option.some.inj hw
        exact hv
      | false => exact agree_finish h

/-! ## Watching -/

variable {ok : Value → Prop} [DecidablePred ok] {alarm : Action Value}

/-- Looks at the value of an action, and runs the alarm where it is not as it should be. -/
def watch (ok : Value → Prop) [DecidablePred ok] (alarm x : Action Value) : Action Value := do
  let v ← x
  if ok v then pure v else alarm

/-- Evaluates as `eval` does, and looks at the value of each expression. -/
def evalWatched (ok : Value → Prop) [DecidablePred ok] (alarm : Action Value) (files : Files) :
    Nat → Text → Action Value
  | 0, _ => giveUp
  | fuel + 1, raw =>
    let next := do evalWatched ok alarm files fuel (← nextToken)
    watch ok alarm (evalWith files next (drive next fuel none) raw)

/-- Evaluates all tokens as `run` does, and looks at the value of each expression. -/
def runWatched (ok : Value → Prop) [DecidablePred ok] (alarm : Action Value) (files : Files) (fuel : Nat) :
    Action (Option Value) :=
  drive (do evalWatched ok alarm files fuel (← nextToken)) fuel none

/-- An alarm that never goes off does not show. -/
theorem Agree.watch {x y : Action Value} (h : Agree P P x y) (hok : ∀ v, P v → ok v) :
    Agree P P x (watch ok alarm y) := by
  intro s hs
  obtain ⟨he, hy⟩ := h s hs
  refine ⟨?_, hy⟩
  unfold MiniLogo.watch
  rw [bind_apply, ← he]
  cases hx : x s with
  | done v after =>
    rw [hx] at hy
    simp only [if_pos (hok v hy.1)]
    rfl
  | failed e after => rfl
  | unfinished => rfl

/-- Watched evaluation agrees with evaluation, by induction on the fuel. -/
theorem agree_evalWatched (hP : Kept P) (hok : ∀ v, P v → ok v) (fuel : Nat) {raw : Text}
    (hr : Text.words raw = [raw]) : Agree P P (eval files fuel raw) (evalWatched ok alarm files fuel raw) := by
  induction fuel generalizing raw with
  | zero => exact .refl fun _ _ => trivial
  | succ fuel ih =>
    have hn : Agree P P (evalNext files fuel) (do evalWatched ok alarm files fuel (← nextToken)) :=
      agree_nextToken.bind fun _ hw => ih hw
    exact (agree_evalWith hP hn (agree_drive hn fuel last_none) hr).watch hok

/-- From a sound state a watched run is the run, and ends as it should. -/
theorem agree_runWatched (hP : Kept P) (hok : ∀ v, P v → ok v) (alarm : Action Value) (files : Files) (fuel : Nat) :
    Agree P (Last P) (run files fuel) (runWatched ok alarm files fuel) :=
  agree_drive (agree_nextToken.bind fun _ hw => agree_evalWatched hP hok fuel hw) fuel last_none

/-- The state that an action left, if it ended. -/
def Outcome.state? {α : Type} : Outcome α → Option State
  | .done _ s | .failed _ s => some s
  | .unfinished => none

/-- The value or the fault that an action ended with, if it ended. -/
def Outcome.result? {α : Type} : Outcome α → Option (Except Fault α)
  | .done a _ => some (.ok a)
  | .failed e _ => some (.error e)
  | .unfinished => none

theorem Outcome.eq_done_of_result? {α : Type} {o : Outcome α} {a : α} (h : o.result? = some (.ok a)) :
    ∃ after, o = .done a after ∧ o.state? = some after := by
  cases o with
  | done b s =>
    obtain rfl := Except.ok.inj (Option.some.inj h)
    exact ⟨s, rfl, rfl⟩
  | failed e s => cases h
  | unfinished => cases h

theorem Outcome.eq_failed_of_result? {α : Type} {o : Outcome α} {e : Fault} (h : o.result? = some (.error e)) :
    ∃ after, o = .failed e after ∧ o.state? = some after := by
  cases o with
  | done b s => cases h
  | failed e' s =>
    obtain rfl := Except.error.inj (Option.some.inj h)
    exact ⟨s, rfl, rfl⟩
  | unfinished => cases h

theorem Yields.sound {α : Type} {Q : α → Prop} {o : Outcome α} (h : Yields P Q o) {after : State}
    (ho : o.state? = some after) : Sound P after := by
  cases o with
  | done a s =>
    obtain rfl := Option.some.inj ho
    exact h.2
  | failed e s =>
    obtain rfl := Option.some.inj ho
    exact h.2
  | unfinished => cases ho

theorem Environment.All.mono {Q : Value → Prop} {e : Environment} (h : e.All P) (hQ : ∀ v, P v → Q v) : e.All Q :=
  fun f hf b hb => hQ b.2 (h f hf b hb)

/-! ## Where programs come from -/

/-- A source that a program is read from: a text in memory, or bytes that are read line by line, up to their end or a
failure. -/
inductive Source where
  | text (t : Text)
  | bytes (bytes : Bytes) (failure : Option Text)

/-- The tokens of a source, none of which was taken. -/
def Source.feed : Source → Feed
  | text t => .ofText t
  | bytes bs failure => .ofBytes bs failure

def Source.failure? : Source → Option Text
  | text _ => none
  | bytes _ failure => failure

theorem Source.sound_feed {source : Source} (h : ∀ reason ∈ source.failure?, P (.error reason)) :
    source.feed.Sound P := by
  cases source with
  | text t => exact Feed.sound_ofText t
  | bytes bs failure =>
    refine ⟨fun w hw => ?_, h⟩
    rw [Source.feed, Feed.ofBytes, Feed.tokens_ofLines] at hw
    obtain ⟨line, -, hw⟩ := List.mem_flatMap.1 hw
    exact Text.words_of_mem_words hw

/-- The constants of the language have every property that evaluation keeps. -/
theorem withConstants_all (hP : Kept P) : Environment.withConstants.All (Bindable P) := by
  intro f hf b hb
  obtain rfl := List.mem_singleton.1 hf
  obtain rfl := List.mem_singleton.1 hb
  have hpi : Text.words "3.14159".toList = ["3.14159".toList] := by decide +kernel
  exact ⟨hP.literal hpi (by decide +kernel), fun _ => rfl⟩

/-- A machine as a program finds it at first. -/
def Machine.fresh (output : Sink) (generator : Generator) : Machine where
  environment := .withConstants
  output := output
  generator := generator

theorem sound_fresh (hP : Kept P) (output : Sink) (generator : Generator) {source : Source}
    (hs : ∀ reason ∈ source.failure?, P (.error reason)) : Sound P ⟨.fresh output generator, source.feed⟩ :=
  ⟨withConstants_all hP, Source.sound_feed hs⟩

/-- A program that is run at first ends as it should. -/
theorem yields_run_fresh (hP : Kept P) (files : Files) (fuel : Nat) (output : Sink) (generator : Generator)
    {source : Source} (hs : ∀ reason ∈ source.failure?, P (.error reason)) :
    Yields P (Last P) (run files fuel ⟨.fresh output generator, source.feed⟩) :=
  (agree_runWatched hP (fun _ _ => trivial : ∀ v, P v → True) giveUp files fuel _
    (sound_fresh hP output generator hs)).2

/-- In a program that is run at first, every value is as it should be, those of the variables too. -/
theorem runWatched_fresh (hP : Kept P) (hok : ∀ v, P v → ok v) (alarm : Action Value) (files : Files) (fuel : Nat)
    (output : Sink) (generator : Generator) {source : Source} (hs : ∀ reason ∈ source.failure?, P (.error reason)) :
    runWatched ok alarm files fuel ⟨.fresh output generator, source.feed⟩ =
        run files fuel ⟨.fresh output generator, source.feed⟩ ∧
      ∀ after, (run files fuel ⟨.fresh output generator, source.feed⟩).state? = some after →
        after.environment.All ok := by
  obtain ⟨he, hy⟩ := agree_runWatched hP hok alarm files fuel _ (sound_fresh hP output generator hs)
  exact ⟨he.symm, fun after ha => (hy.sound ha).bound.mono fun v hv => hok v hv.1⟩

end MiniLogo
