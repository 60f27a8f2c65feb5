import MiniLogo.Proofs.Evaluation.Storable
import MiniLogo.Proofs.Number.Faithful

/-!
# Numbers stand for their texts

Each number that a program meets is faithful to its text, whether it was spelled, computed or counted
(`session_faithful`). So `int`, `sqrt` and `random`, which take the value of a number as it is and read the text of
anything else, do with a number what they do with a word of the same text (`Number.ActsAsText`).
-/

namespace MiniLogo

open MiniLogo.Action MiniLogo.Operation

variable {n : Number}

/-! ## The value and the text -/

def Value.Faithful : Value → Prop
  | .number n => n.Faithful
  | _ => True

instance : DecidablePred Value.Faithful := fun v => by
  cases v <;> unfold Value.Faithful <;> infer_instance

/-- The number is taken like a word of the same text, by what looks at the value of the one and reads the other. -/
structure Number.ActsAsText (n : Number) : Prop where
  numericText : Operation.numericText (.number n) = Operation.numericText (.word n.text)
  truncate : Operation.truncate (.number n) = Operation.truncate (.word n.text)
  apply {b : Builtin} (hb : b ∈ [.int, .sqrt, .random]) (files : Files) (loop : Action (Option Value)) :
    Action.apply files (pure (.number n)) loop b = Action.apply files (pure (.word n.text)) loop b

/-- The value that is taken from a number is what its text is read as. -/
theorem Number.Faithful.numericText (h : n.Faithful) :
    Operation.numericText (.number n) = Operation.numericText (.word n.text) := by
  obtain ⟨value, text⟩ := n
  cases value with
  | none => rfl
  | some x =>
    have hread : Decimal.read? text = some x := h.symm
    have htrim : Text.trim text = text := h.trim_text rfl
    change Except.ok x = readText (.word text)
    rw [readText, Value.text, htrim, hread]

theorem Number.Faithful.truncate (h : n.Faithful) :
    Operation.truncate (.number n) = Operation.truncate (.word n.text) := by
  have htext : (Value.number n).text = (Value.word n.text).text := rfl
  rw [Operation.truncate, Operation.truncate, h.numericText, htext]

/-- A faithful number acts as its text. -/
theorem Number.Faithful.actsAsText (h : n.Faithful) : n.ActsAsText where
  numericText := h.numericText
  truncate := h.truncate
  apply {b} hb files loop := by
    have hint : ∀ v, Action.apply files (pure v) loop .int =
        (ofExcept (Operation.truncate v) >>= fun i => pure (.ofInt i)) := fun _ => rfl
    have hsqrt : ∀ v, Action.apply files (pure v) loop .sqrt =
        (ofExcept (Operation.numericText v) >>= fun x => pure (.ofFloat x.sqrt)) := fun _ => rfl
    have hrandom : ∀ v, Action.apply files (pure v) loop .random = (ofExcept (Operation.numericText v) >>= fun x =>
        draw >>= fun d => pure (.ofFloat (d * Binary64.trunc x))) := fun _ => rfl
    simp only [List.mem_cons, List.not_mem_nil, or_false] at hb
    rcases hb with rfl | rfl | rfl
    · rw [hint, hint, h.truncate]
    · rw [hsqrt, hsqrt, h.numericText]
    · rw [hrandom, hrandom, h.numericText]

/-! ## Sessions -/

theorem Value.faithful_bracketed (t : Text) : (Literal.value t).Faithful := by
  unfold Literal.value
  split <;> trivial

/-- Numbers are made in three ways only, and each makes them faithful. -/
theorem lasting_faithful : Lasting Value.Faithful Value.Faithful where
  value hv := hv
  bindable hv _ := hv
  word _ := trivial
  list _ := trivial
  literal t := Number.faithful_literal t
  bool _ := trivial
  ofFloat x := Number.faithful_ofFloat x
  ofInt i := Number.faithful_ofInt i
  bracketed := Value.faithful_bracketed
  erase _ := trivial

/-- **A number is its text.** Each of the three ways to make a number makes it faithful: the value of the number is
what its text is read as. So, in a session from the machine that a program finds at first, every number that a variable
holds is faithful, and so is every number that an expression comes to in a run that follows, at whatever depth. A
faithful number is taken by `int`, `sqrt` and `random` like a word of the same text: they come to the same number or
fail with the same fault. Of the way in which doubles are written this uses only that their texts read back
(`Printer`). -/
theorem session_faithful {output : Sink} {generator : Generator} {m : Machine}
    (h : Session (.fresh output generator) m) :
    (∀ t, (Number.literal t).Faithful) ∧ (∀ x, (Number.ofFloat x).Faithful) ∧ (∀ i, (Number.ofInt i).Faithful) ∧
    m.environment.All Value.Faithful ∧
    (∀ (files : Files) (fuel : Nat) (source : Source) (alarm : Action Value),
      runWatched Value.Faithful alarm files fuel ⟨m, source.feed⟩ = run files fuel ⟨m, source.feed⟩) ∧
    ∀ n : Number, n.Faithful → n.ActsAsText := by
  have hm := lasting_faithful.session_fresh h
  refine ⟨Number.faithful_literal, Number.faithful_ofFloat, Number.faithful_ofInt, hm,
    fun files fuel source alarm => ?_, fun n hn => hn.actsAsText⟩
  have hbound : m.environment.All (Bindable Value.Faithful) := fun f hf b hb =>
    ⟨hm f hf b hb, ((lasting_storable.session_fresh h) f hf b hb).bindable.2⟩
  have hsound : Sound Value.Faithful ⟨m, source.feed⟩ := ⟨hbound, Source.sound_feed fun _ _ => trivial⟩
  exact (agree_runWatched (lasting_faithful.kept trivial) (fun _ => id) alarm files fuel _ hsound).1.symm

/-- A number that was counted, beyond 2^53; one that was spelled and has no value; and one that was computed. -/
theorem session_faithful_of_values :
    let files : Files := fun _ => .error .notFound
    let start : State :=
      ⟨.fresh {} (.ofSeed 0), .ofText "make \"x int 9007199254740993 make \"y - make \"z div 1 3 foo".toList⟩
    let source : Source := .text "int :z".toList
    ∃ after, run files 4 start = .failed (.unknownInstruction "foo".toList) after ∧
      (after.environment.top.map fun b => (b.1, b.2.text)) = [("pi".toList, "3.14159".toList),
        (['x'], "9007199254740992".toList), (['y'], ['-']), (['z'], "0.3333333333333333".toList)] ∧
      after.environment.All Value.Faithful ∧
      runWatched Value.Faithful giveUp files 4 ⟨after.toMachine, source.feed⟩ =
        run files 4 ⟨after.toMachine, source.feed⟩ ∧
      (Number.literal ['-']).Faithful ∧ (Number.literal ['-']).ActsAsText := by
  intro files start source
  have hr : (run files 4 start).result? = some (.error (.unknownInstruction "foo".toList)) := by decide +kernel
  have htexts : (run files 4 start).state?.map (fun after => after.environment.top.map fun b => (b.1, b.2.text)) =
      some [("pi".toList, "3.14159".toList), (['x'], "9007199254740992".toList), (['y'], ['-']),
        (['z'], "0.3333333333333333".toList)] := by decide +kernel
  obtain ⟨after, hrun, hafter⟩ := Outcome.eq_failed_of_result? hr
  rw [hafter] at htexts
  have hcall : Call (.fresh {} (.ofSeed 0)) after.toMachine := .run (r := .error _) (g := after.feed) hrun
  obtain ⟨hliteral, -, -, hall, hwatched, hacts⟩ := session_faithful (.single hcall)
  exact ⟨after, hrun, Option.some.inj htexts, hall, hwatched files 4 source giveUp, hliteral ['-'],
    hacts _ (hliteral ['-'])⟩

end MiniLogo
