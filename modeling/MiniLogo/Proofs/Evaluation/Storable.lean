import MiniLogo.Proofs.Evaluation.Lasting
import MiniLogo.Proofs.Value.Functions

/-!
# What variables hold

The variables of a session hold truth values, numbers, words and lists, or what erasing leaves of these (`Storable`):
never a function, and never an error. Every value that an expression comes to is one of them or a function literal
(`Regular`), and `make` binds no function literal, for it describes a procedure.

These two properties last (`lasting_storable`), and so they hold throughout a session (`session_storable`). Properties
that are `Kept` do not serve here, for they count what a device says of its failure among the values.
-/

namespace MiniLogo

open MiniLogo.Action

variable {v w : Value}

/-! ## Values -/

/-- The kinds of what can be bound. -/
def storableKinds : List Kind := [.bool, .number, .word, .list]

/-- What a variable holds: a value of one of four kinds, erased or not. -/
def Storable (v : Value) : Prop := v.kind ∈ storableKinds

/-- What an expression comes to: what a variable holds, or a function literal. -/
def Regular (v : Value) : Prop := Storable v ∨ ∃ t, Literal.isFunction t = true ∧ v = .function t

/-- If the value is a function, a procedure is read off it. -/
def Recognised (v : Value) : Prop := v.kind = .function → ∀ name, (Procedure.ofLiteral? name v).isSome = true

theorem storable_bool (b : Bool) : Storable (.bool b) := (by decide : Kind.bool ∈ storableKinds)

theorem storable_number (n : Number) : Storable (.number n) := (by decide : Kind.number ∈ storableKinds)

theorem storable_word (t : Text) : Storable (.word t) := (by decide : Kind.word ∈ storableKinds)

theorem storable_list (t : Text) : Storable (.list t) := (by decide : Kind.list ∈ storableKinds)

/-- A storable value is no function that would have to be recognised. -/
theorem Storable.recognised (h : Storable v) : Recognised v := by
  intro hk
  unfold Storable at h
  rw [hk] at h
  exact absurd h (by decide)

theorem Regular.recognised (h : Regular v) : Recognised v := by
  rcases h with h | ⟨t, ht, rfl⟩
  · exact h.recognised
  · exact fun _ name => Procedure.isSome_ofLiteral? name ht

theorem Recognised.kind_ne_function (h : Recognised v) {name : Text} (hn : Procedure.ofLiteral? name v = none) :
    v.kind ≠ .function := by
  intro hk
  have hsome := h hk name
  rw [hn] at hsome
  cases hsome

/-- A value of an expression that describes no procedure can be bound. -/
theorem Regular.storable (h : Regular v) {name : Text} (hn : Procedure.ofLiteral? name v = none) : Storable v := by
  have hkind := h.recognised.kind_ne_function hn
  rcases h with h | ⟨t, -, rfl⟩
  · exact h
  · exact absurd rfl hkind

/-- The value of a bracketed text is a list, or a function by its text. -/
theorem regular_value (t : Text) : Regular (Literal.value t) := by
  unfold Literal.value
  split
  · exact .inr ⟨t, ‹_›, rfl⟩
  · exact .inl (storable_list t)

/-- What evaluation builds can be bound, function literals apart. -/
theorem lasting_storable : Lasting Storable Regular where
  value := .inl
  bindable hv hn := hv.storable hn
  word := storable_word
  list := storable_list
  literal _ := storable_number _
  bool := storable_bool
  ofFloat _ := storable_number _
  ofInt _ := storable_number _
  bracketed := regular_value
  erase hv := hv

/-- Storable variables stay so, and expressions come to regular values. -/
theorem keeps_evalNext (files : Files) (fuel : Nat) : Keeps Storable Regular (evalNext files fuel) :=
  lasting_storable.evalNext files fuel

/-! ## Sessions -/

variable {files : Files} {m m' : Machine}

/-- One call keeps the variables storable. -/
theorem Call.all_storable (h : Call m m') (hm : m.environment.All Storable) : m'.environment.All Storable :=
  lasting_storable.call h hm

/-- A whole session keeps the variables storable. -/
theorem Session.all_storable (h : Session m m') (hm : m.environment.All Storable) : m'.environment.All Storable :=
  lasting_storable.session h hm

/-- The constants are storable. -/
theorem withConstants_all_storable : Environment.withConstants.All Storable := lasting_storable.withConstants

/-! ## Functions -/

instance : DecidablePred Recognised := fun v =>
  decidable_of_iff (v.kind = .function → (Procedure.ofLiteral? [] v).isSome = true) <| by
    refine ⟨fun h hk name => ?_, fun h hk => h hk []⟩
    by_contra hn
    have hnone := Option.isNone_iff_eq_none.1 (ofLiteral?_isNone (Option.not_isSome_iff_eq_none.1 hn) [])
    have hsome := h hk
    rw [hnone] at hsome
    cases hsome

/-- Evaluation keeps it that functions are recognised. -/
theorem kept_recognised : Kept Recognised where
  literal {raw v} _ hv := by
    unfold Token.literal? at hv
    split at hv
    · exact Option.some.inj hv ▸ (storable_word _).recognised
    · exact Option.some.inj hv ▸ (storable_number _).recognised
    · exact Option.some.inj hv ▸ (storable_bool _).recognised
    · cases hv
  raw _ := (storable_word _).recognised
  bracketed _ := (regular_value _).recognised
  bool b := (storable_bool b).recognised
  ofFloat x := (storable_number _).recognised
  ofInt i := (storable_number _).recognised
  part _ hw := (lasting_storable.part hw).recognised
  erase {v} hv hn := fun (hk : v.kind = .function) =>
    absurd hk (hv.kind_ne_function (Option.isNone_iff_eq_none.1 (hn [])))
  full := nofun

theorem Storable.bindable (h : Storable v) : Bindable Recognised v := by
  refine ⟨h.recognised, fun name => ?_⟩
  unfold Procedure.ofLiteral?
  cases v with
  | function t => exact absurd h (by decide : Kind.function ∉ storableKinds)
  | bool p | number n | word t | list t | error t | erased k => rfl

/-- `make` binds the value of its second operand, unless it describes a procedure. -/
theorem eval_make {fuel : Nat} {s s₁ s₂ : State} {n : Value} (hn : evalNext files fuel s = .done n s₁)
    (hv : evalNext files fuel s₁ = .done v s₂) : eval files (fuel + 1) Builtin.make.name s =
      .done v (if (Procedure.ofLiteral? n.text v).isSome then s₂
        else { s₂ with environment := s₂.environment.define n.text v }) := by
  rw [eval_succ, evalWith_name, apply, bind_apply, hn]
  simp only
  rw [bind_apply, hv]
  simp only
  cases Procedure.ofLiteral? n.text v <;> rfl

/-- **No function is ever bound.** In a session from the machine that a program finds at first, whatever its calls are
given and however they end, every variable of every frame holds a truth value, a number, a word or a list, erased or
not. In every run that follows in the session, a procedure is read off each function that an expression comes to, at
whatever depth. So `make` before a name and a function, however the function is come by, leaves the state that its
operands leave. -/
theorem session_storable {output : Sink} {generator : Generator} (h : Session (.fresh output generator) m) :
    m.environment.All Storable ∧
    (∀ (files : Files) (fuel : Nat) (source : Source) (alarm : Action Value),
      runWatched Recognised alarm files fuel ⟨m, source.feed⟩ = run files fuel ⟨m, source.feed⟩) ∧
    ∀ {files : Files} {fuel : Nat} {s s₁ s₂ : State} {n v : Value}, s.environment.All Storable →
      evalNext files fuel s = .done n s₁ → evalNext files fuel s₁ = .done v s₂ → v.kind = .function →
      eval files (fuel + 1) Builtin.make.name s = .done v s₂ := by
  have hm := h.all_storable withConstants_all_storable
  refine ⟨hm, fun files fuel source alarm => ?_, fun hs hn hv hk => ?_⟩
  · have hsound : Sound Recognised ⟨m, source.feed⟩ :=
      ⟨hm.mono fun _ => Storable.bindable, Source.sound_feed fun _ _ => nofun⟩
    exact (agree_runWatched kept_recognised (fun _ => id) alarm files fuel _ hsound).1.symm
  · obtain ⟨hs₁, -⟩ := keeps_evalNext _ _ _ (.ok _) _ _ hs hn
    obtain ⟨-, hregular⟩ := keeps_evalNext _ _ _ (.ok _) _ _ hs₁ hv
    rw [eval_make hn hv, if_pos ((hregular _ rfl).recognised hk _)]

/-- A call that erases a list and binds a word, but no function, before it fails; and a function that is come by in the
body of `run`. -/
theorem session_storable_of_failure :
    let files : Files := fun _ => .error .notFound
    let start : State := ⟨.fresh {} (.ofSeed 0), .ofText "make \"x [b] erase :x make \"f [[p][:x]] foo".toList⟩
    let source : Source := .text "run [[[p][:x]]]".toList
    let s (t : Text) : State :=
      ⟨{ environment := { top := [(['x'], .erased .list)] } }, { pending := Text.words t }⟩
    (∃ after, run files 4 start = .failed (.unknownInstruction "foo".toList) after ∧
      (after.environment.top.map fun b => (b.1, b.2.kind)) = [("pi".toList, .number), (['x'], .list)] ∧
      after.environment.All Storable ∧
      runWatched Recognised giveUp files 4 ⟨after.toMachine, source.feed⟩ =
        run files 4 ⟨after.toMachine, source.feed⟩) ∧
      eval files 4 Builtin.make.name (s "\"f run [[[p][:x]]]".toList) =
        .done (.function "[[p][:x]]".toList) (s []) := by
  intro files start source s
  have hr : (run files 4 start).result? = some (.error (.unknownInstruction "foo".toList)) := by decide +kernel
  have hkinds : (run files 4 start).state?.map (fun after => after.environment.top.map fun b => (b.1, b.2.kind)) =
      some [("pi".toList, .number), (['x'], .list)] := by decide +kernel
  obtain ⟨after, hrun, hafter⟩ := Outcome.eq_failed_of_result? hr
  rw [hafter] at hkinds
  have hcall : Call (.fresh {} (.ofSeed 0)) after.toMachine := .run (r := .error _) (g := after.feed) hrun
  obtain ⟨hall, hwatched, hmake⟩ := session_storable (.single hcall)
  have hs : (s "\"f run [[[p][:x]]]".toList).environment.All Storable := by
    intro f hf b hb
    obtain rfl := List.mem_singleton.1 hf
    obtain rfl := List.mem_singleton.1 hb
    exact storable_list []
  have hname : evalNext files 3 (s "\"f run [[[p][:x]]]".toList) =
      .done (.word ['f']) (s "run [[[p][:x]]]".toList) :=
    evalNext_eq_of_visible rfl (by decide +kernel)
  have hvalue : evalNext files 3 (s "run [[[p][:x]]]".toList) =
      .done (.function "[[p][:x]]".toList) (s []) :=
    evalNext_eq_of_visible rfl (by decide +kernel)
  exact ⟨⟨after, hrun, Option.some.inj hkinds, hall, hwatched files 4 source giveUp⟩, hmake hs hname hvalue rfl⟩

end MiniLogo
