import MiniLogo.Proofs.Evaluation.Growth
import MiniLogo.Proofs.Evaluation.Watched

/-!
# Properties of variables that last

What variables hold may have a property that not every value of an expression has: `make` binds no function literal.
A property `B` of variables and a property `P` of the values of expressions are `Lasting` if all that evaluation builds
has them and what can be bound has the former.

`Keeps B Q x` says that the action `x` leaves variables with the property `B` if it finds such, however it ends, and
that its value, if there is one, has the property `Q`. It is shown of the actions that evaluation is made of, of the
builtins, and by induction on the fuel of expressions and of runs; a session goes from call to call
(`Lasting.session`). Unlike what is said of `Kept` properties it holds on every feed, whatever tokens and failures it
gives.
-/

namespace MiniLogo

open MiniLogo.Action

variable {α β : Type} {B P : Value → Prop} {Q : α → Prop} {R : β → Prop} {v w : Value}

/-- Evaluation keeps it that variables have the property `B` and the values of expressions have the property `P`. -/
structure Lasting (B P : Value → Prop) : Prop where
  value {v : Value} (hv : B v) : P v
  bindable {v : Value} {name : Text} (hv : P v) (hn : Procedure.ofLiteral? name v = none) : B v
  word (t : Text) : B (.word t)
  list (t : Text) : B (.list t)
  literal (t : Text) : B (.literal t)
  bool (b : Bool) : B (.bool b)
  ofFloat (x : Float) : B (.ofFloat x)
  ofInt (i : Int) : B (.ofInt i)
  bracketed (t : Text) : P (Literal.value t)
  erase {v : Value} (hv : B v) : B v.erase

/-- Parts are words and lists. -/
theorem Lasting.part (h : Lasting B P) {p : Part} (hw : p.ofValue? v = some w) : B w := by
  have helement : ∀ e, B (Part.element e) := fun e => by
    unfold Part.element
    split
    · exact h.list _
    · exact h.word _
  have hlist : ∀ t, B (p.ofList t) := fun t => by
    rcases Part.ofList_cases p t with ⟨e, -, he⟩ | he | he | he
    · exact he ▸ helement e
    · exact he ▸ h.list _
    · exact he ▸ h.list _
    · exact he ▸ h.list _
  unfold Part.ofValue? at hw
  split at hw
  · exact Option.some.inj hw ▸ h.word _
  · exact Option.some.inj hw ▸ hlist _
  · exact Option.some.inj hw ▸ h.word _
  · exact Option.some.inj hw ▸ hlist _
  · cases hw

/-- A property of all values alike that lasts is kept on sound feeds, if it is one of the error value there is. -/
theorem Lasting.kept (h : Lasting P P) (hfull : P (.error Sink.full)) : Kept P where
  literal {raw v} _ hv := by
    unfold Token.literal? at hv
    split at hv
    · exact Option.some.inj hv ▸ h.word _
    · exact Option.some.inj hv ▸ h.literal _
    · exact Option.some.inj hv ▸ h.bool _
    · cases hv
  raw _ := h.word _
  bracketed _ := h.bracketed _
  bool := h.bool
  ofFloat := h.ofFloat
  ofInt := h.ofInt
  part _ hw := h.part hw
  erase hv hn := h.erase (h.bindable hv (Option.isNone_iff_eq_none.1 (hn [])))
  full := hfull

/-! ## Actions that keep the variables so -/

/-- However the action ends, variables that had the property have it still, and its value has the other property. -/
def Keeps (B : Value → Prop) (Q : α → Prop) (x : Action α) : Prop := ∀ s r m f, s.environment.All B →
  x s = .of r m f → m.environment.All B ∧ ∀ a, r = .ok a → Q a

/-- One action after another keeps what both of them keep, if the second one does so from values as the first one
gives. -/
theorem Keeps.bind {x : Action α} {k : α → Action β} (hx : Keeps B Q x) (hk : ∀ a, Q a → Keeps B R (k a)) :
    Keeps B R (x >>= k) := by
  intro s r m f hs h
  rcases bind_eq_of_iff.1 h with ⟨e, he, rfl⟩ | ⟨a, after, ha, hka⟩
  · exact ⟨(hx s (.error e) m f hs he).1, nofun⟩
  · obtain ⟨henv, hq⟩ := hx s (.ok a) after.toMachine after.feed hs ha
    exact hk a (hq a rfl) after r m f henv hka

theorem Keeps.mono {Q' : α → Prop} {x : Action α} (h : Keeps B Q x) (hQ : ∀ a, Q a → Q' a) : Keeps B Q' x :=
  fun s r m f hs hx => ⟨(h s r m f hs hx).1, fun a ha => hQ a ((h s r m f hs hx).2 a ha)⟩

/-- An action that has one end keeps what that end does. -/
theorem keeps_of_end {x : Action α} (h : ∀ s, s.environment.All B → ∃ r m f, x s = .of r m f ∧
    m.environment.All B ∧ ∀ a, r = .ok a → Q a) : Keeps B Q x := by
  intro s r m f hs hx
  obtain ⟨r', m', f', hx', he⟩ := h s hs
  obtain ⟨rfl, rfl, -⟩ := Outcome.of_inj (hx'.symm.trans hx)
  exact he

theorem keeps_pure {a : α} (h : Q a) : Keeps B Q (pure a) :=
  keeps_of_end fun s hs => ⟨.ok a, _, s.feed, rfl, hs, fun _ hb => Except.ok.inj hb ▸ h⟩

theorem keeps_fail (e : Fault) : Keeps B Q (fail e) :=
  keeps_of_end fun s hs => ⟨.error e, _, s.feed, rfl, hs, nofun⟩

theorem keeps_giveUp : Keeps B Q giveUp := fun _ r _ _ _ h => by cases r <;> cases h

/-- A computation touches no variable, so only its value counts. -/
theorem keeps_ofExcept {r : Except Fault α} (h : ∀ a, r = .ok a → Q a) : Keeps B Q (ofExcept r) := by
  cases r with
  | ok a => exact keeps_pure (h a rfl)
  | error e => exact keeps_fail e

/-- An action on a feed of its own keeps what it keeps there. -/
theorem Keeps.within {x : Action α} (h : Keeps B Q x) (feed : Feed) : Keeps B Q (within feed x) := by
  intro s r m f hs hw
  obtain ⟨-, f₀, hx⟩ := within_eq_of_iff.1 hw
  exact h ⟨s.toMachine, feed⟩ r m f₀ hs hx

theorem keeps_onFeed {f : Feed → α × Feed} (h : ∀ feed, Q (f feed).1) : Keeps B Q (onFeed f) :=
  keeps_of_end fun s hs => ⟨.ok (f s.feed).1, _, (f s.feed).2, rfl, hs, fun _ ha => Except.ok.inj ha ▸ h s.feed⟩

theorem keeps_reportFailure : Keeps B (fun _ => True) reportFailure :=
  (keeps_onFeed (Q := fun _ => True) fun _ => trivial).bind fun o _ => by
    cases o with
    | some reason => exact keeps_fail _
    | none => exact keeps_pure trivial

theorem keeps_nextToken : Keeps B (fun _ => True) nextToken :=
  (keeps_onFeed (Q := fun _ => True) fun _ => trivial).bind fun o _ => by
    cases o with
    | some t => exact keeps_pure trivial
    | none => exact keeps_reportFailure.bind fun _ _ => keeps_fail _

/-- A literal that is read is the value of some bracketed text. -/
theorem Feed.readBracketed_eq_value {first : Text} {f : Feed} (h : (f.readBracketed first).1 = .ok v) :
    ∃ t, v = Literal.value t := by
  unfold readBracketed at h
  simp only at h
  split at h
  · exact ⟨_, (Except.ok.inj h).symm⟩
  · cases h

/-- What is found in a variable has the property of what is bound. -/
theorem keeps_lookup (name : Text) : Keeps B B (lookup name) := by
  refine keeps_of_end fun s hs => ?_
  obtain ⟨r, hr, hv⟩ := lookup_ends name s.toMachine
  refine ⟨r, _, s.feed, hr s.feed, hs, fun v ha => ?_⟩
  obtain ⟨b, hb, rfl⟩ := Frame.mem_of_get? (hv v ha)
  exact hs _ List.mem_cons_self b hb

/-- A value that may be bound is bound among such values. -/
theorem keeps_define (hv : B v) (name : Text) : Keeps B (fun _ => True) (define name v) :=
  keeps_of_end fun s hs => ⟨.ok (), _, s.feed, rfl, hs.define hv name, fun _ _ => trivial⟩

theorem keeps_isBound (name : Text) : Keeps B (fun _ => True) (isBound name) :=
  keeps_of_end fun s hs => ⟨.ok _, _, s.feed, rfl, hs, fun _ _ => trivial⟩

theorem keeps_draw : Keeps B (fun _ => True) draw :=
  keeps_of_end fun s hs => ⟨.ok s.generator.draw.1, _, s.feed, rfl, hs, fun _ _ => trivial⟩

theorem keeps_halt : Keeps B (fun _ => True) halt :=
  keeps_of_end fun s hs => ⟨.ok (), _, s.feed, rfl, hs, fun _ _ => trivial⟩

theorem keeps_isHalted : Keeps B (fun _ => True) isHalted :=
  keeps_of_end fun s hs => ⟨.ok s.halted, _, s.feed, rfl, hs, fun _ _ => trivial⟩

theorem keeps_writeLine (t : Text) : Keeps B (fun _ => True) (writeLine t) := by
  refine keeps_of_end fun s hs => ?_
  obtain ⟨r, hr⟩ := writeLine_ends t s.toMachine
  exact ⟨r, _, s.feed, hr s.feed, hs, fun _ _ => trivial⟩

/-! ## Builtins -/

variable {files : Files} {next : Action Value} {loop : Action (Option Value)}

/-- What operations compute has a property if truth values or numbers have it, whatever the operands are. -/
theorem Answers.keeps {r : Except Fault α} (h : Answers (fun _ => True) Q r) : Keeps B Q (ofExcept r) :=
  keeps_ofExcept fun a ha => by
    rw [ha] at h
    exact h

/-- Running a text comes to what its run comes to, or to a given value. -/
theorem keeps_runText (hl : Keeps B (Last P) loop) (t : Text) (hv : P v) : Keeps B P (runText loop t v) := by
  refine (hl.within _).bind fun o ho => keeps_pure ?_
  cases o with
  | some w => exact ho w rfl
  | none => exact hv

namespace Lasting

/-- Literals last. -/
theorem readBracketed (h : Lasting B P) (first : Text) : Keeps B P (Action.readBracketed first) := by
  refine (keeps_onFeed (Q := fun r => ∀ v, r = .ok v → P v) fun feed v hv => ?_).bind fun r hr => keeps_ofExcept hr
  obtain ⟨t, rfl⟩ := Feed.readBracketed_eq_value hv
  exact h.bracketed t

/-- Running a list keeps what its run keeps; without tokens it comes to an empty list. -/
theorem runList (h : Lasting B P) (hl : Keeps B (Last P) loop) (v : Value) : Keeps B P (Action.runList loop v) := by
  cases hu : Text.unbracket? v.text with
  | some interior =>
    rw [runList_of_unbracket? hu]
    exact keeps_runText hl interior (h.value (h.list _))
  | none =>
    rw [Action.runList, hu]
    exact keeps_fail _

/-- Loading a file keeps what its run keeps; without tokens it comes to a truth value. -/
theorem loadFile (h : Lasting B P) (hl : Keeps B (Last P) loop) (path : Text) :
    Keeps B P (Action.loadFile files loop path) := by
  cases hf : files path with
  | ok bytes =>
    rw [loadFile_of_ok hf]
    exact keeps_runText hl _ (h.value (h.bool true))
  | error reason =>
    rw [Action.loadFile, hf]
    exact keeps_fail _

/-- A part of a value is a word or a list, and these last. -/
theorem access (h : Lasting B P) (hn : Keeps B P next) (b : Builtin) (p : Part) :
    Keeps B P (Action.access next b p) := by
  refine hn.bind fun v _ => ?_
  cases hp : p.ofValue? v with
  | some part => exact keeps_pure (h.value (h.part hp))
  | none => exact keeps_fail _

/-- What was bound may be looked up. -/
theorem lookup (h : Lasting B P) (name : Text) : Keeps B P (Action.lookup name) :=
  (keeps_lookup name).mono fun _ => h.value

/-- Erasing binds and gives an erased value. -/
theorem eraseToken (h : Lasting B P) (token : Text) : Keeps B P (Action.erase token) := by
  unfold Action.erase
  split
  · refine (keeps_lookup _).bind fun v hv => ?_
    exact (keeps_define (h.erase hv) _).bind fun _ _ => keeps_pure (h.value (h.erase hv))
  · exact keeps_fail _

/-- Builtins keep what lasts, if their operands and runs do. -/
theorem apply (h : Lasting B P) (hn : Keeps B P next) (hl : Keeps B (Last P) loop) (b : Builtin) :
    Keeps B P (Action.apply files next loop b) := by
  have hbool : ∀ p, P (.bool p) := fun p => h.value (h.bool p)
  have hfloat : ∀ x, P (.ofFloat x) := fun x => h.value (h.ofFloat x)
  cases b with
  | add | sub | mul | div | mod =>
    exact hn.bind fun v _ => hn.bind fun w _ => (answers_arithmetic hfloat _ trivial trivial).keeps
  | and | or => exact hn.bind fun v _ => hn.bind fun w _ => (answers_logic hbool _ v w).keeps
  | eq | gt | lt => exact hn.bind fun v _ => hn.bind fun w _ => (answers_compare hbool _ v w).keeps
  | not => exact hn.bind fun v _ => (answers_not hbool v).keeps
  | isEmpty => exact hn.bind fun v _ => (answers_isEmpty hbool v).keeps
  | isNumber | isBool | isWord | isList => exact hn.bind fun v _ => keeps_pure (hbool _)
  | isName => exact hn.bind fun v _ => (keeps_isBound v.text).bind fun p _ => keeps_pure (hbool p)
  | first | last | butFirst | butLast => exact h.access hn _ _
  | random =>
    exact hn.bind fun v _ => (answers_numericText trivial).keeps.bind fun x _ =>
      keeps_draw.bind fun d _ => keeps_pure (hfloat _)
  | int =>
    exact hn.bind fun v _ => (answers_truncate trivial).keeps.bind fun i _ => keeps_pure (h.value (h.ofInt i))
  | sqrt => exact hn.bind fun v _ => (answers_numericText trivial).keeps.bind fun x _ => keeps_pure (hfloat _)
  | make =>
    refine hn.bind fun name _ => hn.bind fun v hv => ?_
    cases hp : Procedure.ofLiteral? name.text v with
    | some p => exact (keeps_pure (a := ()) (Q := fun _ => True) trivial).bind fun _ _ => keeps_pure hv
    | none => exact (keeps_define (h.bindable hv hp) name.text).bind fun _ _ => keeps_pure hv
  | print => exact hn.bind fun v hv => (keeps_writeLine v.display).bind fun _ _ => keeps_pure hv
  | erase => exact keeps_nextToken.bind fun raw _ => h.eraseToken raw
  | load => exact keeps_nextToken.bind fun raw _ => h.loadFile hl _
  | run => exact hn.bind fun v _ => h.runList hl v
  | ifElse =>
    refine hn.bind fun condition _ => ?_
    cases condition.truth? with
    | some flag => exact hn.bind fun consequence _ => hn.bind fun alternative _ => h.runList hl _
    | none => exact keeps_fail _
  | read => exact keeps_nextToken.bind fun raw _ => keeps_pure (h.value (h.word raw))
  | exit => exact keeps_halt.bind fun _ _ => keeps_pure (hbool false)

/-! ## Evaluation -/

/-- Evaluating a token keeps what lasts, if its operands and runs do. -/
theorem evalWith (h : Lasting B P) (hn : Keeps B P next) (hl : Keeps B (Last P) loop) (raw : Text) :
    Keeps B P (Action.evalWith files next loop raw) := by
  unfold Action.evalWith
  split
  · exact keeps_pure (h.value (h.word _))
  · exact keeps_pure (h.value (h.literal _))
  · exact keeps_pure (h.value (h.bool _))
  · exact hn.bind fun v _ => h.lookup v.text
  · exact h.lookup _
  · exact h.readBracketed _
  · split
    · exact h.apply hn hl _
    · exact keeps_fail _

end Lasting

theorem keeps_finish {last : Option Value} (h : Last P last) : Keeps B (Last P) (finish last) :=
  keeps_reportFailure.bind fun _ _ => keeps_pure h

/-- Runs keep what their expressions keep. -/
theorem keeps_drive (hn : Keeps B P next) (n : Nat) {last : Option Value} (h : Last P last) :
    Keeps B (Last P) (drive next n last) := by
  induction n generalizing last with
  | zero => exact keeps_giveUp
  | succ n ih =>
    refine keeps_isHalted.bind fun halted _ => ?_
    cases halted with
    | true => exact keeps_finish h
    | false =>
      refine (keeps_onFeed (Q := fun _ => True) fun _ => trivial).bind fun more _ => ?_
      cases more with
      | true => exact hn.bind fun v hv => ih fun w hw => Option.some.inj hw ▸ hv
      | false => exact keeps_finish h

namespace Lasting

/-- Evaluation keeps what lasts, by induction on the fuel. -/
theorem eval (h : Lasting B P) (files : Files) (fuel : Nat) (raw : Text) : Keeps B P (Action.eval files fuel raw) := by
  induction fuel generalizing raw with
  | zero => exact keeps_giveUp
  | succ fuel ih =>
    have hn : Keeps B P (Action.evalNext files fuel) := keeps_nextToken.bind fun t _ => ih t
    exact h.evalWith hn (keeps_drive hn fuel last_none) raw

theorem evalNext (h : Lasting B P) (files : Files) (fuel : Nat) : Keeps B P (Action.evalNext files fuel) :=
  keeps_nextToken.bind fun t _ => h.eval files fuel t

theorem run (h : Lasting B P) (files : Files) (fuel : Nat) : Keeps B (Last P) (Action.run files fuel) :=
  keeps_drive (h.evalNext files fuel) fuel last_none

theorem load (h : Lasting B P) (files : Files) (fuel : Nat) (path : Text) : Keeps B P (Action.load files fuel path) :=
  h.loadFile (h.run files fuel) path

/-! ## Sessions -/

variable {m m' : Machine}

/-- One call keeps the property of variables. -/
theorem call (h : Lasting B P) (hc : Call m m') (hm : m.environment.All B) : m'.environment.All B := by
  cases hc with
  | run hr => exact (h.run _ _ _ _ _ _ hm hr).1
  | expression hr => exact (h.evalNext _ _ _ _ _ _ hm hr).1
  | token hr => exact (h.eval _ _ _ _ _ _ _ hm hr).1
  | file hr => exact (h.load _ _ _ _ _ _ _ hm hr).1

/-- A whole session keeps the property of variables. -/
theorem session (h : Lasting B P) (hs : Session m m') (hm : m.environment.All B) : m'.environment.All B := by
  induction hs with
  | refl => exact hm
  | tail _ hc ih => exact h.call hc ih

/-- The constant that variables start with is a number and lasts. -/
theorem withConstants (h : Lasting B P) : Environment.withConstants.All B := by
  intro f hf b hb
  obtain rfl := List.mem_singleton.1 hf
  obtain rfl := List.mem_singleton.1 hb
  exact h.literal _

/-- In a session from the machine that a program finds at first, every variable has the property. -/
theorem session_fresh (h : Lasting B P) {output : Sink} {generator : Generator}
    (hs : Session (.fresh output generator) m) : m.environment.All B :=
  h.session hs h.withConstants

end Lasting

end MiniLogo
