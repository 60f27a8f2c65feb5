import MiniLogo.Proofs.Evaluation.Bodies
import MiniLogo.Proofs.Text.Joined

/-!
# Values that evaluation comes to

A property of values that literals have, and that is kept by taking parts and by erasing (`Kept`), is had by every
value that an evaluation comes to if the variables have it at first. `Agree` says this of two actions at once: from a
sound state, where all variables have the property and all tokens are tokens, they end in the same way, with a value
that has the property and in a sound state, or with a fault that quotes nothing but tokens and values. What a device
says of its failure is taken for the error value of that text.

Here it is shown of the actions on the feed and on the machine.
-/

namespace MiniLogo

open MiniLogo.Action

variable {α β : Type} {P : Value → Prop} {Q : α → Prop}

/-! ## Properties of values that last -/

/-- Evaluation keeps the property of values. -/
structure Kept (P : Value → Prop) : Prop where
  literal {raw : Text} {v : Value} (hr : Text.words raw = [raw]) (hv : (Token.classify raw).literal? = some v) : P v
  raw {t : Text} (ht : Text.words t = [t]) : P (.word t)
  bracketed {t : Text} (ht : Text.Joined t) : P (Literal.value t)
  bool (b : Bool) : P (.bool b)
  ofFloat (x : Float) : P (.ofFloat x)
  ofInt (i : Int) : P (.ofInt i)
  part {p : Part} {v w : Value} (hv : P v) (hw : p.ofValue? v = some w) : P w
  /-- No function that describes a procedure is ever bound, so that none is erased. -/
  erase {v : Value} (hv : P v) (hn : ∀ name, (Procedure.ofLiteral? name v).isNone) : P v.erase
  full : P (.error Sink.full)

def Environment.All (P : Value → Prop) (e : Environment) : Prop := ∀ f ∈ e.top :: e.below, ∀ b ∈ f, P b.2

/-- What can be bound: values with the property that describe no procedure. -/
def Bindable (P : Value → Prop) (v : Value) : Prop := P v ∧ ∀ name, (Procedure.ofLiteral? name v).isNone

/-- The feed gives tokens that are tokens, and what it says of its failure has the property. -/
structure Feed.Sound (P : Value → Prop) (f : Feed) : Prop where
  tokens : ∀ w ∈ f.tokens, Text.words w = [w]
  failure : ∀ reason ∈ f.failure, P (.error reason)

/-- Every variable has the property, and the feed is as it should be. -/
structure Sound (P : Value → Prop) (s : State) : Prop where
  bound : s.environment.All (Bindable P)
  feed : s.feed.Sound P

/-- The texts that a fault quotes from a program or a device. -/
def Fault.quoted : Fault → List Text
  | .unknownInstruction t | .undefinedVariable t | .malformedNumber t | .notAList t | .expectedVariable t
  | .unreadableFile t _ | .input t | .output t => [t]
  | .typeMismatch .. | .divisionByZero | .endOfInput => []

/-- The fault quotes only values with the property and tokens, quote or colon aside. -/
def Quotes (P : Value → Prop) (e : Fault) : Prop :=
  ∀ t ∈ e.quoted, (∃ v, P v ∧ v.text = t) ∨ ∃ raw, Text.words raw = [raw] ∧ t <:+ raw

/-- The end of an action is as it should be. -/
def Yields (P : Value → Prop) (Q : α → Prop) : Outcome α → Prop
  | .done a s => Q a ∧ Sound P s
  | .failed e s => Quotes P e ∧ Sound P s
  | .unfinished => True

/-- From a sound state both actions end in the same way, which is as it should be. -/
def Agree (P : Value → Prop) (Q : α → Prop) (x y : Action α) : Prop := ∀ s, Sound P s → x s = y s ∧ Yields P Q (x s)

/-! ## Putting actions together -/

/-- An action agrees with itself where it yields what it should. -/
theorem Agree.refl {x : Action α} (h : ∀ s, Sound P s → Yields P Q (x s)) : Agree P Q x x :=
  fun s hs => ⟨rfl, h s hs⟩

theorem agree_pure {a : α} (h : Q a) : Agree P Q (pure a) (pure a) := .refl fun _ hs => ⟨h, hs⟩

/-- A fault that quotes what may be quoted is one to agree on. -/
theorem agree_fail {e : Fault} (h : Quotes P e) : Agree P Q (fail e) (fail e) := .refl fun _ hs => ⟨h, hs⟩

theorem Agree.mono {R : α → Prop} {x y : Action α} (h : Agree P Q x y) (hQ : ∀ a, Q a → R a) : Agree P R x y := by
  intro s hs
  obtain ⟨he, hy⟩ := h s hs
  refine ⟨he, ?_⟩
  cases hx : x s with
  | done a after =>
    rw [hx] at hy
    exact ⟨hQ a hy.1, hy.2⟩
  | failed e after =>
    rw [hx] at hy
    exact hy
  | unfinished => trivial

/-- Actions that agree, followed by ones that agree on what these come to, agree. -/
theorem Agree.bind {R : β → Prop} {x y : Action α} {f g : α → Action β} (hx : Agree P Q x y)
    (hf : ∀ a, Q a → Agree P R (f a) (g a)) : Agree P R (x >>= f) (y >>= g) := by
  intro s hs
  obtain ⟨he, hy⟩ := hx s hs
  rw [bind_apply, bind_apply, ← he]
  cases hxs : x s with
  | done a after =>
    rw [hxs] at hy
    exact hf a hy.1 after hy.2
  | failed e after =>
    rw [hxs] at hy
    exact ⟨rfl, hy⟩
  | unfinished => exact ⟨rfl, trivial⟩

/-- The result of a computation is as it should be. -/
def Answers (P : Value → Prop) (Q : α → Prop) : Except Fault α → Prop
  | .ok a => Q a
  | .error e => Quotes P e

/-- One computation after another answers as it should if both do. -/
theorem Answers.bind {R : β → Prop} {r : Except Fault α} {f : α → Except Fault β} (hr : Answers P Q r)
    (hf : ∀ a, Q a → Answers P R (f a)) : Answers P R (r >>= f) := by
  cases r with
  | ok a => exact hf a hr
  | error e => exact hr

/-- What a computation answers is agreed on. -/
theorem agree_ofExcept {r : Except Fault α} (h : Answers P Q r) : Agree P Q (ofExcept r) (ofExcept r) := by
  cases r with
  | ok a => exact agree_pure h
  | error e => exact agree_fail h

/-- Actions agree on feeds of their own if these are sound. -/
theorem Agree.within {x y : Action α} (h : Agree P Q x y) {feed : Feed} (hf : feed.Sound P) :
    Agree P Q (within feed x) (within feed y) := by
  intro s hs
  obtain ⟨he, hy⟩ := h { s with feed } ⟨hs.bound, hf⟩
  unfold Action.within
  rw [← he]
  cases hxs : x { s with feed } with
  | done a after =>
    rw [hxs] at hy
    exact ⟨rfl, hy.1, hy.2.bound, hs.feed⟩
  | failed e after =>
    rw [hxs] at hy
    exact ⟨rfl, hy.1, hy.2.bound, hs.feed⟩
  | unfinished => exact ⟨rfl, trivial⟩

/-! ## The feed -/

/-- A fault that quotes nothing is harmless. -/
theorem quotes_of_quoted_eq_nil {e : Fault} (h : e.quoted = []) : Quotes P e := by
  intro t ht
  rw [h] at ht
  cases ht

/-- A fault may quote the text of a value that has the property. -/
theorem quotes_of_quoted_eq_text {e : Fault} {v : Value} (h : e.quoted = [v.text]) (hv : P v) : Quotes P e := by
  intro t ht
  rw [h, List.mem_singleton] at ht
  exact .inl ⟨v, hv, ht.symm⟩

/-- A fault may quote the end of a token. -/
theorem quotes_of_quoted_eq_suffix {e : Fault} {raw t : Text} (h : e.quoted = [t]) (hr : Text.words raw = [raw])
    (ht : t <:+ raw) : Quotes P e := by
  intro u hu
  rw [h, List.mem_singleton] at hu
  exact .inr ⟨raw, hr, hu ▸ ht⟩

theorem Feed.Sound.hasNext {f : Feed} (h : f.Sound P) : f.hasNext.2.Sound P where
  tokens := by simpa using h.tokens
  failure := by simpa using h.failure

theorem Feed.Sound.next? {f : Feed} (h : f.Sound P) : f.next?.2.Sound P where
  tokens w hw := h.tokens w ((List.tail_suffix _).subset (f.tokens_next? ▸ hw))
  failure := by simpa using h.failure

theorem Feed.Sound.takeFailure? {f : Feed} (h : f.Sound P) : f.takeFailure?.2.Sound P where
  tokens := by simpa using h.tokens
  failure := by
    rw [failure_takeFailure?]
    split
    · simp
    · exact h.failure

/-- A question to the feed. -/
theorem agree_onFeed {f : Feed → α × Feed} (hf : ∀ feed : Feed, feed.Sound P → Q (f feed).1 ∧ (f feed).2.Sound P) :
    Agree P Q (onFeed f) (onFeed f) := by
  refine .refl fun s hs => ?_
  obtain ⟨hq, hs'⟩ := hf s.feed hs.feed
  exact ⟨hq, hs.bound, hs'⟩

/-- A failure that is reported is one that a sound feed may have. -/
theorem agree_reportFailure : Agree P (fun _ => True) reportFailure reportFailure := by
  refine (agree_onFeed (Q := fun o => ∀ reason ∈ o, P (.error reason)) fun feed hf => ⟨?_, hf.takeFailure?⟩).bind
    fun o ho => ?_
  · rw [Feed.takeFailure?_fst]
    split
    · exact hf.failure
    · simp
  · cases o with
    | some reason => exact agree_fail (quotes_of_quoted_eq_text rfl (ho reason rfl))
    | none => exact agree_pure trivial

/-- A token of a sound feed is one token. -/
theorem agree_nextToken : Agree P (fun t => Text.words t = [t]) nextToken nextToken := by
  refine (agree_onFeed (Q := fun o => ∀ t ∈ o, Text.words t = [t]) fun feed hf => ⟨fun t ht => ?_, hf.next?⟩).bind
    fun o ho => ?_
  · rw [Feed.next?_fst] at ht
    exact hf.tokens t (List.mem_of_mem_head? ht)
  · cases o with
    | some t => exact agree_pure (ho t rfl)
    | none => exact agree_reportFailure.bind fun _ _ => agree_fail (quotes_of_quoted_eq_nil rfl)

theorem agree_hasNext : Agree P (fun _ => True) hasNext hasNext :=
  agree_onFeed fun _ hf => ⟨trivial, hf.hasNext⟩

/-- The reader of literals makes joined texts. -/
theorem agree_readBracketed (hP : Kept P) {first : Text} (hw : Text.words first = [first])
    (hh : first.head? = some '[') : Agree P P (readBracketed first) (readBracketed first) := by
  refine .refl fun s hs => ?_
  rcases readBracketed_cases first s with ⟨ts, us, hsplit, hc, g, hg, hl⟩ | ⟨-, g, hg, hd⟩
  · have hall : ∀ w ∈ ts ++ us, Text.words w = [w] := hsplit ▸ hs.feed.tokens
    obtain ⟨-, hz, hk⟩ := read_closings_eq_complete_iff.1 hc
    rw [hg]
    refine ⟨hP.bracketed ?_, hs.bound, fun w hmem => hall w ?_, ?_⟩
    · rw [List.take_length] at hz
      refine Text.joined_unwords hh (fun w hmem => ?_) hz hk
      rcases List.mem_cons.1 hmem with rfl | hmem
      · exact hw
      · exact hall w (List.mem_append_left us hmem)
    · exact List.mem_append_right ts (hl.tokens ▸ hmem)
    · rw [show g.failure = _ from hl.failure]
      exact hs.feed.failure
  · rw [hg]
    refine ⟨quotes_of_quoted_eq_nil rfl, hs.bound, fun w hmem => ?_, ?_⟩
    · rw [show g.tokens = _ from hd.tokens] at hmem
      cases hmem
    · rw [show g.failure = _ from hd.failure]
      exact hs.feed.failure

/-! ## Variables -/

/-- What is bound to a name stands in the frame. -/
theorem Frame.mem_of_get? {f : Frame} {name : Text} {v : Value} (h : f.get? name = some v) : ∃ b ∈ f, b.2 = v := by
  induction f with
  | nil => cases h
  | cons b f ih =>
    obtain ⟨n, w⟩ := b
    unfold get? at h
    split at h
    · exact ⟨(n, w), List.mem_cons_self, Option.some.inj h⟩
    · obtain ⟨b, hb, hv⟩ := ih h
      exact ⟨b, List.mem_cons_of_mem _ hb, hv⟩

/-- A frame with a name bound holds what it held, and the new binding. -/
theorem Frame.mem_insert {f : Frame} {name : Text} {v : Value} {b : Text × Value} (h : b ∈ f.insert name v) :
    b ∈ f ∨ b = (name, v) := by
  induction f with
  | nil => exact .inr (List.mem_singleton.1 h)
  | cons a f ih =>
    obtain ⟨n, w⟩ := a
    unfold insert at h
    split at h
    · rcases List.mem_cons.1 h with h | h
      · exact .inr h
      · exact .inl (List.mem_cons_of_mem _ h)
    · rcases List.mem_cons.1 h with rfl | h
      · exact .inl List.mem_cons_self
      · exact (ih h).imp_left (List.mem_cons_of_mem _)

/-- Binding a value with the property keeps all values so. -/
theorem Environment.All.define {e : Environment} (h : e.All P) {v : Value} (hv : P v) (name : Text) :
    (e.define name v).All P := by
  intro f hf b hb
  rcases List.mem_cons.1 hf with rfl | hf
  · rcases Frame.mem_insert hb with hb | rfl
    · exact h e.top List.mem_cons_self b hb
    · exact hv
  · exact h f (List.mem_cons_of_mem _ hf) b hb

/-- A variable's value has the property; the name of one that is not there may be quoted. -/
theorem agree_lookup {name : Text} (hq : Quotes P (.undefinedVariable name)) :
    Agree P (Bindable P) (lookup name) (lookup name) := by
  refine .refl fun s hs => ?_
  unfold lookup
  cases hv : s.environment.get? name with
  | some v =>
    obtain ⟨b, hb, rfl⟩ := Frame.mem_of_get? hv
    exact ⟨hs.bound _ List.mem_cons_self b hb, hs⟩
  | none => exact ⟨hq, hs⟩

/-- What may be bound leaves the state sound. -/
theorem agree_define {v : Value} (hv : Bindable P v) (name : Text) :
    Agree P (fun _ => True) (define name v) (define name v) :=
  .refl fun _ hs => ⟨trivial, hs.bound.define hv name, hs.feed⟩

/-! ## The rest of the machine -/

theorem agree_isBound (name : Text) : Agree P (fun _ => True) (isBound name) (isBound name) :=
  .refl fun _ hs => ⟨trivial, hs⟩

theorem agree_draw : Agree P (fun _ => True) draw draw := by
  refine .refl fun s hs => ?_
  unfold draw
  cases s.generator.draw with
  | mk x generator => exact ⟨trivial, hs.bound, hs.feed⟩

theorem agree_halt : Agree P (fun _ => True) halt halt := .refl fun _ hs => ⟨trivial, hs.bound, hs.feed⟩

theorem agree_isHalted : Agree P (fun _ => True) isHalted isHalted := .refl fun _ hs => ⟨trivial, hs⟩

/-- Output is no part of what is sound, and its fault is allowed. -/
theorem agree_writeLine (hP : Kept P) (t : Text) : Agree P (fun _ => True) (writeLine t) (writeLine t) := by
  refine .refl fun s hs => ?_
  unfold writeLine
  cases hw : s.output.write (Utf8.encode (t ++ ['\n'])) with
  | mk fits output =>
    cases fits with
    | true => exact ⟨trivial, hs.bound, hs.feed⟩
    | false => exact ⟨quotes_of_quoted_eq_text rfl hP.full, hs.bound, hs.feed⟩

end MiniLogo
