import MiniLogo.Proofs.Evaluation.Halting
import MiniLogo.Proofs.Evaluation.Tame
import MiniLogo.Proofs.Number.Spellings

/-!
# Programs that end

A program in whose text neither `make` nor `load` stands ends, with as much fuel as its text is long and two units
more (`run_terminates`). So evaluation goes on without end only by variables that were bound or by files.

Evaluation is paid for by the tokens that it takes. An action is given credit for tokens that were taken already, and
what its value costs and the tokens that it leaves come to no more than its credit and the tokens it found (`Pays`).
Whatever is run costs less than its literal did, by the brackets and by the name of the builtin that runs it. So the
text of a body is shorter than the tokens that led to it (`pays_runList`), and by induction on the fuel an expression
ends on that much fuel (`pays_evalNext`).
-/

namespace MiniLogo

open MiniLogo.Action

variable {α β : Type} {files : Files} {k d n : Nat} {P : α → Prop} {w : α → Nat}

/-! ## Credit -/

/-- Nothing has to be shown of the value of a fault. -/
theorem forall_ok_error {Q : α → Prop} (e : Fault) : ∀ a, (.error e : Except Fault α) = .ok a → Q a := by
  intro a h
  cases h

/-- From a tame state whose tokens and the credit `d` come to at most `k` the action ends. If it ends with a value,
then this has the property `P`, the state is tame, and the credit `w` that there is now and the tokens that are left
come to no more than the credit and the tokens before. -/
def Pays (k d : Nat) (x : Action α) (P : α → Prop) (w : α → Nat) : Prop :=
  ∀ s, s.Tame → d + s.feed.bulk ≤ k → ∃ r m f, x s = .of r m f ∧
    ∀ a, r = .ok a → P a ∧ State.Tame ⟨m, f⟩ ∧ w a + f.bulk ≤ d + s.feed.bulk

/-- The action has a tame value, and has paid what it costs. -/
abbrev PaysValue (k d : Nat) (x : Action Value) : Prop := Pays k d x Value.Tame Value.cost

/-- The action leaves the credit as it is. -/
abbrev PaysNothing (k d : Nat) (x : Action α) : Prop := Pays k d x (fun _ => True) fun _ => d

/-- What the first action leaves of the credit is there for the second one. -/
theorem Pays.bind {Q : β → Prop} {u : β → Nat} {x : Action α} {g : α → Action β} (hx : Pays k d x P w)
    (hg : ∀ a, P a → Pays k (w a) (g a) Q u) : Pays k d (x >>= g) Q u := by
  intro s hs hk
  obtain ⟨r, m, f, hxs, hr⟩ := hx s hs hk
  rw [bind_apply, hxs]
  cases r with
  | error e => exact ⟨.error e, m, f, rfl, forall_ok_error _⟩
  | ok a =>
    obtain ⟨ha, hm, hle⟩ := hr a rfl
    obtain ⟨r', m', f', hgs, hr'⟩ := hg a ha ⟨m, f⟩ hm (Nat.le_trans hle hk)
    refine ⟨r', m', f', hgs, fun b hb => ?_⟩
    obtain ⟨hP, ht, hle'⟩ := hr' b hb
    exact ⟨hP, ht, Nat.le_trans hle' hle⟩

/-- Credit may be wasted. -/
theorem Pays.mono {Q : α → Prop} {u : α → Nat} {x : Action α} (hx : Pays k d x P w)
    (h : ∀ a, P a → Q a ∧ u a ≤ w a) : Pays k d x Q u := by
  intro s hs hk
  obtain ⟨r, m, f, hxs, hr⟩ := hx s hs hk
  refine ⟨r, m, f, hxs, fun a ha => ?_⟩
  obtain ⟨hP, hm, hle⟩ := hr a ha
  exact ⟨(h a hP).1, hm, Nat.le_trans (Nat.add_le_add_right (h a hP).2 _) hle⟩

/-- An action that leaves the feed alone pays with its credit. -/
theorem pays_of_end {x : Action α} (h : ∀ s, s.Tame → ∃ r m, x s = .of r m s.feed ∧
    ∀ a, r = .ok a → P a ∧ m.environment.All Value.Inert ∧ w a ≤ d) : Pays k d x P w := by
  intro s hs _
  obtain ⟨r, m, hx, hr⟩ := h s hs
  refine ⟨r, m, s.feed, hx, fun a ha => ?_⟩
  obtain ⟨hP, hm, hw⟩ := hr a ha
  exact ⟨hP, ⟨hm, hs.tokens⟩, Nat.add_le_add_right hw _⟩

theorem pays_pure {a : α} (ha : P a) (hw : w a ≤ d) : Pays k d (pure a) P w := by
  refine pays_of_end fun s hs => ⟨.ok a, s.toMachine, rfl, fun b hb => ?_⟩
  obtain rfl := Except.ok.inj hb
  exact ⟨ha, hs.bound, hw⟩

theorem pays_fail (e : Fault) : Pays k d (fail e : Action α) P w :=
  pays_of_end fun s _ => ⟨.error e, s.toMachine, rfl, forall_ok_error _⟩

/-! ## The machine -/

theorem pays_lookup (name : Text) : Pays k d (lookup name) Value.Inert fun _ => d := by
  refine pays_of_end fun s hs => ?_
  obtain ⟨r, hr, hget⟩ := lookup_ends name s.toMachine
  refine ⟨r, s.toMachine, hr s.feed, fun v hv => ⟨?_, hs.bound, Nat.le_refl _⟩⟩
  obtain ⟨b, hb, rfl⟩ := Frame.mem_of_get? (hget v hv)
  exact hs.bound _ List.mem_cons_self b hb

theorem pays_isBound (name : Text) : PaysNothing k d (isBound name) :=
  pays_of_end fun s hs =>
    ⟨.ok (s.environment.contains name), s.toMachine, rfl, fun _ _ => ⟨trivial, hs.bound, Nat.le_refl _⟩⟩

/-- Binding an inert value keeps the variables inert. -/
theorem pays_define {v : Value} (hv : v.Inert) (name : Text) : PaysNothing k d (define name v) :=
  pays_of_end fun s hs => ⟨.ok (), { s.toMachine with environment := s.environment.define name v }, rfl,
    fun _ _ => ⟨trivial, hs.bound.define hv name, Nat.le_refl _⟩⟩

theorem pays_writeLine (t : Text) : PaysNothing k d (writeLine t) := by
  refine pays_of_end fun s hs => ?_
  obtain ⟨r, hr⟩ := writeLine_ends t s.toMachine
  exact ⟨r, _, hr s.feed, fun _ _ => ⟨trivial, hs.bound, Nat.le_refl _⟩⟩

theorem pays_draw : PaysNothing k d draw :=
  pays_of_end fun s hs => ⟨.ok s.generator.draw.1, _, rfl, fun _ _ => ⟨trivial, hs.bound, Nat.le_refl _⟩⟩

theorem pays_halt : PaysNothing k d halt :=
  pays_of_end fun s hs =>
    ⟨.ok (), { s.toMachine with halted := true }, rfl, fun _ _ => ⟨trivial, hs.bound, Nat.le_refl _⟩⟩

/-! ## The feed -/

/-- A token adds to the credit what it costs. -/
theorem pays_nextToken : Pays k d nextToken Text.Tame fun t => d + (t.length + 1) := by
  intro s hs _
  cases ht : s.feed.tokens with
  | nil =>
    obtain ⟨g, hg, -⟩ := nextToken_of_nil (m := s.toMachine) ht
    exact ⟨.error _, s.toMachine, g, hg, forall_ok_error _⟩
  | cons t us =>
    obtain ⟨g, hg, hl⟩ := nextToken_of_cons (m := s.toMachine) ht
    have htame := ht ▸ hs.tokens
    refine ⟨.ok t, s.toMachine, g, hg, fun a ha => ?_⟩
    obtain rfl := Except.ok.inj ha
    refine ⟨htame t List.mem_cons_self, ⟨hs.bound, fun v hv => htame v (List.mem_cons_of_mem t (hl.tokens ▸ hv))⟩, ?_⟩
    rw [Feed.bulk, Feed.bulk, ht, hl.tokens, Text.bulk_cons, Nat.add_assoc]

/-- A literal costs as much as its tokens. -/
theorem pays_readBracketed {first : Text} (hf : Text.Tame first) :
    PaysValue k (first.length + 1) (readBracketed first) := by
  intro s hs _
  rcases readBracketed_cases first s with ⟨ts, us, hsplit, -, g, hg, hl⟩ | ⟨-, g, hg, -⟩
  · have htame := hsplit ▸ hs.tokens
    refine ⟨.ok _, s.toMachine, g, hg, fun a ha => ?_⟩
    obtain rfl := Except.ok.inj ha
    refine ⟨Literal.tame_value (Text.tame_unwords fun t ht => ?_), ⟨hs.bound, fun t ht => ?_⟩, ?_⟩
    · rcases List.mem_cons.1 ht with rfl | ht
      · exact hf
      · exact htame t (List.mem_append_left us ht)
    · exact htame t (List.mem_append_right ts (hl.tokens ▸ ht))
    · rw [Value.cost, Literal.code_value, Text.length_unwords (List.cons_ne_nil _ _), Feed.bulk, Feed.bulk, hl.tokens,
        hsplit, Text.bulk_cons, Text.bulk_append, Nat.add_assoc]
  · exact ⟨.error .endOfInput, s.toMachine, g, hg, forall_ok_error _⟩

/-! ## Runs -/

/-- The value is tame and costs at most `c`. -/
def Value.Within (c : Nat) (v : Value) : Prop := v.Tame ∧ v.cost ≤ c

/-- From a tame state whose tokens come to less than `n` the run ends. If it does so without a fault, then no variable
can be run, and the value costs no more than the tokens. -/
def RunsWithin (n : Nat) (loop : Action (Option Value)) : Prop :=
  ∀ s, s.Tame → s.feed.bulk < n → ∃ r m f, loop s = .of r m f ∧
    ∀ o, r = .ok o → m.environment.All Value.Inert ∧ Last (Value.Within s.feed.bulk) o

/-- The end of a run takes no fuel and leaves the machine as it is. -/
theorem finish_ends (last : Option Value) (s : State) :
    ∃ r f, finish last s = .of r s.toMachine f ∧ ∀ o, r = .ok o → o = last := by
  cases h : s.feed.takeFailure?.1 with
  | none =>
    refine ⟨.ok last, s.feed.takeFailure?.2, finish_of_none h, fun o ho => ?_⟩
    exact (Except.ok.inj ho).symm
  | some reason => exact ⟨.error (.input reason), s.feed.takeFailure?.2, finish_of_some h, forall_ok_error _⟩

/-- A run ends if its expressions pay: each of them takes at least one character, and so fuel for as many of them as
there are characters is enough. -/
theorem drive_ends {next : Action Value} {c : Nat} (hn : PaysValue n 0 next) (hc : c ≤ n) (j : Nat)
    {s : State} {last : Option Value} (hs : s.Tame) (hj : s.feed.bulk < j) (hb : s.feed.bulk ≤ c)
    (hl : Last (Value.Within c) last) : ∃ r m f, drive next j last s = .of r m f ∧
      ∀ o, r = .ok o → m.environment.All Value.Inert ∧ Last (Value.Within c) o := by
  induction j generalizing s last with
  | zero => exact absurd hj (Nat.not_lt_zero _)
  | succ j ih =>
    have hfinish : ∀ s' : State, s'.toMachine = s.toMachine → ∃ r m f, finish last s' = .of r m f ∧
        ∀ o, r = .ok o → m.environment.All Value.Inert ∧ Last (Value.Within c) o := by
      intro s' hm
      obtain ⟨r, f, hf, hr⟩ := finish_ends last s'
      refine ⟨r, s'.toMachine, f, hf, fun o ho => ?_⟩
      rw [hm, hr o ho]
      exact ⟨hs.bound, hl⟩
    cases hh : s.halted with
    | true =>
      rw [drive_halted hh]
      exact hfinish s rfl
    | false =>
      by_cases ht : s.feed.tokens = []
      · rw [drive_of_nil hh ht]
        exact hfinish s.asked rfl
      · have hasked : s.asked.feed.bulk = s.feed.bulk := by rw [Feed.bulk, s.tokens_asked, Feed.bulk]
        have htame : s.asked.Tame := ⟨hs.bound, s.tokens_asked.symm ▸ hs.tokens⟩
        obtain ⟨r, m, f, hx, hr⟩ := hn s.asked htame (by omega)
        cases r with
        | error e => exact ⟨.error e, m, f, drive_of_failed hh ht hx, forall_ok_error _⟩
        | ok v =>
          obtain ⟨hv, hm, hle⟩ := hr v rfl
          have hpos := v.cost_pos
          have hlast : Last (Value.Within c) (some v) := by
            intro a ha
            obtain rfl := Option.some.inj ha
            exact ⟨hv, by omega⟩
          rw [drive_of_done hh ht hx]
          exact ih hm (show f.bulk < j by omega) (show f.bulk ≤ c by omega) hlast

/-- Runs end within the fuel for their bulk if expressions pay for their values. -/
theorem runsWithin_run (hn : PaysValue n 0 (evalNext files n)) : RunsWithin n (run files n) :=
  fun _ hs hlt => drive_ends hn (Nat.le_of_lt hlt) n hs hlt (Nat.le_refl _) last_none

/-- What a value is run by comes to less than the credit that the value and the name of a builtin give. -/
theorem pays_runList {loop : Action (Option Value)} (hl : RunsWithin n loop) {v : Value} (hv : v.Tame)
    (hd : v.cost + 3 ≤ d) : PaysValue (n + 1) d (runList loop v) := by
  unfold runList
  cases ht : Text.unbracket? v.text with
  | none => exact pays_fail _
  | some t =>
    obtain ⟨htame, hcost⟩ := hv.of_unbracket? ht
    have hbulk := Feed.bulk_ofText_le t
    have hwithin : Pays (n + 1) d (within (.ofText t) loop) (Last (Value.Within d)) fun _ => d := by
      intro s hs hk
      have hlt : (Feed.ofText t).bulk < n := by omega
      obtain ⟨r, m, f, hx, hr⟩ := hl ⟨s.toMachine, .ofText t⟩ (State.tame_ofText hs.bound htame) hlt
      refine ⟨r, m, s.feed, within_eq_of_iff.2 ⟨rfl, f, hx⟩, fun o ho => ?_⟩
      obtain ⟨hm, hlast⟩ := hr o ho
      refine ⟨fun a ha => ⟨(hlast a ha).1, ?_⟩, ⟨hm, hs.tokens⟩, Nat.le_refl _⟩
      have hle : a.cost ≤ (Feed.ofText t).bulk := (hlast a ha).2
      omega
    refine hwithin.bind fun o ho => ?_
    cases o with
    | some a => exact pays_pure (ho a rfl).1 (ho a rfl).2
    | none => exact pays_pure Value.tame_emptyList (show 3 ≤ d by omega)

/-! ## Builtins -/

section Builtins

variable {next : Action Value} {loop : Action (Option Value)}

/-- An operand adds to the credit what it costs. -/
theorem Pays.operand (hn : PaysValue n 0 next) (hd : 0 < d) : Pays (n + 1) d next Value.Tame fun v => d + v.cost := by
  intro s hs hk
  obtain ⟨r, m, f, hx, hr⟩ := hn s hs (by omega)
  refine ⟨r, m, f, hx, fun v hv => ?_⟩
  obtain ⟨ht, hm, hle⟩ := hr v hv
  refine ⟨ht, hm, ?_⟩
  show d + v.cost + f.bulk ≤ d + s.feed.bulk
  omega

/-- An inert value costs one. -/
theorem pays_inert {v : Value} (hv : v.Inert) (hd : 0 < d) : PaysValue k d (pure v) :=
  pays_pure hv.tame (hv.cost_eq ▸ hd)

/-- Computed values cannot be run and cost next to nothing. -/
theorem pays_computed {r : Except Fault Value} (h : Answers (fun _ => True) Value.Inert r) (hd : 0 < d) :
    PaysValue k d (ofExcept r) := by
  cases r with
  | ok v => exact pays_inert h hd
  | error e => exact pays_fail e

theorem pays_ofExcept (r : Except Fault α) : PaysNothing k d (ofExcept r) := by
  cases r with
  | ok v => exact pays_pure trivial (Nat.le_refl d)
  | error e => exact pays_fail e

theorem pays_variable (name : Text) (hd : 0 < d) : PaysValue k d (lookup name) :=
  (pays_lookup name).mono fun _ hv => ⟨hv.tame, hv.cost_eq ▸ hd⟩

/-- Erasing leaves inert values only. -/
theorem pays_erase {raw : Text} (hd : 0 < d) : PaysValue k d (Action.erase raw) := by
  unfold Action.erase
  split
  · exact (pays_lookup _).bind fun v _ => (pays_define v.inert_erase _).bind fun _ _ => pays_inert v.inert_erase hd
  · exact pays_fail _

/-- A part of a value is paid for by the value it is taken of. -/
theorem pays_access (hn : PaysValue n 0 next) (hd : 2 ≤ d) (b : Builtin) (p : Part) :
    PaysValue (n + 1) d (access next b p) := by
  refine (hn.operand (by omega)).bind fun v hv => ?_
  cases hp : p.ofValue? v with
  | some part =>
    obtain ⟨ht, hc⟩ := Part.tame_of_ofValue? hv hp
    exact pays_pure ht (by omega)
  | none => exact pays_fail _

/-- Builtins pay if their operands do and their bodies end, but for `make` and `load`. -/
theorem pays_apply (hn : PaysValue n 0 next) (hl : RunsWithin n loop) (hd : 3 ≤ d) {b : Builtin}
    (hmake : b ≠ .make) (hload : b ≠ .load) : PaysValue (n + 1) d (apply files next loop b) := by
  have hpos : 0 < d := by omega
  have hfirst : Pays (n + 1) d next Value.Tame fun v => d + v.cost := hn.operand hpos
  cases b with
  | add | sub | mul | div | mod =>
    exact hfirst.bind fun v _ => (hn.operand (by omega)).bind fun w _ =>
      pays_computed (answers_arithmetic Value.inert_ofFloat _ trivial trivial) (by omega)
  | and | or =>
    exact hfirst.bind fun v _ => (hn.operand (by omega)).bind fun w _ =>
      pays_computed (answers_logic Value.inert_bool _ v w) (by omega)
  | eq | gt | lt =>
    exact hfirst.bind fun v _ => (hn.operand (by omega)).bind fun w _ =>
      pays_computed (answers_compare Value.inert_bool _ v w) (by omega)
  | not => exact hfirst.bind fun v _ => pays_computed (answers_not Value.inert_bool v) (by omega)
  | isEmpty => exact hfirst.bind fun v _ => pays_computed (answers_isEmpty Value.inert_bool v) (by omega)
  | isNumber | isBool | isWord | isList => exact hfirst.bind fun v _ => pays_inert (Value.inert_bool _) (by omega)
  | isName =>
    exact hfirst.bind fun v _ => (pays_isBound v.text).bind fun p _ => pays_inert (Value.inert_bool p) (by omega)
  | first | last | butFirst | butLast => exact pays_access hn (by omega) _ _
  | random =>
    exact hfirst.bind fun v _ => (pays_ofExcept _).bind fun x _ =>
      pays_draw.bind fun y _ => pays_inert (Value.inert_ofFloat _) (by omega)
  | int =>
    exact hfirst.bind fun v _ => (pays_ofExcept _).bind fun i _ =>
      pays_inert (Value.inert_ofInt i) (by omega)
  | sqrt =>
    exact hfirst.bind fun v _ => (pays_ofExcept _).bind fun x _ =>
      pays_inert (Value.inert_ofFloat _) (by omega)
  | make => exact absurd rfl hmake
  | print => exact hfirst.bind fun v hv => (pays_writeLine v.display).bind fun _ _ => pays_pure hv (by omega)
  | erase => exact pays_nextToken.bind fun raw _ => pays_erase (by omega)
  | load => exact absurd rfl hload
  | run => exact hfirst.bind fun v hv => pays_runList hl hv (by omega)
  | ifElse =>
    refine hfirst.bind fun condition _ => ?_
    cases condition.truth? with
    | some flag =>
      refine (hn.operand (by omega)).bind fun v hv => (hn.operand (by omega)).bind fun w hw => ?_
      cases flag with
      | true => exact pays_runList (v := v) hl hv (by omega)
      | false => exact pays_runList (v := w) hl hw (by omega)
    | none => exact pays_fail _
  | read =>
    refine pays_nextToken.bind fun raw hr => pays_pure (Value.tame_word hr) ?_
    show raw.length + 1 ≤ d + (raw.length + 1)
    omega
  | exit => exact pays_halt.bind fun _ _ => pays_inert (Value.inert_bool false) (by omega)

/-! ## Tokens -/

/-- The name of a builtin and the blank behind it come to at least three characters. -/
theorem Builtin.three_le_length (b : Builtin) : 3 ≤ b.name.length + 1 := by
  cases b <;> decide

/-- A token pays for its evaluation. -/
theorem pays_evalWith (hn : PaysValue n 0 next) (hl : RunsWithin n loop) {raw : Text} (hr : Text.Tame raw) :
    PaysValue (n + 1) (raw.length + 1) (evalWith files next loop raw) := by
  have hpos : 0 < raw.length + 1 := Nat.succ_pos _
  have ht := Token.text_classify raw
  unfold evalWith
  cases hc : Token.classify raw with
  | word t =>
    rw [hc] at ht
    have hs : t <:+ raw := ht ▸ List.suffix_cons '"' t
    exact pays_pure (Value.tame_word (hr.of_isInfix hs.isInfix)) (Nat.succ_le_succ hs.length_le)
  | number t => exact pays_inert (Value.inert_literal (Token.not_mem_of_isNumeric (Token.isNumeric_of_number hc))) hpos
  | bool b => exact pays_inert (Value.inert_bool b) hpos
  | thing => exact (hn.operand hpos).bind fun v _ => pays_variable v.text (Nat.add_pos_left hpos _)
  | reference name => exact pays_variable name hpos
  | listStart first =>
    obtain ⟨rfl, -⟩ := Token.head?_of_listStart hc
    exact pays_readBracketed hr
  | name name =>
    rw [hc] at ht
    obtain rfl : name = raw := ht
    simp only
    cases hb : Builtin.ofName? name with
    | some b =>
      obtain rfl := Builtin.name_of_ofName? hb
      refine pays_apply hn hl b.three_le_length ?_ ?_
      · rintro rfl
        exact hr.1 (List.infix_refl _)
      · rintro rfl
        exact hr.2 (List.infix_refl _)
    | none => exact pays_fail _

end Builtins

/-! ## Programs -/

/-- With as much fuel as its tokens come to an expression ends. -/
theorem pays_evalNext (files : Files) (n : Nat) : PaysValue n 0 (evalNext files n) := by
  induction n with
  | zero =>
    -- a token would cost more than there is
    refine pays_nextToken.bind fun raw _ s _ hk => ?_
    have : 0 + (raw.length + 1) + s.feed.bulk ≤ 0 := hk
    omega
  | succ n ih =>
    refine pays_nextToken.bind fun raw hr => ?_
    rw [Nat.zero_add]
    exact pays_evalWith ih (runsWithin_run ih) hr

/-- **A program without `make` and `load` ends.** If neither word stands anywhere in its text, then its run ends,
with every fuel from two more than the length of the text on and always in the same way, however deep the
bodies that it runs are nested. -/
theorem run_terminates (files : Files) (output : Sink) (generator : Generator) {t : Text}
    (hmake : ¬ "make".toList <:+: t) (hload : ¬ "load".toList <:+: t) :
    ∃ r m f, ∀ fuel ≥ t.length + 2, run files fuel ⟨.fresh output generator, .ofText t⟩ = .of r m f := by
  have ht : Text.Tame t := ⟨hmake, hload⟩
  have hs := State.tame_ofText (inert_fresh output generator) ht
  have hbulk : (Feed.ofText t).bulk < t.length + 2 := Nat.lt_succ_of_le (Feed.bulk_ofText_le t)
  obtain ⟨r, m, f, hf, -⟩ := runsWithin_run (pays_evalNext files (t.length + 2)) _ hs hbulk
  exact ⟨r, m, f, fun fuel h => (approximates_run files h).apply_eq hf⟩

/-- A body that is an element of a list, with one more that `if` chooses and in it one that reads a raw token. -/
theorem run_terminates_nested :
    let t := "run first [[if isempty butfirst \"a [run [print read b]] []] c]".toList
    let files : Files := fun _ => .error .notFound
    ¬ "make".toList <:+: t ∧ ¬ "load".toList <:+: t ∧ ∃ after, ∀ fuel ≥ t.length + 2,
      run files fuel ⟨.fresh {} (.ofSeed 0), .ofText t⟩ = .done (some (.word ['b'])) after := by
  intro t files
  have hmake : ¬ "make".toList <:+: t := by decide +kernel
  have hload : ¬ "load".toList <:+: t := by decide +kernel
  refine ⟨hmake, hload, ?_⟩
  obtain ⟨r, m, f, h⟩ := run_terminates files {} (.ofSeed 0) hmake hload
  have hr : (run files (t.length + 2) ⟨.fresh {} (.ofSeed 0), .ofText t⟩).result? =
      some (.ok (some (.word ['b']))) := by decide +kernel
  rw [h _ (Nat.le_refl _)] at hr
  cases r with
  | ok o =>
    obtain rfl := Except.ok.inj (Option.some.inj hr)
    exact ⟨⟨m, f⟩, h⟩
  | error e => cases hr

end MiniLogo
