import MiniLogo.Proofs.Evaluation.Filling
import MiniLogo.Proofs.Evaluation.Variables

/-!
# Erased values and empty ones

Two runs that find a variable erased in the one case and bound to the empty value of its kind in the other do the same,
as long as the value of the variable only goes where erased values are consumed (`OnlyConsumed`): they end with values
and in states that are alike, with the same output and the same faults (`session_erased`). One thing is told apart: a
truth value that is run is refused by its text, which is empty if it was erased. Programs that run the list itself are
left out: an erased one is refused, an empty one is not (`run_erased`).
-/

namespace MiniLogo

open MiniLogo.Action

/-! ## Alike, but for one value -/

/-- The values are the same, or the first one is the erased value of the kind and the second one the empty one. -/
def Value.Alike (k : Kind) (v w : Value) : Prop := v = w ∨ v = .erased k ∧ w = .empty k

/-- The frames bind the same names, to values that are alike. -/
def Frame.Alike (k : Kind) (f g : Frame) : Prop := List.Forall₂ (fun b c => b.1 = c.1 ∧ b.2.Alike k c.2) f g

/-- The environments have frames that are alike. -/
structure Environment.Alike (k : Kind) (e e' : Environment) : Prop where
  top : Frame.Alike k e.top e'.top
  below : List.Forall₂ (Frame.Alike k) e.below e'.below

/-- The states are the same, but that their environments are only alike. -/
structure State.Alike (k : Kind) (s t : State) : Prop where
  environment : s.environment.Alike k t.environment
  output : s.output = t.output
  generator : s.generator = t.generator
  halted : s.halted = t.halted
  feed : s.feed = t.feed

/-- The faults are the same, but that a truth value which was to be run is quoted as it is. -/
def Fault.Alike (k : Kind) (e e' : Fault) : Prop :=
  e = e' ∨ k = .bool ∧ e = .notAList (Value.erased k).text ∧ e' = .notAList (Value.empty k).text

/-- The actions end in the same way, with values that are related and in states that are alike. -/
inductive Outcome.Alike {α : Type} (k : Kind) (V : α → α → Prop) : Outcome α → Outcome α → Prop where
  | done {a b : α} {s t : State} (hv : V a b) (hs : s.Alike k t) : Alike k V (.done a s) (.done b t)
  | failed {e e' : Fault} {s t : State} (he : e.Alike k e') (hs : s.Alike k t) :
    Alike k V (.failed e s) (.failed e' t)
  | unfinished : Alike k V .unfinished .unfinished

section

variable {k : Kind} {v w : Value}

/-- A value filled with the erased value and with the empty one gives values that are alike. -/
theorem Value.alike_fill (k : Kind) (v : Value) : (v.fill (.erased k)).Alike k (v.fill (.empty k)) := by
  cases hv : v.isPlaceholder with
  | false =>
    rw [fill_of_not_placeholder hv, fill_of_not_placeholder hv]
    exact .inl rfl
  | true =>
    rw [fill_of_placeholder hv, fill_of_placeholder hv]
    exact .inr ⟨rfl, rfl⟩

theorem LastFills.alike {o o₁ o₂ : Option Value} (h₁ : LastFills (.erased k) o₁ o) (h₂ : LastFills (.empty k) o₂ o) :
    Option.Rel (Value.Alike k) o₁ o₂ := by
  rw [h₁, h₂]
  cases o with
  | some v => exact .some (v.alike_fill k)
  | none => exact .none

theorem Frame.alike_fill (k : Kind) (f : Frame) : Frame.Alike k (f.fill (.erased k)) (f.fill (.empty k)) := by
  unfold Frame.Alike Frame.fill
  rw [List.forall₂_map_left_iff, List.forall₂_map_right_iff, List.forall₂_same]
  exact fun b _ => ⟨rfl, b.2.alike_fill k⟩

/-- So are the states that are filled in these two ways. -/
theorem State.alike_fill (k : Kind) (s : State) : (s.fill (.erased k)).Alike k (s.fill (.empty k)) where
  environment := {
    top := s.environment.top.alike_fill k
    below := by
      simp only [State.fill, Environment.fill]
      rw [List.forall₂_map_left_iff, List.forall₂_map_right_iff, List.forall₂_same]
      exact fun f _ => f.alike_fill k }
  output := rfl
  generator := rfl
  halted := rfl
  feed := rfl

/-- Faults that fill the same fault are alike. -/
theorem Fault.Fills.alike {e e₁ e₂ : Fault} (h₁ : Fills (.erased k) e₁ e) (h₂ : Fills (.empty k) e₂ e) :
    e₁.Alike k e₂ := by
  have he : e₁ = e := by
    rcases h₁ with h | ⟨-, h, he⟩
    · exact h
    · exact h.trans he.symm
  rcases h₂ with rfl | ⟨hk, rfl, rfl⟩
  · exact .inl he
  · exact .inr ⟨(Value.kind_empty k).symm.trans hk, he, rfl⟩

/-- Outcomes that mirror one, with the erased value in the one and the empty value in the other, are alike. -/
theorem Outcome.Fills.alike {α β : Type} {V V' : α → β → Prop} {W : α → α → Prop} {o : Outcome β} {o₁ o₂ : Outcome α}
    (h₁ : Fills (.erased k) V o₁ o) (h₂ : Fills (.empty k) V' o₂ o) (hW : ∀ a b c, V a c → V' b c → W a b) :
    o₁.Alike k W o₂ := by
  cases h₁ with
  | @done a c s ha =>
    cases h₂ with
    | done hb => exact .done (hW _ _ c ha hb) (s.alike_fill k)
  | @failed e' e s he =>
    cases h₂ with
    | failed he' => exact .failed (he.alike he') (s.alike_fill k)
  | unfinished =>
    cases h₂ with
    | unfinished => exact .unfinished

/-- Without placeholders there is nothing to fill. -/
theorem Environment.fill_of_storable {e : Environment} (h : e.All Storable) (stand : Value) : e.fill stand = e := by
  have hframe (f : Frame) (hf : f ∈ e.top :: e.below) : f.fill stand = f :=
    (List.map_congr_left fun b hb => by
      rw [Value.fill_of_not_placeholder (h f hf b hb).isPlaceholder, id_eq]).trans f.map_id
  have hbelow : e.below.map (fun f => f.fill stand) = e.below :=
    (List.map_congr_left fun f hf => hframe f (List.mem_cons_of_mem _ hf)).trans e.below.map_id
  unfold fill
  rw [hbelow, hframe e.top List.mem_cons_self]

end

/-! ## Runs that only consume a value -/

section

variable {files : Files} {k : Kind} {alarm next next' : Action Value} {loop loop' : Action (Option Value)} {fuel : Nat}
  {b : Builtin} {s : State}

/-- No alarm is raised: what a placeholder stands for is given only to what consumes it. -/
def OnlyConsumed {α : Type} (x : Action Value → Action α) (s : State) : Prop := ∀ alarm, x alarm s = x giveUp s

/-- What consumes the value raises no alarm, and every other use of it does. -/
example :
    let result (alarm : Action Value) (t : String) :=
      (runPlaced (fun _ => .error .notFound) .word alarm 5
        ⟨{ environment := Environment.empty.define ['x'] .placeholder }, .ofText t.toList⟩).result?
    (∀ t ∈ ["first :x", "isempty :x", "isword butlast :x", "if true [] :x", "make \"y :x run :y", "erase :x", ":x"],
      (result giveUp t).isSome = true) ∧
    ∀ t ∈ ["print :x", "eq :x \"", "make :x 1", "thing :x", "isname :x", "add 1 :x", "sqrt :x", "print run [:x]"],
      result giveUp t = none ∧ result (fail .endOfInput) t = some (.error .endOfInput) := by
  decide +kernel

/-- Where no alarm is raised, the outcome is alike whether the value is the erased or the empty one. -/
theorem OnlyConsumed.alike {α β : Type} {V V' : α → β → Prop} {W : α → α → Prop} {x : Action Value → Action β}
    {o₁ o₂ : Outcome α} (h : OnlyConsumed x s) (h₁ : Outcome.Fills (.erased k) V o₁ (x (pure (.erased k)) s))
    (h₂ : Outcome.Fills (.empty k) V' o₂ (x (pure (.empty k)) s)) (hW : ∀ a b c, V a c → V' b c → W a b) :
    o₁.Alike k W o₂ := by
  rw [h] at h₁ h₂
  exact h₁.alike h₂ hW

/-- A run that only consumes a value ends alike. -/
theorem OnlyConsumed.run_alike (h : OnlyConsumed (runPlaced files k · fuel) s) (hk : k ∈ emptyKinds) :
    (run files fuel (s.fill (.erased k))).Alike k (Option.Rel (Value.Alike k)) (run files fuel (s.fill (.empty k))) :=
  h.alike (mirrors_run ⟨hk, .inl rfl⟩ files fuel s) (mirrors_run ⟨hk, .inr rfl⟩ files fuel s)
    fun _ _ _ => LastFills.alike

/-- A builtin that consumes a value comes to the same. -/
theorem OnlyConsumed.eval_alike (h : OnlyConsumed (evalPlaced files k · fuel b.name) s) (hk : k ∈ emptyKinds)
    (hb : b.consumes = true) :
    (eval files fuel b.name (s.fill (.erased k))).Alike k Eq (eval files fuel b.name (s.fill (.empty k))) :=
  h.alike (mirrors_eval_consumes ⟨hk, .inl rfl⟩ files fuel hb s) (mirrors_eval_consumes ⟨hk, .inr rfl⟩ files fuel hb s)
    fun _ _ _ ha hb => ha.1.trans hb.1.symm

theorem approximates_giveUp {α : Type} (x : Action α) : Approximates giveUp x := fun _ => .inl rfl

/-- An alarm that gives up approximates any other one. -/
theorem approximates_alarmed (h : Approximates next next') :
    Approximates (alarmed giveUp next) (alarmed alarm next') := by
  refine h.bind fun v => ?_
  cases v.isPlaceholder with
  | true => exact approximates_giveUp alarm
  | false => exact .refl _

theorem approximates_runList (hl : Approximates loop loop') (v : Value) :
    Approximates (runList loop v) (runList loop' v) :=
  approximates_congruence.runList hl.within v

theorem approximates_runPlacedList (hl : Approximates loop loop') (v : Value) :
    Approximates (runPlacedList k giveUp loop v) (runPlacedList k alarm loop' v) := by
  unfold runPlacedList
  split
  · split
    · exact (approximates_giveUp alarm).bind fun w => approximates_runList hl w
    · exact .refl _
  · exact approximates_runList hl v

theorem approximates_applyPlaced (hn : Approximates next next') (hl : Approximates loop loop') (b : Builtin) :
    Approximates (applyPlaced files k giveUp next loop b) (applyPlaced files k alarm next' loop' b) := by
  have hsupplied : Approximates (supplied k next) (supplied k next') := hn.bind fun _ => .refl _
  have hoperand : Approximates (if b.consumes then supplied k next else alarmed giveUp next)
      (if b.consumes then supplied k next' else alarmed alarm next') := by
    split
    · exact hsupplied
    · exact approximates_alarmed hn
  by_cases hb : b ∈ [.run, .ifElse, .make, .erase]
  · simp only [List.mem_cons, List.not_mem_nil, or_false] at hb
    rcases hb with rfl | rfl | rfl | rfl
    · exact hn.bind fun v => approximates_runPlacedList hl v
    · refine hsupplied.bind fun condition => ?_
      cases condition.truth? with
      | some flag => exact hn.bind fun v => hn.bind fun w => approximates_runPlacedList hl _
      | none => exact .refl _
    · exact (approximates_alarmed hn).bind fun name => hn.bind fun v => .refl _
    · exact .refl _
  · rw [applyPlaced_of_not_mem hb, applyPlaced_of_not_mem hb]
    exact approximates_congruence.apply hoperand hl.within b

/-- Evaluation with an alarm that gives up is, where it ends, evaluation with any alarm. -/
theorem approximates_evalPlaced (files : Files) (k : Kind) (alarm : Action Value) (fuel : Nat) (raw : Text) :
    Approximates (evalPlaced files k giveUp fuel raw) (evalPlaced files k alarm fuel raw) := by
  induction fuel generalizing raw with
  | zero => exact approximates_giveUp _
  | succ fuel ih =>
    have hn : Approximates (nextPlaced files k giveUp fuel) (nextPlaced files k alarm fuel) :=
      (Approximates.refl nextToken).bind ih
    have hl : Approximates (runPlaced files k giveUp fuel) (runPlaced files k alarm fuel) :=
      approximates_drive hn (Nat.le_refl fuel) none
    rw [evalPlaced_succ, evalPlaced_succ]
    cases hr : Builtin.ofName? raw with
    | some b => exact approximates_applyPlaced hn hl b
    | none =>
      cases hw : Want.ofToken raw with
      | some ws => exact approximates_congruence.evalWith (approximates_alarmed hn) hl.within hw
      | none =>
        simp only [Congruence.evalWith_eq_fail hw]
        exact .refl _

theorem approximates_runPlaced (files : Files) (k : Kind) (alarm : Action Value) (fuel : Nat) :
    Approximates (runPlaced files k giveUp fuel) (runPlaced files k alarm fuel) :=
  approximates_drive ((Approximates.refl nextToken).bind (approximates_evalPlaced files k alarm fuel))
    (Nat.le_refl fuel) none

/-- What ends with the alarm that gives up raises none. -/
theorem onlyConsumed_of_result? {α : Type} {x : Action Value → Action α}
    (hx : ∀ alarm, Approximates (x giveUp) (x alarm)) (h : (x giveUp s).result?.isSome) : OnlyConsumed x s := by
  intro alarm
  rcases hx alarm s with hs | hs
  · rw [hs] at h
    cases h
  · exact hs.symm

end

/-! ## Sessions -/

/-- The literal of the empty value of a kind. -/
def Kind.emptyLiteral : Kind → Text
  | .bool => (Value.bool false).text
  | .word => ['"']
  | .list => Text.bracket []
  | _ => []

def Machine.define (m : Machine) (name : Text) (v : Value) : Machine :=
  { m with environment := m.environment.define name v }

section

variable {files : Files} {n : Nat} {m m₁ : Machine} {name : Text} {v : Value} {k : Kind}

/-- The literals `false`, `"` and `[]` denote the empty values. -/
theorem denotes_emptyLiteral (hk : k ∈ emptyKinds) : Denotes k.emptyLiteral (.empty k) := by
  rcases cases_of_mem_emptyKinds hk with rfl | rfl | rfl
  · exact .bool false
  · exact .token (by decide) rfl
  · have hnil : Text.WellNested [] := by decide
    have hlist := Denotes.list hnil
    rwa [show Literal.value (Text.unwords (Text.words (Text.bracket []))) = .empty .list by decide +kernel] at hlist

/-- `make` before a quoted name and the tokens of a value that is no function binds the value. -/
theorem uses_make_define {ts : List Text} (h : Uses (evalNext files (n + 1)) m ts (.ok v) m₁)
    (hv : v.kind ≠ .function) (name : Text) :
    Uses (evalNext files (n + 2)) m (Builtin.make.name :: ('"' :: name) :: ts) (.ok v) (m₁.define name v) := by
  have hmake := uses_make (n := name) h
  rwa [ofLiteral?_eq_none hv] at hmake

/-- A machine of a session with a placeholder in a variable, filled. -/
theorem State.fill_define (hm : m.environment.All Storable) (name : Text) (stand : Value) (feed : Feed) :
    State.fill ⟨m.define name .placeholder, feed⟩ stand = ⟨m.define name stand, feed⟩ := by
  have henvironment : (m.environment.define name .placeholder).fill stand = m.environment.define name stand := by
    rw [Environment.fill_define, Environment.fill_of_storable hm]
    rfl
  unfold State.fill Machine.define
  rw [henvironment]

/-- **An erased value behaves as an empty one.** In a session, `erase` leaves the erased value of its kind in a
variable, and `make` binds it to the empty one. A run that only consumes the value ends alike from both: with the same
fault, or with the same value or these two, with the same output, generator, halt flag and tokens left, and with
variables that differ in no more than that. Only a truth value that is run is refused by its own text.

In that run or in another, an operation that consumes the one value or the other comes to the same value. -/
theorem session_erased {m₀ : Machine} (h₀ : m₀.environment.All Storable) (h : Session m₀ m)
    (hv : m.environment.get? name = some v) (hk : v.kind ∈ emptyKinds) :
    (∀ files n,
      Uses (evalNext files (n + 1)) m [Builtin.erase.name, ':' :: name] (.ok (.erased v.kind))
        (m.define name (.erased v.kind)) ∧
      Uses (evalNext files (n + 2)) m (Builtin.make.name :: ('"' :: name) :: Text.words v.kind.emptyLiteral)
        (.ok (.empty v.kind)) (m.define name (.empty v.kind))) ∧
    (∀ files fuel feed, OnlyConsumed (runPlaced files v.kind · fuel) ⟨m.define name .placeholder, feed⟩ →
      (run files fuel ⟨m.define name (.erased v.kind), feed⟩).Alike v.kind (Option.Rel (Value.Alike v.kind))
        (run files fuel ⟨m.define name (.empty v.kind), feed⟩)) ∧
    ∀ files fuel (b : Builtin) s, b.consumes = true → OnlyConsumed (evalPlaced files v.kind · fuel b.name) s →
      (eval files fuel b.name (s.fill (.erased v.kind))).Alike v.kind Eq
        (eval files fuel b.name (s.fill (.empty v.kind))) := by
  have hstorable := h.all_storable h₀
  refine ⟨fun files n => ⟨uses_erase hv files n, ?_⟩, fun files fuel feed hflow => ?_,
    fun files fuel b s hb hflow => hflow.eval_alike hk hb⟩
  · have hkind : (Value.empty v.kind).kind ≠ .function := by
      rw [Value.kind_empty]
      intro hf
      exact absurd (hf ▸ hk) (by decide)
    exact uses_make_define ((denotes_emptyLiteral hk).uses files m n) hkind name
  · have halike := hflow.run_alike hk
    rwa [State.fill_define hstorable, State.fill_define hstorable] at halike

/-- The list is bound to another name and consumed there by `isempty`, and stands in the branch of an `if` that is not
taken; and `first` takes it apart. -/
theorem session_erased_list :
    let files : Files := fun _ => .error .notFound
    let m := (Machine.fresh {} (.ofSeed 0)).define ['x'] (.list "[a b]".toList)
    let feed := Feed.ofText "make \"y :x print isempty :y if isempty :x [print butfirst :x] :x".toList
    let s : State := ⟨m.define ['x'] .placeholder, .ofText ":x".toList⟩
    Session (.fresh {} (.ofSeed 0)) m ∧ OnlyConsumed (runPlaced files .list · 9) ⟨m.define ['x'] .placeholder, feed⟩ ∧
      (run files 9 ⟨m.define ['x'] (.erased .list), feed⟩).Alike .list (Option.Rel (Value.Alike .list))
        (run files 9 ⟨m.define ['x'] .emptyList, feed⟩) ∧
      OnlyConsumed (evalPlaced files .list · 2 Builtin.first.name) s ∧
      (eval files 2 Builtin.first.name (s.fill (.erased .list))).Alike .list Eq
        (eval files 2 Builtin.first.name (s.fill .emptyList)) := by
  intro files m feed s
  have hnested : Text.WellNested "a b".toList := by decide
  have hlist := (Denotes.list hnested).uses files (.fresh {} (.ofSeed 0)) 0
  rw [show Literal.value (Text.unwords (Text.words (Text.bracket "a b".toList))) = .list "[a b]".toList by
    decide +kernel] at hlist
  have hmake : Uses (evalNext files 2) (.fresh {} (.ofSeed 0)) _ (.ok (.list "[a b]".toList)) m :=
    uses_make_define hlist (by decide) ['x']
  obtain ⟨g, hg, -⟩ := hmake { pending := _ } [] rfl
  have hm : Session (.fresh {} (.ofSeed 0)) m := .tail .refl (.expression (r := .ok _) hg)
  have hget : m.environment.get? ['x'] = some (.list "[a b]".toList) := Environment.get?_define_self ..
  have hrun : OnlyConsumed (runPlaced files .list · 9) ⟨m.define ['x'] .placeholder, feed⟩ :=
    onlyConsumed_of_result? (approximates_runPlaced files .list · 9) (by decide +kernel)
  have hfirst : OnlyConsumed (evalPlaced files .list · 2 Builtin.first.name) s :=
    onlyConsumed_of_result? (approximates_evalPlaced files .list · 2 _) (by decide +kernel)
  obtain ⟨-, halike, hsame⟩ := session_erased withConstants_all_storable hm hget (by decide)
  exact ⟨hm, hrun, halike files 9 feed hrun, hfirst, hsame files 2 .first s rfl hfirst⟩

/-- A list that is run is refused if it was erased, but not if it is empty; and a truth value that is run is refused by
its text. -/
theorem run_erased :
    let result (t : String) :=
      (run (fun _ => .error .notFound) 5 ⟨.fresh {} (.ofSeed 0), .ofText t.toList⟩).result?
    result "make \"x [a] erase :x run :x" = some (.error (.notAList [])) ∧
      result "make \"x [a] make \"x [] run :x" = some (.ok (some .emptyList)) ∧
      result "make \"x true erase :x run :x" = some (.error (.notAList [])) ∧
      result "make \"x true make \"x false run :x" = some (.error (.notAList "false".toList)) := by
  decide +kernel

end

end MiniLogo
