import MiniLogo.Proofs.Evaluation.Operands
import MiniLogo.Proofs.Evaluation.Sequencing

/-!
# What follows `exit`

A body that comes to `exit` ends there, and so does every loop around it; of the tokens behind the body only the
operands that enclosing builtins still want are evaluated. So two programs that differ in the tokens behind an `exit`,
or in those that no enclosing builtin wants, end alike (`Twin`, `Twin.ends`). The proof is by induction on the bodies
around the `exit`, and for each of them on the builtins that are open where it stands (`Opens.alike`).

`halting_is_final` puts this together with what is known of halted machines.
-/

namespace MiniLogo

open MiniLogo.Action

variable {files : Files} {m m' m₁ m₂ : Machine} {f g : Feed} {ws vs : List Want}
  {ts ts' us xs body rest rest' : List Text} {v : Value}

/-! ## Evaluated operands -/

/-- From the first machine the tokens are evaluated to a value, all of them, and leave the second machine. -/
def Gives (files : Files) (m : Machine) (ts : List Text) (v : Value) (m' : Machine) : Prop :=
  Ends (evalNext files) ⟨m, { pending := ts }⟩ (.ok v) m' []

/-- With enough fuel the tokens are evaluated so in front of others. -/
theorem Gives.uses (h : Gives files m ts v m') :
    ∃ n₀, ∀ n ≥ n₀, Uses (evalNext files n) m ts (.ok v) m' := by
  obtain ⟨n₀, g, hg, hnil⟩ := h
  refine ⟨n₀, fun n hn => ?_⟩
  have hx : evalNext files n ⟨m, { pending := ts }⟩ = .done v ⟨m', g⟩ := (approximates_evalNext files hn).apply_eq hg
  obtain ⟨us, xs, ht, -, hu⟩ := (reads_evalNext files n).done hx
  have hl := hu.leaves ht hx
  obtain rfl : xs = [] := hl.tokens.symm.trans hnil
  obtain rfl : ts = us := by simpa [Feed.tokens] using ht
  exact hu

/-- From the first machine the tokens are evaluated one expression after the other to the values, and leave the second
machine. -/
inductive Operands (files : Files) : Machine → List Text → List Value → Machine → Prop where
  | nil {m : Machine} : Operands files m [] [] m
  | cons {m m₁ m₂ : Machine} {ts us : List Text} {v : Value} {values : List Value} (h : Gives files m ts v m₁)
    (hs : Operands files m₁ us values m₂) : Operands files m (ts ++ us) (v :: values) m₂

/-- After operands that are evaluated there is what ends alike. -/
theorem Operands.before {values : List Value} (hx : Operands files m xs values m₁) :
    ∃ k₀, ∀ k ≥ k₀, ∀ f f' : Feed, f.Holds (xs ++ ts) → f'.Holds (xs ++ ts') →
      (∀ g g' : Feed, g.Holds ts → g'.Holds ts' → EndsAlike k vs rest rest' (evalNext files (k + 1)) m₁ g g') →
      Before (evalNext files (k + 1)) k rest rest' values.length vs m f f' := by
  induction hx with
  | nil => exact ⟨0, fun k _ f f' hf hf' h => .here (h f f' hf hf')⟩
  | cons hg _ ih =>
    obtain ⟨n₀, hu⟩ := hg.uses
    obtain ⟨k₀, ih⟩ := ih
    refine ⟨max n₀ k₀, fun k hk f f' hf hf' h => ?_⟩
    have hu := hu (k + 1) (by omega)
    obtain ⟨g, hg, hl⟩ := hu f _ (by rw [hf.tokens, List.append_assoc])
    obtain ⟨g', hg', hl'⟩ := hu f' _ (by rw [hf'.tokens, List.append_assoc])
    exact .operand hg hg' (ih k (by omega) g g' (hl.holds hf.failure) (hl'.holds hf'.failure) h)

/-! ## Expressions that end alike -/

/-- The two expressions end in the same way: with a value only if the machine is halted, and then with tokens that are
the same as far as the wants go. -/
def Alike (files : Files) (vs : List Want) (rest rest' : List Text) (m : Machine) (ts ts' : List Text) : Prop :=
  ∃ r m' us us', Ends (evalNext files) ⟨m, { pending := ts }⟩ r m' us ∧
    Ends (evalNext files) ⟨m, { pending := ts' }⟩ r m' us' ∧
    ∀ v, r = .ok v → m'.halted = true ∧ Coincide vs rest rest' us us'

/-- Expressions that end alike do so with every amount of fuel that is large enough. -/
theorem Alike.endsAlike (h : Alike files vs rest rest' m ts ts') :
    ∃ k₀, ∀ k ≥ k₀, ∀ f f' : Feed, f.Holds ts → f'.Holds ts' →
      EndsAlike k vs rest rest' (evalNext files (k + 1)) m f f' := by
  obtain ⟨r, m', us, us', ⟨n, g, hn, rfl⟩, ⟨n', g', hn', rfl⟩, ha⟩ := h
  refine ⟨max g.size (max n n'), fun k hk f f' hf hf' => ?_⟩
  have hread := reads_evalNext files (k + 1)
  have hx := (approximates_evalNext files (by omega : n ≤ k + 1)).apply_eq hn
  have hx' := (approximates_evalNext files (by omega : n' ≤ k + 1)).apply_eq hn'
  obtain ⟨q, hq, ht, hfq⟩ :=
    hread.of_tokens_eq hx (hf.tokens.trans (Feed.holds_pending ts).tokens.symm) hf.failure
  obtain ⟨q', hq', ht', hfq'⟩ :=
    hread.of_tokens_eq hx' (hf'.tokens.trans (Feed.holds_pending ts').tokens.symm) hf'.failure
  refine ⟨r, m', q, q', hq, hq', fun v hv => ?_⟩
  have hsize : q.size ≤ k := by
    have : g.tokens.length ≤ k := Nat.le_trans (Nat.le_max_left _ _) hk
    rwa [Feed.size, ht]
  exact ⟨(ha v hv).1, hsize, _, _, ⟨ht, (hfq v hv).trans hf.failure⟩, ⟨ht', (hfq' v hv).trans hf'.failure⟩, (ha v hv).2⟩

/-- A builtin that evaluates some operands, and then one that ends alike, ends alike. -/
theorem Alike.cons {raw : Text} {values : List Value} {j : Nat}
    (hw : Want.ofToken raw = some (List.replicate (j + values.length + 1) .expression))
    (hx : Operands files m xs values m₁) (h : Alike files (List.replicate j .expression ++ vs) rest rest' m₁ ts ts') :
    Alike files vs rest rest' m (raw :: (xs ++ ts)) (raw :: (xs ++ ts')) := by
  obtain ⟨k₁, h₁⟩ := hx.before
  obtain ⟨k₂, h₂⟩ := h.endsAlike
  obtain ⟨k, hk₁, hk₂⟩ : ∃ k, k₁ ≤ k ∧ k₂ ≤ k := ⟨max k₁ k₂, Nat.le_max_left _ _, Nat.le_max_right _ _⟩
  have hf := Feed.holds_pending (raw :: (xs ++ ts))
  have hf' := Feed.holds_pending (raw :: (xs ++ ts'))
  obtain ⟨g, hg, hl⟩ := evalNext_of_cons (m := m) hf.tokens files (k + 1)
  obtain ⟨g', hg', hl'⟩ := evalNext_of_cons (m := m) hf'.tokens files (k + 1)
  have hrun : ∀ feed, Settles k [] (within feed (run files (k + 1))) := fun feed =>
    ⟨(ignoresFeed_within feed _).reads, endsHalted_within files k feed⟩
  have hturn : InTurn (Settles k []) (evalNext files (k + 1)) (j + values.length + 1)
      (evalWith files (evalNext files (k + 1)) (run files (k + 1)) raw) :=
    inTurn_evalWith (settles_congruence k) hrun hw
  obtain ⟨r, m', q, q', hq, hq', ha⟩ := hturn.endsAlike (settles_evalNext files k)
    (h₁ k hk₁ g g' (hl.holds hf.failure) (hl'.holds hf'.failure) (h₂ k hk₂))
  refine ⟨r, m', q.tokens, q'.tokens, ⟨k + 2, q, hg.trans hq, rfl⟩, ⟨k + 2, q', hg'.trans hq', rfl⟩, fun v hv => ?_⟩
  obtain ⟨hm, -, us, us', hus, hus', hc⟩ := ha v hv
  rw [hus.tokens, hus'.tokens]
  exact ⟨hm, hc⟩

/-- From the first machine the tokens open builtins and evaluate some operands of each, which leaves the second machine
where the next operand begins; the wants are what the builtins want after that one. -/
inductive Opens (files : Files) : Machine → List Text → List Want → Machine → Prop where
  | nil {m : Machine} : Opens files m [] [] m
  | cons {m m₁ m₂ : Machine} {raw : Text} {xs pre : List Text} {values : List Value} {ws : List Want} {j : Nat}
    (hw : Want.ofToken raw = some (List.replicate (j + values.length + 1) .expression))
    (hx : Operands files m xs values m₁) (h : Opens files m₁ pre ws m₂) :
    Opens files m (raw :: (xs ++ pre)) (ws ++ List.replicate j .expression) m₂

/-- What ends alike does so in open builtins. -/
theorem Opens.alike {pre : List Text} (hp : Opens files m pre ws m₂)
    (h : Alike files (ws ++ vs) rest rest' m₂ ts ts') :
    Alike files vs rest rest' m (pre ++ ts) (pre ++ ts') := by
  induction hp generalizing vs with
  | nil => exact h
  | cons hw hx _ ih =>
    rw [List.append_assoc] at h
    rw [List.cons_append, List.cons_append, List.append_assoc, List.append_assoc]
    exact .cons hw hx (ih h)

/-! ## Bodies -/

/-- From the first machine the tokens are evaluated by running a text, from the second machine; the value is what a
text without tokens has. -/
inductive Performs (files : Files) (m : Machine) : List Text → Machine → Text → Value → Prop where
  | run {m₁ : Machine} {xs : List Text} {v : Value} {t : Text} (hx : Operands files m xs [v] m₁)
    (hv : Text.unbracket? v.text = some t) : Performs files m (Builtin.run.name :: xs) m₁ t .emptyList
  | ifElse {m₁ : Machine} {xs : List Text} {c v w : Value} {flag : Bool} {t : Text}
    (hx : Operands files m xs [c, v, w] m₁) (hc : c.truth? = some flag)
    (hv : Text.unbracket? (if flag then v else w).text = some t) :
    Performs files m (Builtin.ifElse.name :: xs) m₁ t .emptyList
  | load {p : Text} {bytes : Bytes} (h : files (unquote p) = .ok bytes) :
    Performs files m [Builtin.load.name, p] m (Utf8.decodeLossy bytes) (.bool true)

variable {e : List Text} {t : Text} {d : Value}

theorem Performs.ne_nil (h : Performs files m e m₁ t d) : e ≠ [] := by
  cases h <;> exact List.cons_ne_nil _ _

/-- What performs a text takes its operands and runs the text. -/
theorem Performs.evalNext_eq (h : Performs files m e m₁ t d) (us : List Text) :
    ∃ n₀, ∀ n ≥ n₀, ∀ f : Feed, f.tokens = e ++ us →
      ∃ g, evalNext files (n + 1) ⟨m, f⟩ = runText (Action.run files n) t d ⟨m₁, g⟩ ∧ f.Leaves us g := by
  cases h with
  | run hx hv =>
    obtain - | ⟨hg, ⟨⟩⟩ := hx
    obtain ⟨n₀, hu⟩ := hg.uses
    refine ⟨n₀, fun n hn f hf => ?_⟩
    rw [List.append_nil, List.cons_append] at hf
    obtain ⟨g₀, h₀, l₀⟩ := evalNext_of_cons (m := m) hf files n
    obtain ⟨g₁, h₁, l₁⟩ := hu n hn g₀ us l₀.tokens
    refine ⟨g₁, ?_, l₀.trans l₁⟩
    rw [h₀, evalWith_name, apply, bind_apply, h₁]
    exact congrFun (runList_of_unbracket? hv _) _
  | ifElse hx hc hv =>
    obtain - | ⟨hgc, - | ⟨hgv, - | ⟨hgw, ⟨⟩⟩⟩⟩ := hx
    obtain ⟨n₁, hu₁⟩ := hgc.uses
    obtain ⟨n₂, hu₂⟩ := hgv.uses
    obtain ⟨n₃, hu₃⟩ := hgw.uses
    refine ⟨max n₁ (max n₂ n₃), fun n hn f hf => ?_⟩
    rw [List.append_nil, List.cons_append, List.append_assoc, List.append_assoc] at hf
    obtain ⟨g₀, h₀, l₀⟩ := evalNext_of_cons (m := m) hf files n
    obtain ⟨g₁, h₁, l₁⟩ := hu₁ n (by omega) g₀ _ l₀.tokens
    obtain ⟨g₂, h₂, l₂⟩ := hu₂ n (by omega) g₁ _ l₁.tokens
    obtain ⟨g₃, h₃, l₃⟩ := hu₃ n (by omega) g₂ us l₂.tokens
    refine ⟨g₃, ?_, ((l₀.trans l₁).trans l₂).trans l₃⟩
    rw [h₀, evalWith_name, apply, bind_apply, h₁]
    simp only [Outcome.of, hc]
    rw [bind_apply, h₂]
    simp only [Outcome.of]
    rw [bind_apply, h₃]
    exact congrFun (runList_of_unbracket? hv _) _
  | load hfile =>
    refine ⟨0, fun n _ f hf => ?_⟩
    obtain ⟨g₀, h₀, l₀⟩ := evalNext_of_cons (m := m) hf files n
    obtain ⟨g₁, h₁, l₁⟩ := nextToken_of_cons (m := m) l₀.tokens
    refine ⟨g₁, ?_, l₀.trans l₁⟩
    rw [h₀, evalWith_name, apply, bind_apply, h₁]
    exact congrFun (loadFile_of_ok hfile _) _

/-- What performs a text ends as the run of the text does, and leaves the tokens after it. -/
theorem Performs.ends (h : Performs files m e m₁ t d) {r : Except Fault (Option Value)}
    (hb : Ends (Action.run files) ⟨m₁, .ofText t⟩ r m' rest) (us : List Text) :
    Ends (evalNext files) ⟨m, { pending := e ++ us }⟩ (r.map (·.getD d)) m' us := by
  obtain ⟨n₀, h₀⟩ := h.evalNext_eq us
  obtain ⟨n₁, f₁, h₁, -⟩ := hb
  obtain ⟨g, hg, hl⟩ := h₀ (max n₀ n₁) (Nat.le_max_left _ _) _ (Feed.holds_pending (e ++ us)).tokens
  have hrun := (approximates_run files (Nat.le_max_right n₀ n₁)).apply_eq h₁
  exact ⟨max n₀ n₁ + 1, g, hg.trans (runText_eq_of_iff.2 ⟨rfl, r, f₁, hrun, rfl⟩), hl.tokens⟩

/-- A literal is an operand. -/
theorem Denotes.gives {x : Text} (h : Denotes x v) (files : Files) (m : Machine) :
    Gives files m (Text.words x) v m := by
  have hx := (Feed.holds_pending (Text.words x)).tokens
  obtain ⟨g, hg, hl⟩ := h.uses files m 0 { pending := Text.words x } [] (by rw [hx, List.append_nil])
  exact ⟨1, g, hg, hl.tokens⟩

/-- The ways to execute a text that is well nested perform it. -/
theorem Executes.performs {text x : Text} (hb : Text.WellNested text) (he : Executes files text x d) (m : Machine) :
    ∃ t, Text.words t = Text.words text ∧ Performs files m (Text.words x) m t d := by
  obtain ⟨u, hu, hw⟩ := Text.unwords_words_bracket text
  have hbody := (Denotes.list hb).gives files m
  have hv : Text.unbracket? (Literal.value (Text.unwords (Text.words (Text.bracket text)))).text = some u := by
    rw [Literal.text_value, hu, Text.unbracket?_bracket]
  cases he with
  | run =>
    have hop := Operands.cons hbody .nil
    exact ⟨u, hw, words_call .run _ ▸ .run hop hv⟩
  | ifTrue hx =>
    have hop := Operands.cons ((Denotes.bool true).gives files m) (.cons hbody (.cons (hx.gives files m) .nil))
    exact ⟨u, hw, words_call .ifElse _ ▸ .ifElse hop rfl hv⟩
  | ifFalse hx =>
    have hop := Operands.cons ((Denotes.bool false).gives files m) (.cons (hx.gives files m) (.cons hbody .nil))
    exact ⟨u, hw, words_call .ifElse _ ▸ .ifElse hop rfl hv⟩
  | @load p hp hf =>
    have hx : Text.words (Text.unwords [Builtin.load.name, p]) = [Builtin.load.name, p] := by
      rw [words_call, List.flatMap_singleton, hp]
    have hload := Performs.load (m := m) hf
    rw [Utf8.decodeLossy_encode, ← hx] at hload
    exact ⟨text, rfl, hload⟩

/-! ## Programs that differ behind an `exit` -/

/-- From the first machine the tokens are run to their end, and leave the second machine, which is not halted. -/
def Completes (files : Files) (m : Machine) (ts : List Text) (m' : Machine) : Prop :=
  (∃ v, Ends (run files) ⟨m, { pending := ts }⟩ (.ok v) m' []) ∧ m'.halted = false

/-- After tokens that are run to their end a run goes on with those behind them. -/
theorem Completes.append (h : Completes files m ts m₁) {r : Except Fault (Option Value)} (hn : us ≠ [])
    (hb : Ends (run files) ⟨m₁, { pending := us }⟩ r m' rest) :
    Ends (run files) ⟨m, { pending := ts ++ us }⟩ r m' rest := by
  obtain ⟨⟨v, ha⟩, hm⟩ := h
  have hts := (Feed.holds_pending ts).tokens
  have hus := (Feed.holds_pending us).tokens
  have happ := (Feed.holds_pending (ts ++ us)).tokens
  refine (ends_run_append ha hm rfl rfl rfl (h := { pending := us }) (by rw [happ, hts, hus])).2 ⟨r, hb, ?_⟩
  rw [hus]
  cases r <;> simp [Except.map, hn]

/-- A run whose next expression fails, or leaves the machine halted, ends as this expression does, and takes none of
the tokens behind it. -/
theorem ends_run_of_evalNext (hm : m.halted = false) (hn : ts ≠ []) {r : Except Fault Value}
    (he : Ends (evalNext files) ⟨m, { pending := ts }⟩ r m' us) (hr : ∀ v, r = .ok v → m'.halted = true) :
    Ends (run files) ⟨m, { pending := ts }⟩ (r.map some) m' us := by
  obtain ⟨n, g, hg, rfl⟩ := he
  have hts := Feed.holds_pending ts
  have hne : (⟨m, { pending := ts }⟩ : State).feed.tokens ≠ [] := by rwa [hts.tokens]
  obtain ⟨g', hg', ht, hf⟩ := (reads_evalNext files (n + 2)).of_tokens_eq
    (g := (State.asked ⟨m, { pending := ts }⟩).feed) ((approximates_evalNext files (Nat.le_add_right n 2)).apply_eq hg)
    (State.tokens_asked _) (State.failure_asked _)
  cases r with
  | error e => exact ⟨n + 2, g', drive_of_failed hm hne hg', ht⟩
  | ok v =>
    have hfail : g'.failure = none := by rw [hf v rfl, State.failure_asked]
    obtain ⟨q, hq, htq, -⟩ :=
      drive_finished hfail (.inl (hr v rfl)) (evalNext files (n + 2)) n (some v)
    refine ⟨n + 2, q, ?_, htq.trans ht⟩
    exact (drive_of_done hm hne hg').trans hq

/-- Two programs that are the same but behind an `exit`, which stands where an expression may, in a body at any depth:
in what follows it in that body, and in what follows each of the enclosing bodies and is wanted by no builtin. Each
program comes with the tokens of it that follow. -/
inductive Twin (files : Files) : Machine → List Text → List Text → List Text → List Text → Prop where
  | exit {m m₁ : Machine} {a b b' : List Text} (ha : Completes files m a m₁) :
    Twin files m (a ++ Builtin.exit.name :: b) b (a ++ Builtin.exit.name :: b') b'
  | nested {m m₁ m₂ m₃ : Machine} {a pre e e' c c' b b' rest rest' : List Text} {ws : List Want} {t t' : Text}
    {d d' : Value} (ha : Completes files m a m₁) (hp : Opens files m₁ pre ws m₂) (he : Performs files m₂ e m₃ t d)
    (he' : Performs files m₂ e' m₃ t' d') (hb : Twin files m₃ (Text.words t) b (Text.words t') b')
    (hc : Coincide ws rest rest' c c') :
    Twin files m (a ++ (pre ++ (e ++ c))) rest (a ++ (pre ++ (e' ++ c'))) rest'

/-- Two programs that differ behind an `exit` end in the same way: with a fault, or with a value, the machine halted
and the tokens left that follow. -/
theorem Twin.ends (h : Twin files m ts rest ts' rest') :
    ∃ r m' us us', Ends (run files) ⟨m, { pending := ts }⟩ r m' us ∧ Ends (run files) ⟨m, { pending := ts' }⟩ r m' us' ∧
      ∀ v, r = .ok v → v.isSome ∧ m'.halted = true ∧ us = rest ∧ us' = rest' := by
  induction h with
  | @exit m m₁ a b b' ha =>
    have hexit : ∀ us, Ends (run files) ⟨m, { pending := a ++ Builtin.exit.name :: us }⟩ (.ok (some (.bool false)))
        { m₁ with halted := true } us := by
      intro us
      obtain ⟨g, hg, hl⟩ :=
        evalNext_of_cons (m := m₁) (Feed.holds_pending (Builtin.exit.name :: us)).tokens files 0
      rw [evalWith_name] at hg
      have he : Ends (evalNext files) ⟨m₁, { pending := Builtin.exit.name :: us }⟩ (.ok (.bool false))
          { m₁ with halted := true } us := ⟨1, g, hg, hl.tokens⟩
      exact ha.append (List.cons_ne_nil _ _) (ends_run_of_evalNext ha.2 (List.cons_ne_nil _ _) he fun _ _ => rfl)
    exact ⟨_, _, b, b', hexit b, hexit b', fun _ h => by cases h; exact ⟨rfl, rfl, rfl, rfl⟩⟩
  | @nested m m₁ m₂ m₃ a pre e e' c c' b b' rest rest' ws t t' d d' ha hp he he' hb hc ih =>
    obtain ⟨r, m', us, us', h, h', hr⟩ := ih
    have hmap : r.map (·.getD d') = r.map (·.getD d) := by
      cases r with
      | error e => rfl
      | ok v =>
        obtain ⟨w, rfl⟩ := Option.isSome_iff_exists.1 (hr v rfl).1
        rfl
    have hole : Alike files (ws ++ []) rest rest' m₂ (e ++ c) (e' ++ c') := by
      refine ⟨r.map (·.getD d), m', c, c', he.ends h c, hmap ▸ he'.ends h' c', fun v hv => ?_⟩
      cases r with
      | error e => cases hv
      | ok v => exact ⟨(hr v rfl).2.1, by rwa [List.append_nil]⟩
    obtain ⟨r, m', us, us', h, h', hr⟩ := hp.alike hole
    have hn : pre ++ (e ++ c) ≠ [] := by simp [he.ne_nil]
    have hn' : pre ++ (e' ++ c') ≠ [] := by simp [he'.ne_nil]
    refine ⟨r.map some, m', us, us', ha.append hn (ends_run_of_evalNext ha.2 hn h fun v hv => (hr v hv).1),
      ha.append hn' (ends_run_of_evalNext ha.2 hn' h' fun v hv => (hr v hv).1), fun v hv => ?_⟩
    cases r with
    | error e => cases hv
    | ok w =>
      obtain rfl := Except.ok.inj hv
      obtain ⟨hm, hc⟩ := hr w rfl
      exact ⟨rfl, hm, Coincide.nil_iff.1 hc⟩

/-! ## Halting -/

/-- **Halting is final.** Programs that differ behind an `exit`, whatever bodies and builtins it stands in, end in the
same way, and with a value they leave the tokens that no enclosing builtin wants. On a halted machine a run does
nothing, nor does the body of `run`, `if` or `load`, and the next expression ends, whatever the variables and the files
hold. -/
theorem halting_is_final (files : Files) :
    (∀ (m : Machine) (ts rest ts' rest' : List Text), Twin files m ts rest ts' rest' →
      ∀ f f' : Feed, f.Holds ts → f'.Holds ts' → ∃ r m' us us',
        Ends (run files) ⟨m, f⟩ r m' us ∧ Ends (run files) ⟨m, f'⟩ r m' us' ∧
        ∀ v, r = .ok v → v.isSome ∧ m'.halted = true ∧ us = rest ∧ us' = rest') ∧
    (∀ s : State, s.halted = true → ∀ fuel,
      (s.feed.failure = none → run files (fuel + 1) s = .done none s) ∧
      (∀ v, runList (run files (fuel + 1)) v s =
        if (Text.unbracket? v.text).isSome then .done .emptyList s else .failed (.notAList v.text) s) ∧
      ∀ path, load files (fuel + 1) path s = match files path with
        | .ok _ => .done (.bool true) s
        | .error reason => .failed (.unreadableFile path reason) s) ∧
    ∀ s : State, s.halted = true → ∃ r m f, evalNext files (s.feed.size + 1) s = .of r m f ∧ m.halted = true := by
  refine ⟨fun m ts rest ts' rest' h f f' hf hf' => ?_, fun s hh fuel => ?_, fun s hh => evalNext_of_halted hh files⟩
  · obtain ⟨r, m', us, us', hr, hr', hv⟩ := h.ends
    have hts := Feed.holds_pending ts
    have hts' := Feed.holds_pending ts'
    exact ⟨r, m', us, us', ends_run_of_tokens_eq hr (hf.tokens.trans hts.tokens.symm) hts.failure hf.failure,
      ends_run_of_tokens_eq hr' (hf'.tokens.trans hts'.tokens.symm) hts'.failure hf'.failure, hv⟩
  · exact ⟨fun hf => run_of_halted hh hf files fuel, runList_of_halted hh files fuel, load_of_halted hh files fuel⟩

/-- `exit` in the first operand of `eq`, before different tokens: the second operand is evaluated, and nothing behind
it. On the halted machine a body that runs itself ends. -/
theorem halting_is_final_of_operand :
    let files : Files := fun _ => .error .notFound
    let start (t : Text) : State := ⟨{ environment := .empty }, .ofText t⟩
    let halted : Machine := { environment := .define .empty ['x'] (.literal ['1']), halted := true }
    let loop : Machine := { environment := .define .empty ['x'] (.list "[run :x]".toList), halted := true }
    Ends (run files) (start "eq run [make \"x 1 exit foo] \"a print \"b".toList) (.ok (some (.bool false))) halted
      ["print".toList, "\"b".toList] ∧
    Ends (run files) (start "eq run [make \"x 1 exit] \"a :y".toList) (.ok (some (.bool false))) halted
      [":y".toList] ∧
    run files 1 ⟨halted, .ofText "foo".toList⟩ = .done none ⟨halted, .ofText "foo".toList⟩ ∧
    ∃ r m f, evalNext files 3 ⟨loop, .ofText "run :x".toList⟩ = .of r m f ∧ m.halted = true := by
  intro files start halted loop
  obtain ⟨hsame, hstill, hends⟩ := halting_is_final files
  have hnone : Completes files { environment := .empty } [] { environment := .empty } :=
    ⟨⟨none, 1, { pending := [], ended := true },
      run_eq_of_visible rfl (by decide +kernel), rfl⟩, rfl⟩
  have hmake : Completes files { environment := .empty } ["make".toList, "\"x".toList, "1".toList]
      { halted with halted := false } :=
    ⟨⟨some (.literal ['1']), 3, { pending := [], ended := true },
      run_eq_of_visible rfl (by decide +kernel), rfl⟩, rfl⟩
  have heq : Opens files { environment := .empty } [Builtin.eq.name] [.expression] { environment := .empty } :=
    .cons (j := 1) (by decide +kernel) .nil .nil
  have hrun : ∀ body, Text.WellNested body → ∃ t, Text.words t = Text.words body ∧ Performs files
      { environment := .empty } (Text.words (Text.unwords ["run".toList, Text.bracket body])) { environment := .empty }
      t .emptyList := fun body hb => Executes.run.performs hb _
  obtain ⟨t, ht, he⟩ := hrun "make \"x 1 exit foo".toList (by decide +kernel)
  obtain ⟨t', ht', he'⟩ := hrun "make \"x 1 exit".toList (by decide +kernel)
  have hbody : Twin files { environment := .empty } (Text.words t) ["foo".toList] (Text.words t') [] := by
    have h : Text.words "make \"x 1 exit foo".toList =
        ["make".toList, "\"x".toList, "1".toList] ++ Builtin.exit.name :: ["foo".toList] := by decide +kernel
    have h' : Text.words "make \"x 1 exit".toList =
        ["make".toList, "\"x".toList, "1".toList] ++ Builtin.exit.name :: [] := by decide +kernel
    rw [ht, ht', h, h']
    exact .exit hmake
  have howed : Coincide [.expression] ["print".toList, "\"b".toList] [":y".toList]
      (["\"a".toList] ++ ["print".toList, "\"b".toList]) (["\"a".toList] ++ [":y".toList]) :=
    .complete (by decide)
  obtain ⟨r, m', us, us', h, h', hv⟩ := hsame _ _ _ _ _ (Twin.nested hnone heq he he' hbody howed)
    (start "eq run [make \"x 1 exit foo] \"a print \"b".toList).feed
    (start "eq run [make \"x 1 exit] \"a :y".toList).feed ⟨by decide +kernel, rfl⟩ ⟨by decide +kernel, rfl⟩
  have hend : Ends (run files) (start "eq run [make \"x 1 exit] \"a :y".toList) (.ok (some (.bool false))) halted
      [":y".toList] := ⟨5, { pending := [":y".toList] },
        run_eq_of_visible rfl (by decide +kernel), rfl⟩
  obtain ⟨rfl, rfl, -⟩ := Ends.unique (approximates_run files) h' hend
  obtain ⟨-, -, rfl, rfl⟩ := hv _ rfl
  exact ⟨h, h', (hstill ⟨halted, .ofText "foo".toList⟩ rfl 0).1 rfl, hends ⟨loop, .ofText "run :x".toList⟩ rfl⟩

end MiniLogo
