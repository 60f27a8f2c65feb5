import MiniLogo.Proofs.Evaluation.Targets

/-!
# Variables hold what was last written

What a machine shows of a name is what a variable, `thing` and `isname` come to (`Machine.Shows`); it is what the top
frame binds to the name, if that is the only frame (`Machine.shows_get?`). After `make` the name shows the value that
was bound, after `erase` what is left of it, and the other names show what they did (`Machine.Rebinds`). In a session
that starts with the constants only, the names that are bound are `pi` and the targets of its history
(`session_variables`).
-/

namespace MiniLogo

open MiniLogo.Action Text

variable {files : Files} {k : Nat} {m m' : Machine} {n name other : Text} {o o' : Option Value} {v w : Value}

/-! ## What is shown of a name -/

/-- What looking a name up comes to. -/
def found (name : Text) (o : Option Value) : Except Fault Value :=
  match o with
  | some v => .ok v
  | none => .error (.undefinedVariable name)

/-- The machine has this to show of a name: as a variable, and to `thing` and `isname` after an expression whose value
has the name as its text. -/
structure Machine.Shows (m : Machine) (name : Text) (o : Option Value) : Prop where
  reference (files : Files) (k : Nat) : Uses (evalNext files (k + 1)) m [':' :: name] (found name o) m
  thing {files : Files} {k : Nat} {s : State} {g : Feed} {w : Value} (h : evalNext files k s = .done w ⟨m, g⟩)
    (hw : w.text = name) : eval files (k + 1) "thing".toList s = .of (found name o) m g
  isName {files : Files} {k : Nat} {s : State} {g : Feed} {w : Value} (h : evalNext files k s = .done w ⟨m, g⟩)
    (hw : w.text = name) : eval files (k + 1) Builtin.isName.name s = .done (.bool o.isSome) ⟨m, g⟩

/-- The second machine shows this value of the name, and of other names what the first one does. -/
structure Machine.Rebinds (m : Machine) (name : Text) (v : Value) (m' : Machine) : Prop where
  self : m'.Shows name (some v)
  others {other : Text} {o : Option Value} (hne : other ≠ name) (h : m.Shows other o) : m'.Shows other o

theorem found_injective : Function.Injective (found name) := by
  intro o o' h
  cases o <;> cases o' <;> cases h <;> rfl

theorem lookup_apply (name : Text) (s : State) :
    lookup name s = .of (found name (s.environment.get? name)) s.toMachine s.feed := by
  unfold lookup
  cases s.environment.get? name <;> rfl

theorem classify_colon (name : Text) : Token.classify (':' :: name) = .reference name := by
  have hn : Token.isNumeric (':' :: name) = false := by simp [Token.isNumeric, Token.isNumeral, Decimal.isDigit]
  simp [Token.classify, hn]

theorem evalWith_thing (next : Action Value) (loop : Action (Option Value)) :
    evalWith files next loop "thing".toList = next >>= fun v => lookup v.text := by
  unfold evalWith
  rw [show Token.classify "thing".toList = .thing by decide +kernel]

/-- Without frames below the top one, a name is bound in some frame if it is in the top one. -/
theorem Environment.contains_eq {e : Environment} (h : e.below = []) (name : Text) :
    e.contains name = (e.get? name).isSome := by
  simp [contains, h, Frame.contains, get?]

/-- A machine with one frame shows what this binds. -/
theorem Machine.shows_get? (hm : m.environment.below = []) (name : Text) : m.Shows name (m.environment.get? name) where
  reference files k f us hf := by
    obtain ⟨g, hg, hl⟩ := evalNext_of_cons (m := m) hf files k
    refine ⟨g, ?_, hl⟩
    rw [hg, evalWith, classify_colon]
    exact lookup_apply name ⟨m, g⟩
  thing {files k s g w} h hw := by
    rw [eval_succ, evalWith_thing, bind_apply, h, ← hw]
    exact lookup_apply w.text ⟨m, g⟩
  isName {files k s g w} h hw := by
    rw [eval_isName h, ← Environment.contains_eq hm, hw]

theorem Machine.Shows.unique (h : m.Shows name o) (h' : m.Shows name o') : o = o' := by
  obtain ⟨g, hg, -⟩ := h.reference (fun _ => .error .notFound) 0 { pending := [':' :: name] } [] rfl
  obtain ⟨g', hg', -⟩ := h'.reference (fun _ => .error .notFound) 0 { pending := [':' :: name] } [] rfl
  exact found_injective (Outcome.of_inj (hg.symm.trans hg')).1

/-- Binding a name in the only frame shows nothing else of other names. -/
theorem Machine.rebinds_define (hm : m.environment.below = []) (name : Text) (v : Value) :
    m.Rebinds name v { m with environment := m.environment.define name v } where
  self := by
    have hshows := shows_get? (m := { m with environment := m.environment.define name v }) hm name
    rwa [Environment.get?_define_self] at hshows
  others {other o} hne h := by
    obtain rfl := h.unique (shows_get? hm other)
    have hshows := shows_get? (m := { m with environment := m.environment.define name v }) hm other
    rwa [Environment.get?_define_of_ne hne.symm] at hshows

/-! ## `make` and `erase` -/

theorem words_sigil {c : Char} (hc : isBlank c = false) (hn : ∀ c ∈ n, isBlank c = false) :
    words (c :: n) = [c :: n] :=
  words_of_forall_not_blank (List.cons_ne_nil c n) fun d hd => by
    rcases List.mem_cons.1 hd with rfl | hd
    · exact hc
    · exact hn d hd

/-- A builtin and a token that starts with a sign, as text. -/
theorem words_builtin_sigil (b : Builtin) {c : Char} (hc : isBlank c = false) (hn : ∀ c ∈ n, isBlank c = false) :
    words (b.name ++ ' ' :: c :: n) = [b.name, c :: n] := by
  rw [words_append_blank (by decide +kernel), words_name, words_sigil hc hn]
  rfl

/-- A quoted word is its own value. -/
theorem uses_quoted (files : Files) (k : Nat) (m : Machine) (n : Text) :
    Uses (evalNext files (k + 1)) m ['"' :: n] (.ok (.word n)) m := by
  intro f us hf
  obtain ⟨g, hg, hl⟩ := evalNext_of_cons (m := m) hf files k
  exact ⟨g, hg, hl⟩

/-- `make` before a quoted name and the tokens of a value binds the value, unless it describes a procedure. -/
theorem uses_make {m₁ : Machine} {ts : List Text} (hu : Uses (evalNext files (k + 1)) m ts (.ok v) m₁) :
    Uses (evalNext files (k + 2)) m (Builtin.make.name :: ('"' :: n) :: ts) (.ok v)
      (if (Procedure.ofLiteral? n v).isSome then m₁
        else { m₁ with environment := m₁.environment.define n v }) := by
  intro f us hf
  obtain ⟨f₁, h₁, l₁⟩ := evalNext_of_cons (m := m) hf files (k + 1)
  obtain ⟨f₂, h₂, l₂⟩ := uses_quoted files k m n f₁ (ts ++ us) l₁.tokens
  obtain ⟨f₃, h₃, l₃⟩ := hu f₂ us l₂.tokens
  have hmake : evalWith files (evalNext files (k + 1)) (run files (k + 1)) Builtin.make.name ⟨m, f₁⟩ = _ :=
    eval_make h₂ h₃
  refine ⟨f₃, ?_, l₁.trans (l₂.trans l₃)⟩
  rw [h₁, hmake, Value.text]
  split <;> rfl

/-- `make` binds the value of the expression after a quoted name, unless it is a function. -/
theorem evalNext_make {m₁ : Machine} {f g g₁ : Feed} (he : evalNext files k ⟨m, g⟩ = .done v ⟨m₁, g₁⟩)
    (hf : f.tokens = [Builtin.make.name, '"' :: n] ++ g.tokens) :
    ∃ m₂ f₂, evalNext files (k + 1) ⟨m, f⟩ = .done v ⟨m₂, f₂⟩ ∧ f₂.tokens = g₁.tokens ∧
      (v.kind ≠ .function → m₂ = { m₁ with environment := m₁.environment.define n v }) := by
  obtain ⟨k, rfl⟩ : ∃ j, k = j + 1 := by
    cases k with
    | zero =>
      rcases bind_eq_of_iff (r := .ok v) (m := m₁) (f := g₁).1 he with ⟨e, -, h⟩ | ⟨t, after, -, h⟩ <;> cases h
    | succ j => exact ⟨j, rfl⟩
  obtain ⟨ts, us, ht, -, hu⟩ := (reads_evalNext files (k + 1)).done he
  obtain ⟨f₂, h₂, l₂⟩ := uses_make hu f us (by rw [hf, ht]; rfl)
  have hleft : g₁.tokens = us := (hu.leaves ht he).tokens
  refine ⟨_, f₂, h₂, l₂.tokens.trans hleft.symm, fun hv => ?_⟩
  rw [ofLiteral?_eq_none hv]
  rfl

/-- `erase` binds a variable to what erasing leaves of it. -/
theorem uses_erase (h : m.environment.get? n = some v) (files : Files) (k : Nat) :
    Uses (evalNext files (k + 1)) m [Builtin.erase.name, ':' :: n] (.ok v.erase)
      { m with environment := m.environment.define n v.erase } := by
  intro f us hf
  obtain ⟨f₁, h₁, l₁⟩ := evalNext_of_cons (m := m) hf files k
  obtain ⟨f₂, h₂, l₂⟩ := nextToken_of_cons (m := m) l₁.tokens
  refine ⟨f₂, ?_, l₁.trans l₂⟩
  rw [h₁, evalWith_name, apply, bind_apply, h₂]
  simp only [Action.erase]
  rw [bind_apply, lookup_apply, h]
  rfl

/-! ## Sessions -/

/-- A variable that was erased is not bound to anything else as long as no `make` names it. -/
theorem History.shows_erase {names : List Text} (h : History m names m') (hm : m.environment.below = [])
    (hs : m.environment.All Storable) (hv : m.environment.get? n = some v.erase) (hn : n ∉ names) :
    m'.Shows n (some v.erase) := by
  have hlasts : Lasts (some v.erase) (m'.environment.get? n) := hv ▸ (h.gains hs).others hn
  have hget : m'.environment.get? n = some v.erase := hlasts.elim id id
  exact hget ▸ Machine.shows_get? (h.session.extends.below.trans hm) n

/-- Erasing a variable leaves a value of its kind without text, until the name is the target of a `make`. -/
theorem Machine.exists_erased (hm : m.environment.below = []) (hs : m.environment.All Storable)
    (hv : m.environment.get? n = some v) (hstorable : Storable v) (hn : ∀ c ∈ n, isBlank c = false) :
    ∃ m' w, w.text = [] ∧ w.kind = v.kind ∧
      (∀ files k, Uses (evalNext files (k + 1)) m (words (Builtin.erase.name ++ ' ' :: ':' :: n)) (.ok w) m') ∧
      m.Rebinds n w m' ∧ ∀ names m'', History m' names m'' → n ∉ names → m''.Shows n (some w) := by
  refine ⟨_, v.erase, rfl, rfl, fun files k => ?_, rebinds_define hm n v.erase, fun names m'' hh hnames => ?_⟩
  · rw [words_builtin_sigil .erase (by decide) hn]
    exact uses_erase hv files k
  · have herased : Storable v.erase := hstorable
    exact hh.shows_erase hm (hs.define herased n) (Environment.get?_define_self ..) hnames

/-- At first `pi` is the only name that is bound. -/
theorem isSome_get?_withConstants (name : Text) :
    (Environment.withConstants.get? name).isSome = true ↔ name = "pi".toList := by
  simp only [Environment.withConstants, Environment.get?, Frame.get?]
  split
  · simp_all
  · simp_all [eq_comm]

/-- **Variables hold what was last written.** In a session that starts with the constants, `make` before a quoted name
and an expression gives the value of the expression. Unless this is a function, the name shows it then, and the other
names show what they did after the expression. If the variable is erased, it shows a value of the same kind without
text, for as long as it is the target of no `make`, and again the other names show what they did.

Whatever expression gives a name, `isname` is true of it exactly if `thing` gives a value, which is so exactly for `pi`
and for the targets of the session. -/
theorem session_variables {output : Sink} {generator : Generator} (h : Session (.fresh output generator) m) :
    (∀ {files : Files} {k : Nat} {n : Text} {f g g₁ : Feed} {v : Value} {m₁ : Machine},
      (∀ c ∈ n, isBlank c = false) → evalNext files k ⟨m, g⟩ = .done v ⟨m₁, g₁⟩ →
      f.tokens = words (Builtin.make.name ++ ' ' :: '"' :: n) ++ g.tokens →
      ∃ m₂ f₂, evalNext files (k + 1) ⟨m, f⟩ = .done v ⟨m₂, f₂⟩ ∧ f₂.tokens = g₁.tokens ∧
        (v.kind ≠ .function → m₁.Rebinds n v m₂ ∧ ∃ m₃ w, w.text = [] ∧ w.kind = v.kind ∧
          (∀ files k, Uses (evalNext files (k + 1)) m₂ (words (Builtin.erase.name ++ ' ' :: ':' :: n)) (.ok w) m₃) ∧
          m₂.Rebinds n w m₃ ∧ ∀ names m₄, History m₃ names m₄ → n ∉ names → m₄.Shows n (some w))) ∧
    (∃ names, History (.fresh output generator) names m) ∧
    ∀ names, History (.fresh output generator) names m →
      ∀ {files : Files} {k : Nat} {s : State} {g : Feed} {w : Value}, evalNext files k s = .done w ⟨m, g⟩ →
        ∃ p, eval files (k + 1) Builtin.isName.name s = .done (.bool p) ⟨m, g⟩ ∧
          (p = true ↔ ∃ v, eval files (k + 1) "thing".toList s = .done v ⟨m, g⟩) ∧
          (p = true ↔ w.text = "pi".toList ∨ w.text ∈ names) := by
  have hbelow : m.environment.below = [] := h.extends.below
  refine ⟨fun {files k n f g g₁ v m₁} hn he hf => ?_, h.exists_history, fun names hh {files k s g w} hw => ?_⟩
  · rw [words_builtin_sigil .make (by decide) hn] at hf
    obtain ⟨m₂, f₂, hmake, ht, hm₂⟩ := evalNext_make he hf
    refine ⟨m₂, f₂, hmake, ht, fun hv => ?_⟩
    obtain rfl := hm₂ hv
    have hcall : Session (.fresh output generator) m₁ := h.tail (.expression (r := .ok v) he)
    have hb₁ : m₁.environment.below = [] := hcall.extends.below
    have hs₁ : m₁.environment.All Storable := hcall.all_storable withConstants_all_storable
    have hstorable : Storable v := by
      have hregular := (keeps_evalNext files k _ (.ok v) _ _ (h.all_storable withConstants_all_storable) he).2 v rfl
      rcases hregular with hv' | ⟨t, -, rfl⟩
      · exact hv'
      · exact absurd rfl hv
    exact ⟨Machine.rebinds_define hb₁ n v,
      Machine.exists_erased hb₁ (hs₁.define hstorable n) (Environment.get?_define_self ..) hstorable hn⟩
  · have hshows := Machine.shows_get? hbelow w.text
    have hbound : (m.environment.get? w.text).isSome = true ↔ w.text = "pi".toList ∨ w.text ∈ names := by
      rw [← isSome_get?_withConstants]
      exact (hh.gains withConstants_all_storable).isSome_get?_iff w.text
    refine ⟨_, hshows.isName hw rfl, ?_, hbound⟩
    rw [hshows.thing hw rfl]
    cases m.environment.get? w.text with
    | some v => exact ⟨fun _ => ⟨v, rfl⟩, fun _ => rfl⟩
    | none => exact ⟨nofun, fun ⟨_, hv⟩ => by cases hv⟩

/-- The name is that of a builtin, and the expression binds it too; and a name that was bound by a call that failed. -/
theorem session_variables_builtin :
    let files : Files := fun _ => .error .notFound
    let m : Machine := .fresh {} (.ofSeed 0)
    let e := "run [make \"add \"c \"b]".toList
    (∃ m₂ f₂, evalNext files 5 ⟨m, .ofText (Builtin.make.name ++ " \"add ".toList ++ e)⟩ =
        .done (.word ['b']) ⟨m₂, f₂⟩ ∧ m₂.Shows Builtin.add.name (some (.word ['b'])) ∧
      ∃ m₃ w, w.text = [] ∧ w.kind = .word ∧ m₂.Rebinds Builtin.add.name w m₃) ∧
    ∃ m', Session m m' ∧ eval files 2 Builtin.isName.name ⟨m', { pending := ["\"y".toList] }⟩ =
      .done (.bool true) ⟨m', { pending := [] }⟩ := by
  intro files m e
  constructor
  · have he : (evalNext files 4 ⟨m, .ofText e⟩).result? = some (.ok (.word ['b'])) := by decide +kernel
    obtain ⟨s₁, he, -⟩ := Outcome.eq_done_of_result? he
    have hname : Builtin.add.name ∈ words Builtin.add.name := words_name .add ▸ List.mem_cons_self
    have hf : (Feed.ofText (Builtin.make.name ++ " \"add ".toList ++ e)).tokens =
        words (Builtin.make.name ++ ' ' :: '"' :: Builtin.add.name) ++ (Feed.ofText e).tokens := by decide +kernel
    obtain ⟨m₂, f₂, hdone, -, hshows⟩ := (session_variables .refl).1 (not_blank_of_mem_words hname) he hf
    obtain ⟨hrebinds, m₃, w, ht, hk, -, hw, -⟩ := hshows (by decide)
    exact ⟨m₂, f₂, hdone, hrebinds.self, m₃, w, ht, hk, hw⟩
  · have hr : (run files 4 ⟨m, .ofText "add make \"y \"a 5".toList⟩).result? =
        some (.error (.typeMismatch .add .number .word)) := by decide +kernel
    obtain ⟨s, hrun, -⟩ := Outcome.eq_failed_of_result? hr
    have hnames : runTargets files 4 ⟨m, .ofText "add make \"y \"a 5".toList⟩ = [['y']] := by decide +kernel
    have hc : CallBinds m (runTargets files 4 ⟨m, .ofText "add make \"y \"a 5".toList⟩) s.toMachine :=
      .run (r := .error _) (g := s.feed) hrun
    have hh : History m ([] ++ runTargets files 4 ⟨m, .ofText "add make \"y \"a 5".toList⟩) s.toMachine :=
      .snoc (.nil m) hc
    rw [List.nil_append, hnames] at hh
    have hy : evalNext files 1 ⟨s.toMachine, { pending := ["\"y".toList] }⟩ =
        .done (.word ['y']) ⟨s.toMachine, { pending := [] }⟩ := rfl
    obtain ⟨p, hp, -, htrue⟩ := (session_variables hh.session).2.2 _ hh hy
    exact ⟨s.toMachine, hh.session, by rw [hp, htrue.2 (.inr List.mem_cons_self)]⟩

end MiniLogo
