import MiniLogo.Proofs.Evaluation.Fuel
import MiniLogo.Proofs.Text.Utf8
import MiniLogo.Proofs.Text.WellNested

/-!
# Bodies

A text can be executed as the body of `run`, as either branch of `if` and as a file (`Executes`). If its brackets are
well nested, then each of these evaluates the tokens of the text, on a feed of their own, whatever becomes of the text
on its way through a literal (`evalNext_of_executes`); and so each ends as the run of the text does
(`evalNext_executes`).
-/

namespace MiniLogo

open MiniLogo.Action Text

variable {files : Files} {m : Machine} {f : Feed} {us : List Text}

/-! ## The first token of an expression -/

/-- The first token is evaluated with the others behind it. -/
theorem evalNext_of_cons {t : Text} (h : f.tokens = t :: us) (files : Files) (n : Nat) :
    ∃ g, evalNext files (n + 1) ⟨m, f⟩ = evalWith files (evalNext files n) (run files n) t ⟨m, g⟩ ∧ f.Leaves us g := by
  obtain ⟨g, hg, hl⟩ := nextToken_of_cons (m := m) h
  refine ⟨g, ?_, hl⟩
  show (nextToken >>= eval files (n + 1)) ⟨m, f⟩ = _
  rw [bind_apply, hg]
  rfl

/-- The name of a builtin is no other kind of token. -/
theorem classify_name (b : Builtin) : Token.classify b.name = .name b.name := by
  cases b <;> decide +kernel

theorem words_name (b : Builtin) : words b.name = [b.name] := by
  cases b <;> decide +kernel

theorem evalWith_name (next : Action Value) (loop : Action (Option Value)) (b : Builtin) :
    evalWith files next loop b.name = apply files next loop b := by
  unfold evalWith
  rw [classify_name]
  simp

theorem classify_bracket (t : Text) : Token.classify ('[' :: t) = .listStart ('[' :: t) := by
  have hn : Token.isNumeric ('[' :: t) = false := by simp [Token.isNumeric, Token.isNumeral, Decimal.isDigit]
  simp [Token.classify, hn]

/-! ## Literals -/

/-- The value of a token that is a literal by itself. -/
def Token.literal? : Token → Option Value
  | .word t => some (.word t)
  | .number t => some (.literal t)
  | .bool b => some (.bool b)
  | _ => none

/-- The literals and their values: well-nested lists, and words, numbers and truth values. -/
inductive Denotes : Text → Value → Prop where
  | list {t : Text} (h : WellNested t) : Denotes (bracket t) (Literal.value (unwords (words (bracket t))))
  | token {t : Text} {v : Value} (ht : words t = [t]) (hv : (Token.classify t).literal? = some v) : Denotes t v

/-- The tokens of a well-nested text in brackets are one literal. -/
theorem read_words_bracket {t piece : Text} {later : List Text} (h : WellNested t)
    (hw : words (bracket t) = ('[' :: piece) :: later) :
    read (Want.closings (balance ('[' :: piece))) later = .complete later.length := by
  obtain ⟨hz, hk⟩ := h.balance_words_bracket hw
  refine read_closings_eq_complete_iff.2 ⟨Nat.le_refl _, by rwa [List.take_length], fun k hlt => ?_⟩
  have := hk k hlt
  omega

/-- A literal is evaluated to its value, and nothing else changes. -/
theorem Denotes.uses {x : Text} {v : Value} (hx : Denotes x v) (files : Files) (m : Machine) (n : Nat) :
    Uses (evalNext files (n + 1)) m (words x) (.ok v) m := by
  intro f us hf
  cases hx with
  | @list t h =>
    obtain ⟨piece, later, hw⟩ := words_bracket t
    rw [hw] at hf ⊢
    obtain ⟨g, hg, hl⟩ := evalNext_of_cons (m := m) hf files n
    obtain ⟨g', hg', hl'⟩ := readBracketed_of_complete (m := m) (read_words_bracket h hw) hl.tokens
    refine ⟨g', ?_, hl.trans hl'⟩
    rw [hg, evalWith, classify_bracket]
    exact hg'
  | token ht hv =>
    rw [ht] at hf
    obtain ⟨g, hg, hl⟩ := evalNext_of_cons (m := m) hf files n
    refine ⟨g, ?_, hl⟩
    rw [hg, evalWith]
    cases hc : Token.classify x with
    | word t | number t | bool b =>
      rw [hc] at hv
      obtain rfl := Option.some.inj hv
      rfl
    | thing | reference t | listStart t | name t =>
      rw [hc] at hv
      cases hv

theorem Denotes.bool (flag : Bool) : Denotes (Value.bool flag).text (.bool flag) := by
  cases flag <;> exact .token (by decide +kernel) (by decide +kernel)

/-! ## Texts that are run -/

/-- Runs a text on a feed of its own; without tokens the value is the given one. -/
def runText (loop : Action (Option Value)) (t : Text) (v : Value) : Action Value := do
  return (← within (.ofText t) loop).getD v

theorem runList_of_unbracket? {t : Text} {v : Value} (h : unbracket? v.text = some t) (loop : Action (Option Value)) :
    runList loop v = runText loop t .emptyList := by
  simp only [runList, h]
  rfl

theorem loadFile_of_ok {path : Text} {bytes : Bytes} (h : files path = .ok bytes) (loop : Action (Option Value)) :
    loadFile files loop path = runText loop (Utf8.decodeLossy bytes) (.bool true) := by
  simp only [loadFile, h]
  rfl

/-- A literal keeps the tokens of the text in its brackets. -/
theorem runList_bracket (loop : Action (Option Value)) (t : Text) :
    runList loop (Literal.value (unwords (words (bracket t)))) = runText loop t .emptyList := by
  obtain ⟨u, hu, hw⟩ := unwords_words_bracket t
  have hf : Feed.ofText u = .ofText t := by rw [Feed.ofText, hw, Feed.ofText]
  have hv : unbracket? (Literal.value (unwords (words (bracket t)))).text = some u := by
    rw [Literal.text_value, hu, unbracket?_bracket]
  rw [runList_of_unbracket? hv, runText, hf, runText]

/-- A file keeps its text. -/
theorem loadFile_encode {path t : Text} (h : files path = .ok (Utf8.encode t)) (loop : Action (Option Value)) :
    loadFile files loop path = runText loop t (.bool true) := by
  rw [loadFile_of_ok h, Utf8.decodeLossy_encode]

/-- A text that is run ends as its run does, on the feed that it found. -/
theorem runText_eq_of_iff {loop : Action (Option Value)} {t : Text} {v : Value} {r : Except Fault Value}
    {m' : Machine} {g : Feed} : runText loop t v ⟨m, f⟩ = .of r m' g ↔
      g = f ∧ ∃ r₀ f₀, loop ⟨m, .ofText t⟩ = .of r₀ m' f₀ ∧ r = r₀.map (·.getD v) := by
  unfold runText
  rw [bind_eq_of_iff]
  constructor
  · rintro (⟨e, he, rfl⟩ | ⟨o, after, ho, h⟩)
    · obtain ⟨rfl, f₀, hl⟩ := (within_eq_of_iff (r := .error e)).1 he
      exact ⟨rfl, .error e, f₀, hl, rfl⟩
    · obtain ⟨ha, f₀, hl⟩ := (within_eq_of_iff (r := .ok o) (m := after.toMachine) (g := after.feed)).1 ho
      obtain ⟨rfl, rfl, rfl⟩ := Outcome.of_inj (r := .ok (o.getD v)) (m := after.toMachine) (f := after.feed) h
      exact ⟨ha, .ok o, f₀, hl, rfl⟩
  · rintro ⟨rfl, r₀, f₀, hl, rfl⟩
    have hw : within (.ofText t) loop ⟨m, g⟩ = .of r₀ m' g := within_eq_of_iff.2 ⟨rfl, f₀, hl⟩
    cases r₀ with
    | error e => exact .inl ⟨e, hw, rfl⟩
    | ok o => exact .inr ⟨o, ⟨m', g⟩, hw, rfl⟩

/-! ## Ways to execute a body -/

/-- The expressions that execute a body, each with its value for a body without tokens. -/
inductive Executes (files : Files) (body : Text) : Text → Value → Prop where
  | run : Executes files body (unwords ["run".toList, bracket body]) .emptyList
  | ifTrue {x : Text} {v : Value} (hx : Denotes x v) :
    Executes files body (unwords ["if".toList, "true".toList, bracket body, x]) .emptyList
  | ifFalse {x : Text} {v : Value} (hx : Denotes x v) :
    Executes files body (unwords ["if".toList, "false".toList, x, bracket body]) .emptyList
  | load {p : Text} (hp : words p = [p]) (hf : files (unquote p) = .ok (Utf8.encode body)) :
    Executes files body (unwords ["load".toList, p]) (.bool true)

/-- The tokens of a builtin before its operands. -/
theorem words_call (b : Builtin) (operands : List Text) :
    words (unwords (b.name :: operands)) = b.name :: operands.flatMap words := by
  rw [words_unwords, List.flatMap_cons, words_name]
  rfl

/-- `run` before a literal takes it and runs its value. -/
theorem evalNext_run {x : Text} {v : Value} (hx : Denotes x v) (files : Files) (m : Machine)
    (hf : f.tokens = words (unwords [Builtin.run.name, x]) ++ us) (n : Nat) :
    ∃ g, evalNext files (n + 2) ⟨m, f⟩ = runList (run files (n + 1)) v ⟨m, g⟩ ∧ f.Leaves us g := by
  rw [words_call, List.flatMap_singleton] at hf
  obtain ⟨g₀, h₀, l₀⟩ := evalNext_of_cons (m := m) hf files (n + 1)
  obtain ⟨g₁, h₁, l₁⟩ := hx.uses files m n g₀ us l₀.tokens
  refine ⟨g₁, ?_, l₀.trans l₁⟩
  rw [h₀, evalWith_name, apply, bind_apply, h₁]
  rfl

/-- `if` before three literals takes them and runs the branch that the first one chooses. -/
theorem evalNext_if {c x y : Text} {flag : Bool} {v w : Value} (hc : Denotes c (.bool flag)) (hx : Denotes x v)
    (hy : Denotes y w) (files : Files) (m : Machine)
    (hf : f.tokens = words (unwords [Builtin.ifElse.name, c, x, y]) ++ us) (n : Nat) :
    ∃ g, evalNext files (n + 2) ⟨m, f⟩ = runList (run files (n + 1)) (if flag then v else w) ⟨m, g⟩ ∧
      f.Leaves us g := by
  rw [words_call, List.flatMap_cons, List.flatMap_cons, List.flatMap_singleton, List.cons_append, List.append_assoc,
    List.append_assoc] at hf
  obtain ⟨g₀, h₀, l₀⟩ := evalNext_of_cons (m := m) hf files (n + 1)
  obtain ⟨g₁, h₁, l₁⟩ := hc.uses files m n g₀ _ l₀.tokens
  obtain ⟨g₂, h₂, l₂⟩ := hx.uses files m n g₁ _ l₁.tokens
  obtain ⟨g₃, h₃, l₃⟩ := hy.uses files m n g₂ us l₂.tokens
  refine ⟨g₃, ?_, ((l₀.trans l₁).trans l₂).trans l₃⟩
  rw [h₀, evalWith_name, apply, bind_apply, h₁]
  simp only [Outcome.of, Value.truth?]
  rw [bind_apply, h₂]
  simp only [Outcome.of]
  rw [bind_apply, h₃]
  rfl

/-- `load` before a token takes it and evaluates the file. -/
theorem evalNext_load {p : Text} (hp : words p = [p]) (files : Files) (m : Machine)
    (hf : f.tokens = words (unwords [Builtin.load.name, p]) ++ us) (n : Nat) :
    ∃ g, evalNext files (n + 1) ⟨m, f⟩ = loadFile files (run files n) (unquote p) ⟨m, g⟩ ∧ f.Leaves us g := by
  rw [words_call, List.flatMap_singleton, hp] at hf
  obtain ⟨g₀, h₀, l₀⟩ := evalNext_of_cons (m := m) hf files n
  obtain ⟨g₁, h₁, l₁⟩ := nextToken_of_cons (m := m) l₀.tokens
  refine ⟨g₁, ?_, l₀.trans l₁⟩
  rw [h₀, evalWith_name, apply, bind_apply, h₁]

/-- What executes a body takes its operands and runs the text of the body. -/
theorem evalNext_of_executes {body e : Text} {v : Value} (hb : WellNested body) (he : Executes files body e v)
    (m : Machine) (hf : f.tokens = words e ++ us) (n : Nat) :
    ∃ g, evalNext files (n + 2) ⟨m, f⟩ = runText (run files (n + 1)) body v ⟨m, g⟩ ∧ f.Leaves us g := by
  have hbody := Denotes.list hb
  cases he with
  | run =>
    rw [← runList_bracket]
    exact evalNext_run hbody files m hf n
  | ifTrue hx =>
    rw [← runList_bracket]
    exact evalNext_if (.bool true) hbody hx files m hf n
  | ifFalse hx =>
    rw [← runList_bracket]
    exact evalNext_if (.bool false) hx hbody files m hf n
  | load hp hfile =>
    rw [← loadFile_encode hfile]
    exact evalNext_load hp files m hf (n + 1)

/-- **The ways to execute a text agree.** An expression that executes a well-nested text ends as the run of the text
does from the same machine, with the same machine, and leaves the tokens after it. The value is that of the run; from
a machine that is not halted there is one exactly if the text has tokens. -/
theorem evalNext_executes (files : Files) {body e : Text} {v : Value} (hb : WellNested body)
    (he : Executes files body e v) (m : Machine) (hf : f.tokens = words e ++ us) :
    (∀ r m' rest, Ends (evalNext files) ⟨m, f⟩ r m' rest ↔ rest = us ∧
      ∃ r₀ rest₀, Ends (run files) ⟨m, .ofText body⟩ r₀ m' rest₀ ∧ r = r₀.map (·.getD v)) ∧
    (m.halted = false → ∀ o m' rest₀, Ends (run files) ⟨m, .ofText body⟩ (.ok o) m' rest₀ →
      (o = none ↔ words body = [])) := by
  refine ⟨fun r m' rest => ⟨?_, ?_⟩, fun hm o m' rest₀ => ?_⟩
  · rintro ⟨n, f', hn, rfl⟩
    obtain ⟨g, hg, hl⟩ := evalNext_of_executes hb he m hf n
    have hend := (approximates_evalNext files (Nat.le_add_right n 2)).apply_eq hn
    rw [hg] at hend
    obtain ⟨rfl, r₀, f₀, hr, hr₀⟩ := runText_eq_of_iff.1 hend
    exact ⟨hl.tokens, r₀, _, ⟨n + 1, f₀, hr, rfl⟩, hr₀⟩
  · rintro ⟨rfl, r₀, rest₀, ⟨n, f₀, hn, rfl⟩, rfl⟩
    obtain ⟨g, hg, hl⟩ := evalNext_of_executes hb he m hf n
    have hend := (approximates_run files (Nat.le_succ n)).apply_eq hn
    exact ⟨n + 2, g, hg.trans (runText_eq_of_iff.2 ⟨rfl, r₀, f₀, hend, rfl⟩), hl.tokens⟩
  · rintro ⟨n, f₀, hn, rfl⟩
    rw [← Feed.tokens_ofText]
    exact eq_none_iff_of_drive (reads_evalNext files n) hn hm rfl

/-- One body that binds a list and reads a raw token, executed in all ways before another token. -/
theorem evalNext_executes_each :
    let body := "make \"x [[a]  b] read c".toList
    let files : Files := fun p => if p = ['f'] then .ok (Utf8.encode body) else .error .notFound
    let start (e : Text) : State := ⟨{ environment := .empty }, .ofText (unwords [e, "\"z".toList])⟩
    let after : Machine := { environment := .define .empty ['x'] (.list "[[a] b]".toList) }
    let ends (e : Text) := Ends (evalNext files) (start e) (.ok (.word ['c'])) after ["\"z".toList]
    ends (unwords ["run".toList, bracket body]) ∧
      ends (unwords ["if".toList, "true".toList, bracket body, "5".toList]) ∧
      ends (unwords ["if".toList, "false".toList, "[]".toList, bracket body]) ∧
      ends (unwords ["load".toList, "\"f".toList]) := by
  intro body files start after ends
  have hb : WellNested body := by decide +kernel
  have hrun : Ends (run files) ⟨{ environment := .empty }, .ofText body⟩ (.ok (some (.word ['c']))) after [] :=
    ⟨4, { pending := [], ended := true },
      run_eq_of_visible rfl (by decide +kernel), rfl⟩
  have hends : ∀ e v, Executes files body e v → ends e := by
    intro e v he
    have ht : (start e).feed.tokens = words e ++ ["\"z".toList] := by
      have hz : words "\"z".toList = ["\"z".toList] := by decide +kernel
      show (Feed.ofText (unwords [e, "\"z".toList])).tokens = _
      rw [Feed.tokens_ofText, words_unwords, List.flatMap_cons, List.flatMap_singleton, hz]
    exact ((evalNext_executes files hb he _ ht).1 _ _ _).2 ⟨rfl, _, _, hrun, rfl⟩
  have hfive : Denotes "5".toList (.literal "5".toList) := .token (by decide +kernel) (by decide +kernel)
  have hempty : Denotes "[]".toList _ := .list (t := []) (by decide +kernel)
  have hpath : unquote "\"f".toList = ['f'] := by decide +kernel
  have hfile : files (unquote "\"f".toList) = .ok (Utf8.encode body) := if_pos hpath
  exact ⟨hends _ _ .run, hends _ _ (.ifTrue hfive), hends _ _ (.ifFalse hempty),
    hends _ _ (.load (by decide +kernel) hfile)⟩

end MiniLogo
