import MiniLogo.CommandLine.Program
import MiniLogo.Proofs.Evaluation.Messages

/-!
# The drivers agree

The program gets the bytes that it evaluates as a script, from standard input, or line by line on the console
(`Driver`). The tokens are the same each time, and an evaluation does not see more of its source than the tokens, as
long as the source does not fail (`ending?_run_congr`). So for each driver what is printed and the status are those of
one run over the text of the bytes, after the banner on the console (`execute_of_calls`).
-/

namespace MiniLogo

open MiniLogo.Action

/-! ## Runs over the same tokens -/

/-- The result and the machine of an action that ended, whatever tokens it left. -/
def Outcome.ending? {α : Type} : Outcome α → Option (Except Fault α × Machine)
  | .done a s => some (.ok a, s.toMachine)
  | .failed e s => some (.error e, s.toMachine)
  | .unfinished => none

theorem Outcome.ending?_eq_some_iff {α : Type} {o : Outcome α} {r : Except Fault α} {m : Machine} :
    o.ending? = some (r, m) ↔ ∃ f, o = .of r m f := by
  constructor
  · intro h
    cases o with
    | done a s =>
      obtain ⟨rfl, rfl⟩ := Prod.mk.inj (Option.some.inj h)
      exact ⟨s.feed, rfl⟩
    | failed e s =>
      obtain ⟨rfl, rfl⟩ := Prod.mk.inj (Option.some.inj h)
      exact ⟨s.feed, rfl⟩
    | unfinished => cases h
  · rintro ⟨f, rfl⟩
    cases r <;> rfl

/-- A run over the same tokens ends in the same way. -/
theorem ending?_run_congr (files : Files) (fuel : Nat) (m : Machine) {f g : Feed} (ht : f.tokens = g.tokens)
    (hf : f.failure = none) (hg : g.failure = none) :
    (run files fuel ⟨m, f⟩).ending? = (run files fuel ⟨m, g⟩).ending? := by
  have hto : ∀ {f g : Feed}, f.tokens = g.tokens → f.failure = none → g.failure = none → ∀ r m',
      (run files fuel ⟨m, f⟩).ending? = some (r, m') → (run files fuel ⟨m, g⟩).ending? = some (r, m') := by
    intro f g ht hf hg r m' h
    obtain ⟨f', hr⟩ := Outcome.ending?_eq_some_iff.1 h
    obtain ⟨o, g', ho, hr', -⟩ := drive_of_tokens_eq (reads_evalNext files fuel) hr ht.symm hf hg none
    exact Outcome.ending?_eq_some_iff.2 ⟨g', by rw [ho]; exact hr'⟩
  apply Option.ext
  rintro ⟨r, m'⟩
  exact ⟨hto ht hf hg r m', hto ht.symm hg hf r m'⟩

namespace CommandLine

/-! ## Drivers -/

/-- The ways in which the program gets the bytes that it evaluates. -/
inductive Driver where
  | script (path : Text)
  | piped
  | console

/-- What is printed before anything else. -/
def Driver.heading : Driver → Bytes
  | script _ | piped => []
  | console => Utf8.encode banner

/-- The driver gives the program its bytes. The console takes only lines that are UTF-8, and shows no prompts if the
terminal can edit lines. -/
def Driver.Gives (bytes : Bytes) (settings : Settings) (context : Context) : Driver → Prop
  | script path => settings.script = some path ∧ context.files path = .ok bytes
  | piped =>
    settings.script = none ∧ settings.interactive = false ∧ context.interactive = false ∧ context.input = bytes
  | console => settings.script = none ∧ (settings.interactive = true ∨ context.interactive = true) ∧
    context.input = bytes ∧ (Utf8.decode? bytes).isSome = true ∧ (context.terminal.map isDumb).getD false = false

/-- The program is called so that it evaluates the bytes by the driver, with given files, given draws for each seed
and a given seed. -/
structure Driver.Calls (driver : Driver) (files : Files) (generator : UInt64 → Generator) (seed : UInt64)
    (bytes : Bytes) (context : Context) : Prop where
  files_eq : context.files = files
  generator_eq : context.generator = generator
  request : ∃ settings, parse context.arguments = .ok (.run settings) ∧ settings.seed.getD context.seed = seed ∧
    driver.Gives bytes settings context

/-- Standard output and the status. -/
def Ending.shown (e : Ending) : Bytes × Nat := (e.output, e.status)

/-- What is printed for a result after a heading, and the status. -/
def shownFor {α : Type} (heading : Bytes) : Except Fault α × Machine → Bytes × Nat
  | (.ok _, m) => (heading ++ m.output.written, 0)
  | (.error e, m) => (heading ++ m.output.written ++ Utf8.encode (report e), 1)

/-- What is shown of an evaluation is decided by how it ended and what it printed. -/
theorem shown_ofOutcome {α : Type} {finish : State → Bytes} {heading : Bytes}
    (h : ∀ s, finish s = heading ++ s.output.written) (o : Outcome α) :
    (Ending.ofOutcome finish o).map Ending.shown = o.ending?.map (shownFor heading) := by
  cases o with
  | done a s => simp [Ending.ofOutcome, Ending.shown, Outcome.ending?, shownFor, h]
  | failed e s => simp [Ending.ofOutcome, Ending.shown, Outcome.ending?, shownFor, h]
  | unfinished => rfl

/-- Loading a file shows what running its text shows. -/
theorem shown_load {files : Files} {path : Text} {bytes : Bytes} (hp : files path = .ok bytes) (fuel : Nat)
    (m : Machine) (f : Feed) : (load files fuel path ⟨m, f⟩).ending?.map (shownFor []) =
      (run files fuel ⟨m, .ofText (Utf8.decodeLossy bytes)⟩).ending?.map (shownFor []) := by
  unfold load loadFile
  rw [hp]
  simp only [bind_apply, within]
  cases run files fuel ⟨m, .ofText (Utf8.decodeLossy bytes)⟩ <;> rfl

/-! ## The console -/

/-- The console hands over well-formed bytes as they are read line by line. -/
theorem ofLines_consoleLines {bytes : Bytes} (h : (Utf8.decode? bytes).isSome = true) :
    Feed.ofLines (consoleLines bytes).1 = .ofBytes bytes ∧ (consoleLines bytes).2 = false := by
  obtain ⟨t, rfl⟩ := Utf8.exists_encode_of_decode? h
  obtain ⟨hlines, hrest⟩ := Utf8.exists_encode_of_mem_splitLines t
  have hdecode : ∀ lines : List Bytes, (∀ line ∈ lines, ∃ u, line = Utf8.encode u) →
      lines.map Utf8.decode? = (lines.map Utf8.decodeLossy).map some := by
    intro lines hl
    rw [List.map_map]
    refine List.map_congr_left fun line hmem => ?_
    obtain ⟨u, rfl⟩ := hl line hmem
    simp [Utf8.decode?_encode]
  have htake : ∀ ts : List Text, (ts.map some).takeWhile Option.isSome = ts.map some := by
    intro ts
    induction ts with
    | nil => rfl
    | cons t ts ih => simp [ih]
  unfold consoleLines Feed.ofBytes
  simp only [Option.isSome_none, Bool.false_eq_true, false_or]
  rw [hdecode]
  · rw [htake]
    simp [List.filterMap_map, Function.comp_def]
  · split
    · exact hlines
    · intro line hmem
      rcases List.mem_append.1 hmem with hmem | hmem
      · exact hlines line hmem
      · rw [List.mem_singleton] at hmem
        rwa [hmem]

@[simp] theorem insertAt_nil (t : Bytes) (start : Nat) (bytes : Bytes) : insertAt t start [] bytes = bytes := rfl

/-! ## One run behind all drivers -/

/-- Whatever the driver, the program shows what a run over the text of the bytes shows, after the heading. -/
theorem execute_of_calls {driver : Driver} {files : Files} {generator : UInt64 → Generator} {seed : UInt64}
    {bytes : Bytes} {context : Context} (h : driver.Calls files generator seed bytes context) (fuel : Nat) :
    (execute context fuel).map Ending.shown =
      (run files fuel ⟨.fresh {} (generator seed), .ofText (Utf8.decodeLossy bytes)⟩).ending?.map
        (shownFor driver.heading) := by
  obtain ⟨rfl, rfl, settings, hparse, rfl, hgives⟩ := h
  have htokens : (Feed.ofBytes bytes).tokens = (Feed.ofText (Utf8.decodeLossy bytes)).tokens :=
    (Feed.tokens_ofBytes bytes).trans (Feed.tokens_ofText _).symm
  have hrun := ending?_run_congr context.files fuel
    (.fresh {} (context.generator (settings.seed.getD context.seed))) htokens rfl rfl
  have hplain : ∀ s : State, s.output.written = [] ++ s.output.written := fun _ => rfl
  simp only [execute, hparse, runWith]
  cases driver with
  | script path =>
    obtain ⟨hscript, hpath⟩ := hgives
    rw [hscript]
    exact (shown_ofOutcome hplain _).trans (shown_load hpath fuel _ _)
  | piped =>
    obtain ⟨hscript, hsettings, hcontext, rfl⟩ := hgives
    rw [hscript, hsettings, hcontext, ← hrun]
    exact shown_ofOutcome hplain _
  | console =>
    obtain ⟨hscript, hinteractive, rfl, hvalid, hdumb⟩ := hgives
    obtain ⟨hfeed, hcut⟩ := ofLines_consoleLines hvalid
    have hconsole : (settings.interactive || context.interactive) = true := by simpa using hinteractive
    rw [hscript, ← hrun, ← hfeed]
    simp only [hconsole, if_true, runConsole, hdumb, hcut]
    refine shown_ofOutcome (fun s => ?_) _
    simp [Driver.heading]

/-- **The drivers agree**: whatever is drawn for a seed, there is one result for all of them, which the console shows
after the banner. If the evaluation succeeds, halted or not, it is what was printed, with status 0; if it fails, then
the line that reports the fault follows and the status is 1. (The system's words for an unreadable file are taken to
be one line.) -/
theorem drivers_agree (files : Files) (generator : UInt64 → Generator) (seed : UInt64) (bytes : Bytes) (fuel : Nat) :
    ∃ result : Option (Bytes × Nat),
      (∀ (driver : Driver) (context : Context), driver.Calls files generator seed bytes context →
        (execute context fuel).map Ending.shown = result.map fun r => (driver.heading ++ r.1, r.2)) ∧
      match run files fuel ⟨.fresh {} (generator seed), .ofText (Utf8.decodeLossy bytes)⟩ with
      | .done _ after => result = some (after.output.written, 0)
      | .failed e after =>
        result = some (after.output.written ++ Utf8.encode ("[ERROR] : ".toList ++ e.message ++ ['\n']), 1) ∧
          ((∀ path reason, e = .unreadableFile path reason → '\n' ∉ reason.message) → '\n' ∉ e.message)
      | .unfinished => result = none := by
  refine ⟨(run files fuel ⟨.fresh {} (generator seed), .ofText (Utf8.decodeLossy bytes)⟩).ending?.map (shownFor []),
    fun driver context h => ?_, ?_⟩
  · rw [execute_of_calls h, Option.map_map]
    congr 1
    funext r
    obtain ⟨r, m⟩ := r
    cases r <;> simp [shownFor]
  · cases hr : run files fuel ⟨.fresh {} (generator seed), .ofText (Utf8.decodeLossy bytes)⟩ with
    | done o after => rfl
    | failed e after =>
      have hline := @oneLine_message_of_run files fuel {} (generator seed) (.text (Utf8.decodeLossy bytes)) e after hr
      exact ⟨rfl, hline nofun⟩
    | unfinished => rfl

/-- A literal that spans two lines and a fault after it, by each of the drivers. -/
theorem drivers_agree_on_failure :
    let bytes := Utf8.encode "print [a\nb] run \"c".toList
    let files : Files := fun path => if path = ['p'] then .ok bytes else .error .notFound
    let script : Context := { arguments := ["--seed".toList, ['7'], ['p']], files }
    let piped : Context := { arguments := ["--seed=7".toList], input := bytes, files }
    let console : Context := { arguments := ["-i".toList, "--seed".toList, ['7']], input := bytes, files }
    let shown := Utf8.encode "a b\n[ERROR] : This is not a LIST: c\n".toList
    (execute script 4).map Ending.shown = some (shown, 1) ∧
      (execute piped 4).map Ending.shown = some (shown, 1) ∧
      (execute console 4).map Ending.shown = some (Utf8.encode banner ++ shown, 1) := by
  intro bytes files script piped console shown
  have hfile : files ['p'] = .ok bytes := if_pos rfl
  have hscript : (Driver.script ['p']).Calls files .ofSeed 7 bytes script :=
    ⟨rfl, rfl, { script := some ['p'], seed := some 7 }, by decide +kernel, rfl, rfl, hfile⟩
  have hpiped : Driver.piped.Calls files .ofSeed 7 bytes piped :=
    ⟨rfl, rfl, { seed := some 7 }, by decide +kernel, rfl, rfl, rfl, rfl, rfl⟩
  have hconsole : Driver.console.Calls files .ofSeed 7 bytes console :=
    ⟨rfl, rfl, { interactive := true, seed := some 7 }, by decide +kernel, rfl, rfl, .inl rfl, rfl, by decide +kernel,
      rfl⟩
  have hresult : (run files 4 ⟨.fresh {} (.ofSeed 7), .ofText (Utf8.decodeLossy bytes)⟩).result? =
      some (.error (.notAList ['c'])) := by decide +kernel
  have hwritten : (run files 4 ⟨.fresh {} (.ofSeed 7), .ofText (Utf8.decodeLossy bytes)⟩).state?.map
      (fun s => s.output.written) = some (Utf8.encode "a b\n".toList) := by decide +kernel
  obtain ⟨after, hfailed, -⟩ := Outcome.eq_failed_of_result? hresult
  have hagree := drivers_agree files .ofSeed 7 bytes 4
  rw [hfailed] at hagree hwritten
  obtain ⟨result, hall, hreported, -⟩ := hagree
  have hafter : after.output.written = Utf8.encode "a b\n".toList := Option.some.inj hwritten
  have hshown : result = some (shown, 1) := by
    have hreport : after.output.written ++
        Utf8.encode ("[ERROR] : ".toList ++ (Fault.notAList ['c']).message ++ ['\n']) = shown := by
      rw [hafter]
      decide +kernel
    rw [hreported, hreport]
  rw [hall _ _ hscript, hall _ _ hpiped, hall _ _ hconsole, hshown]
  simp only [Option.map_some, Driver.heading, List.nil_append, and_self]

end CommandLine

end MiniLogo
