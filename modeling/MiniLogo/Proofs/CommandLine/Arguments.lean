import Mathlib.Data.List.Perm.Basic
import MiniLogo.CommandLine.Options
import MiniLogo.Proofs.Number.Decimals

/-!
# Settings on the command line

The settings of a run can be written as arguments in many ways: the options that they call for in any order, each in any
of its spellings, and the script behind `--` (`Settings.Written`). However they are written, and whatever stands in the
filter and the name of the script, the arguments are read back as the settings (`parse_of_written`).

An option that is scanned is put in front of what the rest of the arguments is scanned to, and `--` ends the options
(`scan_of_spelled`). The options are looked up by their names alone, so that their order does not matter
(`given_of_perm`).
-/

namespace MiniLogo.CommandLine

variable {s : Settings} {line rest words : List Text}

/-! ## How settings are written -/

/-- An option as settings call for it. -/
inductive Given where
  | interactive
  | seed (n : UInt64)
  | log (filter : Text)

namespace Given

/-- The arguments that an option can be written as. -/
def spellings : Given → List (List Text)
  | interactive => [["-i".toList], ["--interactive".toList]]
  | seed n => [["--seed".toList, Decimal.digits n.toNat], ["--seed=".toList ++ Decimal.digits n.toNat]]
  | log filter => [["--log".toList, filter], ["--log=".toList ++ filter]]

/-- What the scan makes of an option. -/
def scanned : Given → Flag × Option Text
  | interactive => (.interactive, none)
  | seed n => (.seed, some (Decimal.digits n.toNat))
  | log filter => (.log, some filter)

end Given

/-- The arguments are the options in their order, each in one of its spellings. -/
inductive Spelled : List Given → List Text → Prop where
  | nil : Spelled [] []
  | cons {o : Given} {os : List Given} {words rest : List Text} :
      words ∈ o.spellings → Spelled os rest → Spelled (o :: os) (words ++ rest)

namespace Settings

/-- The options that the settings call for. -/
def given (s : Settings) : List Given :=
  (if s.interactive then [.interactive] else []) ++ (s.seed.map .seed).toList ++ (s.logFilter.map .log).toList

/-- The arguments behind the options: the script, if there is one, after the mark that ends the options. -/
def endings (s : Settings) : List (List Text) :=
  match s.script with
  | some path => [["--".toList, path]]
  | none => [[], ["--".toList]]

/-- The arguments are a way to write the settings. -/
def Written (s : Settings) (line : List Text) : Prop :=
  ∃ os words ending, os.Perm s.given ∧ Spelled os words ∧ ending ∈ s.endings ∧ line = words ++ ending

end Settings

/-! ## Scanning -/

section Scanning

variable {o : Flag} {c : Char} {name value : Text}

theorem forall_ne_equals (h : '=' ∉ name) : ∀ c ∈ name, decide (c ≠ '=') = true := fun _ hc =>
  decide_eq_true fun he => h (he ▸ hc)

/-- A name without an equals sign is not split. -/
theorem splitValue_of_not_mem (h : '=' ∉ name) : splitValue name = (name, none) := by
  have hdrop : name.dropWhile (fun c => decide (c ≠ '=')) = [] := List.dropWhile_eq_nil_iff.2 (forall_ne_equals h)
  rw [splitValue, List.takeWhile_eq_self_iff.2 (forall_ne_equals h), hdrop]
  rfl

/-- The first equals sign ends the name, whatever the value is. -/
theorem splitValue_append (h : '=' ∉ name) (value : Text) :
    splitValue (name ++ '=' :: value) = (name, some value) := by
  have hne := forall_ne_equals h
  rw [splitValue, List.takeWhile_append_of_pos hne, List.dropWhile_append_of_pos hne]
  simp

theorem equals_not_mem_long (o : Flag) : '=' ∉ o.long := by
  cases o <;> decide

/-- An option is found by its long name. -/
theorem ofName?_long (o : Flag) : Flag.ofName? o.long = some o := by
  cases o <;> decide

theorem long_ne_nil (o : Flag) : o.long ≠ [] := by
  cases o <;> decide

/-- An option without an argument. -/
theorem scan_long (ha : o.argument? = none) (rest : List Text) :
    scan (('-' :: '-' :: o.long) :: rest) = Scan.addOption o none <$> scan rest := by
  rw [scan]
  · simp only [splitValue_of_not_mem (equals_not_mem_long o), ofName?_long, ha, bind_pure_comp]
  · exact long_ne_nil o

/-- An option with its argument behind an equals sign. -/
theorem scan_joined (ha : o.argument?.isSome = true) (value : Text) (rest : List Text) :
    scan (('-' :: '-' :: (o.long ++ '=' :: value)) :: rest) = Scan.addOption o (some value) <$> scan rest := by
  obtain ⟨name, hname⟩ := Option.isSome_iff_exists.1 ha
  rw [scan]
  · simp only [splitValue_append (equals_not_mem_long o), ofName?_long, hname, bind_pure_comp]
  · simp

/-- An option with its argument behind it, whatever that looks like. -/
theorem scan_apart (ha : o.argument?.isSome = true) (value : Text) (rest : List Text) :
    scan (('-' :: '-' :: o.long) :: value :: rest) = Scan.addOption o (some value) <$> scan rest := by
  obtain ⟨name, hname⟩ := Option.isSome_iff_exists.1 ha
  rw [scan]
  · simp only [splitValue_of_not_mem (equals_not_mem_long o), ofName?_long, hname, bind_pure_comp]
  · exact long_ne_nil o

/-- An option by its letter. -/
theorem scan_letter (hc : Flag.ofLetter? c = some o) (hd : c ≠ '-') (rest : List Text) :
    scan (['-', c] :: rest) = Scan.addOption o none <$> scan rest := by
  have hgroup : scanLetters [c] = .ok [(o, none)] := by
    rw [scanLetters, hc]
    rfl
  rw [scan, hgroup]
  · exact bind_pure_comp (Scan.addOption o none) (scan rest)
  · exact fun h _ => hd h
  · exact hd

/-- An option is put in front of what the rest is scanned to. -/
theorem scan_spelling {o : Given} (h : words ∈ o.spellings) (rest : List Text) :
    scan (words ++ rest) = Scan.addOption o.scanned.1 o.scanned.2 <$> scan rest := by
  cases o with
  | interactive =>
    simp only [Given.spellings, List.mem_cons, List.not_mem_nil, or_false] at h
    rcases h with rfl | rfl
    · exact scan_letter (by decide) (by decide) rest
    · exact scan_long (o := .interactive) rfl rest
  | seed n =>
    simp only [Given.spellings, List.mem_cons, List.not_mem_nil, or_false] at h
    rcases h with rfl | rfl
    · exact scan_apart (o := .seed) rfl _ rest
    · exact scan_joined (o := .seed) rfl _ rest
  | log filter =>
    simp only [Given.spellings, List.mem_cons, List.not_mem_nil, or_false] at h
    rcases h with rfl | rfl
    · exact scan_apart (o := .log) rfl _ rest
    · exact scan_joined (o := .log) rfl _ rest

/-- Options that are spelled out are scanned as they were given, in front of what follows. -/
theorem scan_of_spelled {os : List Given} (h : Spelled os words) {found : Scan} (hrest : scan rest = .ok found) :
    scan (words ++ rest) = .ok { found with options := os.map Given.scanned ++ found.options } := by
  induction h with
  | nil => exact hrest
  | cons ho _ ih =>
    rw [List.append_assoc, scan_spelling ho, ih]
    rfl

/-- Behind the mark that ends the options everything is free. -/
theorem scan_ending (h : words ∈ s.endings) : scan words = .ok { free := s.script.toList } := by
  unfold Settings.endings at h
  cases hs : s.script with
  | none =>
    simp only [hs, List.mem_cons, List.not_mem_nil, or_false] at h
    rcases h with rfl | rfl <;> rfl
  | some path =>
    simp only [hs, List.mem_cons, List.not_mem_nil, or_false] at h
    rw [h]
    rfl

end Scanning

/-! ## Looking options up -/

/-- The arguments of an option that the settings call for. -/
def Settings.argumentsOf (s : Settings) : Flag → List (Option Text)
  | .interactive => if s.interactive then [none] else []
  | .seed => s.seed.toList.map fun n => some (Decimal.digits n.toNat)
  | .log => s.logFilter.toList.map some
  | .help | .version => []

/-- Settings give each option once at most. -/
theorem length_argumentsOf_le (s : Settings) (o : Flag) : (s.argumentsOf o).length ≤ 1 := by
  cases o with
  | interactive =>
    show (if s.interactive then [none] else []).length ≤ 1
    cases s.interactive <;> decide
  | seed => cases h : s.seed <;> simp [Settings.argumentsOf, h]
  | log => cases h : s.logFilter <;> simp [Settings.argumentsOf, h]
  | help | version => exact Nat.zero_le 1

theorem given_scanned (s : Settings) (free : List Text) (o : Flag) :
    Scan.given { options := s.given.map Given.scanned, free } o = s.argumentsOf o := by
  obtain ⟨script, interactive, seed, logFilter⟩ := s
  cases interactive <;> cases seed <;> cases logFilter <;> cases o <;> rfl

/-- The order of the options does not matter, since none of them is given twice. -/
theorem given_of_perm {os : List Given} (h : os.Perm s.given) (free : List Text) (o : Flag) :
    Scan.given { options := os.map Given.scanned, free } o = s.argumentsOf o := by
  have hperm : (Scan.given { options := os.map Given.scanned, free } o).Perm (s.argumentsOf o) := by
    rw [← given_scanned s free o]
    exact ((h.map Given.scanned).filter _).map _
  have hlength := length_argumentsOf_le s o
  generalize s.argumentsOf o = given at hperm hlength
  match given with
  | [] => exact List.perm_nil.1 hperm
  | [a] => exact List.perm_singleton.1 hperm

/-- A seed is read back from its digits. -/
theorem readSeed?_digits (n : UInt64) : readSeed? (Decimal.digits n.toNat) = some n := by
  have hdigits := Decimal.isDigits_digits n.toNat
  have hplus : ∀ ds, Decimal.digits n.toNat ≠ '+' :: ds := fun ds h =>
    absurd (hdigits '+' (by rw [h]; exact List.mem_cons_self)) (by decide)
  unfold readSeed?
  simp only [Decimal.ofDigits_digits]
  rw [if_pos ⟨Decimal.digits_ne_nil, List.all_eq_true.2 hdigits, n.toNat_lt⟩, UInt64.ofNat_toNat]

/-! ## Reading settings -/

section Reading

variable {found : Scan}

/-- A scan in which the options are found that the settings call for, and no other free argument than the script. -/
structure Finds (s : Settings) (found : Scan) : Prop where
  given : ∀ o, found.given o = s.argumentsOf o
  free : found.free = s.script.toList

/-- A line that writes settings is scanned to what finds them. -/
theorem finds_of_written (h : s.Written line) : ∃ found, scan line = .ok found ∧ Finds s found := by
  obtain ⟨os, words, ending, hperm, hspelled, hending, rfl⟩ := h
  have hscan := scan_of_spelled hspelled (scan_ending hending)
  rw [List.append_nil] at hscan
  exact ⟨_, hscan, given_of_perm hperm _, rfl⟩

/-- No option is found twice. -/
theorem Finds.none_repeated (h : Finds s found) :
    (Flag.all.find? fun o => decide (1 < (found.given o).length)) = none := by
  refine List.find?_eq_none.2 fun o _ => ?_
  rw [h.given, decide_eq_true_eq, Nat.not_lt]
  exact length_argumentsOf_le s o

theorem Finds.has_eq (h : Finds s found) : found.has .help = false ∧ found.has .version = false ∧
    found.has .interactive = s.interactive := by
  simp only [Scan.has, h.given, Settings.argumentsOf]
  cases s.interactive <;> decide

/-- The seed is found as it was written. -/
theorem Finds.argument?_seed (h : Finds s found) :
    found.argument? .seed = s.seed.map fun n => Decimal.digits n.toNat := by
  rw [Scan.argument?, h.given, Settings.argumentsOf]
  cases s.seed <;> rfl

theorem Finds.argument?_log (h : Finds s found) : found.argument? .log = s.logFilter := by
  rw [Scan.argument?, h.given, Settings.argumentsOf]
  cases s.logFilter <;> rfl

end Reading

/-- **Settings are read back.** However the settings of a run are written as arguments, with the options in any order
and each of them in any of its spellings, the arguments are read as these settings. The filter and the name of the
script may be empty, begin with dashes, have equals signs in them or be spelled like an option. -/
theorem parse_of_written (h : s.Written line) : parse line = .ok (.run s) := by
  obtain ⟨found, hscan, hfound⟩ := finds_of_written h
  obtain ⟨hhelp, hversion, hinteractive⟩ := hfound.has_eq
  have hfew : ¬ 1 < found.free.length := by
    rw [hfound.free]
    cases s.script <;> simp
  have hscript : found.free.head? = s.script := by
    rw [hfound.free]
    cases s.script <;> rfl
  unfold parse
  rw [hscan]
  simp only [bind, Except.bind, hfound.none_repeated, hhelp, hversion, hfound.argument?_seed, hfew, hscript,
    hinteractive, hfound.argument?_log]
  cases hseed : s.seed with
  | none =>
    show Except.ok (Request.run { s with seed := none }) = _
    rw [← hseed]
  | some n =>
    simp only [Option.map_some, readSeed?_digits]
    show Except.ok (Request.run { s with seed := some n }) = _
    rw [← hseed]

/-- The filter is spelled like an option that takes an argument, and the script like the mark that ends the options. -/
theorem parse_of_written_hostile :
    let s : Settings :=
      { script := some "--".toList, interactive := true, seed := some 0xFFFFFFFFFFFFFFFF,
        logFilter := some "--seed=".toList }
    let line := ["--log".toList, "--seed=".toList, "--seed=18446744073709551615".toList, "-i".toList, "--".toList,
      "--".toList]
    s.Written line ∧ parse line = .ok (.run s) := by
  intro s line
  have hlog : ["--log".toList, "--seed=".toList] ∈ (Given.log "--seed=".toList).spellings := by decide
  have hseed : ["--seed=18446744073709551615".toList] ∈ (Given.seed 0xFFFFFFFFFFFFFFFF).spellings := by decide
  have hinteractive : ["-i".toList] ∈ Given.interactive.spellings := by decide
  have hspelled := Spelled.cons hlog (.cons hseed (.cons hinteractive .nil))
  have hwritten : s.Written line :=
    ⟨_, _, ["--".toList, "--".toList], List.reverse_perm _, hspelled, List.mem_singleton_self _, rfl⟩
  exact ⟨hwritten, parse_of_written hwritten⟩

end MiniLogo.CommandLine
