import MiniLogo.Proofs.Evaluation.Extent

/-!
# What holds of every evaluation

A relation between actions that respects how evaluation is put together holds between any two evaluations of a token
whose operands and whose runs of all tokens are related. The relation is indexed by the wants that the actions meet
(`Want`), so that it can speak of the tokens they take; a property of one action is a relation of it to itself.

`Congruence R` lists what has to be shown of `R`, one clause for each action that evaluation is made of.
`Congruence.apply` goes through the builtins, once for all such relations, and `Congruence.expression` through the
forms of a token. A relation that the writing of a line breaks may still respect everything else
(`QuietCongruence`), and so every builtin but `print`.
-/

namespace MiniLogo

open MiniLogo.Action

/-- A relation between actions that meet given wants. -/
abbrev ActionRel : Type 1 := ∀ {α : Type}, List Want → Action α → Action α → Prop

/-- The relation respects the actions that evaluation is made of, but for the writing of lines. -/
structure QuietCongruence (R : ActionRel) : Prop where
  pure {α : Type} (a : α) : R [] (Pure.pure a) (Pure.pure a)
  /-- A failure may leave wants unmet. -/
  fail {α : Type} (ws : List Want) (e : Fault) : R ws (fail (α := α) e) (fail e)
  bind {α β : Type} {ws ws' : List Want} {x y : Action α} {f g : α → Action β} (hx : R ws x y)
    (hf : ∀ a, R ws' (f a) (g a)) : R (ws ++ ws') (x >>= f) (y >>= g)
  nextToken : R [.raw] nextToken nextToken
  /-- The next token decides what an expression wants. -/
  start {α : Type} {f g : Text → Action α}
    (hs : ∀ raw ws, Want.ofToken raw = some ws → R ws (f raw) (g raw))
    (hn : ∀ raw, Want.ofToken raw = none → ∃ e, f raw = Action.fail e ∧ g raw = Action.fail e) :
    R [.expression] (Action.nextToken >>= f) (Action.nextToken >>= g)
  readBracketed (first : Text) : R (Want.closings (Text.balance first)) (readBracketed first) (readBracketed first)
  lookup (name : Text) : R [] (lookup name) (lookup name)
  isBound (name : Text) : R [] (isBound name) (isBound name)
  define (name : Text) (v : Value) : R [] (define name v) (define name v)
  draw : R [] draw draw
  halt : R [] halt halt

/-- The relation respects the actions that evaluation is made of. -/
structure Congruence (R : ActionRel) : Prop extends QuietCongruence R where
  writeLine (t : Text) : R [] (writeLine t) (writeLine t)

section

variable {R : ActionRel} {files : Files} {next next' : Action Value} {loop loop' : Action (Option Value)}

namespace QuietCongruence

theorem ofExcept {α : Type} (h : QuietCongruence R) (r : Except Fault α) : R [] (ofExcept r) (Action.ofExcept r) := by
  cases r with
  | ok a => exact h.pure a
  | error e => exact h.fail [] e

/-- An action followed by one that meets no wants. -/
theorem andThen {α β : Type} {ws : List Want} {x y : Action α} {f g : α → Action β} (h : QuietCongruence R)
    (hx : R ws x y) (hf : ∀ a, R [] (f a) (g a)) : R ws (x >>= f) (y >>= g) := by
  simpa using h.bind hx hf

/-- Erasing looks a name up and binds it. -/
theorem erase (h : QuietCongruence R) (token : Text) : R [] (erase token) (erase token) := by
  unfold Action.erase
  split
  · exact h.andThen (h.lookup _) fun v => h.andThen (h.define _ _) fun _ => h.pure _
  · exact h.fail [] _

theorem access (h : QuietCongruence R) (hn : R [.expression] next next') (b : Builtin) (p : Part) :
    R [.expression] (access next b p) (access next' b p) := by
  refine h.andThen hn fun v => ?_
  cases p.ofValue? v with
  | some part => exact h.pure part
  | none => exact h.fail [] _

/-- A list is run on the feed of its interior, and anything else is refused. -/
theorem runList (h : QuietCongruence R) (hl : ∀ feed, R [] (within feed loop) (within feed loop')) (v : Value) :
    R [] (runList loop v) (runList loop' v) := by
  unfold Action.runList
  cases Text.unbracket? v.text with
  | some interior => exact h.andThen (hl _) fun _ => h.pure _
  | none => exact h.fail [] _

/-- A file is run on the feed of its text, and refused if it cannot be read. -/
theorem loadFile (h : QuietCongruence R) (hl : ∀ feed, R [] (within feed loop) (within feed loop')) (path : Text) :
    R [] (loadFile files loop path) (loadFile files loop' path) := by
  unfold Action.loadFile
  cases files path with
  | ok bytes => exact h.andThen (hl _) fun _ => h.pure _
  | error reason => exact h.fail [] _

/-- Builtins that write nothing are related if their operands and their runs are. -/
theorem apply (h : QuietCongruence R) (hn : R [.expression] next next')
    (hl : ∀ feed, R [] (within feed loop) (within feed loop')) {b : Builtin} (hb : b ≠ .print) :
    R b.wants (apply files next loop b) (apply files next' loop' b) := by
  cases b with
  | add | sub | mul | div | mod | and | or | eq | gt | lt =>
    exact h.bind hn fun left => h.andThen hn fun right => h.ofExcept _
  | not | isEmpty => exact h.andThen hn fun v => h.ofExcept _
  | isNumber | isBool | isWord | isList => exact h.andThen hn fun v => h.pure _
  | isName => exact h.andThen hn fun v => h.andThen (h.isBound _) fun _ => h.pure _
  | first | last | butFirst | butLast => exact h.access hn _ _
  | random =>
    exact h.andThen hn fun v => h.andThen (h.ofExcept _) fun bound => h.andThen h.draw fun x => h.pure _
  | int | sqrt => exact h.andThen hn fun v => h.andThen (h.ofExcept _) fun x => h.pure _
  | make =>
    refine h.bind hn fun name => h.andThen hn fun v => ?_
    cases Procedure.ofLiteral? name.text v with
    | some p => exact h.andThen (h.pure ()) fun _ => h.pure _
    | none => exact h.andThen (h.define _ _) fun _ => h.pure _
  | print => exact absurd rfl hb
  | erase => exact h.andThen h.nextToken fun t => h.erase t
  | load => exact h.andThen h.nextToken fun t => h.loadFile hl _
  | run => exact h.andThen hn fun v => h.runList hl v
  | ifElse =>
    refine h.bind hn fun condition => ?_
    -- a condition that is no truth value leaves both branches unread
    cases condition.truth? with
    | some flag => exact h.bind hn fun consequence => h.andThen hn fun alternative => h.runList hl _
    | none => exact h.fail [.expression, .expression] _
  | read => exact h.andThen h.nextToken fun t => h.pure _
  | exit => exact h.andThen h.halt fun _ => h.pure _

/-- Evaluations of a token are related if its operands are and, where it names a builtin, what this does is. -/
theorem evalWith (h : QuietCongruence R) (hn : R [.expression] next next') {raw : Text} {ws : List Want}
    (hw : Want.ofToken raw = some ws)
    (hb : ∀ b : Builtin, b.name = raw → R b.wants (Action.apply files next loop b) (Action.apply files next' loop' b)) :
    R ws (evalWith files next loop raw) (evalWith files next' loop' raw) := by
  have ht := Token.text_classify raw
  unfold Want.ofToken at hw
  unfold Action.evalWith
  cases hc : Token.classify raw with
  | word t => rw [hc] at hw; cases hw; exact h.pure _
  | number t => rw [hc] at hw; cases hw; exact h.pure _
  | bool b => rw [hc] at hw; cases hw; exact h.pure _
  | thing => rw [hc] at hw; cases hw; exact h.andThen hn fun v => h.lookup _
  | reference name => rw [hc] at hw; cases hw; exact h.lookup _
  | listStart first => rw [hc] at hw; cases hw; exact h.readBracketed first
  | name name =>
    rw [hc] at hw ht
    obtain ⟨b, hb', rfl⟩ := Option.map_eq_some_iff.1 hw
    obtain rfl : name = raw := ht
    simp only [hb']
    exact hb b (Builtin.name_of_ofName? hb')

end QuietCongruence

namespace Congruence

/-- Two relations that respect what evaluation is made of do so together. -/
theorem and {S : ActionRel} (hR : Congruence R) (hS : Congruence S) :
    Congruence fun ws x y => R ws x y ∧ S ws x y where
  pure a := ⟨hR.pure a, hS.pure a⟩
  fail ws e := ⟨hR.fail ws e, hS.fail ws e⟩
  bind hx hf := ⟨hR.bind hx.1 fun a => (hf a).1, hS.bind hx.2 fun a => (hf a).2⟩
  nextToken := ⟨hR.nextToken, hS.nextToken⟩
  start hs hn := ⟨hR.start (fun raw ws hw => (hs raw ws hw).1) hn, hS.start (fun raw ws hw => (hs raw ws hw).2) hn⟩
  readBracketed first := ⟨hR.readBracketed first, hS.readBracketed first⟩
  lookup name := ⟨hR.lookup name, hS.lookup name⟩
  isBound name := ⟨hR.isBound name, hS.isBound name⟩
  define name v := ⟨hR.define name v, hS.define name v⟩
  draw := ⟨hR.draw, hS.draw⟩
  halt := ⟨hR.halt, hS.halt⟩
  writeLine t := ⟨hR.writeLine t, hS.writeLine t⟩

/-- Builtins with related operands and related runs are related. -/
theorem apply (h : Congruence R) (hn : R [.expression] next next')
    (hl : ∀ feed, R [] (within feed loop) (within feed loop')) (b : Builtin) :
    R b.wants (apply files next loop b) (apply files next' loop' b) := by
  by_cases hb : b = .print
  · rw [hb]
    exact h.andThen hn fun v => h.andThen (h.writeLine _) fun _ => h.pure _
  · exact h.toQuietCongruence.apply hn hl hb

/-- Evaluations of a token are related if its operands and runs are. -/
theorem evalWith (h : Congruence R) (hn : R [.expression] next next')
    (hl : ∀ feed, R [] (within feed loop) (within feed loop')) {raw : Text} {ws : List Want}
    (hw : Want.ofToken raw = some ws) : R ws (evalWith files next loop raw) (evalWith files next' loop' raw) :=
  h.toQuietCongruence.evalWith hn hw fun b _ => h.apply hn hl b

/-- A token that is no instruction fails as it is. -/
theorem evalWith_eq_fail {raw : Text} (hw : Want.ofToken raw = none) :
    Action.evalWith files next loop raw = Action.fail (.unknownInstruction raw) := by
  have ht := Token.text_classify raw
  unfold Want.ofToken at hw
  unfold Action.evalWith
  cases hc : Token.classify raw with
  | name name =>
    rw [hc] at hw ht
    have hb : Builtin.ofName? name = none := Option.map_eq_none_iff.1 hw
    obtain rfl : name = raw := ht
    simp only [hb]
  | _ => rw [hc] at hw; cases hw

/-- Evaluations of the next expression are related if their operands and runs are. -/
theorem expression (h : Congruence R) (hn : R [.expression] next next')
    (hl : ∀ feed, R [] (within feed loop) (within feed loop')) :
    R [.expression] (Action.nextToken >>= Action.evalWith files next loop)
      (Action.nextToken >>= Action.evalWith files next' loop') :=
  h.start (fun _ _ hw => h.evalWith hn hl hw)
    fun raw hw => ⟨.unknownInstruction raw, evalWith_eq_fail hw, evalWith_eq_fail hw⟩

end Congruence

end

end MiniLogo
