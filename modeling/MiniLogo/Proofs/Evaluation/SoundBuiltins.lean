import MiniLogo.Proofs.Evaluation.Sound

/-!
# Builtins on sound states

What operations compute is a number or a truth value, and what they fail with quotes an operand (`Answers`). So
builtins whose operands and runs agree from sound states agree from them too (`agree_apply`), one case for each way
in which builtins use their operands.
-/

namespace MiniLogo

open MiniLogo.Action

variable {α : Type} {P Q : Value → Prop}

/-! ## Operations -/

/-- A builtin of another family is refused by its name, which is a token. -/
theorem quotes_name (b : Builtin) : Quotes P (.unknownInstruction b.name) :=
  quotes_of_quoted_eq_suffix rfl (words_name b) (List.suffix_refl _)

/-- A refusal quotes the text of the operand at most. -/
theorem answers_numberOperand (b : Builtin) {v : Value} (hv : P v) :
    Answers P (fun _ => True) (Operation.numberOperand b v) := by
  have hmismatch : Quotes P (.typeMismatch b .number v.kind) := quotes_of_quoted_eq_nil rfl
  cases v with
  | number n =>
    cases hn : n.value with
    | some x => simp only [Operation.numberOperand, hn]; trivial
    | none => simp only [Operation.numberOperand, hn]; exact quotes_of_quoted_eq_text rfl hv
  | erased k =>
    cases k with
    | number => exact quotes_of_quoted_eq_text rfl hv
    | bool | word | list | error | function => exact hmismatch
  | bool p | word t | list t | function t | error t => exact hmismatch

theorem answers_readText {v : Value} (hv : P v) : Answers P (fun _ => True) (Operation.readText v) := by
  unfold Operation.readText
  cases Decimal.read? (Text.trim v.text) with
  | some x => trivial
  | none => exact quotes_of_quoted_eq_text rfl hv

theorem answers_numericText {v : Value} (hv : P v) : Answers P (fun _ => True) (Operation.numericText v) := by
  unfold Operation.numericText
  split
  · trivial
  · exact answers_readText hv

theorem answers_truncate {v : Value} (hv : P v) : Answers P (fun _ => True) (Operation.truncate v) := by
  refine (answers_numericText hv).bind fun x _ => ?_
  cases Binary64.int64? x with
  | some i => trivial
  | none => exact quotes_of_quoted_eq_text rfl hv

theorem answers_compute (b : Builtin) (x y : Float) : Answers P (fun _ => True) (Operation.compute b x y) := by
  have hzero : Quotes P .divisionByZero := quotes_of_quoted_eq_nil rfl
  unfold Operation.compute
  split
  · trivial
  · trivial
  · trivial
  · split
    · exact hzero
    · trivial
  · split
    · exact hzero
    · trivial
  · exact quotes_name b

/-- Arithmetic computes numbers, or refuses an operand. -/
theorem answers_arithmetic (hQ : ∀ x, Q (.ofFloat x)) (b : Builtin) {v w : Value} (hv : P v) (hw : P w) :
    Answers P Q (Operation.arithmetic b v w) :=
  (answers_numberOperand b hv).bind fun x _ => (answers_numberOperand b hw).bind fun y _ =>
    (answers_compute b x y).bind fun z _ => hQ z

theorem answers_boolOperand (b : Builtin) (v : Value) : Answers P (fun _ => True) (Operation.boolOperand b v) := by
  unfold Operation.boolOperand
  cases v.truth? with
  | some p => trivial
  | none => exact quotes_of_quoted_eq_nil rfl

/-- The logical builtins compute truth values, or refuse an operand for its kind. -/
theorem answers_logic (hQ : ∀ b, Q (.bool b)) (b : Builtin) (v w : Value) : Answers P Q (Operation.logic b v w) := by
  refine (answers_boolOperand b v).bind fun p _ => (answers_boolOperand b w).bind fun q _ => ?_
  split
  · exact hQ _
  · exact hQ _
  · exact quotes_name b

theorem answers_not (hQ : ∀ b, Q (.bool b)) (v : Value) : Answers P Q (Operation.not v) :=
  (answers_boolOperand .not v).bind fun _ _ => hQ _

theorem answers_compare (hQ : ∀ b, Q (.bool b)) (b : Builtin) (v w : Value) :
    Answers P Q (Operation.compare b v w) := by
  unfold Operation.compare
  split
  · exact hQ _
  · exact hQ _
  · exact hQ _
  · exact quotes_name b

theorem answers_isEmpty (hQ : ∀ b, Q (.bool b)) (v : Value) : Answers P Q (Operation.isEmpty v) := by
  unfold Operation.isEmpty
  split
  · exact hQ _
  · exact hQ _
  · exact hQ _
  · exact hQ _
  · exact quotes_of_quoted_eq_nil rfl

/-! ## Builtins -/

variable {files : Files} {next next' : Action Value} {loop loop' : Action (Option Value)}

/-- A run gives no value or one with the property. -/
def Last (P : Value → Prop) (o : Option Value) : Prop := ∀ v ∈ o, P v

theorem kept_emptyList (hP : Kept P) : P .emptyList := by
  have h := hP.bracketed Text.joined_empty
  rwa [show Literal.value (Text.bracket []) = .emptyList by decide] at h

theorem Feed.sound_ofText (t : Text) : (ofText t).Sound P where
  tokens _ hw := Text.words_of_mem_words (tokens_ofText t ▸ hw)
  failure := nofun

/-- Lists are run alike, and a fault quotes the text of what is no list. -/
theorem agree_runList (hP : Kept P) (hl : Agree P (Last P) loop loop') {v : Value} (hv : P v) :
    Agree P P (runList loop v) (runList loop' v) := by
  unfold runList
  cases Text.unbracket? v.text with
  | some interior =>
    refine (hl.within (Feed.sound_ofText interior)).bind fun o ho => agree_pure ?_
    cases o with
    | some w => exact ho w rfl
    | none => exact kept_emptyList hP
  | none => exact agree_fail (quotes_of_quoted_eq_text rfl hv)

/-- A path is the end of the token that names it. -/
theorem unquote_suffix (t : Text) : unquote t <:+ t := by
  unfold unquote
  split
  · exact List.suffix_cons _ _
  · exact List.suffix_refl _

/-- Files are run alike, and a fault quotes the path. -/
theorem agree_loadFile (hP : Kept P) (hl : Agree P (Last P) loop loop') {raw : Text}
    (hr : Text.words raw = [raw]) :
    Agree P P (loadFile files loop (unquote raw)) (loadFile files loop' (unquote raw)) := by
  unfold loadFile
  cases files (unquote raw) with
  | ok bytes =>
    refine (hl.within (Feed.sound_ofText _)).bind fun o ho => agree_pure ?_
    cases o with
    | some w => exact ho w rfl
    | none => exact hP.bool true
  | error reason => exact agree_fail (quotes_of_quoted_eq_suffix rfl hr (unquote_suffix raw))

/-- Parts of values have the property, and a fault quotes no text. -/
theorem agree_access (hP : Kept P) (hn : Agree P P next next') (b : Builtin) (p : Part) :
    Agree P P (access next b p) (access next' b p) := by
  refine hn.bind fun v hv => ?_
  cases hp : p.ofValue? v with
  | some part => exact agree_pure (hP.part hv hp)
  | none => exact agree_fail (quotes_of_quoted_eq_nil rfl)

/-- An erased value has the property, and a fault quotes the end of the token. -/
theorem agree_erase (hP : Kept P) {raw : Text} (hr : Text.words raw = [raw]) :
    Agree P P (Action.erase raw) (Action.erase raw) := by
  unfold Action.erase
  split
  · rename_i name
    have hq : Quotes P (.undefinedVariable name) := quotes_of_quoted_eq_suffix rfl hr (List.suffix_cons _ _)
    refine (agree_lookup hq).bind fun v hv => ?_
    have he : P v.erase := hP.erase hv.1 hv.2
    exact (agree_define ⟨he, fun _ => rfl⟩ name).bind fun _ _ => agree_pure he
  · exact agree_fail (quotes_of_quoted_eq_suffix rfl hr (List.suffix_refl _))

/-- Whether a value describes a procedure does not depend on the name. -/
theorem ofLiteral?_isNone {name : Text} {v : Value} (h : Procedure.ofLiteral? name v = none) (other : Text) :
    (Procedure.ofLiteral? other v).isNone := by
  unfold Procedure.ofLiteral? at h ⊢
  cases v with
  | function t =>
    simp only [Option.bind_eq_bind] at h ⊢
    cases hu : Text.unbracket? t with
    | none => rfl
    | some interior =>
      rw [hu, Option.bind_some] at h
      rw [Option.bind_some]
      split at h
      · cases h
      · rfl
  | bool p | number n | word t | list t | error t | erased k => rfl

/-- Only functions describe procedures. -/
theorem ofLiteral?_eq_none {v : Value} (hv : v.kind ≠ .function) (name : Text) :
    Procedure.ofLiteral? name v = none := by
  cases v with
  | function t => exact absurd rfl hv
  | _ => rfl

/-- Builtins agree if their operands and their runs do. -/
theorem agree_apply (hP : Kept P) (hn : Agree P P next next') (hl : Agree P (Last P) loop loop') (b : Builtin) :
    Agree P P (apply files next loop b) (apply files next' loop' b) := by
  cases b with
  | add | sub | mul | div | mod =>
    exact hn.bind fun v hv => hn.bind fun w hw => agree_ofExcept (answers_arithmetic hP.ofFloat _ hv hw)
  | and | or => exact hn.bind fun v _ => hn.bind fun w _ => agree_ofExcept (answers_logic hP.bool _ v w)
  | eq | gt | lt => exact hn.bind fun v _ => hn.bind fun w _ => agree_ofExcept (answers_compare hP.bool _ v w)
  | not => exact hn.bind fun v _ => agree_ofExcept (answers_not hP.bool v)
  | isEmpty => exact hn.bind fun v _ => agree_ofExcept (answers_isEmpty hP.bool v)
  | isNumber | isBool | isWord | isList => exact hn.bind fun v _ => agree_pure (hP.bool _)
  | isName => exact hn.bind fun v _ => (agree_isBound v.text).bind fun p _ => agree_pure (hP.bool p)
  | first | last | butFirst | butLast => exact agree_access hP hn _ _
  | random =>
    exact hn.bind fun v hv => (agree_ofExcept (answers_numericText hv)).bind fun x _ =>
      agree_draw.bind fun d _ => agree_pure (hP.ofFloat _)
  | int => exact hn.bind fun v hv => (agree_ofExcept (answers_truncate hv)).bind fun i _ => agree_pure (hP.ofInt i)
  | sqrt =>
    exact hn.bind fun v hv => (agree_ofExcept (answers_numericText hv)).bind fun x _ => agree_pure (hP.ofFloat _)
  | make =>
    refine hn.bind fun name _ => hn.bind fun v hv => ?_
    cases hp : Procedure.ofLiteral? name.text v with
    | some p => exact (agree_pure (a := ()) (Q := fun _ => True) trivial).bind fun _ _ => agree_pure hv
    | none => exact (agree_define ⟨hv, ofLiteral?_isNone hp⟩ name.text).bind fun _ _ => agree_pure hv
  | print => exact hn.bind fun v hv => (agree_writeLine hP v.display).bind fun _ _ => agree_pure hv
  | erase => exact agree_nextToken.bind fun raw hr => agree_erase hP hr
  | load => exact agree_nextToken.bind fun raw hr => agree_loadFile hP hl hr
  | run => exact hn.bind fun v hv => agree_runList hP hl hv
  | ifElse =>
    refine hn.bind fun condition _ => ?_
    cases condition.truth? with
    | some flag =>
      refine hn.bind fun consequence hc => hn.bind fun alternative ha => agree_runList hP hl ?_
      cases flag
      · exact ha
      · exact hc
    | none => exact agree_fail (quotes_of_quoted_eq_nil rfl)
  | read => exact agree_nextToken.bind fun raw hr => agree_pure (hP.raw hr)
  | exit => exact agree_halt.bind fun _ _ => agree_pure (hP.bool false)

end MiniLogo
