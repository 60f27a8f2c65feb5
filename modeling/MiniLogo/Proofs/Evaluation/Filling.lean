import MiniLogo.Proofs.Evaluation.Placeholders
import MiniLogo.Proofs.Evaluation.Storable

/-!
# Filling placeholders

An action mirrors another one if from every state, with the placeholders filled, it ends as the other one does from
the state as it is: with values that are related, and in the state of the other one with its placeholders filled
(`Mirrors`). Evaluation mirrors evaluation on placeholders, if the alarm supplies the value that they are filled with
(`mirrors_eval`): what an operation comes to is no placeholder, so a value that is filled is one that a variable gave.
A fault is the same, but that of running a truth value, which quotes its text (`Fault.Fills`).
-/

namespace MiniLogo

open MiniLogo.Action

variable {α β γ δ : Type} {k : Kind} {stand v w : Value}

/-! ## Environments -/

theorem Value.fill_of_not_placeholder (h : v.isPlaceholder = false) : v.fill stand = v := by
  rw [fill, if_neg (Bool.eq_false_iff.1 h)]

theorem Value.fill_of_placeholder (h : v.isPlaceholder = true) : v.fill stand = stand := if_pos h

/-- A value that was filled with no placeholder is none. -/
theorem Value.isPlaceholder_fill (v : Value) (h : stand.isPlaceholder = false) :
    (v.fill stand).isPlaceholder = false := by
  cases hv : v.isPlaceholder with
  | false => rwa [fill_of_not_placeholder hv]
  | true => rwa [fill_of_placeholder hv]

/-- What is filled in is like the erased value. -/
theorem StandsFor.like_fill (h : StandsFor k stand) (v : Value) : (v.fill stand).Like (v.fill (.erased k)) := by
  cases hv : v.isPlaceholder with
  | false =>
    rw [Value.fill_of_not_placeholder hv, Value.fill_of_not_placeholder hv]
    exact .refl v
  | true =>
    rw [Value.fill_of_placeholder hv, Value.fill_of_placeholder hv]
    exact h.like

/-- Looking a name up in a filled frame gives what it gave before, filled. -/
theorem Frame.get?_fill (f : Frame) (stand : Value) (name : Text) :
    (f.fill stand).get? name = (f.get? name).map (·.fill stand) := by
  induction f with
  | nil => rfl
  | cons b f ih =>
    simp only [fill, List.map_cons, get?] at ih ⊢
    split
    · rfl
    · exact ih

/-- A frame may be filled before or after a name is bound. -/
theorem Frame.fill_insert (f : Frame) (name : Text) (v stand : Value) :
    Frame.fill (f.insert name v) stand = (f.fill stand).insert name (v.fill stand) := by
  induction f with
  | nil => rfl
  | cons b f ih =>
    simp only [insert, fill, List.map_cons] at ih ⊢
    split
    · rfl
    · rw [List.map_cons, ih]

namespace Environment

theorem get?_fill (e : Environment) (stand : Value) (name : Text) :
    (e.fill stand).get? name = (e.get? name).map (·.fill stand) :=
  e.top.get?_fill stand name

theorem fill_define (e : Environment) (name : Text) (v stand : Value) :
    (e.define name v).fill stand = (e.fill stand).define name (v.fill stand) := by
  rw [define, fill, Frame.fill_insert]
  rfl

/-- Filling binds no names and unbinds none. -/
theorem contains_fill (e : Environment) (stand : Value) (name : Text) :
    (e.fill stand).contains name = e.contains name := by
  have hframe (f : Frame) : (f.fill stand).contains name = f.contains name := by
    rw [Frame.contains, Frame.get?_fill, Option.isSome_map, Frame.contains]
  simp only [contains, fill, List.any_cons, List.any_map, hframe, Function.comp_def]

end Environment

/-! ## Actions that mirror others -/

/-- The faults are the same, but for the text of a truth value that was to be run. -/
def Fault.Fills (stand : Value) (e' e : Fault) : Prop :=
  e' = e ∨ stand.kind = .bool ∧ e' = .notAList stand.text ∧ e = .notAList []

/-- The first outcome is the second one with its placeholders filled. -/
inductive Outcome.Fills (stand : Value) (V : β → α → Prop) : Outcome β → Outcome α → Prop where
  | done {b : β} {a : α} {s : State} (h : V b a) : Fills stand V (.done b (s.fill stand)) (.done a s)
  | failed {e' e : Fault} {s : State} (h : Fault.Fills stand e' e) :
    Fills stand V (.failed e' (s.fill stand)) (.failed e s)
  | unfinished : Fills stand V .unfinished .unfinished

/-- The first action does with the placeholders filled what the second one does, with related values. -/
def Mirrors (stand : Value) (V : β → α → Prop) (x : Action β) (y : Action α) : Prop :=
  ∀ s, Outcome.Fills stand V (x (s.fill stand)) (y s)

/-- The first value is the second one, filled. -/
def Value.Fills (stand w v : Value) : Prop := w = v.fill stand

/-- The first value is the second one, and no placeholder. -/
def Value.Settled (w v : Value) : Prop := w = v ∧ v.isPlaceholder = false

/-- The first value is like the second one, and no placeholder. -/
def Value.Supplied (w v : Value) : Prop := w.Like v ∧ v.isPlaceholder = false

/-- The value that a run gives, filled. -/
def LastFills (stand : Value) (o' o : Option Value) : Prop := o' = o.map (·.fill stand)

section

variable {V : β → α → Prop} {W : δ → γ → Prop}

/-- One action after another mirrors another such pair, if what follows does so from values that are related. -/
theorem Mirrors.bind {x : Action β} {y : Action α} {f : β → Action δ} {g : α → Action γ} (h : Mirrors stand V x y)
    (hk : ∀ b a, V b a → Mirrors stand W (f b) (g a)) : Mirrors stand W (x >>= f) (y >>= g) := by
  intro s
  rw [bind_apply, bind_apply]
  match x (s.fill stand), y s, h s with
  | _, _, .done (s := after) hv => exact hk _ _ hv after
  | _, _, .failed he => exact .failed he
  | _, _, .unfinished => exact .unfinished

/-- A weaker relation between the values is mirrored too. -/
theorem Mirrors.mono {V' : β → α → Prop} {x : Action β} {y : Action α} (h : Mirrors stand V x y)
    (hV : ∀ b a, V b a → V' b a) : Mirrors stand V' x y := by
  intro s
  match x (s.fill stand), y s, h s with
  | _, _, .done hv => exact .done (hV _ _ hv)
  | _, _, .failed he => exact .failed he
  | _, _, .unfinished => exact .unfinished

/-- One action after another that gives the same value. -/
theorem Mirrors.andThen {x y : Action α} {f : α → Action δ} {g : α → Action γ} (h : Mirrors stand Eq x y)
    (hk : ∀ a, Mirrors stand W (f a) (g a)) : Mirrors stand W (x >>= f) (y >>= g) :=
  h.bind fun _ a ha => ha ▸ hk a

/-- Each runs on a feed of its own, and both go back to the one they came from. -/
theorem Mirrors.within {x : Action β} {y : Action α} (h : Mirrors stand V x y) (feed : Feed) :
    Mirrors stand V (within feed x) (within feed y) := by
  intro s
  unfold Action.within
  match x { s.fill stand with feed }, y { s with feed }, h { s with feed } with
  | _, _, .done (s := after) hv => exact .done (s := { after with feed := s.feed }) hv
  | _, _, .failed (s := after) he => exact .failed (s := { after with feed := s.feed }) he
  | _, _, .unfinished => exact .unfinished

theorem mirrors_pure {b : β} {a : α} (h : V b a) : Mirrors stand V (pure b) (pure a) := fun _ => .done h

theorem mirrors_fail (e : Fault) : Mirrors stand V (fail e) (fail e) := fun _ => .failed (.inl rfl)

theorem mirrors_giveUp : Mirrors stand V giveUp giveUp := fun _ => .unfinished

theorem mirrors_ofExcept {V : α → α → Prop} {r : Except Fault α} (h : ∀ a, r = .ok a → V a a) :
    Mirrors stand V (ofExcept r) (ofExcept r) := by
  cases r with
  | ok a => exact mirrors_pure (h a rfl)
  | error e => exact mirrors_fail e

theorem mirrors_onFeed {V : α → α → Prop} {f : Feed → α × Feed} (h : ∀ feed, V (f feed).1 (f feed).1) :
    Mirrors stand V (onFeed f) (onFeed f) := fun s => .done (s := { s with feed := (f s.feed).2 }) (h s.feed)

end

/-- What a variable can hold is no placeholder. -/
theorem Storable.isPlaceholder (h : Storable v) : v.isPlaceholder = false := by
  cases v with
  | error t => exact absurd h (by decide : Kind.error ∉ storableKinds)
  | _ => rfl

/-- What an expression comes to is no placeholder. -/
theorem Regular.isPlaceholder (h : Regular v) : v.isPlaceholder = false := by
  rcases h with h | ⟨t, -, rfl⟩
  · exact h.isPlaceholder
  · rfl

/-- A value that is no placeholder stays as it is. -/
theorem Value.fills_self (h : v.isPlaceholder = false) : Value.Fills stand v v := (fill_of_not_placeholder h).symm

/-- Values that are settled, so that they are the same and no placeholder, fill one another. -/
theorem Mirrors.fills {x y : Action Value} (h : Mirrors stand Value.Settled x y) :
    Mirrors stand (Value.Fills stand) x y :=
  h.mono fun _ _ hv => hv.1.trans (Value.fills_self hv.2)

/-! ## The feed and the machine -/

theorem mirrors_hasNext : Mirrors stand Eq hasNext hasNext := mirrors_onFeed fun _ => rfl

theorem mirrors_reportFailure : Mirrors stand Eq reportFailure reportFailure :=
  (mirrors_onFeed fun _ => rfl).andThen fun o => by
    cases o with
    | some reason => exact mirrors_fail _
    | none => exact mirrors_pure rfl

theorem mirrors_nextToken : Mirrors stand Eq nextToken nextToken :=
  (mirrors_onFeed fun _ => rfl).andThen fun o => by
    cases o with
    | some t => exact mirrors_pure rfl
    | none => exact mirrors_reportFailure.andThen fun _ => mirrors_fail _

/-- Literals are read alike, since a literal is no placeholder. -/
theorem mirrors_readBracketed (first : Text) :
    Mirrors stand (Value.Fills stand) (readBracketed first) (readBracketed first) := by
  refine (mirrors_onFeed (V := fun r' r => r' = r ∧ ∀ v, r = .ok v → v.isPlaceholder = false)
    fun feed => ⟨rfl, fun v hv => ?_⟩).bind fun r' r hr => ?_
  · obtain ⟨t, rfl⟩ := Feed.readBracketed_eq_value hv
    exact (regular_value t).isPlaceholder
  · obtain ⟨rfl, hv⟩ := hr
    exact mirrors_ofExcept fun v h => Value.fills_self (hv v h)

/-- A name is looked up in the filled variables and in the others: what is found there is filled or not. -/
theorem mirrors_lookup (name : Text) : Mirrors stand (Value.Fills stand) (lookup name) (lookup name) := by
  intro s
  have hget := s.environment.get?_fill stand name
  unfold lookup
  rw [show (s.fill stand).environment = s.environment.fill stand from rfl, hget]
  cases s.environment.get? name with
  | some v => exact .done rfl
  | none => exact .failed (.inl rfl)

/-- The same names are bound in both. -/
theorem mirrors_isBound (name : Text) : Mirrors stand Eq (isBound name) (isBound name) :=
  fun s => .done (s.environment.contains_fill stand name)

/-- What is bound is filled. -/
theorem mirrors_define (name : Text) (h : Value.Fills stand w v) :
    Mirrors stand Eq (define name w) (define name v) := by
  obtain rfl : w = v.fill stand := h
  intro s
  have hdefine : { s.fill stand with environment := (s.fill stand).environment.define name (v.fill stand) } =
      State.fill { s with environment := s.environment.define name v } stand := by
    simp only [State.fill, Environment.fill_define]
  unfold define
  rw [hdefine]
  exact .done rfl

theorem mirrors_writeLine (t : Text) : Mirrors stand Eq (writeLine t) (writeLine t) := by
  intro s
  have houtput : (s.fill stand).output = s.output := rfl
  unfold writeLine
  rw [houtput]
  cases s.output.write (Utf8.encode (t ++ ['\n'])) with
  | mk fits output =>
    cases fits with
    | true => exact .done (s := { s with output }) rfl
    | false => exact .failed (s := { s with output }) (.inl rfl)

theorem mirrors_draw : Mirrors stand Eq draw draw := by
  intro s
  have hgenerator : (s.fill stand).generator = s.generator := rfl
  unfold draw
  rw [hgenerator]
  cases s.generator.draw with
  | mk x generator => exact .done (s := { s with generator }) rfl

theorem mirrors_halt : Mirrors stand Eq halt halt := fun s => .done (s := { s with halted := true }) rfl

theorem mirrors_isHalted : Mirrors stand Eq isHalted isHalted := fun _ => .done rfl

/-! ## Builtins -/

variable {files : Files} {next next' : Action Value} {loop loop' : Action (Option Value)} {b : Builtin}

/-- What is run has no placeholder as its value but one that a variable gave. -/
theorem mirrors_runList (hl : Mirrors stand (LastFills stand) loop loop') (v : Value) :
    Mirrors stand (Value.Fills stand) (runList loop v) (runList loop' v) := by
  unfold runList
  cases Text.unbracket? v.text with
  | some interior =>
    refine (hl.within (.ofText interior)).bind fun o' o ho => mirrors_pure ?_
    subst ho
    cases o <;> rfl
  | none => exact mirrors_fail _

/-- Files are the same for both, and so are the texts they hold. -/
theorem mirrors_loadFile (hl : Mirrors stand (LastFills stand) loop loop') (path : Text) :
    Mirrors stand (Value.Fills stand) (loadFile files loop path) (loadFile files loop' path) := by
  unfold loadFile
  cases files path with
  | ok bytes =>
    refine (hl.within (.ofText (Utf8.decodeLossy bytes))).bind fun o' o ho => mirrors_pure ?_
    subst ho
    cases o <;> rfl
  | error reason => exact mirrors_fail _

/-- What stands in is refused as a placeholder is, but for the text of a truth value. -/
theorem StandsFor.refused (h : StandsFor k stand) (hk : k ≠ .list) :
    Fault.Fills stand (.notAList stand.text) (.notAList []) := by
  obtain ⟨hmem, rfl | rfl⟩ := h
  · exact .inl rfl
  · rcases cases_of_mem_emptyKinds hmem with rfl | rfl | rfl
    · exact .inr ⟨rfl, rfl, rfl⟩
    · exact .inl rfl
    · exact absurd rfl hk

/-- A value that stands in is run as its kind is: a list by the alarm, and any other is refused. -/
theorem mirrors_runPlacedList (hs : StandsFor k stand) (hl : Mirrors stand (LastFills stand) loop loop')
    (h : Value.Fills stand w v) :
    Mirrors stand (Value.Fills stand) (runList loop w) (runPlacedList k (pure stand) loop' v) := by
  obtain rfl : w = v.fill stand := h
  unfold runPlacedList
  cases hv : v.isPlaceholder with
  | false =>
    rw [Value.fill_of_not_placeholder hv]
    exact mirrors_runList hl v
  | true =>
    rw [Value.fill_of_placeholder hv, if_pos rfl]
    by_cases hk : k = .list
    · rw [if_pos hk]
      exact mirrors_runList hl stand
    · rw [if_neg hk, runList, hs.unbracket? hk]
      exact fun s => .failed (hs.refused hk)

/-- An alarm that gives the stand-in is no alarm: it fills what comes. -/
theorem alarmed_pure (stand : Value) (next : Action Value) :
    alarmed (pure stand) next = do return (← next).fill stand := by
  unfold alarmed
  refine congrArg (next >>= ·) (funext fun v => ?_)
  unfold Value.fill
  split <;> rfl

/-- The operand of a builtin that consumes none but settled values. -/
theorem mirrors_alarmed (hs : StandsFor k stand) (hn : Mirrors stand (Value.Fills stand) next next') :
    Mirrors stand Value.Settled next (alarmed (pure stand) next') := by
  rw [alarmed_pure, ← bind_pure next]
  exact hn.bind fun w v h => mirrors_pure ⟨h, Value.isPlaceholder_fill v hs.isPlaceholder⟩

/-- The operand of a builtin that consumes any value. -/
theorem mirrors_supplied (hs : StandsFor k stand) (hn : Mirrors stand (Value.Fills stand) next next') :
    Mirrors stand Value.Supplied next (supplied k next') := by
  rw [← bind_pure next]
  refine hn.bind fun w v h => mirrors_pure ⟨?_, Value.isPlaceholder_fill v rfl⟩
  rw [h]
  exact hs.like_fill v

/-- The operand of a builtin that does not consume erased values. -/
theorem Mirrors.bind_settled {x y : Action Value} {f : Value → Action β} {g : Value → Action α} {V : β → α → Prop}
    (h : Mirrors stand Value.Settled x y) (hk : ∀ v, v.isPlaceholder = false → Mirrors stand V (f v) (g v)) :
    Mirrors stand V (x >>= f) (y >>= g) :=
  h.bind fun _ v hv => hv.1 ▸ hk v hv.2

theorem Answers.mirrors {r : Except Fault Value}
    (h : Answers (fun _ => True) (fun v => v.isPlaceholder = false) r) :
    Mirrors stand Value.Settled (ofExcept r) (ofExcept r) :=
  mirrors_ofExcept fun v hv => by
    rw [hv] at h
    exact ⟨rfl, h⟩

/-- Erasing a variable that holds a placeholder erases the value that stands for it. -/
theorem mirrors_erasePlaced (hs : StandsFor k stand) (t : Text) :
    Mirrors stand (Value.Fills stand) (erase t) (erasePlaced k t) := by
  unfold erase
  split
  · refine (mirrors_lookup _).bind fun w v h => ?_
    have herased : w.erase = (v.fill (.erased k)).erase := by
      rw [h, Value.erase, (hs.like_fill v).kind, Value.erase]
    rw [herased]
    exact (mirrors_define _ (Value.fills_self rfl)).andThen fun _ => mirrors_pure (Value.fills_self rfl)
  · rename_i hname
    have hplaced : erasePlaced k t = fail (.expectedVariable t) := by
      unfold erasePlaced
      split
      · exact absurd rfl (hname _)
      · rfl
    rw [hplaced]
    exact mirrors_fail _

/-- What stands in for a placeholder describes no procedure, nor does the placeholder. -/
theorem StandsFor.ofLiteral?_fill (h : StandsFor k stand) (name : Text) (v : Value) :
    Procedure.ofLiteral? name (v.fill stand) = Procedure.ofLiteral? name v := by
  cases v with
  | error t =>
    have hkind : stand.kind ≠ .function := by
      rw [h.like.kind]
      rcases cases_of_mem_emptyKinds h.1 with rfl | rfl | rfl <;> decide
    exact ofLiteral?_eq_none hkind name
  | _ => rfl

/-- `make` binds the value that stands for a placeholder where the other one binds the placeholder. -/
theorem mirrors_make (hs : StandsFor k stand) (name : Value) (h : Value.Fills stand w v) :
    Mirrors stand (Value.Fills stand) (settleTwo .make name w) (settleTwo .make name v) := by
  have hw : Procedure.ofLiteral? name.text w = Procedure.ofLiteral? name.text v := by
    rw [h, hs.ofLiteral?_fill]
  rw [settleTwo, settleTwo, hw]
  cases Procedure.ofLiteral? name.text v with
  | some p => exact (mirrors_pure (b := ()) rfl).andThen fun _ => mirrors_pure h
  | none => exact (mirrors_define _ h).andThen fun _ => mirrors_pure h

/-- A part is taken of the same value in both. -/
theorem mirrors_access (v : Value) (b : Builtin) (p : Part) :
    Mirrors stand Value.Settled (access (pure v) b p) (access (pure v) b p) := by
  unfold access
  rw [pure_bind]
  cases hp : p.ofValue? v with
  | some part => exact mirrors_pure ⟨rfl, (lasting_storable.part hp).isPlaceholder⟩
  | none => exact mirrors_fail _

/-- A builtin that consumes a value comes to the same value, which is no placeholder. -/
theorem mirrors_settleOne (loop loop' : Action (Option Value)) (hb : b.consumes = true) (h : Value.Supplied w v) :
    Mirrors stand Value.Settled (settleOne loop b w) (settleOne loop' b v) := by
  rw [settleOne_like hb h.1]
  cases b with
  | not => exact (answers_not (fun _ => rfl) v).mirrors
  | isEmpty => exact (answers_isEmpty (fun _ => rfl) v).mirrors
  | isNumber | isBool | isWord | isList => exact mirrors_pure ⟨rfl, rfl⟩
  | first | last | butFirst | butLast => exact mirrors_access v _ _
  | and | or => exact mirrors_giveUp
  | _ => cases hb

/-- A builtin that consumes its operands comes to the same value from both, for it does not tell them apart. -/
theorem mirrors_settleTwo {v' w' : Value} (hb : b.consumes = true) (hv : Value.Supplied v' v)
    (hw : Value.Supplied w' w) : Mirrors stand Value.Settled (settleTwo b v' w') (settleTwo b v w) := by
  rw [settleTwo_like hb hv.1 hw.1]
  cases b with
  | and | or => exact (answers_logic (fun _ => rfl) _ v w).mirrors
  | not | isEmpty | isNumber | isBool | isWord | isList | first | last | butFirst | butLast => exact mirrors_giveUp
  | _ => cases hb

/-- What a builtin that consumes values does with values that are like each other. -/
theorem mirrors_apply_consumes (loop loop' : Action (Option Value)) (hb : b.consumes = true)
    (hn : Mirrors stand Value.Supplied next next') :
    Mirrors stand Value.Settled (apply files next loop b) (apply files next' loop' b) := by
  rw [apply_eq, apply_eq]
  cases b with
  | and | or =>
    rw [operands_two rfl, operands_two rfl]
    simp only [bind_assoc, pure_bind]
    exact hn.bind fun v' v hv => hn.bind fun w' w hw => mirrors_settleTwo hb hv hw
  | not | isEmpty | isNumber | isBool | isWord | isList | first | last | butFirst | butLast =>
    rw [operands_one rfl, operands_one rfl]
    simp only [bind_assoc, pure_bind]
    exact hn.bind fun w v h => mirrors_settleOne loop loop' hb h
  | _ => cases hb

/-- Builtins mirror one another, by what each of them does with a placeholder among its operands. -/
theorem mirrors_applyPlaced (hs : StandsFor k stand) (hn : Mirrors stand (Value.Fills stand) next next')
    (hl : Mirrors stand (LastFills stand) loop loop') (b : Builtin) :
    Mirrors stand (Value.Fills stand) (apply files next loop b)
      (applyPlaced files k (pure stand) next' loop' b) := by
  have hsettled := mirrors_alarmed hs hn
  have hsupplied := mirrors_supplied hs hn
  have hbool (p : Bool) : Value.Fills stand (.bool p) (.bool p) := Value.fills_self rfl
  cases b with
  | add | sub | mul | div | mod =>
    exact hsettled.bind_settled fun v _ => hsettled.bind_settled fun w _ =>
      (answers_arithmetic (fun _ => rfl) _ trivial trivial).mirrors.fills
  | eq | gt | lt =>
    exact hsettled.bind_settled fun v _ => hsettled.bind_settled fun w _ =>
      (answers_compare (fun _ => rfl) _ v w).mirrors.fills
  | isName =>
    exact hsettled.bind_settled fun v _ => (mirrors_isBound v.text).andThen fun p => mirrors_pure (hbool p)
  | random =>
    exact hsettled.bind_settled fun v _ => (mirrors_ofExcept (V := Eq) fun _ _ => rfl).andThen fun x =>
      mirrors_draw.andThen fun d => mirrors_pure (Value.fills_self rfl)
  | int | sqrt =>
    exact hsettled.bind_settled fun v _ => (mirrors_ofExcept (V := Eq) fun _ _ => rfl).andThen fun x =>
      mirrors_pure (Value.fills_self rfl)
  | make => exact hsettled.bind_settled fun name _ => hn.bind fun w v h => mirrors_make hs name h
  | print =>
    exact hsettled.bind_settled fun v hv => (mirrors_writeLine v.display).andThen fun _ =>
      mirrors_pure (Value.fills_self hv)
  | not | isEmpty | isNumber | isBool | isWord | isList | first | last | butFirst | butLast | and | or =>
    exact (mirrors_apply_consumes loop loop' rfl hsupplied).fills
  | erase => exact mirrors_nextToken.andThen fun t => mirrors_erasePlaced hs t
  | load => exact mirrors_nextToken.andThen fun t => mirrors_loadFile hl _
  | run => exact hn.bind fun w v h => mirrors_runPlacedList hs hl h
  | ifElse =>
    refine hsupplied.bind fun c' c hc => ?_
    rw [hc.1.truth, hc.1.kind]
    cases c.truth? with
    | some flag =>
      refine hn.bind fun v' v hv => hn.bind fun w' w hw => mirrors_runPlacedList hs hl ?_
      cases flag
      · exact hw
      · exact hv
    | none => exact mirrors_fail _
  | read => exact mirrors_nextToken.andThen fun t => mirrors_pure (Value.fills_self rfl)
  | exit => exact mirrors_halt.andThen fun _ => mirrors_pure (hbool false)

/-! ## Evaluation -/

/-- What a token does that names no builtin. -/
theorem mirrors_evalWith_of_ofName?_eq_none {raw : Text} (hr : Builtin.ofName? raw = none)
    (hn : Mirrors stand Value.Settled next next') :
    Mirrors stand (Value.Fills stand) (evalWith files next loop raw) (evalWith files next' loop' raw) := by
  have ht := Token.text_classify raw
  unfold evalWith
  cases hc : Token.classify raw with
  | word t => exact mirrors_pure (Value.fills_self rfl)
  | number t => exact mirrors_pure (Value.fills_self rfl)
  | bool p => exact mirrors_pure (Value.fills_self rfl)
  | thing => exact hn.bind_settled fun v _ => mirrors_lookup v.text
  | reference name => exact mirrors_lookup name
  | listStart first => exact mirrors_readBracketed first
  | name name =>
    rw [hc] at ht
    obtain rfl : name = raw := ht
    simp only [hr]
    exact mirrors_fail _

theorem mirrors_finish {o o' : Option Value} (h : LastFills stand o' o) :
    Mirrors stand (LastFills stand) (finish o') (finish o) :=
  mirrors_reportFailure.andThen fun _ => mirrors_pure h

/-- Runs mirror one another if their expressions do. -/
theorem mirrors_drive (hn : Mirrors stand (Value.Fills stand) next next') (n : Nat) {o o' : Option Value}
    (h : LastFills stand o' o) : Mirrors stand (LastFills stand) (drive next n o') (drive next' n o) := by
  induction n generalizing o o' with
  | zero => exact mirrors_giveUp
  | succ n ih =>
    refine mirrors_isHalted.andThen fun halted => ?_
    cases halted with
    | true => exact mirrors_finish h
    | false =>
      refine mirrors_hasNext.andThen fun more => ?_
      cases more with
      | true => exact hn.bind fun w v hv => ih (congrArg some hv)
      | false => exact mirrors_finish h

/-- **Evaluation does with the placeholders filled what evaluation on placeholders does.** -/
theorem mirrors_eval (hs : StandsFor k stand) (files : Files) (fuel : Nat) (raw : Text) :
    Mirrors stand (Value.Fills stand) (eval files fuel raw) (evalPlaced files k (pure stand) fuel raw) := by
  induction fuel generalizing raw with
  | zero => exact mirrors_giveUp
  | succ fuel ih =>
    have hn : Mirrors stand (Value.Fills stand) (evalNext files fuel) (nextPlaced files k (pure stand) fuel) :=
      mirrors_nextToken.andThen ih
    have hl : Mirrors stand (LastFills stand) (run files fuel) (runPlaced files k (pure stand) fuel) :=
      mirrors_drive hn fuel rfl
    rw [eval_succ, evalPlaced_succ]
    cases hr : Builtin.ofName? raw with
    | some b =>
      obtain rfl := Builtin.name_of_ofName? hr
      rw [evalWith_name]
      exact mirrors_applyPlaced hs hn hl b
    | none => exact mirrors_evalWith_of_ofName?_eq_none hr (mirrors_alarmed hs hn)

/-- A builtin that consumes values comes to the same value, whatever is filled in. -/
theorem mirrors_eval_consumes (hs : StandsFor k stand) (files : Files) (fuel : Nat) (hb : b.consumes = true) :
    Mirrors stand Value.Settled (eval files fuel b.name) (evalPlaced files k (pure stand) fuel b.name) := by
  cases fuel with
  | zero => exact mirrors_giveUp
  | succ fuel =>
    have hn : Mirrors stand (Value.Fills stand) (evalNext files fuel) (nextPlaced files k (pure stand) fuel) :=
      mirrors_nextToken.andThen (mirrors_eval hs files fuel)
    rw [eval_succ, evalWith_name, evalPlaced_succ, Builtin.ofName?_name]
    simp only [applyPlaced_of_consumes hb]
    exact mirrors_apply_consumes _ _ hb (mirrors_supplied hs hn)

/-- Runs mirror one another. -/
theorem mirrors_run (hs : StandsFor k stand) (files : Files) (fuel : Nat) :
    Mirrors stand (LastFills stand) (run files fuel) (runPlaced files k (pure stand) fuel) :=
  mirrors_drive (mirrors_nextToken.andThen (mirrors_eval hs files fuel)) fuel rfl

end MiniLogo
