import MiniLogo.Proofs.Evaluation.Settling
import MiniLogo.Proofs.Evaluation.Storable

/-!
# The targets of `make`

A log says of a state which names an action binds from it, in the order in which it binds them: those of the first of
two actions, and then those of the second one if there is one (`Log.bind`). `evalTargets` is the log of an expression:
it goes through the operands, whether or not they all end with a value, to the name that a `make` before something
else than a function binds (`Builtin.target`), and through the text that is run (`runTargets`).

After an evaluation from storable variables the names of the log are bound, and the other names are what they were
but for erasing (`Environment.Gains`, `binds_eval`, `binds_run`). A session has the logs of its calls (`History`), and
so the same is true of a session (`History.gains`).
-/

namespace MiniLogo

open MiniLogo.Action

/-! ## Logs -/

/-- The names that an action binds from a state. -/
abbrev Log : Type := State → List Text

def Log.none : Log := fun _ => []

/-- The names that an action binds and then those of what it goes on with. -/
def Log.bind {α : Type} (l : Log) (x : Action α) (k : α → Log) : Log := fun s =>
  l s ++ match x s with
    | .done a after => k a after
    | _ => []

/-- The names that an action binds on another feed. -/
def Log.within (feed : Feed) (l : Log) : Log := fun s => l { s with feed }

/-- The name that a builtin itself binds: the target of a `make` before something else than a function. -/
def Builtin.target (b : Builtin) : List Operand → List Text
  | [.value name, .value v] => if b = .make ∧ v.kind ≠ .function then [name.text] else []
  | _ => []

/-- The names that are bound while what is wanted is taken: a token as it is binds none. -/
def takeTargets (l : Log) : Option Want → Log
  | none | some .raw => .none
  | _ => l

/-- The names that are bound while operands are taken. -/
def gatherTargets (next : Action Value) (l : Log) (b : Builtin) : Nat → Log
  | 0 => .none
  | n + 1 => (gatherTargets next l b n).bind (gather next b n) fun ops => takeTargets l (b.wanting ops)

/-- The names that are bound once the operands are there, by the builtin itself or by the text that it runs. -/
def settleTargets (files : Files) (l : Log) (b : Builtin) (ops : List Operand) : Log := fun s =>
  b.target ops ++ match b.body? files ops with
    | some body => l.within (.ofText body) s
    | none => []

/-- The names that are bound by a builtin. -/
def applyTargets (files : Files) (next : Action Value) (l loop : Log) (b : Builtin) : Log :=
  (gatherTargets next l b b.wants.length).bind (operands next b) (settleTargets files loop b)

/-- The names that are bound by a run, expression by expression. -/
def driveTargets (next : Action Value) (l : Log) : Nat → Log
  | 0 => .none
  | n + 1 => fun s =>
    if s.halted ∨ s.feed.tokens = [] then [] else l.bind next (fun _ => driveTargets next l n) s.asked

/-- The names that are bound by an expression that starts with a given token. -/
def evalTargets (files : Files) : Nat → Text → Log
  | 0, _ => .none
  | fuel + 1, raw =>
    let next : Log := Log.none.bind nextToken (evalTargets files fuel)
    match Token.classify raw with
    | .thing => next
    | .name name => match Builtin.ofName? name with
      | some b => applyTargets files (evalNext files fuel) next (driveTargets (evalNext files fuel) next fuel) b
      | none => .none
    | _ => .none

def nextTargets (files : Files) (fuel : Nat) : Log := Log.none.bind nextToken (evalTargets files fuel)

def runTargets (files : Files) (fuel : Nat) : Log := driveTargets (evalNext files fuel) (nextTargets files fuel) fuel

def loadTargets (files : Files) (fuel : Nat) (path : Text) : Log := fun s =>
  match files path with
  | .ok bytes => (runTargets files fuel).within (.ofText (Utf8.decodeLossy bytes)) s
  | .error _ => []

/-- The first target is bound by an operand, before the fault, and the second one by the body of a `run`; the function
is bound to nothing. -/
example : runTargets (fun _ => .error .notFound) 5 ⟨{ environment := .empty },
    .ofText "print make \"x \"a run [make \"y 5] make \"f [[p][q]] add make \"z [] \"b make \"w []".toList⟩ =
      [['x'], ['y'], ['z']] := by
  decide +kernel

section

variable {α β : Type} {Q : α → Prop} {x : Action α} {l : Log}

/-! ## Actions that leave the variables alone -/

def Machine.SameVariables (m m' : Machine) : Prop := m'.environment = m.environment

/-- Only the binding of a name changes the variables. -/
theorem sameVariables_steady : Steady Machine.SameVariables where
  refl _ := rfl
  trans h h' := h'.trans h
  write _ _ := rfl
  draw _ := rfl
  halt _ := rfl

/-- However the action ends, the variables are what they were. -/
def SparesVariables (x : Action α) : Prop := Moves Machine.SameVariables x

theorem sparesVariables_writeLine (t : Text) : SparesVariables (writeLine t) :=
  moves_writeLine sameVariables_steady t

theorem SparesVariables.bind {k : α → Action β} (hx : SparesVariables x) (hk : ∀ a, SparesVariables (k a)) :
    SparesVariables (x >>= k) :=
  Moves.bind sameVariables_steady hx hk

/-- What evaluation is made of leaves the variables alone, but for the binding of names. -/
theorem spares : Plain fun x _ => SparesVariables x := moves_plain sameVariables_steady

theorem sparesVariables_access (b : Builtin) (p : Part) (v : Value) : SparesVariables (access (pure v) b p) :=
  (spares.pure v).bind fun v => by
    cases p.ofValue? v with
    | some part => exact spares.pure part
    | none => exact spares.fail _

/-! ## Actions that bind the names of a log -/

/-- What became of a variable that no `make` named: it is what it was, or what erasing left of it. -/
def Lasts (before after : Option Value) : Prop := after = before ∨ after = before.map Value.erase

theorem Lasts.refl (o : Option Value) : Lasts o o := .inl rfl

/-- To be erased twice is to be erased once. -/
theorem Lasts.trans {o o' o'' : Option Value} (h : Lasts o o') (h' : Lasts o' o'') : Lasts o o'' := by
  have hidem (o : Option Value) : (o.map Value.erase).map Value.erase = o.map Value.erase := by
    cases o <;> rfl
  rcases h with rfl | rfl
  · exact h'
  · rw [Lasts, hidem, or_self] at h'
    exact .inr h'

/-- A variable that lasts is bound after if and only if it was bound before. -/
theorem Lasts.isSome_eq {o o' : Option Value} (h : Lasts o o') : o'.isSome = o.isSome := by
  rcases h with rfl | rfl
  · rfl
  · exact Option.isSome_map

/-- The second environment binds these names, and the others are to it what they were to the first one. -/
structure Environment.Gains (e : Environment) (names : List Text) (e' : Environment) : Prop where
  named {name : Text} (h : name ∈ names) : (e'.get? name).isSome = true
  others {name : Text} (h : name ∉ names) : Lasts (e.get? name) (e'.get? name)

namespace Environment.Gains

variable {e e' e'' : Environment} {names more : List Text}

theorem refl (e : Environment) : e.Gains [] e := ⟨nofun, fun _ => .refl _⟩

/-- The names gained first stay gained, and what the rest was to the environments in between lasts. -/
theorem trans (h : e.Gains names e') (h' : e'.Gains more e'') : e.Gains (names ++ more) e'' where
  named {name} hn := by
    by_cases hmore : name ∈ more
    · exact h'.named hmore
    · rw [(h'.others hmore).isSome_eq]
      exact h.named ((List.mem_append.1 hn).resolve_right hmore)
  others hn := (h.others fun hl => hn (List.mem_append_left _ hl)).trans
    (h'.others fun hr => hn (List.mem_append_right _ hr))

/-- The names that are bound are those that were bound and those that were gained. -/
theorem isSome_get?_iff (h : e.Gains names e') (name : Text) :
    (e'.get? name).isSome = true ↔ (e.get? name).isSome = true ∨ name ∈ names := by
  by_cases hmem : name ∈ names
  · simp [h.named hmem, hmem]
  · simp [(h.others hmem).isSome_eq, hmem]

end Environment.Gains

/-- However the action ends from storable variables, they gain the names of the log. -/
def Binds (x : Action α) (l : Log) : Prop := ∀ s r m f, s.environment.All Storable → x s = .of r m f →
  s.environment.Gains (l s) m.environment

/-- One action after another gains the names of both logs, the second one being that of what the first one comes to.
-/
theorem Binds.bind {k : α → Action β} {lk : α → Log} (hx : Binds x l) (hq : Keeps Storable Q x)
    (hk : ∀ a, Q a → Binds (k a) (lk a)) : Binds (x >>= k) (l.bind x lk) := by
  intro s r m f hs h
  unfold Log.bind
  rcases bind_eq_of_iff.1 h with ⟨e, he, -⟩ | ⟨a, after, ha, hka⟩
  · rw [he, List.append_nil]
    exact hx s (.error e) m f hs he
  · obtain ⟨hafter, hqa⟩ := hq s (.ok a) after.toMachine after.feed hs ha
    rw [ha]
    exact (hx s (.ok a) after.toMachine after.feed hs ha).trans (hk a (hqa a rfl) after r m f hafter hka)

theorem Binds.congr {l' : Log} (h : Binds x l) (hl : ∀ s, l s = l' s) : Binds x l' := by
  have : l = l' := funext hl
  exact this ▸ h

/-- What leaves the variables alone has nothing to log. -/
theorem SparesVariables.binds (h : SparesVariables x) : Binds x .none := by
  intro s r m f _ hx
  rw [h s r m f hx]
  exact .refl _

/-- What goes on without touching the variables adds no names. -/
theorem Binds.bind_spares {k : α → Action β} (hx : Binds x l) (hk : ∀ a, SparesVariables (k a)) :
    Binds (x >>= k) l := by
  intro s r m f hs h
  rcases bind_eq_of_iff.1 h with ⟨e, he, -⟩ | ⟨a, after, ha, hka⟩
  · exact hx s (.error e) m f hs he
  · rw [hk a after r m f hka]
    exact hx s (.ok a) after.toMachine after.feed hs ha

/-- The names that are bound on a feed of its own are logged like any others. -/
theorem Binds.within (h : Binds x l) (feed : Feed) : Binds (within feed x) (l.within feed) := by
  intro s r m f hs hw
  obtain ⟨-, f₀, hx⟩ := within_eq_of_iff.1 hw
  exact h ⟨s.toMachine, feed⟩ r m f₀ hs hx

/-- Binding a name gains it, and lets every other one last. -/
theorem binds_define (name : Text) (v : Value) : Binds (define name v) fun _ => [name] := by
  intro s r m f _ h
  obtain ⟨-, rfl, -⟩ := Outcome.of_inj (r := .ok ()) (f := s.feed) h
  refine ⟨fun hn => ?_, fun hn => .inl (Environment.get?_define_of_ne ?_)⟩
  · rw [List.mem_singleton.1 hn, Environment.get?_define_self, Option.isSome_some]
  · rintro rfl
    exact hn List.mem_cons_self

/-- Erasing binds no name that was not bound. -/
theorem binds_erase (t : Text) : Binds (Action.erase t) .none := by
  unfold Action.erase
  split
  · rename_i name
    intro s r m f hs h
    rcases bind_eq_of_iff.1 h with ⟨e, he, -⟩ | ⟨v, after, ha, hk⟩
    · exact (spares.lookup name).binds s (.error e) m f hs he
    · obtain ⟨r', hr', hv⟩ := lookup_ends name s.toMachine
      have hlook : lookup name s = .of (.ok v) after.toMachine after.feed := ha
      obtain ⟨rfl, hm, -⟩ := Outcome.of_inj ((hr' s.feed).symm.trans hlook)
      obtain ⟨-, rfl, -⟩ := Outcome.of_inj (r := .ok v.erase) (f := after.feed) hk
      refine ⟨nofun, fun {other} _ => ?_⟩
      rw [← hm]
      by_cases hn : name = other
      · subst hn
        have hget : s.environment.get? name = some v := hv v rfl
        exact .inr (by rw [Environment.get?_define_self, hget, Option.map_some])
      · exact .inl (Environment.get?_define_of_ne hn)
  · exact (spares.fail _).binds

end

/-! ## Builtins -/

section

variable {files : Files} {next : Action Value} {loop : Action (Option Value)} {l ll : Log} {b : Builtin}

/-- The values among the operands are what expressions come to. -/
def Operand.Regular : Operand → Prop
  | .value v => MiniLogo.Regular v
  | .token _ => True

/-- The value that is taken for an operand is one that expressions come to. -/
theorem keeps_takeOperand (hn : Keeps Storable Regular next) (w : Want) :
    Keeps Storable Operand.Regular (takeOperand next w) := by
  unfold takeOperand
  split
  · exact keeps_nextToken.bind fun t _ => keeps_pure trivial
  · exact hn.bind fun v hv => keeps_pure hv

theorem keeps_gather (hn : Keeps Storable Regular next) (b : Builtin) (n : Nat) :
    Keeps Storable (fun ops => ∀ o ∈ ops, o.Regular) (gather next b n) := by
  induction n with
  | zero => exact keeps_pure nofun
  | succ n ih =>
    rw [gather_succ]
    refine ih.bind fun ops hops => ?_
    cases b.wanting ops with
    | none => exact keeps_pure hops
    | some w =>
      refine (keeps_takeOperand hn w).bind fun o ho => keeps_pure fun o' ho' => ?_
      rcases List.mem_append.1 ho' with h | h
      · exact hops o' h
      · exact List.mem_singleton.1 h ▸ ho

/-- Taking an operand has the log of the expression, if it is one. -/
theorem binds_takeOperand (hl : Binds next l) (w : Want) : Binds (takeOperand next w) (takeTargets l (some w)) := by
  cases w with
  | raw => exact (spares.nextToken.bind fun t => spares.pure _).binds
  | expression | closing => exact hl.bind_spares fun v => spares.pure _

/-- Taking operands one after another has their logs one after another. -/
theorem binds_gather (hn : Keeps Storable Regular next) (hl : Binds next l) (b : Builtin) (n : Nat) :
    Binds (gather next b n) (gatherTargets next l b n) := by
  induction n with
  | zero => exact (spares.pure []).binds
  | succ n ih =>
    rw [gather_succ]
    refine ih.bind (keeps_gather hn b n) fun ops _ => ?_
    cases b.wanting ops with
    | none => exact (spares.pure ops).binds
    | some w => exact (binds_takeOperand hl w).bind_spares fun o => spares.pure _

/-- A builtin that neither binds nor runs anything has the log of its operands. -/
theorem SparesVariables.binds_settle {x : Action Value} {ops : List Operand} (h : SparesVariables x)
    (ht : b.target ops = []) (hb : b.body? files ops = none) : Binds x (settleTargets files ll b ops) := by
  refine h.binds.congr fun s => ?_
  unfold settleTargets
  rw [ht, hb]
  rfl

theorem binds_runText (hl : Binds loop ll) (t : Text) (v : Value) :
    Binds (runText loop t v) (ll.within (.ofText t)) :=
  (hl.within _).bind_spares fun _ => spares.pure _

/-- Running a list has the log of its interior, or nothing to log if it is none. -/
theorem binds_runList (hl : Binds loop ll) {ops : List Operand} {v : Value} (ht : b.target ops = [])
    (hb : b.body? files ops = Text.unbracket? v.text) : Binds (runList loop v) (settleTargets files ll b ops) := by
  cases hu : Text.unbracket? v.text with
  | some interior =>
    rw [runList_of_unbracket? hu]
    refine (binds_runText hl interior _).congr fun s => ?_
    unfold settleTargets
    rw [ht, hb, hu]
    rfl
  | none =>
    rw [runList, hu]
    exact (spares.fail _).binds_settle ht (hb.trans hu)

/-- Loading a file has the log of its text, or nothing to log if it cannot be read. -/
theorem binds_loadFile (hl : Binds loop ll) (path : Text) : Binds (loadFile files loop path) fun s =>
    match files path with
    | .ok bytes => ll.within (.ofText (Utf8.decodeLossy bytes)) s
    | .error _ => [] := by
  cases hf : files path with
  | ok bytes =>
    rw [loadFile_of_ok hf]
    exact binds_runText hl _ _
  | error reason =>
    rw [loadFile, hf]
    exact (spares.fail _).binds

theorem binds_settleOne (hl : Binds loop ll) (b : Builtin) (v : Value) :
    Binds (settleOne loop b v) (settleTargets files ll b [.value v]) := by
  cases b with
  | run => exact binds_runList hl rfl rfl
  | print => exact ((sparesVariables_writeLine _).bind fun _ => spares.pure v).binds_settle rfl rfl
  | not | isEmpty => exact (spares.ofExcept _).binds_settle rfl rfl
  | isNumber | isBool | isWord | isList => exact (spares.pure _).binds_settle rfl rfl
  | isName => exact ((spares.isBound _).bind fun _ => spares.pure _).binds_settle rfl rfl
  | first | last | butFirst | butLast => exact (sparesVariables_access _ _ v).binds_settle rfl rfl
  | random =>
    exact ((spares.ofExcept _).bind fun _ => spares.draw.bind fun _ =>
      spares.pure _).binds_settle rfl rfl
  | int | sqrt => exact ((spares.ofExcept _).bind fun _ => spares.pure _).binds_settle rfl rfl
  | ifElse => exact (spares.fail _).binds_settle rfl rfl
  | _ => exact SparesVariables.binds_settle moves_giveUp rfl rfl

/-- What `make` targets is its name, unless it finds a procedure there. -/
theorem target_make {name v : Value} (hv : Regular v) : Builtin.target .make [.value name, .value v] =
    match Procedure.ofLiteral? name.text v with
    | some _ => []
    | none => [name.text] := by
  cases hp : Procedure.ofLiteral? name.text v with
  | none => simp [Builtin.target, hv.recognised.kind_ne_function hp]
  | some p =>
    cases v with
    | function t => rfl
    | _ => cases hp

theorem binds_settleTwo (b : Builtin) (v : Value) {w : Value} (hw : Regular w) :
    Binds (settleTwo b v w) (settleTargets files ll b [.value v, .value w]) := by
  cases b with
  | make =>
    refine Binds.congr (l := fun _ => Builtin.target .make [.value v, .value w]) ?_ fun s => (List.append_nil _).symm
    rw [target_make hw, settleTwo]
    cases Procedure.ofLiteral? v.text w with
    | some p => exact ((spares.pure ()).bind fun _ => spares.pure w).binds
    | none => exact (binds_define v.text w).bind_spares fun _ => spares.pure w
  | add | sub | mul | div | mod | and | or | eq | gt | lt =>
    rw [settleTwo]
    exact SparesVariables.binds_settle (spares.ofExcept _) rfl rfl
  | _ => exact SparesVariables.binds_settle moves_giveUp rfl rfl

theorem binds_settleToken (hl : Binds loop ll) (b : Builtin) (t : Text) :
    Binds (settleToken files loop b t) (settleTargets files ll b [.token t]) := by
  cases b with
  | erase => exact (binds_erase t).congr fun s => rfl
  | load =>
    refine (binds_loadFile hl (unquote t)).congr fun s => ?_
    cases hf : files (unquote t) <;> simp [settleTargets, Builtin.target, Builtin.body?, hf, Except.toOption]
  | read => exact (spares.pure _).binds_settle rfl rfl
  | _ => exact SparesVariables.binds_settle moves_giveUp rfl rfl

/-- What a builtin does with its operands binds its target and what its body binds. -/
theorem binds_settle (hl : Binds loop ll) (b : Builtin) {ops : List Operand} (hops : ∀ o ∈ ops, o.Regular) :
    Binds (settle files loop b ops) (settleTargets files ll b ops) := by
  unfold settle
  split
  · exact (spares.halt.bind fun _ => spares.pure _).binds_settle rfl rfl
  · exact binds_settleToken hl b _
  · exact binds_settleOne hl b _
  · exact binds_settleTwo b _ (hops (.value _) (List.mem_cons_of_mem _ List.mem_cons_self))
  · exact binds_runList hl rfl rfl
  · exact fun s r m f _ h => by cases r <;> cases h

/-- A builtin binds what its operands bind, and then its target and what its body binds. -/
theorem binds_apply (hn : Keeps Storable Regular next) (hb : Binds next l) (hl : Binds loop ll) (b : Builtin) :
    Binds (apply files next loop b) (applyTargets files next l ll b) := by
  rw [apply_eq]
  exact (binds_gather hn hb b _).bind (keeps_gather hn b _) fun ops hops => binds_settle hl b hops

end

/-! ## Evaluation -/

section

variable {next : Action Value} {l : Log}

/-- A run binds what its expressions bind, one after another. -/
theorem binds_drive (hn : Keeps Storable Regular next) (hb : Binds next l) (n : Nat) (last : Option Value) :
    Binds (drive next n last) (driveTargets next l n) := by
  induction n generalizing last with
  | zero => exact fun s r m f _ h => by cases r <;> cases h
  | succ n ih =>
    have hfinish (last : Option Value) : SparesVariables (finish last) :=
      spares.reportFailure.bind fun _ => spares.pure last
    intro s r m f hs h
    unfold driveTargets
    by_cases hend : s.halted = true ∨ s.feed.tokens = []
    · rw [if_pos hend]
      have hspare : m.environment = s.environment := by
        by_cases hh : s.halted = true
        · rw [drive_halted hh] at h
          exact hfinish last s r m f h
        · rw [drive_of_nil (Bool.eq_false_iff.2 hh) (hend.resolve_left hh)] at h
          exact hfinish last s.asked r m f h
      rw [hspare]
      exact .refl _
    · rw [if_neg hend]
      obtain ⟨hh, ht⟩ := not_or.1 hend
      rw [drive_of_cons (Bool.eq_false_iff.2 hh) ht] at h
      exact hb.bind hn (fun v _ => ih (some v)) s.asked r m f hs h

/-- Evaluation of a token binds the names of its log: by induction on the fuel, with the forms of a token as cases. -/
theorem binds_eval (files : Files) (fuel : Nat) (raw : Text) :
    Binds (eval files fuel raw) (evalTargets files fuel raw) := by
  induction fuel generalizing raw with
  | zero => exact fun s r m f _ h => by cases r <;> cases h
  | succ fuel ih =>
    have hn : Keeps Storable Regular (evalNext files fuel) := keeps_evalNext files fuel
    have hb : Binds (evalNext files fuel) (Log.none.bind nextToken (evalTargets files fuel)) :=
      spares.nextToken.binds.bind keeps_nextToken fun t _ => ih t
    rw [eval_succ, evalWith, evalTargets]
    cases Token.classify raw with
    | word t | number t | bool p => exact (spares.pure _).binds
    | thing => exact hb.bind_spares fun v => spares.lookup v.text
    | reference name => exact (spares.lookup name).binds
    | listStart first => exact (spares.readBracketed first).binds
    | name name =>
      cases hname : Builtin.ofName? name with
      | some b =>
        simp only [hname]
        exact binds_apply hn hb (binds_drive hn hb fuel none) b
      | none =>
        simp only [hname]
        exact (spares.fail _).binds

theorem binds_evalNext (files : Files) (fuel : Nat) : Binds (evalNext files fuel) (nextTargets files fuel) :=
  spares.nextToken.binds.bind keeps_nextToken fun t _ => binds_eval files fuel t

theorem binds_run (files : Files) (fuel : Nat) : Binds (run files fuel) (runTargets files fuel) :=
  binds_drive (keeps_evalNext files fuel) (binds_evalNext files fuel) fuel none

theorem binds_load (files : Files) (fuel : Nat) (path : Text) :
    Binds (load files fuel path) (loadTargets files fuel path) :=
  binds_loadFile (binds_run files fuel) path

end

/-! ## Sessions -/

/-- A call into evaluation that ends, with the names that it binds. -/
inductive CallBinds : Machine → List Text → Machine → Prop where
  | run {files : Files} {fuel : Nat} {m m' : Machine} {f g : Feed} {r : Except Fault (Option Value)}
    (h : run files fuel ⟨m, f⟩ = .of r m' g) : CallBinds m (runTargets files fuel ⟨m, f⟩) m'
  | expression {files : Files} {fuel : Nat} {m m' : Machine} {f g : Feed} {r : Except Fault Value}
    (h : evalNext files fuel ⟨m, f⟩ = .of r m' g) : CallBinds m (nextTargets files fuel ⟨m, f⟩) m'
  | token {files : Files} {fuel : Nat} {raw : Text} {m m' : Machine} {f g : Feed} {r : Except Fault Value}
    (h : eval files fuel raw ⟨m, f⟩ = .of r m' g) : CallBinds m (evalTargets files fuel raw ⟨m, f⟩) m'
  | file {files : Files} {fuel : Nat} {path : Text} {m m' : Machine} {f g : Feed} {r : Except Fault Value}
    (h : load files fuel path ⟨m, f⟩ = .of r m' g) : CallBinds m (loadTargets files fuel path ⟨m, f⟩) m'

/-- Calls one after the other, with the names that they bind. -/
inductive History : Machine → List Text → Machine → Prop where
  | nil (m : Machine) : History m [] m
  | snoc {m m' m'' : Machine} {names more : List Text} (h : History m names m') (hc : CallBinds m' more m'') :
    History m (names ++ more) m''

variable {m m' : Machine} {names : List Text}

/-- A call with its log is a call. -/
theorem CallBinds.call (h : CallBinds m names m') : Call m m' := by
  cases h with
  | run h => exact .run h
  | expression h => exact .expression h
  | token h => exact .token h
  | file h => exact .file h

/-- Every call has a log. -/
theorem Call.exists_binding (h : Call m m') : ∃ names, CallBinds m names m' := by
  cases h with
  | run h => exact ⟨_, .run h⟩
  | expression h => exact ⟨_, .expression h⟩
  | token h => exact ⟨_, .token h⟩
  | file h => exact ⟨_, .file h⟩

/-- A history is a session with its logs. -/
theorem History.session (h : History m names m') : Session m m' := by
  induction h with
  | nil => exact .refl
  | snoc _ hc ih => exact ih.tail hc.call

/-- Every session has a history. -/
theorem Session.exists_history (h : Session m m') : ∃ names, History m names m' := by
  induction h with
  | refl => exact ⟨[], .nil m⟩
  | tail _ hc ih =>
    obtain ⟨names, hn⟩ := ih
    obtain ⟨more, hm⟩ := hc.exists_binding
    exact ⟨_, hn.snoc hm⟩

/-- A call gains the names of its log. -/
theorem CallBinds.gains (h : CallBinds m names m') (hm : m.environment.All Storable) :
    m.environment.Gains names m'.environment := by
  cases h with
  | run h => exact binds_run _ _ _ _ _ _ hm h
  | expression h => exact binds_evalNext _ _ _ _ _ _ hm h
  | token h => exact binds_eval _ _ _ _ _ _ _ hm h
  | file h => exact binds_load _ _ _ _ _ _ _ hm h

/-- After a session its targets are bound, and the other names are what they were or were erased. -/
theorem History.gains (h : History m names m') (hm : m.environment.All Storable) :
    m.environment.Gains names m'.environment := by
  induction h with
  | nil => exact .refl _
  | snoc h hc ih => exact ih.trans (hc.gains (h.session.all_storable hm))

end MiniLogo
