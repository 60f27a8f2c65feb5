import Mathlib.Data.List.Infix
import MiniLogo.Interpreter.Environment

/-!
# The stack of frames

An environment answers calls that bind a name, look one up in the top frame or in all of them, and put frames on top and
take them off (`Call`, `reply`, `replies`, `after`). Its depth is counted by the frames put on and taken off
(`depth_after`), and no frame comes to bind a name twice (`unique_after`).

Calls that take off none of the frames that were there change the top one of these at most, by what is bound while it is
on top (`exists_after_pushAll`, from what one call does, `exists_reply_pushAll`). If they take off all the frames that
they put on as well, they are level, and nothing else is left of them (`Level.after_eq`). Level calls can be made one
after the other, and between putting on a frame and taking it off (`Level.append`, `Level.enclose`). So the top frame is
the first one, or one that was put on and that level calls have left on top (`depth_or_exists_push`), which tells how
every call is answered after any others (`stack_after`).
-/

namespace MiniLogo

/-! ## Binding several names -/

def Frame.insertAll (f : Frame) (bindings : List (Text × Value)) : Frame :=
  bindings.foldl (fun f b => f.insert b.1 b.2) f

theorem Frame.insertAll_append (f : Frame) (bs cs : List (Text × Value)) :
    f.insertAll (bs ++ cs) = (f.insertAll bs).insertAll cs :=
  List.foldl_append

/-- The last binding of a name counts, and what was bound to it before if there is none. -/
theorem Frame.get?_insertAll (f : Frame) (bs : List (Text × Value)) (name : Text) :
    (f.insertAll bs).get? name = (bs.reverse.lookup name).or (f.get? name) := by
  induction bs generalizing f with
  | nil => rfl
  | cons b bs ih =>
    obtain ⟨n, v⟩ := b
    have hone : (f.insert n v).get? name = ([(n, v)].lookup name).or (f.get? name) := by
      by_cases h : n = name
      · subst h
        rw [Frame.get?_insert_self, List.lookup_cons_self]
        rfl
      · rw [Frame.get?_insert_of_ne h, List.lookup_cons, beq_false_of_ne (Ne.symm h)]
        rfl
    calc ((f.insert n v).insertAll bs).get? name
        = (bs.reverse.lookup name).or (([(n, v)].lookup name).or (f.get? name)) := by rw [ih, hone]
      _ = (((n, v) :: bs).reverse.lookup name).or (f.get? name) := by
        rw [List.reverse_cons, List.lookup_append, Option.or_assoc]

/-- No name is bound twice. -/
def Frame.Unique (f : Frame) : Prop := (f.map Prod.fst).Nodup

instance (f : Frame) : Decidable f.Unique := inferInstanceAs (Decidable (f.map Prod.fst).Nodup)

/-- A new name is added behind the others, and an old one keeps its place. -/
theorem Frame.names_insert (f : Frame) (name : Text) (v : Value) : (f.insert name v).map Prod.fst =
    if name ∈ f.map Prod.fst then f.map Prod.fst else f.map Prod.fst ++ [name] := by
  induction f with
  | nil => rfl
  | cons b f ih =>
    obtain ⟨n, w⟩ := b
    rw [Frame.insert]
    by_cases h : n = name
    · simp [h]
    · rw [if_neg h, List.map_cons, ih, List.map_cons]
      by_cases hmem : name ∈ f.map Prod.fst
      · rw [if_pos hmem, if_pos (List.mem_cons_of_mem n hmem)]
      · rw [if_neg hmem, if_neg (List.not_mem_cons_of_ne_of_not_mem (Ne.symm h) hmem), List.cons_append]

/-- A name that is bound again is not there twice. -/
theorem Frame.Unique.insert {f : Frame} (h : f.Unique) (name : Text) (v : Value) : (f.insert name v).Unique := by
  rw [Frame.Unique, Frame.names_insert]
  split
  · exact h
  · rename_i hmem
    refine List.nodup_append.2 ⟨h, List.pairwise_singleton _ name, fun n hn m hm => ?_⟩
    rw [List.mem_singleton.1 hm]
    exact fun hname => hmem (hname ▸ hn)

namespace Environment

def defineAll (e : Environment) (bindings : List (Text × Value)) : Environment :=
  { e with top := e.top.insertAll bindings }

@[simp] theorem depth_defineAll (e : Environment) (bs : List (Text × Value)) : (e.defineAll bs).depth = e.depth := rfl

theorem get?_defineAll (e : Environment) (bs : List (Text × Value)) (name : Text) :
    (e.defineAll bs).get? name = (bs.reverse.lookup name).or (e.get? name) :=
  e.top.get?_insertAll bs name

theorem defineAll_append (e : Environment) (bs cs : List (Text × Value)) :
    e.defineAll (bs ++ cs) = (e.defineAll bs).defineAll cs := by
  rw [defineAll, Frame.insertAll_append]
  rfl

/-- Puts frames on top, the first one topmost. -/
def pushAll (e : Environment) : List Frame → Environment
  | [] => e
  | f :: fs => (e.pushAll fs).push f

@[simp] theorem depth_pushAll (e : Environment) (fs : List Frame) : (e.pushAll fs).depth = e.depth + fs.length := by
  induction fs with
  | nil => rfl
  | cons f fs ih => rw [pushAll, depth_push, ih, List.length_cons, Nat.add_assoc]

/-! ## Calls -/

/-- What an environment can be asked to do. -/
inductive Call where
  | define (name : Text) (v : Value)
  | get (name : Text)
  | contains (name : Text)
  | push (f : Frame)
  | pop
  deriving DecidableEq

/-- What an environment answers. -/
inductive Reply where
  | done
  | value (v : Option Value)
  | bound (b : Bool)
  | popped (f : Option Frame)
  deriving DecidableEq

def Call.isPush : Call → Bool
  | push _ => true
  | define _ _ | get _ | contains _ | pop => false

def Reply.isPopped : Reply → Bool
  | popped f => f.isSome
  | done | value _ | bound _ => false

/-- The reply to a call, and the environment after it. A frame that cannot be taken off stays. -/
def reply (e : Environment) : Call → Reply × Environment
  | .define name v => (.done, e.define name v)
  | .get name => (.value (e.get? name), e)
  | .contains name => (.bound (e.contains name), e)
  | .push f => (.done, e.push f)
  | .pop =>
    match e.pop? with
    | none => (.popped none, e)
    | some (f, rest) => (.popped (some f), rest)

def replies (e : Environment) : List Call → List Reply
  | [] => []
  | call :: calls => (e.reply call).1 :: (e.reply call).2.replies calls

def after (e : Environment) : List Call → Environment
  | [] => e
  | call :: calls => (e.reply call).2.after calls

/-- What calls bind in a frame with so many others above it. Taking a frame off leaves this one where it is. -/
def bindings : Nat → List Call → List (Text × Value)
  | _, [] => []
  | above, .define name v :: calls =>
    if above = 0 then (name, v) :: bindings above calls else bindings above calls
  | above, .get _ :: calls => bindings above calls
  | above, .contains _ :: calls => bindings above calls
  | above, .push _ :: calls => bindings (above + 1) calls
  | above, .pop :: calls => bindings (above - 1) calls

variable {e : Environment} {f : Frame} {call : Call} {calls more : List Call}

@[simp] theorem after_append (e : Environment) (calls more : List Call) :
    e.after (calls ++ more) = (e.after calls).after more := by
  induction calls generalizing e with
  | nil => rfl
  | cons call calls ih => exact ih _

/-- There is always a top frame. -/
theorem one_le_depth (e : Environment) : 1 ≤ e.depth := Nat.le_add_left 1 _

/-! ## Depth -/

/-- The last frame is not taken off. -/
theorem reply_pop_of_depth (h : e.depth = 1) : e.reply .pop = (.popped none, e) := by
  rw [reply, (pop?_eq_none_iff e).2 h]

/-- The depth counts the frames put on and taken off. -/
theorem depth_reply (e : Environment) (call : Call) : (e.reply call).2.depth +
    (if (e.reply call).1.isPopped then 1 else 0) = e.depth + (if call.isPush then 1 else 0) := by
  cases call with
  | define name v | get name | contains name | push f => rfl
  | pop =>
    obtain ⟨top, below⟩ := e
    cases below <;> rfl

/-- The depth counts the frames that were put on and those that were taken off. -/
theorem depth_after (e : Environment) (calls : List Call) :
    (e.after calls).depth + (e.replies calls).countP Reply.isPopped = e.depth + calls.countP Call.isPush := by
  induction calls generalizing e with
  | nil => rfl
  | cons call calls ih =>
    have hone := depth_reply e call
    have hrest := ih (e.reply call).2
    rw [after, replies, List.countP_cons, List.countP_cons]
    omega

/-! ## Frames as maps -/

/-- The frames, the top one first. -/
def frames (e : Environment) : List Frame := e.top :: e.below

/-- A name is found where any frame binds it. -/
theorem contains_eq_true_iff (e : Environment) (name : Text) :
    e.contains name = true ↔ ∃ f ∈ e.frames, (f.get? name).isSome = true := by
  simp [contains, Frame.contains, frames]

theorem unique_reply (h : ∀ f ∈ e.frames, f.Unique) (hcall : ∀ f, call = .push f → f.Unique) :
    ∀ f ∈ (e.reply call).2.frames, f.Unique := by
  obtain ⟨htop, hbelow⟩ := List.forall_mem_cons.1 h
  cases call with
  | define name v => exact List.forall_mem_cons.2 ⟨htop.insert name v, hbelow⟩
  | get name | contains name => exact h
  | push f => exact List.forall_mem_cons.2 ⟨hcall f rfl, h⟩
  | pop =>
    obtain ⟨top, below⟩ := e
    cases below with
    | nil => exact h
    | cons f below => exact hbelow

/-- If no frame that is put on binds a name twice, none that is there does. -/
theorem unique_after (h : ∀ f ∈ e.frames, f.Unique) (hcalls : ∀ f, .push f ∈ calls → f.Unique) :
    ∀ f ∈ (e.after calls).frames, f.Unique := by
  induction calls generalizing e with
  | nil => exact h
  | cons call calls ih =>
    refine ih (unique_reply h fun f hf => hcalls f ?_) fun f hf => hcalls f (List.mem_cons_of_mem call hf)
    rw [hf]
    exact List.mem_cons_self

/-! ## Calls above a frame -/

/-- What one call does to an environment with frames on top of it, if it takes off none of its own. -/
theorem exists_reply_pushAll (e : Environment) (fs : List Frame) (call : Call)
    (h : e.depth ≤ ((e.pushAll fs).reply call).2.depth) : ∃ bs gs,
    ((e.pushAll fs).reply call).2 = (e.defineAll bs).pushAll gs ∧
      ∀ calls, bindings fs.length (call :: calls) = bs ++ bindings gs.length calls := by
  cases call with
  | define name v =>
    cases fs with
    | nil => exact ⟨[(name, v)], [], rfl, fun _ => rfl⟩
    | cons f fs => exact ⟨[], f.insert name v :: fs, rfl, fun _ => rfl⟩
  | get name | contains name => exact ⟨[], fs, rfl, fun _ => rfl⟩
  | push f => exact ⟨[], f :: fs, rfl, fun _ => rfl⟩
  | pop =>
    cases fs with
    | cons f fs => exact ⟨[], fs, rfl, fun _ => rfl⟩
    | nil =>
      -- the last frame is refused, and any other would be missing afterwards
      obtain ⟨top, below⟩ := e
      cases below with
      | nil => exact ⟨[], [], rfl, fun _ => rfl⟩
      | cons g below => exact absurd h (Nat.not_succ_le_self _)

/-- Calls that take off none of the frames that were there change the top one of these by what is bound while it is on
top. -/
theorem exists_after_pushAll (e : Environment) (fs : List Frame) (calls : List Call)
    (h : ∀ p, p <+: calls → e.depth ≤ ((e.pushAll fs).after p).depth) :
    ∃ gs, (e.pushAll fs).after calls = (e.defineAll (bindings fs.length calls)).pushAll gs := by
  induction calls generalizing e fs with
  | nil => exact ⟨fs, rfl⟩
  | cons call calls ih =>
    obtain ⟨bs, gs, hreply, hbindings⟩ := exists_reply_pushAll e fs call (h [call] (by simp))
    obtain ⟨hs, hafter⟩ := ih (e.defineAll bs) gs fun p hp => by
      have := h (call :: p) (List.cons_prefix_cons.2 ⟨rfl, hp⟩)
      rwa [after, hreply] at this
    exact ⟨hs, by rw [after, hreply, hafter, hbindings, defineAll_append]⟩

/-! ## Level calls -/

/-- Calls that take off as many frames as they put on, and at no time more. -/
structure Level (e : Environment) (calls : List Call) : Prop where
  stays : ∀ p, p <+: calls → (e.replies p).countP Reply.isPopped ≤ p.countP Call.isPush
  back : (e.replies calls).countP Reply.isPopped = calls.countP Call.isPush

/-- The depth never is below what it was, and in the end it is what it was. -/
theorem level_iff : e.Level calls ↔
    (∀ p, p <+: calls → e.depth ≤ (e.after p).depth) ∧ (e.after calls).depth = e.depth := by
  have hle : ∀ p, (e.replies p).countP Reply.isPopped ≤ p.countP Call.isPush ↔ e.depth ≤ (e.after p).depth := by
    intro p
    have := depth_after e p
    omega
  have heq : (e.replies calls).countP Reply.isPopped = calls.countP Call.isPush ↔ (e.after calls).depth = e.depth := by
    have := depth_after e calls
    omega
  exact ⟨fun h => ⟨fun p hp => (hle p).1 (h.stays p hp), heq.1 h.back⟩,
    fun h => ⟨fun p hp => (hle p).2 (h.1 p hp), heq.2 h.2⟩⟩

instance (e : Environment) (calls : List Call) : Decidable (e.Level calls) :=
  decidable_of_iff ((∀ p ∈ calls.inits, (e.replies p).countP Reply.isPopped ≤ p.countP Call.isPush) ∧
    (e.replies calls).countP Reply.isPopped = calls.countP Call.isPush)
    ⟨fun h => ⟨fun p hp => h.1 p ((List.mem_inits p calls).2 hp), h.2⟩,
      fun h => ⟨fun p hp => h.stays p ((List.mem_inits p calls).1 hp), h.back⟩⟩

/-- All that is left of level calls is what they bind in the frame that was on top. -/
theorem Level.after_eq (h : e.Level calls) : e.after calls = e.defineAll (bindings 0 calls) := by
  obtain ⟨hstays, hback⟩ := level_iff.1 h
  obtain ⟨gs, hafter⟩ := exists_after_pushAll e [] calls hstays
  rw [pushAll, List.length_nil] at hafter
  rw [hafter, depth_pushAll, depth_defineAll] at hback
  obtain rfl : gs = [] := List.length_eq_zero_iff.1 (by omega)
  exact hafter

theorem level_nil (e : Environment) : e.Level [] :=
  level_iff.2 ⟨fun p hp => by rw [List.prefix_nil.1 hp]; exact Nat.le_refl _, rfl⟩

/-- Level calls one after the other are level. -/
theorem Level.append (h : e.Level calls) (hmore : (e.after calls).Level more) :
    e.Level (calls ++ more) := by
  obtain ⟨hstays, hback⟩ := level_iff.1 h
  obtain ⟨hstays', hback'⟩ := level_iff.1 hmore
  refine level_iff.2 ⟨fun p hp => ?_, by rw [after_append, hback', hback]⟩
  obtain ⟨q, hq⟩ := hp
  rcases List.append_eq_append_iff.1 hq with ⟨r, rfl, -⟩ | ⟨r, rfl, rfl⟩
  · exact hstays p (List.prefix_append p r)
  · rw [after_append, ← hback]
    exact hstays' r (List.prefix_append r q)

/-- A call that leaves the depth as it is. -/
theorem level_singleton (h : (e.reply call).2.depth = e.depth) : e.Level [call] := by
  refine level_iff.2 ⟨fun p hp => ?_, h⟩
  rcases List.prefix_cons_iff.1 hp with rfl | ⟨q, rfl, hq⟩
  · exact Nat.le_refl _
  · rw [List.prefix_nil.1 hq]
    exact Nat.le_of_eq h.symm

/-- A frame that was put on is taken off after level calls, with what they bind in it. -/
theorem Level.reply_pop (h : (e.push f).Level calls) :
    ((e.push f).after calls).reply .pop = (.popped (some (f.insertAll (bindings 0 calls))), e) := by
  rw [h.after_eq]
  rfl

/-- Putting a frame on, level calls and taking it off leave everything as it was. -/
theorem Level.after_enclosed (h : (e.push f).Level calls) : e.after (.push f :: (calls ++ [.pop])) = e := by
  show (e.push f).after (calls ++ [.pop]) = e
  rw [after_append, after, h.reply_pop]
  rfl

/-- Level calls are level still when a frame is put on before them and taken off behind them. -/
theorem Level.enclose (h : (e.push f).Level calls) : e.Level (.push f :: (calls ++ [.pop])) := by
  obtain ⟨hstays, -⟩ := level_iff.1 h
  refine level_iff.2 ⟨fun p hp => ?_, by rw [h.after_enclosed]⟩
  rcases List.prefix_cons_iff.1 hp with rfl | ⟨q, rfl, hq⟩
  · exact Nat.le_refl _
  · rcases List.prefix_concat_iff.1 hq with rfl | hq
    · exact Nat.le_of_eq (by rw [h.after_enclosed])
    · exact Nat.le_of_succ_le (hstays q hq)

/-- Pushes and the pops that match them: calls that put frames on and take each of them off again, with any level calls
in between, and outside of these frames only look names up. -/
inductive Balanced (e : Environment) : List Call → Prop
  | nil : Balanced e []
  | get {calls : List Call} (name : Text) : Balanced e calls → Balanced e (.get name :: calls)
  | contains {calls : List Call} (name : Text) : Balanced e calls → Balanced e (.contains name :: calls)
  | enclose {f : Frame} {during calls : List Call} : (e.push f).Level during → Balanced e calls →
      Balanced e (.push f :: (during ++ .pop :: calls))

/-- Nothing is left of balanced calls. -/
theorem Balanced.after_eq (h : e.Balanced calls) : e.after calls = e := by
  induction h with
  | nil => rfl
  | get name _ ih | contains name _ ih => exact ih
  | @enclose f during calls hduring _ ih =>
    have hcut : .push f :: (during ++ .pop :: calls) = .push f :: (during ++ [.pop]) ++ calls := by simp
    rw [hcut, after_append, hduring.after_enclosed, ih]

/-! ## The top frame -/

/-- A frame that was put on, after level calls, with the frames below it as they were. -/
theorem after_of_level {before during : List Call} (h : ((e.after before).push f).Level during) :
    e.after (before ++ .push f :: during) = (e.after before).push (f.insertAll (bindings 0 during)) := by
  rw [after_append]
  exact h.after_eq

/-- If more than one frame is there, the top one was put on, and the calls since then are level. -/
theorem depth_or_exists_push (he : e.depth = 1) (calls : List Call) : (e.after calls).depth = 1 ∨
    ∃ before f during, calls = before ++ .push f :: during ∧ ((e.after before).push f).Level during := by
  induction hn : calls.length using Nat.strongRecOn generalizing calls with
  | ind n ih =>
    subst hn
    rcases List.eq_nil_or_concat' calls with rfl | ⟨calls, call, rfl⟩
    · exact .inl he
    have hlast := ih calls.length (by simp) calls rfl
    by_cases hd : ((e.after calls).reply call).2.depth = (e.after calls).depth
    · rcases hlast with h | ⟨before, f, during, rfl, hduring⟩
      · exact .inl (by rw [after_append, ← h]; exact hd)
      · rw [after_append] at hd
        exact .inr ⟨before, f, during ++ [call], by simp, hduring.append (level_singleton hd)⟩
    cases call with
    | define name v | get name | contains name => exact absurd rfl hd
    | push f => exact .inr ⟨calls, f, [], rfl, level_nil _⟩
    | pop =>
      rcases hlast with h | ⟨before, f, during, rfl, hduring⟩
      · exact absurd (by rw [reply_pop_of_depth h]) hd
      -- the top frame is gone, and the one below it was there when it was put on
      have hback : e.after (before ++ .push f :: during ++ [.pop]) = e.after before := by
        rw [List.append_assoc, after_append]
        exact hduring.after_enclosed
      rw [hback]
      rcases ih before.length (by simp) before rfl with h | ⟨before', f', during', rfl, hduring'⟩
      · exact .inl h
      · refine .inr ⟨before', f', during' ++ .push f :: (during ++ [.pop]), by simp, hduring'.append ?_⟩
        rw [after_append] at hduring
        exact hduring.enclose

/-- **The stack of frames.** Of an environment with one frame, after any calls:

- the depth counts the frames that were put on and those that were taken off, and at least one is there; each is a map,
  in that it binds no name twice, if those that were put on are;
- the last frame is not taken off, and a name has the value that was bound to it last, or that it had at the start;
- any other top frame is the last one that was put on and not taken off. It is taken off with what was bound in it while
  it was on top, and what is left is what was there before it was put on. A name has the value that was bound to it last
  since then, or else the one that the frame was put on with, whatever the frames below it bind;
- a name is found if any of the frames binds it, and looking a name up changes nothing;
- level calls leave behind what they bind in the frame that was on top and nothing else, and balanced calls leave
  nothing behind. -/
theorem stack_after (he : e = empty ∨ e = withConstants) (calls : List Call) :
    let now := e.after calls
    (now.depth + (e.replies calls).countP Reply.isPopped = 1 + calls.countP Call.isPush ∧ 1 ≤ now.depth) ∧
    ((∀ f, .push f ∈ calls → f.Unique) → ∀ f ∈ now.frames, f.Unique) ∧
    ((now.depth = 1 ∧ now.reply .pop = (.popped none, now) ∧ ∀ name,
        now.reply (.get name) = (.value (((bindings 0 calls).reverse.lookup name).or (e.get? name)), now)) ∨
      (1 < now.depth ∧ ∃ before f during, calls = before ++ .push f :: during ∧
        ((e.after before).push f).Level during ∧
        now.reply .pop = (.popped (some (f.insertAll (bindings 0 during))), e.after before) ∧ ∀ name,
        now.reply (.get name) = (.value ((f.insertAll (bindings 0 during)).get? name), now) ∧
        (f.insertAll (bindings 0 during)).get? name = ((bindings 0 during).reverse.lookup name).or (f.get? name))) ∧
    (∀ name, ∃ b, now.reply (.contains name) = (.bound b, now) ∧
      (b = true ↔ ∃ f ∈ now.frames, (f.get? name).isSome = true)) ∧
    (∀ more, now.Level more → now.after more = now.defineAll (bindings 0 more)) ∧
    ∀ more, now.Balanced more → now.after more = now := by
  have hone : e.depth = 1 := by rcases he with rfl | rfl <;> rfl
  have hunique : ∀ f ∈ e.frames, f.Unique := by rcases he with rfl | rfl <;> decide
  intro now
  refine ⟨⟨by rw [depth_after, hone], one_le_depth now⟩, unique_after hunique, ?_,
    fun name => ⟨_, rfl, contains_eq_true_iff now name⟩, fun more h => h.after_eq, fun more h => h.after_eq⟩
  rcases depth_or_exists_push hone calls with h | ⟨before, f, during, hcalls, hduring⟩
  · -- the first frame is on top, so that all the calls are level
    have hlevel : e.Level calls :=
      level_iff.2 ⟨fun p _ => by rw [hone]; exact one_le_depth _, by rw [h, hone]⟩
    refine .inl ⟨h, reply_pop_of_depth h, fun name => ?_⟩
    have hget : now.get? name = ((bindings 0 calls).reverse.lookup name).or (e.get? name) := by
      rw [← get?_defineAll, ← hlevel.after_eq]
    exact congrArg (fun v => (Reply.value v, now)) hget
  · have hnow : now = (e.after before).push (f.insertAll (bindings 0 during)) := by
      rw [← after_of_level hduring, ← hcalls]
    refine .inr ⟨?_, before, f, during, hcalls, hduring, by rw [hnow]; rfl, fun name => ⟨?_, f.get?_insertAll _ name⟩⟩
    · rw [hnow, depth_push]
      exact Nat.lt_add_one_of_le (one_le_depth _)
    · have hget : now.get? name = (f.insertAll (bindings 0 during)).get? name := by
        rw [hnow]
        rfl
      exact congrArg (fun v => (Reply.value v, now)) hget

/-- The last frame is asked for in vain, and one that binds a name again is left on top. -/
theorem stack_after_of_shadowed :
    let x := "x".toList
    let calls : List Call := [.pop, .define x (.bool true), .push [(x, .word x)], .push [], .define x .emptyList, .pop,
      .define x (.bool false)]
    let now := withConstants.after calls
    let during : List Call := [.define x .emptyList, .push [], .pop, .get x]
    (withConstants = empty ∨ withConstants = withConstants) ∧ now.depth = 2 ∧
      (∀ f ∈ now.frames, f.Unique) ∧
      (∃ before f during, calls = before ++ .push f :: during ∧
        now.reply .pop = (.popped (some (f.insertAll (bindings 0 during))), withConstants.after before)) ∧
      now.Balanced (.push [] :: (during ++ [.pop])) ∧ now.after (.push [] :: (during ++ [.pop])) = now := by
  intro x calls now during
  have hdepth : now.depth = 2 := rfl
  have hduring : (now.push []).Level during := by decide +kernel
  have hbalanced : now.Balanced (.push [] :: (during ++ [.pop])) := .enclose hduring .nil
  obtain ⟨-, hunique, htop, -, -, hrestored⟩ := stack_after (.inr rfl) calls
  have hmaps : ∀ f, .push f ∈ calls → f.Unique := by
    intro f hf
    simp only [calls, List.mem_cons, reduceCtorEq, Call.push.injEq, List.not_mem_nil, false_or, or_false] at hf
    rcases hf with rfl | rfl <;> decide
  refine ⟨.inr rfl, hdepth, hunique hmaps, ?_, hbalanced, hrestored _ hbalanced⟩
  rcases htop with ⟨h, -⟩ | ⟨-, before, f, during, hcalls, -, hpop, -⟩
  · exact absurd (h.symm.trans hdepth) (by decide)
  · exact ⟨before, f, during, hcalls, hpop⟩

end Environment

end MiniLogo
