import MiniLogo.Proofs.Text.Lines

/-!
# What a source of tokens replies

A source can be asked whether there is a token, for the next token and for the failure that cut it off, in any order
(`Call`, `replies`). What it replies depends on the tokens that are left, on the failure it has not told of yet and on
whether the end was met (`replies_congr`); the failure apart, on the tokens alone (`map_withoutFailure_replies_congr`).
So bytes that are read line by line reply as their text does (`replies_ofBytes`).

A failure is told of at most once, when it is asked for after a reply that there is no token (`ended_after`,
`failure_after`). Asking whether there is a token reads on, which may meet the end: then, and only then, it changes what
is replied later.
-/

namespace MiniLogo.Feed

open MiniLogo.Utf8

/-! ## Calls and replies -/

/-- What a source of tokens can be asked. -/
inductive Call where
  | hasNext
  | next
  | takeFailure
  deriving DecidableEq

/-- What a source of tokens replies. -/
inductive Reply where
  | more (another : Bool)
  | token (t : Option Text)
  | failure (reason : Option Text)
  deriving DecidableEq

def Reply.isEnd : Reply → Bool
  | more another => !another
  | token t => t.isNone
  | failure _ => false

def Reply.isFailure : Reply → Bool
  | failure reason => reason.isSome
  | more _ | token _ => false

def Reply.withoutFailure : Reply → Reply
  | failure _ => failure none
  | r => r

/-- The reply to a call, and the source after it. -/
def reply (f : Feed) : Call → Reply × Feed
  | .hasNext => (.more f.hasNext.1, f.hasNext.2)
  | .next => (.token f.next?.1, f.next?.2)
  | .takeFailure => (.failure f.takeFailure?.1, f.takeFailure?.2)

def replies (f : Feed) : List Call → List Reply
  | [] => []
  | call :: calls => (f.reply call).1 :: (f.reply call).2.replies calls

def after (f : Feed) : List Call → Feed
  | [] => f
  | call :: calls => (f.reply call).2.after calls

variable {f g : Feed} {call : Call} {calls : List Call}

/-! ## One call -/

/-- The tokens that are left after a call. -/
theorem tokens_reply (f : Feed) (call : Call) :
    (f.reply call).2.tokens = f.tokens.drop (if call = .next then 1 else 0) := by
  cases call <;> simp [reply]

/-- The end is met by the reply that there is no token. -/
theorem ended_reply (f : Feed) (call : Call) : (f.reply call).2.ended = (f.ended || (f.reply call).1.isEnd) := by
  cases call with
  | hasNext => simp [reply, Reply.isEnd, hasNext_fst]
  | next =>
    simp only [reply, Reply.isEnd, ended_next?, next?_fst]
    cases f.tokens <;> rfl
  | takeFailure => simp [reply, Reply.isEnd]

/-- A failure is forgotten once it was told of. -/
theorem failure_reply (f : Feed) (call : Call) :
    (f.reply call).2.failure = if (f.reply call).1.isFailure then none else f.failure := by
  cases call with
  | hasNext => simp [reply, Reply.isFailure]
  | next => simp [reply, Reply.isFailure]
  | takeFailure =>
    simp only [reply, Reply.isFailure, failure_takeFailure?, takeFailure?_fst]
    cases f.ended <;> cases f.failure <;> rfl

/-- A failure is told of after the end was met. -/
theorem ended_of_isFailure_reply (h : (f.reply call).1.isFailure = true) :
    f.ended = true ∧ f.failure.isSome = true := by
  cases call with
  | hasNext | next => cases h
  | takeFailure =>
    rw [reply, Reply.isFailure, takeFailure?_fst] at h
    cases he : f.ended with
    | true => simpa [he] using h
    | false => simp [he] at h

/-- The failure apart, a reply depends on the tokens that are left. -/
theorem withoutFailure_reply_congr (ht : f.tokens = g.tokens) (call : Call) :
    (f.reply call).1.withoutFailure = (g.reply call).1.withoutFailure := by
  cases call with
  | hasNext => simp [reply, hasNext_fst, ht]
  | next => simp [reply, next?_fst, ht]
  | takeFailure => rfl

/-! ## Calls one after the other -/

/-- Each call for a token takes one. -/
theorem tokens_after (f : Feed) (calls : List Call) : (f.after calls).tokens = f.tokens.drop (calls.count .next) := by
  induction calls generalizing f with
  | nil => rfl
  | cons call calls ih =>
    have hcount : (call :: calls).count .next = (if call = .next then 1 else 0) + calls.count .next := by
      rw [List.count_cons, Nat.add_comm]
      simp
    rw [after, ih, tokens_reply, List.drop_drop, hcount]

theorem ended_after (f : Feed) (calls : List Call) :
    (f.after calls).ended = (f.ended || (f.replies calls).any Reply.isEnd) := by
  induction calls generalizing f with
  | nil => simp [after, replies]
  | cons call calls ih => rw [after, ih, ended_reply, replies, List.any_cons, Bool.or_assoc]

/-- A failure is there until it was replied. -/
theorem failure_after (f : Feed) (calls : List Call) :
    (f.after calls).failure = if (f.replies calls).any Reply.isFailure then none else f.failure := by
  induction calls generalizing f with
  | nil => rfl
  | cons call calls ih =>
    rw [after, ih, failure_reply, replies, List.any_cons]
    cases (f.reply call).1.isFailure <;> simp

/-- No more failures are told of than there are. -/
theorem countP_isFailure_replies (f : Feed) (calls : List Call) :
    (f.replies calls).countP Reply.isFailure ≤ f.failure.toList.length := by
  induction calls generalizing f with
  | nil => simp [replies]
  | cons call calls ih =>
    have h := ih (f.reply call).2
    rw [failure_reply] at h
    rw [replies, List.countP_cons]
    cases hf : (f.reply call).1.isFailure with
    | true =>
      obtain ⟨r, hr⟩ := Option.isSome_iff_exists.1 (ended_of_isFailure_reply hf).2
      simp only [hf, if_true, Option.toList_none, List.length_nil] at h
      simp only [hr, if_true, Option.toList_some, List.length_singleton]
      omega
    | false => simpa [hf] using h

/-- Where a failure was told of, the end was met before. -/
theorem any_isEnd_of_any_isFailure (h : (f.replies calls).any Reply.isFailure = true) :
    f.ended = true ∨ (f.replies calls).any Reply.isEnd = true := by
  induction calls generalizing f with
  | nil => cases h
  | cons call calls ih =>
    rw [replies, List.any_cons, Bool.or_eq_true] at h ⊢
    rcases h with h | h
    · exact .inl (ended_of_isFailure_reply h).1
    · rcases ih h with he | he
      · rw [ended_reply, Bool.or_eq_true] at he
        exact he.imp_right .inl
      · exact .inr (.inr he)

/-- The end is met only where no token is left. -/
theorem tokens_after_eq_nil (hf : f.ended = false) (h : (f.after calls).ended = true) :
    (f.after calls).tokens = [] := by
  have hkeep : ∀ (g : Feed) (calls : List Call), (g.ended = true → g.tokens = []) →
      (g.after calls).ended = true → (g.after calls).tokens = [] := by
    intro g calls
    induction calls generalizing g with
    | nil => exact id
    | cons call calls ih =>
      intro hg
      refine ih _ fun he => ?_
      rw [tokens_reply]
      have hnil : g.tokens = [] := by
        cases call with
        | hasNext | next =>
          simp only [reply, ended_hasNext, ended_next?, Bool.or_eq_true, List.isEmpty_iff] at he
          exact he.elim hg id
        | takeFailure => exact hg (by simpa [reply] using he)
      rw [hnil, List.drop_nil]
  exact hkeep f calls (by simp [hf]) h

/-- The failure apart, the replies depend on the tokens that are left. -/
theorem map_withoutFailure_replies_congr (ht : f.tokens = g.tokens) (calls : List Call) :
    (f.replies calls).map Reply.withoutFailure = (g.replies calls).map Reply.withoutFailure := by
  induction calls generalizing f g with
  | nil => rfl
  | cons call calls ih =>
    have hrest : (f.reply call).2.tokens = (g.reply call).2.tokens := by rw [tokens_reply, tokens_reply, ht]
    rw [replies, replies, List.map_cons, List.map_cons, withoutFailure_reply_congr ht, ih hrest]

/-- A source without a failure tells of none. -/
theorem isFailure_of_mem_replies (hf : f.failure = none) {r : Reply} (hr : r ∈ f.replies calls) :
    r.isFailure = false := by
  have h := countP_isFailure_replies f calls
  rw [hf, Option.toList_none, List.length_nil, Nat.le_zero, List.countP_eq_zero] at h
  simpa using h r hr

theorem map_withoutFailure_replies (hf : f.failure = none) (calls : List Call) :
    (f.replies calls).map Reply.withoutFailure = f.replies calls := by
  refine (List.map_congr_left fun r hr => ?_).trans (List.map_id _)
  cases r with
  | more b | token t => rfl
  | failure reason =>
    cases reason with
    | none => rfl
    | some t => cases isFailure_of_mem_replies hf hr

/-- Sources reply the same if they have the same tokens and the same failure, and if the end was met in both or in
neither where there is a failure. -/
theorem replies_congr (ht : f.tokens = g.tokens) (hf : f.failure = g.failure)
    (he : f.failure = none ∨ f.ended = g.ended) (calls : List Call) : f.replies calls = g.replies calls := by
  rcases he with hn | he
  · have h := map_withoutFailure_replies_congr ht calls
    rwa [map_withoutFailure_replies hn, map_withoutFailure_replies (hf ▸ hn)] at h
  · induction calls generalizing f g with
    | nil => rfl
    | cons call calls ih =>
      have hreply : (f.reply call).1 = (g.reply call).1 := by
        cases call with
        | hasNext => simp [reply, hasNext_fst, ht]
        | next => simp [reply, next?_fst, ht]
        | takeFailure => simp [reply, takeFailure?_fst, he, hf]
      rw [replies, replies, hreply, ih]
      · rw [tokens_reply, tokens_reply, ht]
      · rw [failure_reply, failure_reply, hreply, hf]
      · rw [ended_reply, ended_reply, hreply, he]

/-! ## Asking whether there is a token -/

/-- Asking whether there is a token changes what is replied later exactly if there is none, this was not known, and
there is a failure to tell of. -/
theorem replies_hasNext_iff (f : Feed) : (∀ later, f.hasNext.2.replies later = f.replies later) ↔
    f.hasNext.1 = true ∨ f.ended = true ∨ f.failure = none := by
  constructor
  · intro h
    cases ht : f.tokens.isEmpty with
    | false => exact .inl (by rw [hasNext_fst, ht]; rfl)
    | true =>
      cases he : f.ended with
      | true => exact .inr (.inl rfl)
      | false =>
        have hask := h [.takeFailure]
        simp only [replies, reply, takeFailure?_fst, ended_hasNext, failure_hasNext, he, ht] at hask
        exact .inr (.inr (by simpa using hask))
  · intro h later
    refine replies_congr (tokens_hasNext f) (failure_hasNext f) ?_ later
    rw [failure_hasNext, ended_hasNext]
    rcases h with h | h | h
    · rw [hasNext_fst, Bool.not_eq_true'] at h
      exact .inr (by rw [h, Bool.or_false])
    · exact .inr (by rw [h, Bool.true_or])
    · exact .inl h

/-- There is a token exactly if the next one would be given. -/
theorem hasNext_fst_eq_isSome (f : Feed) : f.hasNext.1 = f.next?.1.isSome := by
  rw [hasNext_fst, next?_fst]
  cases f.tokens <;> rfl

/-! ## From the start -/

section Start

variable (hf : f.ended = false)

include hf

/-- The failure is told of after a reply that there is no token, unless it was told of before. -/
theorem takeFailure?_after (calls : List Call) : (f.after calls).takeFailure?.1 =
    if (f.replies calls).any Reply.isEnd ∧ ¬ (f.replies calls).any Reply.isFailure then f.failure else none := by
  rw [takeFailure?_fst, ended_after, hf, Bool.false_or, failure_after]
  cases (f.replies calls).any Reply.isEnd with
  | false => simp
  | true => cases (f.replies calls).any Reply.isFailure <;> simp

/-- When the failure is told of, all tokens were taken. -/
theorem length_le_count_of_takeFailure? (h : (f.after calls).takeFailure?.1.isSome = true) :
    f.tokens.length ≤ calls.count .next := by
  rw [takeFailure?_fst] at h
  cases he : (f.after calls).ended with
  | true =>
    have hnil := tokens_after_eq_nil hf he
    rw [tokens_after] at hnil
    exact List.drop_eq_nil_iff.1 hnil
  | false => simp [he] at h

/-- When asking whether there is a token changes nothing of what is replied later. -/
theorem replies_hasNext_after_iff (calls : List Call) :
    (∀ later, (f.after calls).hasNext.2.replies later = (f.after calls).replies later) ↔
      (f.after calls).hasNext.1 = true ∨ (f.replies calls).any Reply.isEnd = true ∨ f.failure = none := by
  rw [replies_hasNext_iff, ended_after, hf, Bool.false_or, failure_after]
  cases h : (f.replies calls).any Reply.isFailure with
  | false => simp
  | true =>
    have hend : (f.replies calls).any Reply.isEnd = true :=
      (any_isEnd_of_any_isFailure h).resolve_left (by simp [hf])
    simp [hend]

end Start

/-! ## Bytes line by line -/

/-- **Bytes read line by line and their text** are the same source of tokens. If reading fails, then the failure apart
the source is that of the complete lines; it tells of the failure when it is asked for it after a reply that there is
no token, the first time only, and so when all tokens were taken. Whether there is a token is whether the next one
would be given, and asking for it changes nothing of what is replied later, unless it is what meets the failure. -/
theorem replies_ofBytes (bytes : Bytes) :
    (∀ calls, (ofBytes bytes).replies calls = (ofText (decodeLossy bytes)).replies calls ∧
      ∀ r ∈ (ofBytes bytes).replies calls, r.isFailure = false) ∧
    (∃ complete rest, bytes = complete ++ rest ∧ (complete = [] ∨ complete.getLast? = some 10) ∧ 10 ∉ rest ∧
      ∀ reason calls,
        let told := (ofBytes bytes (some reason)).replies calls
        let failure := ((ofBytes bytes (some reason)).after calls).takeFailure?.1
        told.map Reply.withoutFailure = (ofText (decodeLossy complete)).replies calls ∧
        failure = (if told.any Reply.isEnd ∧ ¬ told.any Reply.isFailure then some reason else none) ∧
        told.countP Reply.isFailure ≤ 1 ∧
        (failure.isSome = true → (Text.words (decodeLossy complete)).length ≤ calls.count .next)) ∧
    ∀ failure calls,
      let told := (ofBytes bytes failure).replies calls
      let source := (ofBytes bytes failure).after calls
      source.hasNext.1 = source.next?.1.isSome ∧
      (∀ later, (source.hasNext.2.replies later).map Reply.withoutFailure =
        (source.replies later).map Reply.withoutFailure) ∧
      ((∀ later, source.hasNext.2.replies later = source.replies later) ↔
        source.hasNext.1 = true ∨ told.any Reply.isEnd = true ∨ failure = none) := by
  refine ⟨fun calls => ⟨?_, fun r => isFailure_of_mem_replies rfl⟩, ⟨(splitLines bytes).1.flatten,
    (splitLines bytes).2, (splitLines_flatten bytes).symm, getLast?_splitLines bytes, newline_not_mem_splitLines bytes,
    fun reason calls => ⟨?_, takeFailure?_after rfl calls, countP_isFailure_replies _ calls, fun h => ?_⟩⟩,
    fun failure calls => ⟨hasNext_fst_eq_isSome _, fun later => ?_, replies_hasNext_after_iff rfl calls⟩⟩
  · exact replies_congr ((tokens_ofBytes bytes).trans (tokens_ofText _).symm) rfl (.inl rfl) calls
  · have ht := (tokens_ofBytes_failure bytes reason).trans (tokens_ofText _).symm
    rw [map_withoutFailure_replies_congr ht]
    exact map_withoutFailure_replies rfl calls
  · rw [← tokens_ofBytes_failure bytes reason]
    exact length_le_count_of_takeFailure? rfl h
  · exact map_withoutFailure_replies_congr (tokens_hasNext _) later

/-- A line that breaks off inside a character, and a second one that is lost: the failure is told of once the token of
the first one was taken and none was found after it. -/
theorem replies_ofBytes_broken :
    let bytes : Bytes := [0x61, 0xE2, 0x82, 10, 0x62]
    let calls : List Call := [.takeFailure, .next, .hasNext]
    let source := ofBytes bytes (some "gone".toList)
    source.replies calls = [.failure none, .token (some ['a', replacement]), .more false] ∧
      (source.after calls).takeFailure?.1 = some "gone".toList ∧
      ∃ complete rest, bytes = complete ++ rest ∧ (Text.words (decodeLossy complete)).length ≤ calls.count .next := by
  intro bytes calls source
  have htold : source.replies calls = [.failure none, .token (some ['a', replacement]), .more false] := by
    decide +kernel
  obtain ⟨-, ⟨complete, rest, hb, -, -, hfail⟩, -⟩ := replies_ofBytes bytes
  obtain ⟨-, hreason, -, hall⟩ := hfail "gone".toList calls
  have hgone : (source.after calls).takeFailure?.1 = some "gone".toList := by
    refine hreason.trans (if_pos ?_)
    rw [htold]
    decide
  exact ⟨htold, hgone, complete, rest, hb, hall (by rw [hgone]; rfl)⟩

/-- Asking for a token that is not there is what makes a failure known. -/
theorem replies_takeFailure_of_hasNext :
    (ofBytes [] (some "gone".toList)).replies [.takeFailure] = [.failure none] ∧
      (ofBytes [] (some "gone".toList)).replies [.hasNext, .takeFailure] =
        [.more false, .failure (some "gone".toList)] := by
  decide +kernel

end MiniLogo.Feed
