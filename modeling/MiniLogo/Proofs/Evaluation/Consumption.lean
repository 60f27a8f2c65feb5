import MiniLogo.Proofs.Evaluation.Congruence

/-!
# Actions that take tokens as they want them

`Reads ws x` says what the action `x` does with the tokens it is given if it meets the wants `ws`:

- an end that is a value, or a fault of its own, depends only on the machine and on the tokens taken (`Uses`), and
  these are at most what the wants ask for: all of it if the end is a value (`Meets`, `Stops`);
- otherwise a token was wanted that was not there, and the fault says so (`Starves`, `Want.fault`).

One action after another meets the wants of both (`Reads.bind`). An action that leaves the feed alone meets none
(`IgnoresFeed.reads`); the bodies of `run`, `if` and `load` are such actions, for the feed they are given hides that
of the caller (`ignoresFeed_within`).
-/

namespace MiniLogo

open MiniLogo.Action

variable {α β : Type}

/-! ## Feeds -/

/-- The feed `g` is the feed `f` with the tokens `us` left and its end not met since. -/
structure Feed.Leaves (f : Feed) (us : List Text) (g : Feed) : Prop where
  tokens : g.tokens = us
  failure : g.failure = f.failure
  ended : g.ended = f.ended

theorem Feed.Leaves.trans {f g h : Feed} {us vs : List Text} (hg : f.Leaves us g) (hh : g.Leaves vs h) :
    f.Leaves vs h :=
  ⟨hh.tokens, hh.failure.trans hg.failure, hh.ended.trans hg.ended⟩

/-- The feed `g` is the feed `f` after a token was asked for that was not there. -/
structure Feed.Drained (f g : Feed) : Prop where
  tokens : g.tokens = []
  failure : g.failure = f.failure
  ended : g.ended = true

theorem Feed.Drained.of_leaves {f g h : Feed} {us : List Text} (hg : f.Leaves us g) (hh : g.Drained h) :
    f.Drained h :=
  ⟨hh.tokens, hh.failure.trans hg.failure, hh.ended⟩

/-- A token that is there is taken. -/
theorem Feed.next?_of_cons {f : Feed} {t : Text} {us : List Text} (h : f.tokens = t :: us) :
    ∃ g, f.next? = (some t, g) ∧ f.Leaves us g := by
  refine ⟨f.next?.2, ?_, ?_, ?_, ?_⟩
  · rw [← List.head?_cons (a := t) (l := us), ← h, ← Feed.next?_fst]
  · simp [h]
  · simp
  · simp [h]

/-- Without a token the end of the lines is met. -/
theorem Feed.next?_of_nil {f : Feed} (h : f.tokens = []) : ∃ g, f.next? = (none, g) ∧ f.Drained g := by
  refine ⟨f.next?.2, ?_, ?_, ?_, ?_⟩
  · rw [← List.head?_nil (α := Text), ← h, ← Feed.next?_fst]
  · simp [h]
  · simp
  · simp [h]

/-! ## Actions that have ended -/

/-- The outcome of an action that ended: its result, the machine and the feed. -/
def Outcome.of (r : Except Fault α) (m : Machine) (f : Feed) : Outcome α :=
  match r with
  | .ok a => .done a ⟨m, f⟩
  | .error e => .failed e ⟨m, f⟩

theorem Outcome.of_inj {r r' : Except Fault α} {m m' : Machine} {f f' : Feed}
    (h : Outcome.of r m f = .of r' m' f') : r = r' ∧ m = m' ∧ f = f' := by
  cases r <;> cases r' <;> cases h <;> exact ⟨rfl, rfl, rfl⟩

/-- One action after another ends as the first one fails, or as the second one ends from where the first one left. -/
theorem bind_eq_of_iff {x : Action α} {k : α → Action β} {s : State} {r : Except Fault β} {m : Machine} {f : Feed} :
    (x >>= k) s = .of r m f ↔ (∃ e, x s = .failed e ⟨m, f⟩ ∧ r = .error e) ∨
      ∃ a after, x s = .done a after ∧ k a after = .of r m f := by
  rw [bind_apply]
  cases hx : x s with
  | done a after =>
    constructor
    · exact fun h => .inr ⟨a, after, rfl, h⟩
    · rintro (⟨e, h, -⟩ | ⟨b, after', h, hk⟩) <;> cases h
      exact hk
  | failed e after =>
    constructor
    · intro h
      obtain ⟨rfl, rfl, rfl⟩ := Outcome.of_inj (r := .error e) (m := after.toMachine) (f := after.feed) h
      exact .inl ⟨e, rfl, rfl⟩
    · rintro (⟨e', he, rfl⟩ | ⟨a, after', h, -⟩)
      · obtain ⟨rfl, rfl⟩ := Outcome.failed.inj he
        rfl
      · cases h
  | unfinished =>
    constructor
    · intro h
      cases r <;> cases h
    · rintro (⟨e, h, -⟩ | ⟨a, after, h, -⟩) <;> cases h

/-- An action on a feed of its own ends as it does there, and the former feed is back. -/
theorem within_eq_of_iff {x : Action α} {feed : Feed} {s : State} {r : Except Fault α} {m : Machine} {g : Feed} :
    within feed x s = .of r m g ↔ g = s.feed ∧ ∃ f, x ⟨s.toMachine, feed⟩ = .of r m f := by
  unfold within
  cases hx : x ⟨s.toMachine, feed⟩ with
  | done a after =>
    constructor
    · intro h
      obtain ⟨rfl, rfl, rfl⟩ := Outcome.of_inj (r := .ok a) (m := after.toMachine) (f := s.feed) h
      exact ⟨rfl, after.feed, rfl⟩
    · rintro ⟨rfl, f, h⟩
      obtain ⟨rfl, rfl, -⟩ := Outcome.of_inj (r := .ok a) (m := after.toMachine) (f := after.feed) h
      rfl
  | failed e after =>
    constructor
    · intro h
      obtain ⟨rfl, rfl, rfl⟩ := Outcome.of_inj (r := .error e) (m := after.toMachine) (f := s.feed) h
      exact ⟨rfl, after.feed, rfl⟩
    · rintro ⟨rfl, f, h⟩
      obtain ⟨rfl, rfl, -⟩ := Outcome.of_inj (r := .error e) (m := after.toMachine) (f := after.feed) h
      rfl
  | unfinished =>
    constructor
    · intro h
      cases r <;> cases h
    · rintro ⟨-, f, h⟩
      cases r <;> cases h

/-- The action takes exactly the tokens `ts` from the machine `m`, whatever follows them, and ends so. -/
def Uses (x : Action α) (m : Machine) (ts : List Text) (r : Except Fault α) (m' : Machine) : Prop :=
  ∀ (f : Feed) (us : List Text), f.tokens = ts ++ us → ∃ g, x ⟨m, f⟩ = .of r m' g ∧ f.Leaves us g

/-- One action after another uses the tokens of both. -/
theorem Uses.bind {x : Action α} {k : α → Action β} {m m₁ m₂ : Machine} {ts us : List Text} {a : α}
    {r : Except Fault β} (hx : Uses x m ts (.ok a) m₁) (hk : Uses (k a) m₁ us r m₂) :
    Uses (x >>= k) m (ts ++ us) r m₂ := by
  intro f vs hf
  obtain ⟨g, hg, hl⟩ := hx f (us ++ vs) (by rw [hf, List.append_assoc])
  obtain ⟨h, hh, hl'⟩ := hk g vs hl.tokens
  exact ⟨h, by rw [bind_apply, hg]; exact hh, hl.trans hl'⟩

/-- What follows a fault uses nothing. -/
theorem Uses.bind_error {x : Action α} {k : α → Action β} {m m₁ : Machine} {ts : List Text} {e : Fault}
    (hx : Uses x m ts (.error e) m₁) : Uses (x >>= k) m ts (.error e) m₁ := by
  intro f vs hf
  obtain ⟨g, hg, hl⟩ := hx f vs hf
  exact ⟨g, by rw [bind_apply, hg]; rfl, hl⟩

/-- An action that knows its tokens leaves the others. -/
theorem Uses.leaves {x : Action α} {s after : State} {ts us : List Text} {r : Except Fault α}
    (h : Uses x s.toMachine ts r after.toMachine) (ht : s.feed.tokens = ts ++ us)
    (hx : x s = .of r after.toMachine after.feed) : s.feed.Leaves us after.feed := by
  obtain ⟨g, hg, hl⟩ := h s.feed us ht
  obtain ⟨-, -, rfl⟩ := Outcome.of_inj (hx.symm.trans hg)
  exact hl

/-! ## Actions that meet wants -/

/-- The fault of an action that lacks a token: the literal reader does not ask how the input came to its end. -/
def Want.fault : Want → Option Text → Fault
  | .closing _, _ => .endOfInput
  | _, some reason => .input reason
  | _, none => .endOfInput

/-- The action met the wants and ends with a value. -/
def Meets (ws : List Want) (x : Action α) (s : State) (a : α) (m : Machine) : Prop :=
  ∃ ts us, s.feed.tokens = ts ++ us ∧ read ws ts = .complete ts.length ∧ Uses x s.toMachine ts (.ok a) m

/-- The action gave up for a reason of its own, not having taken more than is wanted. -/
def Stops (ws : List Want) (x : Action α) (s : State) (e : Fault) (m : Machine) : Prop :=
  ∃ ts us, s.feed.tokens = ts ++ us ∧ (∀ n, read ws s.feed.tokens = .complete n → ts.length ≤ n) ∧
    Uses x s.toMachine ts (.error e) m

/-- A token was wanted after the last one, as with every feed that has the same tokens. -/
def Starves (ws : List Want) (x : Action α) (s : State) (m : Machine) : Prop :=
  ∃ w, read ws s.feed.tokens = .lacking w ∧ ∀ f : Feed, f.tokens = s.feed.tokens →
    ∃ g, x ⟨s.toMachine, f⟩ = .failed (w.fault f.failure) ⟨m, g⟩ ∧ g.tokens = [] ∧ g.ended = true

/-- The action takes its tokens as the wants say. -/
def Reads (ws : List Want) (x : Action α) : Prop :=
  ∀ s : State, match x s with
    | .done a after => Meets ws x s a after.toMachine
    | .failed e after => Stops ws x s e after.toMachine ∨ Starves ws x s after.toMachine
    | .unfinished => True

/-- An action that ends with a value has met its wants. -/
theorem Reads.done {ws : List Want} {x : Action α} {s after : State} {a : α} (h : Reads ws x)
    (hx : x s = .done a after) : Meets ws x s a after.toMachine := by
  have := h s
  rwa [hx] at this

/-- An action that fails stops within its wants, or starves for one of them. -/
theorem Reads.failed {ws : List Want} {x : Action α} {s after : State} {e : Fault} (h : Reads ws x)
    (hx : x s = .failed e after) : Stops ws x s e after.toMachine ∨ Starves ws x s after.toMachine := by
  have := h s
  rwa [hx] at this

/-- The fault of an action that starved, and what it left. -/
theorem Starves.fault_eq {ws : List Want} {x : Action α} {s after : State} {e : Fault}
    (h : Starves ws x s after.toMachine) (hx : x s = .failed e after) :
    ∃ w, read ws s.feed.tokens = .lacking w ∧ e = w.fault s.feed.failure ∧ after.feed.tokens = [] ∧
      after.feed.ended = true := by
  obtain ⟨w, hw, hs⟩ := h
  obtain ⟨g, hg, hl⟩ := hs s.feed rfl
  have he : Outcome.failed e after = .failed (w.fault s.feed.failure) ⟨after.toMachine, g⟩ := hx.symm.trans hg
  obtain ⟨rfl, ha⟩ := Outcome.failed.inj he
  rw [ha]
  exact ⟨w, hw, rfl, hl⟩

/-- An action that starved does so with every feed that has the same tokens and the same end. -/
theorem Starves.of_tokens_eq {ws : List Want} {x : Action α} {s after : State} {e : Fault}
    (h : Starves ws x s after.toMachine) (hx : x s = .failed e after) {f : Feed} (ht : f.tokens = s.feed.tokens)
    (hf : f.failure = s.feed.failure) :
    ∃ g, x ⟨s.toMachine, f⟩ = .failed e ⟨after.toMachine, g⟩ ∧ g.tokens = after.feed.tokens := by
  obtain ⟨w, -, hs⟩ := h
  obtain ⟨g₁, hg₁, hnil₁, -⟩ := hs s.feed rfl
  obtain ⟨g₂, hg₂, hnil₂, -⟩ := hs f ht
  have he : Outcome.failed e after = .failed (w.fault s.feed.failure) ⟨after.toMachine, g₁⟩ := hx.symm.trans hg₁
  obtain ⟨rfl, ha⟩ := Outcome.failed.inj he
  refine ⟨g₂, by rw [hg₂, hf], ?_⟩
  rw [ha]
  exact hnil₂.trans hnil₁.symm

/-- The tokens after an action that met its wants. -/
theorem Meets.read_eq {ws : List Want} {x : Action α} {s after : State} {a : α}
    (h : Meets ws x s a after.toMachine) (hx : x s = .done a after) :
    ∃ n, read ws s.feed.tokens = .complete n ∧ s.feed.Leaves (s.feed.tokens.drop n) after.feed := by
  obtain ⟨ts, us, ht, hr, hu⟩ := h
  refine ⟨ts.length, by rw [ht]; exact read_append_tokens hr us, ?_⟩
  rw [ht, List.drop_left]
  exact hu.leaves ht hx

/-- An action that ends with a value does not ask for the failure of the input. -/
theorem Reads.failure_eq {ws : List Want} {x : Action α} {s after : State} {a : α} (h : Reads ws x)
    (hx : x s = .done a after) : after.feed.failure = s.feed.failure := by
  obtain ⟨ts, vs, ht, -, hu⟩ := h.done hx
  exact (hu.leaves ht hx).failure

/-- An action that ends with a value does so with more tokens after its own, and leaves them. -/
theorem Reads.done_append {ws : List Want} {x : Action α} {s after : State} {a : α} (h : Reads ws x)
    (hx : x s = .done a after) {g : Feed} {us : List Text} (hg : g.tokens = s.feed.tokens ++ us) :
    ∃ g', x ⟨s.toMachine, g⟩ = .done a ⟨after.toMachine, g'⟩ ∧ g'.tokens = after.feed.tokens ++ us ∧
      g'.failure = g.failure := by
  obtain ⟨ts, vs, ht, -, hu⟩ := h.done hx
  obtain ⟨g', hg', hl'⟩ := hu g (vs ++ us) (by rw [hg, ht, List.append_assoc])
  exact ⟨g', hg', by rw [hl'.tokens, (hu.leaves ht hx).tokens], hl'.failure⟩

/-- An action that fails for a reason of its own does so with more tokens too. -/
theorem Reads.failed_append {ws : List Want} {x : Action α} {s after : State} {e : Fault} (h : Reads ws x)
    (hx : x s = .failed e after) {g : Feed} {us : List Text} (hg : g.tokens = s.feed.tokens ++ us) :
    (∃ g', x ⟨s.toMachine, g⟩ = .failed e ⟨after.toMachine, g'⟩ ∧ g'.tokens = after.feed.tokens ++ us) ∨
      Starves ws x s after.toMachine := by
  rcases h.failed hx with ⟨ts, vs, ht, -, hu⟩ | hst
  · obtain ⟨g', hg', hl'⟩ := hu g (vs ++ us) (by rw [hg, ht, List.append_assoc])
    exact .inl ⟨g', hg', by rw [hl'.tokens, (hu.leaves ht hx).tokens]⟩
  · exact .inr hst

/-- An action ends in the same way with every feed that has the same tokens and the same end. -/
theorem Reads.of_tokens_eq {ws : List Want} {x : Action α} {m m' : Machine} {f f' g : Feed} {r : Except Fault α}
    (h : Reads ws x) (hx : x ⟨m, f⟩ = .of r m' f') (ht : g.tokens = f.tokens) (hf : g.failure = f.failure) :
    ∃ g', x ⟨m, g⟩ = .of r m' g' ∧ g'.tokens = f'.tokens ∧ ∀ a, r = .ok a → g'.failure = g.failure := by
  have hg : g.tokens = f.tokens ++ [] := by rw [ht, List.append_nil]
  cases r with
  | ok a =>
    have hx : x ⟨m, f⟩ = .done a ⟨m', f'⟩ := hx
    obtain ⟨g', hg', ht', hf'⟩ := h.done_append hx hg
    exact ⟨g', hg', by rw [ht', List.append_nil], fun _ _ => hf'⟩
  | error e =>
    have hx : x ⟨m, f⟩ = .failed e ⟨m', f'⟩ := hx
    rcases h.failed_append hx hg with ⟨g', hg', ht'⟩ | hst
    · exact ⟨g', hg', by rw [ht', List.append_nil], nofun⟩
    · obtain ⟨g', hg', ht'⟩ := hst.of_tokens_eq hx ht hf
      exact ⟨g', hg', ht', nofun⟩

/-- One action after another reads what both want. -/
theorem Reads.bind {ws ws' : List Want} {x : Action α} {k : α → Action β} (hx : Reads ws x)
    (hk : ∀ a, Reads ws' (k a)) : Reads (ws ++ ws') (x >>= k) := by
  intro s
  rw [bind_apply]
  cases hs : x s with
  | unfinished => trivial
  | failed e after =>
    rcases hx.failed hs with ⟨ts, us, ht, hn, hu⟩ | ⟨w, hw, hst⟩
    · refine .inl ⟨ts, us, ht, fun n hr => ?_, hu.bind_error⟩
      obtain ⟨i, j, hi, -, rfl⟩ := complete_of_read_append hr
      have := hn i hi
      omega
    · refine .inr ⟨w, read_append_of_lacking hw ws', fun f hf => ?_⟩
      obtain ⟨g, hg, hl⟩ := hst f hf
      exact ⟨g, by rw [bind_apply, hg], hl⟩
  | done a s₁ =>
    obtain ⟨ts, us, ht, hr, hu⟩ := hx.done hs
    have hl : s.feed.Leaves us s₁.feed := hu.leaves ht hs
    have hrs : read ws s.feed.tokens = .complete ts.length := by rw [ht]; exact read_append_tokens hr us
    have hd : s.feed.tokens.drop ts.length = us := by rw [ht, List.drop_left]
    simp only
    cases hks : k a s₁ with
    | unfinished => trivial
    | done b s₂ =>
      obtain ⟨ts', us', ht', hr', hu'⟩ := (hk a).done hks
      refine ⟨ts ++ ts', us', ?_, ?_, hu.bind hu'⟩
      · rw [ht, ← hl.tokens, ht', List.append_assoc]
      · rw [read_append_of_complete (read_append_tokens hr ts'), List.drop_left, hr', List.length_append]
        rfl
    | failed e s₂ =>
      rcases (hk a).failed hks with ⟨ts', us', ht', hn', hu'⟩ | ⟨w, hw, hst⟩
      · refine .inl ⟨ts ++ ts', us', by rw [ht, ← hl.tokens, ht', List.append_assoc], fun n hn => ?_, hu.bind hu'⟩
        rw [read_append_of_complete hrs, hd, ← hl.tokens] at hn
        obtain ⟨j, hj, rfl⟩ := Reading.add_eq_complete_iff.1 hn
        have := hn' j hj
        rw [List.length_append]
        omega
      · refine .inr ⟨w, ?_, fun f hf => ?_⟩
        · rw [read_append_of_complete hrs, hd, ← hl.tokens, hw]
          rfl
        · obtain ⟨g, hg, hlg⟩ := hu f us (hf.trans ht)
          obtain ⟨h, hh, hlh⟩ := hst g (hlg.tokens.trans hl.tokens.symm)
          refine ⟨h, ?_, hlh⟩
          rw [bind_apply, hg, ← hlg.failure]
          exact hh

/-! ## Actions that leave the feed alone -/

/-- The action does the same with every feed, which stays as it is. -/
def IgnoresFeed (x : Action α) : Prop :=
  ∀ m, (∃ r m', ∀ f, x ⟨m, f⟩ = .of r m' f) ∨ ∀ f, x ⟨m, f⟩ = .unfinished

/-- What ignores the feed wants nothing. -/
theorem IgnoresFeed.reads {x : Action α} (h : IgnoresFeed x) : Reads [] x := by
  intro s
  rcases h s.toMachine with ⟨r, m', hr⟩ | hu
  · have hs : x s = .of r m' s.feed := hr s.feed
    have huse : Uses x s.toMachine [] r m' := fun f us hf => ⟨f, hr f, hf, rfl, rfl⟩
    rw [hs]
    cases r with
    | ok a => exact ⟨[], _, rfl, rfl, huse⟩
    | error e => exact .inl ⟨[], _, rfl, fun n _ => Nat.zero_le n, huse⟩
  · have hs : x s = .unfinished := hu s.feed
    rw [hs]
    trivial

theorem IgnoresFeed.bind {x : Action α} {k : α → Action β} (hx : IgnoresFeed x) (hk : ∀ a, IgnoresFeed (k a)) :
    IgnoresFeed (x >>= k) := by
  intro m
  rcases hx m with ⟨r, m', hr⟩ | hu
  · cases r with
    | ok a =>
      have hb : ∀ f, (x >>= k) ⟨m, f⟩ = k a ⟨m', f⟩ := fun f => by rw [bind_apply, hr f]; rfl
      simp only [hb]
      exact hk a m'
    | error e => exact .inl ⟨.error e, m', fun f => by rw [bind_apply, hr f]; rfl⟩
  · exact .inr fun f => by rw [bind_apply, hu f]

theorem ignoresFeed_pure (a : α) : IgnoresFeed (Pure.pure a) := fun m => .inl ⟨.ok a, m, fun _ => rfl⟩

theorem ignoresFeed_fail (e : Fault) : IgnoresFeed (fail (α := α) e) := fun m => .inl ⟨.error e, m, fun _ => rfl⟩

/-- What runs on a feed of its own leaves that of the caller as it is, whatever it does. -/
theorem ignoresFeed_within (feed : Feed) (x : Action α) : IgnoresFeed (within feed x) := by
  intro m
  cases hx : x ⟨m, feed⟩ with
  | done a after => exact .inl ⟨.ok a, after.toMachine, fun f => by simp only [within, hx]; rfl⟩
  | failed e after => exact .inl ⟨.error e, after.toMachine, fun f => by simp only [within, hx]; rfl⟩
  | unfinished => exact .inr fun f => by simp only [within, hx]

/-- A list is run on a feed of its own. -/
theorem ignoresFeed_runList (loop : Action (Option Value)) (v : Value) : IgnoresFeed (runList loop v) := by
  unfold runList
  cases Text.unbracket? v.text with
  | some interior => exact (ignoresFeed_within _ loop).bind fun _ => ignoresFeed_pure _
  | none => exact ignoresFeed_fail _

/-- A file is run on a feed of its own. -/
theorem ignoresFeed_loadFile (files : Files) (loop : Action (Option Value)) (path : Text) :
    IgnoresFeed (loadFile files loop path) := by
  unfold loadFile
  cases files path with
  | ok bytes => exact (ignoresFeed_within _ loop).bind fun _ => ignoresFeed_pure _
  | error reason => exact ignoresFeed_fail _

/-- Looking a name up changes nothing; the value is the one that is bound. -/
theorem lookup_ends (name : Text) (m : Machine) : ∃ r, (∀ f, lookup name ⟨m, f⟩ = .of r m f) ∧
    ∀ v, r = .ok v → m.environment.get? name = some v := by
  cases hm : m.environment.get? name with
  | some v =>
    refine ⟨.ok v, fun f => by simp only [lookup, hm]; rfl, fun w hw => ?_⟩
    rw [Except.ok.inj hw]
  | none =>
    refine ⟨.error (.undefinedVariable name), fun f => by simp only [lookup, hm]; rfl, fun w hw => ?_⟩
    cases hw

/-- Writing a line changes the output only. -/
theorem writeLine_ends (t : Text) (m : Machine) : ∃ r, ∀ f, writeLine t ⟨m, f⟩ =
    .of r { m with output := (m.output.write (Utf8.encode (t ++ ['\n']))).2 } f := by
  cases hw : m.output.write (Utf8.encode (t ++ ['\n'])) with
  | mk fits output =>
    cases fits with
    | true => exact ⟨.ok (), fun f => by simp only [writeLine, hw]; rfl⟩
    | false => exact ⟨.error (.output Sink.full), fun f => by simp only [writeLine, hw]; rfl⟩

theorem ignoresFeed_lookup (name : Text) : IgnoresFeed (lookup name) := by
  intro m
  obtain ⟨r, hr, -⟩ := lookup_ends name m
  exact .inl ⟨r, m, hr⟩

theorem ignoresFeed_writeLine (t : Text) : IgnoresFeed (writeLine t) := by
  intro m
  obtain ⟨r, hr⟩ := writeLine_ends t m
  exact .inl ⟨r, _, hr⟩

end MiniLogo
