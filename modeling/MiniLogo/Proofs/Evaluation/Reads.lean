import MiniLogo.Proofs.Evaluation.Moves

/-!
# The tokens of an evaluation

Evaluating the next expression takes the tokens of its extent and no others, whatever the variables, the files and
the bodies run on the way are (`evalNext_takes_extent`). `reads_congruence` shows of all that evaluation is made of
that it takes its tokens as it wants them, and `reads_evalNext` follows by induction on the fuel.
-/

namespace MiniLogo

open MiniLogo.Action

variable {α : Type}

/-! ## Actions on the feed -/

theorem nextToken_of_cons {m : Machine} {f : Feed} {t : Text} {us : List Text} (h : f.tokens = t :: us) :
    ∃ g, nextToken ⟨m, f⟩ = .done t ⟨m, g⟩ ∧ f.Leaves us g := by
  obtain ⟨g, hg, hl⟩ := Feed.next?_of_cons h
  refine ⟨g, ?_, hl⟩
  unfold nextToken
  rw [bind_apply]
  simp only [onFeed, hg]
  rfl

/-- Without a token the fault is the failure of the input if there is one to report, and else the end of it. -/
theorem nextToken_of_nil {m : Machine} {f : Feed} (h : f.tokens = []) :
    ∃ g, nextToken ⟨m, f⟩ = .failed (Want.raw.fault f.failure) ⟨m, g⟩ ∧ g.tokens = [] ∧ g.ended = true := by
  obtain ⟨g, hg, hd⟩ := Feed.next?_of_nil h
  have ht : g.takeFailure? = (f.failure, { g with failure := none }) := by
    simp [Feed.takeFailure?, hd.ended, hd.failure]
  refine ⟨{ g with failure := none }, ?_, hd.tokens, hd.ended⟩
  unfold nextToken
  rw [bind_apply]
  simp only [onFeed, hg]
  rw [bind_apply, reportFailure_apply]
  simp only [ht]
  cases f.failure <;> rfl

theorem reads_nextToken : Reads [.raw] nextToken := by
  intro s
  cases ht : s.feed.tokens with
  | nil =>
    obtain ⟨g, hg, -⟩ := nextToken_of_nil (m := s.toMachine) ht
    rw [show nextToken s = _ from hg]
    exact .inr ⟨.raw, by rw [ht]; rfl, fun f hf => nextToken_of_nil (hf.trans ht)⟩
  | cons t us =>
    obtain ⟨g, hg, hl⟩ := nextToken_of_cons (m := s.toMachine) ht
    have hs : nextToken s = .done t ⟨s.toMachine, g⟩ := hg
    rw [hs]
    refine ⟨[t], us, ht, read_raw t [], fun f vs hf => ?_⟩
    exact nextToken_of_cons hf

/-- An expression is wanted and no token is left. -/
theorem starves_start (k : Text → Action α) {s : State} (h : s.feed.tokens = []) :
    (∃ e g, (nextToken >>= k) s = .failed e { s with feed := g }) ∧
      Starves [.expression] (nextToken >>= k) s s.toMachine := by
  have hk : ∀ f : Feed, f.tokens = [] → ∃ g, (nextToken >>= k) ⟨s.toMachine, f⟩ =
      .failed (Want.expression.fault f.failure) ⟨s.toMachine, g⟩ ∧ g.tokens = [] ∧ g.ended = true := by
    intro f hf
    obtain ⟨g, hg, hl⟩ := nextToken_of_nil (m := s.toMachine) hf
    refine ⟨g, ?_, hl⟩
    rw [bind_apply, hg]
    cases f.failure <;> rfl
  obtain ⟨g, hg, -⟩ := hk s.feed h
  exact ⟨⟨_, g, hg⟩, .expression, by rw [h]; rfl, fun f hf => hk f (hf.trans h)⟩

/-- The next token decides what an expression wants. -/
theorem reads_start {k : Text → Action α} (hs : ∀ raw ws, Want.ofToken raw = some ws → Reads ws (k raw))
    (hn : ∀ raw, Want.ofToken raw = none → ∃ e, k raw = fail e) : Reads [.expression] (nextToken >>= k) := by
  intro s
  cases ht : s.feed.tokens with
  | nil =>
    obtain ⟨⟨e, g, hg⟩, hst⟩ := starves_start k ht
    rw [hg]
    exact .inr hst
  | cons t us =>
    have huse : Uses nextToken s.toMachine [t] (.ok t) s.toMachine := fun f vs hf => nextToken_of_cons hf
    obtain ⟨g, hg, hl⟩ := huse s.feed us ht
    have hb : (nextToken >>= k) s = k t ⟨s.toMachine, g⟩ := by
      rw [bind_apply, show nextToken s = .of (.ok t) s.toMachine g from hg]
      rfl
    rw [hb]
    cases hw : Want.ofToken t with
    | none =>
      obtain ⟨e, he⟩ := hn t hw
      rw [he]
      have hfail : Uses (k t) s.toMachine [] (.error e) s.toMachine := by
        rw [he]
        exact fun f vs hf => ⟨f, rfl, hf, rfl, rfl⟩
      refine .inl ⟨[t], us, ht, fun n hr => ?_, huse.bind hfail⟩
      have ha : Want.expression.after t = none := hw
      rw [ht, read_cons_none ha] at hr
      cases hr
    | some ws =>
      have hk := hs t ws hw
      have ha : Want.expression.after t = some ws := hw
      have hread : ∀ vs, read [.expression] (t :: vs) = (read ws vs).add 1 := fun vs => by
        rw [read_cons_some ha, List.append_nil]
      cases hkt : k t ⟨s.toMachine, g⟩ with
      | unfinished => trivial
      | done a after =>
        obtain ⟨ts', us', ht', hr', hu'⟩ := hk.done hkt
        refine ⟨t :: ts', us', by rw [ht, ← hl.tokens]; exact congrArg _ ht', ?_, huse.bind hu'⟩
        rw [hread, hr', List.length_cons, Nat.add_comm]
        rfl
      | failed e after =>
        rcases hk.failed hkt with ⟨ts', us', ht', hn', hu'⟩ | ⟨w, hw', hst⟩
        · refine .inl ⟨t :: ts', us', by rw [ht, ← hl.tokens]; exact congrArg _ ht', fun n hr => ?_, huse.bind hu'⟩
          rw [ht, hread, ← hl.tokens] at hr
          obtain ⟨j, hj, rfl⟩ := Reading.add_eq_complete_iff.1 hr
          have := hn' j hj
          rw [List.length_cons]
          omega
        · refine .inr ⟨w, ?_, fun f hf => ?_⟩
          · rw [ht, hread, ← hl.tokens]
            exact Reading.add_eq_lacking_iff.2 hw'
          · obtain ⟨g', hg', hlg⟩ := huse f us (hf.trans ht)
            obtain ⟨h, hh, hlh⟩ := hst g' (hlg.tokens.trans hl.tokens.symm)
            refine ⟨h, ?_, hlh⟩
            rw [bind_apply, hg', ← hlg.failure]
            exact hh

/-! ## Bracketed literals -/

theorem Want.after_closing (depth : Int) (t : Text) :
    (Want.closing depth).after t = some (Want.closings (depth + Text.balance t)) := rfl

theorem Want.closings_of_ne {depth : Int} (h : depth ≠ 0) : Want.closings depth = [.closing depth] := if_neg h

/-- A literal that is complete is taken token by token. -/
theorem Feed.takeClosing_of_complete {ts us : List Text} {depth : Int} {f : Feed} {n : Nat}
    (hr : read (Want.closings depth) ts = .complete ts.length) (hf : f.tokens = ts ++ us) (hn : ts.length ≤ n) :
    ∃ g, takeClosing n depth f = (some ts, g) ∧ f.Leaves us g := by
  induction ts generalizing depth f n with
  | nil =>
    by_cases hd : depth = 0
    · subst hd
      exact ⟨f, takeClosing_zero n f, hf, rfl, rfl⟩
    · rw [Want.closings_of_ne hd] at hr
      cases hr
  | cons t ts ih =>
    have hd : depth ≠ 0 := by
      rintro rfl
      cases hr
    rw [Want.closings_of_ne hd, read_cons_some (Want.after_closing depth t), List.append_nil] at hr
    obtain ⟨j, hj, hlen⟩ := Reading.add_eq_complete_iff.1 hr
    obtain rfl : j = ts.length := by
      rw [List.length_cons] at hlen
      omega
    obtain ⟨n, rfl⟩ : ∃ n', n = n' + 1 := ⟨n - 1, by rw [List.length_cons] at hn; omega⟩
    obtain ⟨g, hg, hl⟩ := Feed.next?_of_cons hf
    obtain ⟨h, hh, hl'⟩ := ih hj hl.tokens (by simpa using hn)
    refine ⟨h, ?_, hl.trans hl'⟩
    rw [takeClosing_of_next? hd hg, hh]
    rfl

/-- A literal that is not complete lacks a token inside it: there all tokens are taken. -/
theorem Feed.takeClosing_of_not_complete {ts : List Text} {depth : Int} {f : Feed} {n : Nat}
    (hr : ∀ k, read (Want.closings depth) ts ≠ .complete k) (hf : f.tokens = ts) (hn : ts.length ≤ n) :
    (∃ d, read (Want.closings depth) ts = .lacking (.closing d)) ∧
      ∃ g, takeClosing n depth f = (none, g) ∧ f.Drained g := by
  have hd : depth ≠ 0 := by
    rintro rfl
    exact hr 0 (read_nil ts)
  rw [Want.closings_of_ne hd] at hr ⊢
  induction ts generalizing depth f n with
  | nil =>
    obtain ⟨g, hg, hl⟩ := Feed.next?_of_nil hf
    exact ⟨⟨depth, rfl⟩, g, takeClosing_of_next?_none hd hg n, hl⟩
  | cons t ts ih =>
    obtain ⟨n, rfl⟩ : ∃ n', n = n' + 1 := ⟨n - 1, by rw [List.length_cons] at hn; omega⟩
    obtain ⟨g, hg, hl⟩ := Feed.next?_of_cons hf
    rw [read_cons_some (Want.after_closing depth t), List.append_nil] at hr ⊢
    have hr' : ∀ k, read (Want.closings (depth + Text.balance t)) ts ≠ .complete k := fun k hk =>
      hr (1 + k) (by rw [hk]; rfl)
    have hd' : depth + Text.balance t ≠ 0 := by
      intro h0
      rw [h0] at hr'
      exact hr' 0 (read_nil ts)
    rw [Want.closings_of_ne hd'] at hr' ⊢
    obtain ⟨⟨d, hlack⟩, h, hh, hdr⟩ := ih hr' hl.tokens (by simpa using hn) hd'
    refine ⟨⟨d, Reading.add_eq_lacking_iff.2 hlack⟩, h, ?_, hdr.of_leaves hl⟩
    rw [takeClosing_of_next? hd hg, hh]
    rfl

/-- A literal is read if its brackets are closed by tokens that are there, and takes these. -/
theorem readBracketed_of_complete {first : Text} {ts us : List Text} {m : Machine} {f : Feed}
    (hr : read (Want.closings (Text.balance first)) ts = .complete ts.length) (hf : f.tokens = ts ++ us) :
    ∃ g, readBracketed first ⟨m, f⟩ = .done (Literal.value (Text.unwords (first :: ts))) ⟨m, g⟩ ∧ f.Leaves us g := by
  obtain ⟨g, hg, hl⟩ := Feed.takeClosing_of_complete hr hf (n := f.size) (by simp [Feed.size, hf])
  refine ⟨g, ?_, hl⟩
  unfold readBracketed
  rw [bind_apply]
  simp only [onFeed, Feed.readBracketed, hg]
  rfl

/-- A literal whose brackets are not closed takes all tokens that are there, and fails with the end of the input. -/
theorem readBracketed_of_not_complete {first : Text} {m : Machine} {f : Feed}
    (hr : ∀ k, read (Want.closings (Text.balance first)) f.tokens ≠ .complete k) :
    (∃ d, read (Want.closings (Text.balance first)) f.tokens = .lacking (.closing d)) ∧
      ∃ g, readBracketed first ⟨m, f⟩ = .failed .endOfInput ⟨m, g⟩ ∧ f.Drained g := by
  obtain ⟨hlack, g, hg, hd⟩ := Feed.takeClosing_of_not_complete hr rfl (Nat.le_refl f.size)
  refine ⟨hlack, g, ?_, hd⟩
  unfold readBracketed
  rw [bind_apply]
  simp only [onFeed, Feed.readBracketed, hg]
  rfl

/-- A literal is complete, and then the tokens it is read from are gone, or all tokens are. -/
theorem readBracketed_cases (first : Text) (s : State) :
    (∃ ts us, s.feed.tokens = ts ++ us ∧ read (Want.closings (Text.balance first)) ts = .complete ts.length ∧
      ∃ g, readBracketed first s = .done (Literal.value (Text.unwords (first :: ts))) ⟨s.toMachine, g⟩ ∧
        s.feed.Leaves us g) ∨
    (∀ k, read (Want.closings (Text.balance first)) s.feed.tokens ≠ .complete k) ∧
      ∃ g, readBracketed first s = .failed .endOfInput ⟨s.toMachine, g⟩ ∧ s.feed.Drained g := by
  by_cases hr : ∃ n, read (Want.closings (Text.balance first)) s.feed.tokens = .complete n
  · obtain ⟨n, hn⟩ := hr
    have hsplit : s.feed.tokens = s.feed.tokens.take n ++ s.feed.tokens.drop n := (List.take_append_drop n _).symm
    have hc : read (Want.closings (Text.balance first)) (s.feed.tokens.take n) =
        .complete (s.feed.tokens.take n).length := by
      rw [List.length_take, Nat.min_eq_left (le_length_of_read hn)]
      exact read_take hn
    exact .inl ⟨_, _, hsplit, hc, readBracketed_of_complete hc hsplit⟩
  · have hnot := fun k hk => hr ⟨k, hk⟩
    exact .inr ⟨hnot, (readBracketed_of_not_complete hnot).2⟩

theorem reads_readBracketed (first : Text) :
    Reads (Want.closings (Text.balance first)) (readBracketed first) := by
  intro s
  rcases readBracketed_cases first s with ⟨ts, us, hsplit, hc, g, hg, -⟩ | ⟨hnot, g, hg, -⟩
  · rw [hg]
    exact ⟨ts, us, hsplit, hc, fun f vs hf => readBracketed_of_complete hc hf⟩
  · rw [hg]
    obtain ⟨⟨d, hlack⟩, -⟩ := readBracketed_of_not_complete (m := s.toMachine) hnot
    refine .inr ⟨.closing d, hlack, fun f hf => ?_⟩
    obtain ⟨-, h, hh, hd⟩ := readBracketed_of_not_complete (m := s.toMachine) (hf ▸ hnot)
    exact ⟨h, hh, hd.tokens, hd.ended⟩

/-! ## Evaluation -/

/-- All that evaluation is made of takes its tokens as it wants them. -/
theorem reads_congruence : Congruence fun ws x _ => Reads ws x where
  pure a := (ignoresFeed_pure a).reads
  fail ws e := fun s => .inl ⟨[], s.feed.tokens, rfl, fun n _ => Nat.zero_le n, fun f us hf => ⟨f, rfl, hf, rfl, rfl⟩⟩
  bind hx hf := hx.bind hf
  nextToken := reads_nextToken
  start hs hn := reads_start hs fun raw hw => by
    obtain ⟨e, he, -⟩ := hn raw hw
    exact ⟨e, he⟩
  readBracketed := reads_readBracketed
  lookup name := (ignoresFeed_lookup name).reads
  isBound name := IgnoresFeed.reads fun m => .inl ⟨.ok (m.environment.contains name), m, fun _ => rfl⟩
  define name v := IgnoresFeed.reads fun m =>
    .inl ⟨.ok (), { m with environment := m.environment.define name v }, fun _ => rfl⟩
  writeLine t := (ignoresFeed_writeLine t).reads
  draw := IgnoresFeed.reads fun m =>
    .inl ⟨.ok m.generator.draw.1, { m with generator := m.generator.draw.2 }, fun _ => rfl⟩
  halt := IgnoresFeed.reads fun m => .inl ⟨.ok (), { m with halted := true }, fun _ => rfl⟩

/-- By induction on the fuel, the next expression reads the tokens of one expression. -/
theorem reads_evalNext (files : Files) (fuel : Nat) : Reads [.expression] (evalNext files fuel) := by
  induction fuel with
  | zero =>
    intro s
    cases ht : s.feed.tokens with
    | nil =>
      obtain ⟨⟨e, g, hg⟩, hst⟩ := starves_start (eval files 0) ht
      rw [show evalNext files 0 s = _ from hg]
      exact .inr hst
    | cons t us =>
      obtain ⟨g, hg, -⟩ := nextToken_of_cons (m := s.toMachine) ht
      have hs : evalNext files 0 s = .unfinished := by
        show (nextToken >>= eval files 0) s = .unfinished
        rw [bind_apply, show nextToken s = _ from hg]
        rfl
      rw [hs]
      trivial
  | succ fuel ih =>
    have hl : ∀ feed, Reads [] (within feed (run files fuel)) := fun feed => (ignoresFeed_within feed _).reads
    exact @Congruence.expression _ files _ (evalNext files fuel) _ (run files fuel) reads_congruence ih hl

/-- **Evaluating the next expression takes the tokens of its extent**: exactly these if it ends with a value, so that
there is none without an extent, and no more than these if it ends with a fault. The bodies that `run`, `if` and
`load` execute take none of them. -/
theorem evalNext_takes_extent (files : Files) (fuel : Nat) (s : State) :
    (∀ v after, evalNext files fuel s = .done v after →
      ∃ n, extent s.feed.tokens = some n ∧ n ≤ s.feed.tokens.length ∧
        after.feed.tokens = s.feed.tokens.drop n) ∧
    (∀ e after, evalNext files fuel s = .failed e after →
      ∃ k, k ≤ s.feed.tokens.length ∧ after.feed.tokens = s.feed.tokens.drop k ∧
        ∀ n, extent s.feed.tokens = some n → k ≤ n) ∧
    (∀ v, IgnoresFeed (runList (run files fuel) v)) ∧ ∀ path, IgnoresFeed (load files fuel path) := by
  have hread := reads_evalNext files fuel
  refine ⟨fun v after hv => ?_, fun e after he => ?_, ignoresFeed_runList _, ignoresFeed_loadFile files _⟩
  · obtain ⟨n, hn, hl⟩ := (hread.done hv).read_eq hv
    exact ⟨n, extent_eq_some_iff.2 hn, le_length_of_read hn, hl.tokens⟩
  · rcases hread.failed he with ⟨ts, us, ht, hn, hu⟩ | hst
    · have hl : s.feed.Leaves us after.feed := hu.leaves ht he
      refine ⟨ts.length, by rw [ht, List.length_append]; omega, ?_, fun n h => hn n (extent_eq_some_iff.1 h)⟩
      rw [hl.tokens, ht, List.drop_left]
    · obtain ⟨w, hw, -, hf, -⟩ := hst.fault_eq he
      refine ⟨s.feed.tokens.length, Nat.le_refl _, by rw [hf, List.drop_length], fun n h => ?_⟩
      rw [extent_eq_some_iff.1 h] at hw
      cases hw

/-- The body of this `run` is evaluated, and the token after its literal is not. -/
theorem evalNext_takes_extent_run :
    let s : State := ⟨{ environment := .empty }, .ofText "run [make \"x \"a] \"b".toList⟩
    let after : State := ⟨{ environment := .define .empty ['x'] (.word ['a']) }, .ofText "\"b".toList⟩
    evalNext (fun _ => .error .notFound) 3 s = .done (.word ['a']) after ∧
      ∃ n, extent s.feed.tokens = some n ∧ n ≤ s.feed.tokens.length ∧
        after.feed.tokens = s.feed.tokens.drop n := by
  have h : evalNext (fun _ => .error .notFound) 3
      ⟨{ environment := .empty }, .ofText "run [make \"x \"a] \"b".toList⟩ = .done (.word ['a'])
      ⟨{ environment := .define .empty ['x'] (.word ['a']) }, .ofText "\"b".toList⟩ :=
    evalNext_eq_of_visible rfl (by decide +kernel)
  exact ⟨h, (evalNext_takes_extent _ 3 _).1 _ _ h⟩

end MiniLogo
