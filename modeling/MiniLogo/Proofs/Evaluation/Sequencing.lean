import MiniLogo.Proofs.Evaluation.Fuel
import MiniLogo.Proofs.Text.Words

/-!
# Programs one after the other

A run does not see the tokens after those it takes. If it ends because it has evaluated all its tokens, then with more
tokens after them it goes on from the machine and the value it had come to (`drive_append`). If it ends for another
reason, be it `exit` or a fault of its own, then it ends so with more tokens too, and leaves these
(`drive_append_of_stopped`). Only the end of the input is a fault that more tokens can mend.

`run_append` says this of two texts with a blank between them.
-/

namespace MiniLogo

open MiniLogo.Action

variable {next : Action Value} {n : Nat} {m m' : Machine} {f f' g : Feed} {us : List Text}

/-! ## More tokens -/

/-- Without a failure of the input, an action that lacks a token fails with the end of the input. -/
@[simp] theorem Want.fault_none (w : Want) : w.fault none = .endOfInput := by
  cases w <;> rfl

/-- A run that evaluates its tokens to the last goes on with those after them. -/
theorem drive_append (hnext : Reads [.expression] next) {l v : Option Value}
    (h : drive next n l ⟨m, f⟩ = .of (.ok v) m' f') (hh : m'.halted = false) (hf : f.failure = none)
    (hg : g.failure = none) (ht : g.tokens = f.tokens ++ us) :
    ∃ k g', k ≤ n ∧ g'.tokens = us ∧ g'.failure = none ∧
      ∀ j, drive next (k + j) l ⟨m, g⟩ = drive next j v ⟨m', g'⟩ := by
  induction n generalizing l m f g with
  | zero => cases h
  | succ n ih =>
    have hga : (State.asked ⟨m, g⟩).feed.tokens = (State.asked ⟨m, f⟩).feed.tokens ++ us := by simpa using ht
    rcases drive_cases hf h with ⟨hfin, hv, rfl, -⟩ | ⟨hm, hne, ⟨e, -, he⟩ | ⟨a, after, hx, hd⟩⟩
    · have hnil : f.tokens = [] := hfin.resolve_left (by simp [hh])
      obtain rfl := Except.ok.inj hv
      exact ⟨0, g, Nat.zero_le _, by rw [ht, hnil, List.nil_append], hg, fun j => by rw [Nat.zero_add]⟩
    · cases he
    · have hfa : after.feed.failure = none := (hnext.failure_eq hx).trans ((State.failure_asked _).trans hf)
      obtain ⟨g₁, hxg, htg, hfg⟩ := hnext.done_append hx hga
      obtain ⟨k, g', hk, ht', hf', hj⟩ := ih hd hfa (hfg.trans ((State.failure_asked _).trans hg)) htg
      refine ⟨k + 1, g', Nat.succ_le_succ hk, ht', hf', fun j => ?_⟩
      rw [Nat.add_right_comm, drive_of_done hm (by simp [ht, hne]) hxg]
      exact hj j

/-- A run that ends early ends so with more tokens after its own, and takes none of them. -/
theorem drive_append_of_stopped (hnext : Reads [.expression] next) {l : Option Value}
    {r : Except Fault (Option Value)} (h : drive next n l ⟨m, f⟩ = .of r m' f')
    (hok : ∀ v, r = .ok v → m'.halted = true) (herr : r ≠ .error .endOfInput) (hf : f.failure = none)
    (hg : g.failure = none) (ht : g.tokens = f.tokens ++ us) :
    ∃ g', drive next n l ⟨m, g⟩ = .of r m' g' ∧ g'.tokens = f'.tokens ++ us := by
  induction n generalizing l m f g with
  | zero => cases r <;> cases h
  | succ n ih =>
    have hga : (State.asked ⟨m, g⟩).feed.tokens = (State.asked ⟨m, f⟩).feed.tokens ++ us := by simpa using ht
    rcases drive_cases hf h with ⟨-, rfl, rfl, htf⟩ | ⟨hm, hne, ⟨e, hx, rfl⟩ | ⟨a, after, hx, hd⟩⟩
    · obtain ⟨g', hg', htg, -⟩ := drive_finished hg (.inl (hok l rfl)) next n l
      exact ⟨g', hg', by rw [htg, htf, ht]⟩
    · rcases hnext.failed_append hx hga with ⟨g', hxg, htg⟩ | hst
      · exact ⟨g', drive_of_failed hm (by simp [ht, hne]) hxg, htg⟩
      · -- a run whose input does not fail starves with the end of the input
        obtain ⟨w, -, rfl, -⟩ := hst.fault_eq hx
        exact absurd (by simp [hf]) herr
    · have hfa : after.feed.failure = none := (hnext.failure_eq hx).trans ((State.failure_asked _).trans hf)
      obtain ⟨g₁, hxg, htg, hfg⟩ := hnext.done_append hx hga
      rw [drive_of_done hm (by simp [ht, hne]) hxg]
      exact ih hd hfa (hfg.trans ((State.failure_asked _).trans hg)) htg

/-! ## Two texts -/

theorem tokens_ofText_append {c : Char} (hc : Text.isBlank c = true) (a b : Text) :
    (Feed.ofText (a ++ c :: b)).tokens = (Feed.ofText a).tokens ++ Text.words b := by
  simp [Text.words_append_blank hc]

/-- Tokens that are run after others give the last value, unless there are none. -/
theorem value_of_drive (hnext : Reads [.expression] next) {o : Except Fault (Option Value)}
    (h : drive next n none ⟨m, f⟩ = .of o m' f') (hh : m.halted = false) (hf : f.failure = none) (v : Option Value) :
    o.map (·.or v) = o.map fun w => if f.tokens = [] then v else w := by
  rcases o with e | w
  · rfl
  · have hw : w = none ↔ f.tokens = [] := eq_none_iff_of_drive hnext h hh hf
    cases w with
    | none => simp [Except.map, hw.1 rfl]
    | some w =>
      have hn : f.tokens ≠ [] := fun ht => nomatch hw.2 ht
      simp [Except.map, hn]

variable {files : Files} {a b : Text} {c : Char} {m₁ : Machine} {rest : List Text}

/-- After tokens that were run to their end, the run of others is the rest of the run of both. -/
theorem ends_run_append {h : Feed} {v : Option Value} (ha : Ends (run files) ⟨m, f⟩ (.ok v) m₁ rest)
    (hh : m₁.halted = false) (hf : f.failure = none) (hg : g.failure = none) (hb : h.failure = none)
    (ht : g.tokens = f.tokens ++ h.tokens) {r : Except Fault (Option Value)} :
    Ends (run files) ⟨m, g⟩ r m' us ↔ ∃ r₁, Ends (run files) ⟨m₁, h⟩ r₁ m' us ∧
      r = r₁.map fun w => if h.tokens = [] then v else w := by
  obtain ⟨n₀, f₀, hn₀, -⟩ := ha
  constructor
  · rintro ⟨k₀, f', hk₀, rfl⟩
    have hnext := reads_evalNext files (max n₀ k₀)
    have ha := (approximates_run files (Nat.le_max_left n₀ k₀)).apply_eq hn₀
    have hab := (approximates_run files (Nat.le_max_right n₀ k₀)).apply_eq hk₀
    obtain ⟨k, g', hk, hg', hfg, hd⟩ := drive_append hnext ha hh hf hg ht
    -- what is left of the fuel is spent on the later tokens
    obtain ⟨j, hj⟩ := Nat.exists_eq_add_of_le hk
    have hrest : drive (evalNext files (max n₀ k₀)) j v ⟨m₁, g'⟩ = .of r m' f' := by
      rw [← hd, ← hj]
      exact hab
    obtain ⟨o, f₁, rfl, hbo, hf₁⟩ := drive_of_tokens_eq hnext hrest hg'.symm hfg hb none
    rw [map_or_none] at hbo
    refine ⟨o, ⟨max n₀ k₀, f₁, ?_, hf₁⟩, value_of_drive hnext hbo hh hb v⟩
    exact (approximates_drive (.refl _) (by omega) none).apply_eq hbo
  · rintro ⟨r₁, ⟨k₀, f', hk₀, rfl⟩, rfl⟩
    have hnext := reads_evalNext files (max n₀ k₀)
    have ha := (approximates_run files (Nat.le_max_left n₀ k₀)).apply_eq hn₀
    have hbr := (approximates_run files (Nat.le_max_right n₀ k₀)).apply_eq hk₀
    obtain ⟨k, g', hk, hg', hfg, hd⟩ := drive_append hnext ha hh hf hg ht
    obtain ⟨o, f₁, ho, hrest, hf₁⟩ := drive_of_tokens_eq hnext hbr hg' hb hfg v
    obtain rfl : r₁ = o := by rw [ho, map_or_none]
    have hab : drive (evalNext files (max n₀ k₀)) (k + max n₀ k₀) none ⟨m, g⟩ = .of (r₁.map (·.or v)) m' f₁ := by
      rw [hd, hrest]
    refine ⟨k + max n₀ k₀, f₁, ?_, hf₁⟩
    rw [← value_of_drive hnext hbr hh hb v]
    exact (approximates_drive (approximates_evalNext files (Nat.le_add_left _ k)) (Nat.le_refl _) none).apply_eq hab

/-- After a text that was run to its end, the run of another one is the rest of the run of both. -/
theorem run_append_of_ok (hc : Text.isBlank c = true) {v : Option Value}
    (ha : Ends (run files) ⟨m, .ofText a⟩ (.ok v) m₁ rest) (hh : m₁.halted = false) {r : Except Fault (Option Value)} :
    Ends (run files) ⟨m, .ofText (a ++ c :: b)⟩ r m' us ↔ ∃ r₁, Ends (run files) ⟨m₁, .ofText b⟩ r₁ m' us ∧
      r = r₁.map fun w => if Text.words b = [] then v else w := by
  have ht : (Feed.ofText (a ++ c :: b)).tokens = (Feed.ofText a).tokens ++ (Feed.ofText b).tokens := by
    rw [tokens_ofText_append hc, Feed.tokens_ofText b]
  rw [ends_run_append ha hh rfl rfl rfl ht, Feed.tokens_ofText]

/-- A text whose run ends early hides the text after it. -/
theorem run_append_of_stopped (hc : Text.isBlank c = true) {r : Except Fault (Option Value)}
    (ha : Ends (run files) ⟨m, .ofText a⟩ r m₁ rest) (hok : ∀ v, r = .ok v → m₁.halted = true)
    (herr : r ≠ .error .endOfInput) :
    Ends (run files) ⟨m, .ofText (a ++ c :: b)⟩ r m₁ (rest ++ Text.words b) := by
  obtain ⟨n, f, hn, rfl⟩ := ha
  obtain ⟨g, hg, ht⟩ :=
    drive_append_of_stopped (reads_evalNext files n) hn hok herr rfl rfl (tokens_ofText_append hc a b)
  exact ⟨n, g, hg, ht⟩

/-- **Programs compose.** Of two texts with a blank between them the second one is run from the machine that the first
one leaves, and gives the last value unless it has no tokens; but if the first one ends with the machine halted, or
fails otherwise than for want of a token, then its end is the end and no token of the second one is taken. -/
theorem run_append (files : Files) (m : Machine) (a b : Text) {c : Char} (hc : Text.isBlank c = true) :
    (∀ v m₁ rest, Ends (run files) ⟨m, .ofText a⟩ (.ok v) m₁ rest → m₁.halted = false → ∀ r m' us,
      Ends (run files) ⟨m, .ofText (a ++ c :: b)⟩ r m' us ↔ ∃ r₁, Ends (run files) ⟨m₁, .ofText b⟩ r₁ m' us ∧
        r = r₁.map fun w => if Text.words b = [] then v else w) ∧
    (∀ v m₁ rest, Ends (run files) ⟨m, .ofText a⟩ (.ok v) m₁ rest → m₁.halted = true →
      Ends (run files) ⟨m, .ofText (a ++ c :: b)⟩ (.ok v) m₁ (rest ++ Text.words b)) ∧
    ∀ e m₁ rest, Ends (run files) ⟨m, .ofText a⟩ (.error e) m₁ rest → e ≠ .endOfInput →
      Ends (run files) ⟨m, .ofText (a ++ c :: b)⟩ (.error e) m₁ (rest ++ Text.words b) := by
  refine ⟨fun v m₁ rest ha hh r m' us => run_append_of_ok hc ha hh, fun v m₁ rest ha hh => ?_,
    fun e m₁ rest ha he => ?_⟩
  · exact run_append_of_stopped hc ha (fun _ _ => hh) nofun
  · exact run_append_of_stopped hc ha nofun fun h => he (Except.error.inj h)

/-- A text that binds a variable, one that exits and one that fails, each before a text that uses the variable. -/
theorem run_append_of_each :
    let start (t : Text) : State := ⟨{ environment := .empty }, .ofText t⟩
    let bound : Machine := { environment := .define .empty ['x'] (.word ['a']) }
    let evaluation := run fun _ => .error .notFound
    let use := ":x".toList
    Ends evaluation (start ("make \"x \"a \"b".toList ++ ' ' :: use)) (.ok (some (.word ['a']))) bound [] ∧
    Ends evaluation (start ("exit \"b".toList ++ ' ' :: use)) (.ok (some (.bool false)))
      { environment := .empty, halted := true } ["\"b".toList, use] ∧
    Ends evaluation (start (":y \"b".toList ++ ' ' :: use)) (.error (.undefinedVariable ['y']))
      { environment := .empty } ["\"b".toList, use] := by
  have hmake : Ends (run fun _ => .error .notFound) ⟨{ environment := .empty }, .ofText "make \"x \"a \"b".toList⟩
      (.ok (some (.word ['b']))) { environment := .define .empty ['x'] (.word ['a']) } [] :=
    ⟨4, { pending := [], ended := true },
      run_eq_of_visible rfl (by decide +kernel), rfl⟩
  have hexit : Ends (run fun _ => .error .notFound) ⟨{ environment := .empty }, .ofText "exit \"b".toList⟩
      (.ok (some (.bool false))) { environment := .empty, halted := true } ["\"b".toList] :=
    ⟨3, { pending := ["\"b".toList] },
      run_eq_of_visible rfl (by decide +kernel), rfl⟩
  have hfail : Ends (run fun _ => .error .notFound) ⟨{ environment := .empty }, .ofText ":y \"b".toList⟩
      (.error (.undefinedVariable ['y'])) { environment := .empty } ["\"b".toList] :=
    ⟨3, { pending := ["\"b".toList] },
      run_eq_of_visible rfl (by decide +kernel), rfl⟩
  have huse : Ends (run fun _ => .error .notFound) ⟨{ environment := .define .empty ['x'] (.word ['a']) },
      .ofText ":x".toList⟩ (.ok (some (.word ['a']))) { environment := .define .empty ['x'] (.word ['a']) } [] :=
    ⟨3, { pending := [], ended := true },
      run_eq_of_visible rfl (by decide +kernel), rfl⟩
  have hwords : Text.words ":x".toList = [":x".toList] := by decide +kernel
  have hmap : (Except.ok (some (.word ['a'])) : Except Fault (Option Value)) = (Except.ok (some (.word ['a']))).map
      fun w => if Text.words ":x".toList = [] then some (.word ['b']) else w := by
    rw [hwords]
    rfl
  refine ⟨?_, ?_, ?_⟩
  · have h := (run_append _ _ "make \"x \"a \"b".toList ":x".toList (c := ' ') rfl).1 _ _ _ hmake rfl
    exact (h _ _ _).2 ⟨_, huse, hmap⟩
  · have h := (run_append _ _ "exit \"b".toList ":x".toList (c := ' ') rfl).2.1 _ _ _ hexit rfl
    rwa [hwords] at h
  · have h := (run_append _ _ ":y \"b".toList ":x".toList (c := ' ') rfl).2.2 _ _ _ hfail nofun
    rwa [hwords] at h

end MiniLogo
