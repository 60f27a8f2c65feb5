import MiniLogo.Proofs.Evaluation.Watched

/-!
# Lists and functions that evaluation comes to

The texts of the lists and functions that a run comes to are joined (`kept_joined`): literals because their reader
makes them so, and parts of lists because their elements are balanced. A joined text is read back as it is
(`Text.Joined.uses`), so that lists and functions survive being written and read again (`run_readsBack`).

A joined text need not be a single well-nested group. It begins with a bracket, is balanced and has no blank at depth
zero, but within a token the depth may come to zero; so a list may lack a closing bracket at its end, and `run` then
refuses it (`run_balanced`, `not_isGroup_of_run`).
-/

namespace MiniLogo

open MiniLogo.Action

variable {files : Files} {t u : Text}

/-! ## Joined values -/

/-- If the value is a list or a function, then its text is joined. -/
def Value.Joined : Value → Prop
  | .list t | .function t => Text.Joined t
  | _ => True

theorem Part.joined_element (h : t.head? = some '[' → Text.Joined t) : (element t).Joined := by
  unfold element
  split
  · exact h rfl
  · trivial

/-- Parts are joined if the elements are, and the lists without the first and without the last of them. -/
theorem Part.joined_ofList {interior : Text}
    (he : ∀ e ∈ Text.elements interior, e.head? = some '[' → Text.Joined e)
    (hf : Text.Joined (Text.bracket (Text.unwords ((Text.elements interior).drop 1))))
    (hl : Text.Joined (Text.bracket (Text.unwords (Text.elements interior).dropLast))) (p : Part) :
    (p.ofList interior).Joined := by
  rcases p.ofList_cases interior with ⟨e, hmem, h⟩ | h | h | h <;> rw [h]
  · exact joined_element (he e hmem)
  · exact Text.joined_empty
  · exact hf
  · exact hl

/-- The parts of joined values are joined. -/
theorem Part.joined_of_ofValue? {p : Part} {v w : Value} (hv : v.Joined) (h : p.ofValue? v = some w) : w.Joined := by
  have hempty : (p.ofList []).Joined := by
    have hnil : Text.elements [] = [] := rfl
    exact @joined_ofList [] (by simp [hnil]) Text.joined_empty Text.joined_empty p
  cases v with
  | word t =>
    cases h
    trivial
  | list t =>
    cases h
    have ht : Text.Joined t := hv
    cases hu : Text.unbracket? t with
    | some u =>
      obtain rfl := Text.eq_bracket_of_unbracket? hu
      obtain ⟨-, -, -, -, hz, htight, -⟩ := ht.interior
      exact joined_ofList (fun e he => Text.joined_of_mem_elements htight hz he)
        (ht.bracket_elements (List.drop_suffix 1 _).isInfix) (ht.bracket_elements (List.dropLast_prefix _).isInfix) p
    | none =>
      -- without an outer pair of brackets the text is its only element
      have he := ht.elements_trim
      refine joined_ofList (fun e hmem _ => ?_) ?_ ?_ p
      · rw [Option.getD_none, he, List.mem_singleton] at hmem
        rwa [hmem]
      · rw [Option.getD_none, he]
        exact Text.joined_empty
      · rw [Option.getD_none, he]
        exact Text.joined_empty
  | erased k =>
    cases k with
    | word =>
      cases h
      trivial
    | list =>
      cases h
      exact hempty
    | bool | number | error | function => cases h
  | bool b | number n | function t | error t => cases h

/-- Evaluation comes to joined lists and functions only. -/
theorem kept_joined : Kept Value.Joined where
  literal {raw v} _ hv := by
    cases hc : Token.classify raw with
    | word t | number t | bool b =>
      rw [hc] at hv
      obtain rfl := Option.some.inj hv
      trivial
    | thing | reference t | listStart t | name t =>
      rw [hc] at hv
      cases hv
  raw _ := trivial
  bracketed {t} ht := by
    unfold Literal.value
    split
    · exact ht
    · exact ht
  bool _ := trivial
  ofFloat _ := trivial
  ofInt _ := trivial
  part hv hw := Part.joined_of_ofValue? hv hw
  erase _ _ := trivial
  full := trivial

/-! ## Reading back -/

/-- A joined text is read as the literal that it is, whatever follows it. -/
theorem Text.Joined.uses (h : Text.Joined t) (files : Files) (m : Machine) (n : Nat) :
    Uses (evalNext files (n + 1)) m (Text.words t) (.ok (Literal.value t)) m := by
  intro f us hf
  obtain ⟨piece, later, hw, hu, hz, hk⟩ := h.exists_words
  have hr : read (Want.closings (Text.balance ('[' :: piece))) later = .complete later.length :=
    read_closings_eq_complete_iff.2 ⟨Nat.le_refl _, by rwa [List.take_length], hk⟩
  rw [hw] at hf hu
  obtain ⟨g, hg, hl⟩ := evalNext_of_cons (m := m) hf files n
  obtain ⟨g', hg', hl'⟩ := readBracketed_of_complete (m := m) hr hl.tokens
  refine ⟨g', ?_, hl.trans hl'⟩
  rw [hg, evalWith, classify_bracket]
  rw [hu] at hg'
  exact hg'

/-- Evaluated by itself, in any state, the text of the value gives a list or function of the same text. All its tokens
are taken and the machine stays as it is. -/
def Value.ReadsBack (v : Value) : Prop := ∀ (files : Files) (n : Nat) (m : Machine), ∃ w g,
  evalNext files (n + 1) ⟨m, .ofText v.text⟩ = .done w ⟨m, g⟩ ∧ g.tokens = [] ∧
    (w = .list v.text ∨ w = .function v.text)

/-- Joined text is read as one literal, which takes all of it. -/
theorem Value.readsBack_of_joined {v : Value} (h : Text.Joined v.text) : v.ReadsBack := by
  intro files n m
  obtain ⟨g, hg, hl⟩ := h.uses files m n (.ofText v.text) [] (by simp)
  refine ⟨Literal.value v.text, g, hg, hl.tokens, ?_⟩
  unfold Literal.value
  split
  · exact .inr rfl
  · exact .inl rfl

/-- A bracketed value reads back. -/
def Value.Lasting (v : Value) : Prop := ∀ t, v = .list t ∨ v = .function t → v.ReadsBack

theorem Value.lasting_of_joined {v : Value} (h : v.Joined) : v.Lasting := by
  rintro t (rfl | rfl) <;> exact readsBack_of_joined h

/-! ## The shape of lists -/

/-- What holds of the text of a list: it begins with a bracket, it is balanced, and the depth is not zero at any blank
in it. -/
structure Text.Balanced (t : Text) : Prop where
  opens : t.head? = some '['
  balance_eq : balance t = 0
  blank {s u : Text} {c : Char} (ht : t = s ++ c :: u) (hc : isBlank c = true) : balance s ≠ 0

theorem Text.Joined.balanced (h : Text.Joined t) : Text.Balanced t where
  opens := h.opens
  balance_eq := h.balance_eq
  blank ht hc := by
    subst ht
    exact h.balance_ne_zero hc

/-- If the value is a list, then its text is balanced. -/
def Value.BalancedList (v : Value) : Prop := ∀ t, v = .list t → Text.Balanced t

theorem Value.balancedList_of_joined {v : Value} (h : v.Joined) : v.BalancedList := by
  rintro t rfl
  exact Text.Joined.balanced h

/-- A balanced text ends with a bracket if its depth is not back at zero before its end. -/
theorem Text.Balanced.isGroup_iff (h : Text.Balanced t) :
    Text.IsGroup t ↔ ∀ k < t.length, 0 < k → 1 ≤ Text.balance (t.take k) := by
  refine ⟨fun hg => hg.2.2.1, fun hk => ⟨h.opens, ?_, hk, h.balance_eq⟩⟩
  rcases List.eq_nil_or_concat t with rfl | ⟨s, c, rfl⟩
  · cases h.opens
  · rw [List.concat_eq_append] at h hk ⊢
    rw [List.getLast?_concat]
    by_contra hc
    have hz := h.balance_eq
    rw [Text.balance_append, Text.balance_cons, Text.balance_nil] at hz
    have hw : 0 ≤ Text.weight c := by
      have hne : c ≠ ']' := fun h' => hc (by rw [h'])
      unfold Text.weight
      rw [if_neg hne]
      split <;> omega
    cases s with
    | nil =>
      obtain rfl : c = '[' := by simpa using h.opens
      cases hz
    | cons a s =>
      have := hk (a :: s).length (by simp) (by simp)
      rw [List.take_left] at this
      omega

theorem Text.unbracket?_of_getLast? (h : t.getLast? ≠ some ']') : Text.unbracket? t = none := by
  cases hu : Text.unbracket? t with
  | none => rfl
  | some u =>
    obtain rfl := Text.eq_bracket_of_unbracket? hu
    exact absurd (by rw [Text.bracket, ← List.cons_append, List.getLast?_concat]) h

/-- `run` and `print` take the outer brackets off a list that ends with one. -/
theorem run_print_of_closed (h : Text.Balanced t) (hl : t.getLast? = some ']') : ∃ u, t = Text.bracket u ∧
    (∀ loop, runList loop (.list t) = runText loop u .emptyList) ∧ (Value.list t).display = Text.trim u := by
  obtain ⟨u, rfl⟩ := Text.exists_eq_bracket h.opens hl
  refine ⟨u, rfl, fun loop => ?_, ?_⟩
  · simp only [runList, Value.text, Text.unbracket?_bracket]
    rfl
  · simp [Value.display]

/-- `run` refuses a list that does not end with a bracket, and `print` shows it as it is. -/
theorem run_print_of_open (hl : t.getLast? ≠ some ']') :
    (∀ loop, runList loop (.list t) = fail (.notAList t)) ∧ (Value.list t).display = t := by
  have hu := Text.unbracket?_of_getLast? hl
  refine ⟨fun loop => ?_, ?_⟩
  · simp only [runList, Value.text, hu]
  · simp [Value.display, hu]

/-! ## Runs -/

open scoped Classical in
/-- **Lists are balanced.** In a run, every list that an expression comes to or that is bound begins with a bracket, is
balanced and has no blank at depth zero. Such a text is one well-nested group if and only if its depth does not come
down to zero before its end. If it ends with a bracket, then `run` runs and `print` shows what stands between the outer
brackets; if not, then `run` refuses it and `print` shows it whole. -/
theorem run_balanced (files : Files) (fuel : Nat) (output : Sink) (generator : Generator) (source : Source)
    (alarm : Action Value) :
    let s : State := ⟨.fresh output generator, source.feed⟩
    (runWatched Value.BalancedList alarm files fuel s = run files fuel s ∧
      ∀ after, (run files fuel s).state? = some after → after.environment.All Value.BalancedList) ∧
    ∀ t, Text.Balanced t →
      (Text.IsGroup t ↔ ∀ k < t.length, 0 < k → 1 ≤ Text.balance (t.take k)) ∧
      (t.getLast? = some ']' → ∃ u, t = Text.bracket u ∧
        (∀ loop, runList loop (.list t) = runText loop u .emptyList) ∧ (Value.list t).display = Text.trim u) ∧
      (t.getLast? ≠ some ']' →
        (∀ loop, runList loop (.list t) = fail (.notAList t)) ∧ (Value.list t).display = t) := by
  intro s
  refine ⟨runWatched_fresh kept_joined (fun _ => Value.balancedList_of_joined) alarm files fuel output generator
    fun _ _ => trivial,
    fun t ht => ⟨ht.isGroup_iff, run_print_of_closed ht, run_print_of_open⟩⟩

/-- The first list of a program is a group, and its first element, a single token, is none. -/
theorem run_balanced_element :
    let text := "make \"x first [[a]b c] run :x".toList
    let s : State := ⟨.fresh {} (.ofSeed 0), (Source.text text).feed⟩
    (∃ after, run (fun _ => .error .notFound) 4 s = .failed (.notAList "[a]b".toList) after ∧
      after.environment.All Value.BalancedList) ∧
    ¬ Text.IsGroup "[a]b".toList ∧ (Value.list "[a]b".toList).display = "[a]b".toList := by
  intro text s
  obtain ⟨⟨-, hall⟩, hshape⟩ := run_balanced (fun _ => .error .notFound) 4 {} (.ofSeed 0) (.text text) giveUp
  have hr : (run (fun _ => .error .notFound) 4 s).result? = some (.error (.notAList "[a]b".toList)) := by
    decide +kernel
  obtain ⟨after, hf, ha⟩ := Outcome.eq_failed_of_result? hr
  have hb : Text.Balanced "[a]b".toList := by
    have hj : Text.Joined (Text.unwords ["[a]b".toList]) :=
      Text.joined_unwords rfl (by decide +kernel) (by decide +kernel) (by simp)
    exact hj.balanced
  obtain ⟨hg, -, hopen⟩ := hshape _ hb
  exact ⟨⟨after, hf, hall after ha⟩, fun h => absurd (hg.1 h 3 (by decide) (by decide)) (by decide +kernel),
    (hopen (by decide +kernel)).2⟩

/-- A single token is a list that is no group, and that `run` refuses. -/
theorem not_isGroup_of_run :
    (∃ after, run (fun _ => .error .notFound) 2 ⟨.fresh {} (.ofSeed 0), (Source.text "[a]b".toList).feed⟩ =
      .done (some (.list "[a]b".toList)) after) ∧
    ¬ Text.IsGroup "[a]b".toList ∧
    ∃ after, run (fun _ => .error .notFound) 3 ⟨.fresh {} (.ofSeed 0), (Source.text "run [a]b".toList).feed⟩ =
      .failed (.notAList "[a]b".toList) after := by
  refine ⟨?_, by decide +kernel, ?_⟩
  · have hr : (run (fun _ => .error .notFound) 2 ⟨.fresh {} (.ofSeed 0),
        (Source.text "[a]b".toList).feed⟩).result? = some (.ok (some (.list "[a]b".toList))) := by decide +kernel
    obtain ⟨after, h, -⟩ := Outcome.eq_done_of_result? hr
    exact ⟨after, h⟩
  · have hr : (run (fun _ => .error .notFound) 3 ⟨.fresh {} (.ofSeed 0),
        (Source.text "run [a]b".toList).feed⟩).result? = some (.error (.notAList "[a]b".toList)) := by decide +kernel
    obtain ⟨after, h, -⟩ := Outcome.eq_failed_of_result? hr
    exact ⟨after, h⟩

/-! ## Written and read again -/

open scoped Classical in
/-- **Lists and functions read back.** In a run, every list or function that an expression comes to or that is bound is
one that evaluating its own text gives again, in any state: all tokens of the text are taken, the machine is as it was,
and the value is a list or a function of that text. -/
theorem run_readsBack (files : Files) (fuel : Nat) (output : Sink) (generator : Generator) (source : Source)
    (alarm : Action Value) :
    let s : State := ⟨.fresh output generator, source.feed⟩
    runWatched Value.Lasting alarm files fuel s = run files fuel s ∧
      ∀ after, (run files fuel s).state? = some after → after.environment.All Value.Lasting :=
  runWatched_fresh kept_joined (fun _ => Value.lasting_of_joined) alarm files fuel output generator
    fun _ _ => trivial

/-- A program that binds a function and, in a body that is run, a list whose text is no group. -/
theorem run_readsBack_parts :
    let text := "make \"f [[x] [[a]b :x]] run [make \"l butfirst [a []][ c]]".toList
    let s : State := ⟨.fresh {} (.ofSeed 0), (Source.text text).feed⟩
    ∃ after, run (fun _ => .error .notFound) 5 s = .done (some (.list "[[]][ c]".toList)) after ∧
      after.environment.All Value.Lasting := by
  intro text s
  have hr : (run (fun _ => .error .notFound) 5 s).result? = some (.ok (some (.list "[[]][ c]".toList))) := by
    decide +kernel
  obtain ⟨after, hd, ha⟩ := Outcome.eq_done_of_result? hr
  exact ⟨after, hd, (run_readsBack (fun _ => .error .notFound) 5 {} (.ofSeed 0) (.text text) giveUp).2 after ha⟩

end MiniLogo
