import MiniLogo.Proofs.Evaluation.Watched
import MiniLogo.Proofs.Number.ReadBack
import MiniLogo.Proofs.Text.Infixes

/-!
# Messages are lines

No value has a line feed in its text (`kept_oneLine`): tokens are cut at it, the reader of literals joins them by
spaces, and the digits of a number are no line feeds. So the message of a fault is a single line, whatever text it
quotes, unless the system's words for an unreadable file are not (`oneLine_message_of_run`).
-/

namespace MiniLogo

open MiniLogo.Action

variable {s t u : Text} {c : Char}

/-! ## Lines -/

def Text.OneLine (t : Text) : Prop := '\n' ∉ t

instance (t : Text) : Decidable (Text.OneLine t) := inferInstanceAs (Decidable ('\n' ∉ t))

namespace Text

@[simp] theorem oneLine_append : OneLine (s ++ t) ↔ OneLine s ∧ OneLine t := by
  simp [OneLine]

@[simp] theorem oneLine_cons : OneLine (c :: t) ↔ c ≠ '\n' ∧ OneLine t := by
  simp [OneLine, eq_comm]

theorem oneLine_nil : OneLine [] := by
  simp [OneLine]

theorem OneLine.of_subset (ht : OneLine t) (h : s ⊆ t) : OneLine s := fun hs => ht (h hs)

/-- Tokens are cut at line feeds. -/
theorem oneLine_of_words {raw : Text} (h : words raw = [raw]) : OneLine raw := by
  intro hmem
  have hb := not_blank_of_mem_words (t := raw) (w := raw) (by simp [h]) '\n' hmem
  revert hb
  decide

/-- Joined text is on one line, since the blanks that join it are no line feeds. -/
theorem Joined.oneLine (h : Joined t) : OneLine t := by
  intro hmem
  have := h.tight.space '\n' hmem (by decide)
  revert this
  decide

/-- Texts put together with spaces are one line if each of them is. -/
theorem oneLine_unwords {ws : List Text} (h : ∀ w ∈ ws, OneLine w) : OneLine (unwords ws) := by
  induction ws with
  | nil => exact oneLine_nil
  | cons w ws ih =>
    have hw := h w List.mem_cons_self
    have hws := ih fun v hv => h v (List.mem_cons_of_mem w hv)
    by_cases hn : ws = []
    · rw [hn, unwords_singleton]
      exact hw
    · rw [unwords_cons hn, oneLine_append, oneLine_cons]
      exact ⟨hw, by decide, hws⟩

theorem oneLine_bracket (h : OneLine t) : OneLine (bracket t) := by
  unfold bracket
  simp [h, oneLine_nil]

end Text

/-! ## Values -/

/-- A part of a list is one line if its interior is. -/
theorem Part.oneLine_ofList {interior : Text} (h : Text.OneLine interior) (p : Part) :
    Text.OneLine (p.ofList interior).text := by
  have he : ∀ e ∈ Text.elements interior, Text.OneLine e :=
    fun e hmem => h.of_subset (Text.infix_of_mem_pieces hmem).subset
  have hlist : ∀ es ⊆ Text.elements interior, Text.OneLine (ofElements es).text :=
    fun es hs => Text.oneLine_bracket (Text.oneLine_unwords fun e hmem => he e (hs hmem))
  rcases p.ofList_cases interior with ⟨e, hmem, hp⟩ | hp | hp | hp <;> rw [hp]
  · rw [text_element]
    exact he e hmem
  · decide
  · exact hlist _ (List.drop_subset 1 _)
  · exact hlist _ (List.dropLast_subset _)

def Value.OneLine (v : Value) : Prop := Text.OneLine v.text

instance (v : Value) : Decidable v.OneLine := inferInstanceAs (Decidable (Text.OneLine v.text))

/-- A part of a value on one line is on one line. -/
theorem Part.oneLine_of_ofValue? {p : Part} {v w : Value} (hv : v.OneLine) (h : p.ofValue? v = some w) :
    w.OneLine := by
  cases v with
  | word t =>
    cases h
    exact Text.OneLine.of_subset hv (of_subset p t)
  | list t =>
    cases h
    have hinfix := (Text.trim_isInfix _).trans (Text.unbracket?_getD_isInfix t)
    exact oneLine_ofList (Text.OneLine.of_subset hv hinfix.subset) p
  | erased k =>
    cases k with
    | word =>
      cases h
      exact Text.OneLine.of_subset Text.oneLine_nil (of_subset p [])
    | list =>
      cases h
      exact oneLine_ofList Text.oneLine_nil p
    | bool | number | error | function => cases h
  | bool b | number n | function t | error t => cases h

/-- Evaluation comes to values of one line only. -/
theorem kept_oneLine : Kept Value.OneLine where
  literal {raw v} hr hv := by
    have hraw := Text.oneLine_of_words hr
    have ht := Token.text_classify raw
    cases hc : Token.classify raw with
    | word t =>
      rw [hc] at hv ht
      obtain rfl := Option.some.inj hv
      exact hraw.of_subset (ht ▸ List.subset_cons_self _ _)
    | number t =>
      rw [hc] at hv ht
      obtain rfl := Option.some.inj hv
      exact hraw.of_subset (ht ▸ List.Subset.refl _)
    | bool b =>
      rw [hc] at hv
      obtain rfl := Option.some.inj hv
      cases b <;> decide
    | thing | reference t | listStart t | name t =>
      rw [hc] at hv
      cases hv
  raw ht := Text.oneLine_of_words ht
  bracketed {t} ht := by
    unfold Value.OneLine Literal.value
    split <;> exact ht.oneLine
  bool b := by cases b <;> decide
  ofFloat x := (Layout.standard.printer.numeral x).not_mem (by decide)
  ofInt i := (Decimal.numeral_ofInt i).not_mem (by decide)
  part hv hw := Part.oneLine_of_ofValue? hv hw
  erase _ _ := Text.oneLine_nil
  full := by decide

/-! ## Faults -/

theorem Builtin.oneLine_name (b : Builtin) : Text.OneLine b.name := Text.oneLine_of_words (words_name b)

theorem Kind.oneLine_name (k : Kind) : Text.OneLine k.name := by
  cases k <;> decide

theorem Expected.oneLine_name (e : Expected) : Text.OneLine e.name := by
  cases e <;> decide

/-- A fault that quotes lines has a message of one line, if the system's words for an unreadable file are one. -/
theorem Fault.oneLine_message {e : Fault} (h : ∀ t ∈ e.quoted, Text.OneLine t)
    (hf : ∀ path reason, e = .unreadableFile path reason → Text.OneLine reason.message) :
    Text.OneLine e.message := by
  cases e with
  | divisionByZero | endOfInput => decide +kernel
  | typeMismatch b expected found =>
    unfold message
    simp only [Text.oneLine_append]
    exact ⟨⟨⟨⟨⟨⟨by decide +kernel, b.oneLine_name⟩, by decide +kernel⟩, expected.oneLine_name⟩, by decide +kernel⟩,
      found.oneLine_name⟩, by decide +kernel⟩
  | unreadableFile path reason =>
    have hp : Text.OneLine path := h path (by simp [quoted])
    unfold message
    simp only [Text.oneLine_append]
    exact ⟨⟨⟨hp, by decide +kernel⟩, hf path reason rfl⟩, by decide +kernel⟩
  | malformedNumber t =>
    have ht : Text.OneLine t := h t (by simp [quoted])
    unfold message
    rw [Text.oneLine_append, Text.oneLine_cons]
    exact ⟨⟨by decide +kernel, ht⟩, by decide +kernel⟩
  | undefinedVariable t =>
    have ht : Text.OneLine t := h t (by simp [quoted])
    unfold message
    simp only [Text.oneLine_append]
    exact ⟨⟨by decide +kernel, ht⟩, by decide +kernel⟩
  | unknownInstruction t | notAList t | expectedVariable t | input t | output t =>
    have ht : Text.OneLine t := h t (by simp [quoted])
    unfold message
    rw [Text.oneLine_append]
    exact ⟨by decide +kernel, ht⟩

/-- Faults quote texts on one line. -/
theorem Quotes.oneLine {e : Fault} (h : Quotes Value.OneLine e) : ∀ t ∈ e.quoted, Text.OneLine t := by
  intro t ht
  rcases h t ht with ⟨v, hv, rfl⟩ | ⟨raw, hr, hs⟩
  · exact hv
  · exact (Text.oneLine_of_words hr).of_subset hs.subset

/-- The message of a program that fails is one line, if the system's words for an unreadable file are one. -/
theorem oneLine_message_of_run {files : Files} {fuel : Nat} {output : Sink} {generator : Generator} {source : Source}
    {e : Fault} {after : State} (hr : run files fuel ⟨.fresh output generator, source.feed⟩ = .failed e after)
    (hs : ∀ reason ∈ source.failure?, Text.OneLine reason)
    (hf : ∀ path reason, e = .unreadableFile path reason → Text.OneLine reason.message) : Text.OneLine e.message := by
  have hy := yields_run_fresh kept_oneLine files fuel output generator hs
  rw [hr] at hy
  exact Fault.oneLine_message hy.1.oneLine hf

end MiniLogo
