import MiniLogo.Proofs.Evaluation.Watched
import MiniLogo.Proofs.Number.ReadBack
import MiniLogo.Proofs.Text.Infixes

/-!
# Texts without `make` and `load`

A text is tame if neither `make` nor `load` stands in it. Then none of its tokens is one of these builtins, and neither
is any token of a text that its values are run by, since taking a text apart and putting its pieces together makes no
new words (`Part.tame_of_ofValue?`). Without `make` nothing is ever bound but what cannot be run (`Value.Inert`).

A value costs as much as a token that spells its text (`Value.cost`). Parts of a value cost at most two more, for the
brackets of a list.
-/

namespace MiniLogo

variable {s t : Text} {v w : Value}

namespace Text

/-- Neither `make` nor `load` stands in the text. -/
def Tame (t : Text) : Prop := Lacks Builtin.make.name t ∧ Lacks Builtin.load.name t

instance (t : Text) : Decidable (Tame t) := inferInstanceAs (Decidable (_ ∧ _))

theorem tame_nil : Tame [] := by decide

/-- A part of a tame text is tame. -/
theorem Tame.of_isInfix (ht : Tame t) (h : s <:+: t) : Tame s := ⟨ht.1.of_isInfix h, ht.2.of_isInfix h⟩

/-- Tame tokens are tame when they are joined, since a name of a builtin has no blanks. -/
theorem tame_unwords {ws : List Text} (h : ∀ w ∈ ws, Tame w) : Tame (unwords ws) :=
  ⟨lacks_unwords (by decide) (by decide) fun w hw => (h w hw).1,
    lacks_unwords (by decide) (by decide) fun w hw => (h w hw).2⟩

/-- Brackets around a tame text leave it tame. -/
theorem Tame.bracket (h : Tame t) : Tame (bracket t) :=
  ⟨h.1.bracket (by decide) (by decide) (by decide), h.2.bracket (by decide) (by decide) (by decide)⟩

/-- The tokens of a tame text are tame. -/
theorem Tame.of_mem_words (h : Tame t) : ∀ w ∈ words t, Tame w := fun _ hw => h.of_isInfix (infix_of_mem_pieces hw)

end Text

/-! ## Values -/

/-- The text that a value can be run by and taken apart by. -/
def Value.code : Value → Text
  | .word t | .list t | .function t | .error t => t
  | .bool _ | .number _ | .erased _ => []

/-- The length of a value's code, with a blank behind it. -/
def Value.cost (v : Value) : Nat := v.code.length + 1

/-- What the value can be run by is tame. -/
structure Value.Tame (v : Value) : Prop where
  code : Text.Tame v.code
  code_eq {t : Text} (h : Text.unbracket? v.text = some t) : v.code = v.text

/-- The value can neither be run nor be taken apart. -/
structure Value.Inert (v : Value) : Prop where
  code : v.code = []
  text : Text.unbracket? v.text = none

theorem Value.Inert.tame (h : v.Inert) : v.Tame where
  code := h.code ▸ Text.tame_nil
  code_eq ht := by
    rw [h.text] at ht
    cases ht

theorem Value.Inert.cost_eq (h : v.Inert) : v.cost = 1 := by
  rw [cost, h.code]
  rfl

theorem Value.cost_pos (v : Value) : 0 < v.cost := Nat.succ_pos _

theorem Value.tame_word (h : Text.Tame t) : (word t).Tame where
  code := h
  code_eq _ := rfl

theorem Value.tame_list (h : Text.Tame t) : (list t).Tame where
  code := h
  code_eq _ := rfl

theorem Value.tame_emptyList : emptyList.Tame := tame_list (by decide)

theorem Value.inert_bool (b : Bool) : (bool b).Inert where
  code := rfl
  text := by cases b <;> decide

theorem Value.inert_erase (v : Value) : v.erase.Inert where
  code := rfl
  text := rfl

/-- A number that is spelled without a bracket cannot be run. -/
theorem Value.inert_literal (h : '[' ∉ t) : (literal t).Inert where
  code := rfl
  text := Text.unbracket?_eq_none h

/-- A computed number has no bracket in its text. -/
theorem Value.inert_ofFloat (x : Float) : (ofFloat x).Inert where
  code := rfl
  text := Text.unbracket?_eq_none ((Layout.standard.printer.numeral x).not_mem (by decide))

theorem Value.inert_ofInt (i : Int) : (ofInt i).Inert where
  code := rfl
  text := Text.unbracket?_eq_none ((Decimal.numeral_ofInt i).not_mem (by decide))

/-- The value of a bracketed text has it as its code. -/
theorem Literal.code_value (t : Text) : (value t).code = t := by
  unfold value
  split <;> rfl

/-- A bracketed text that is tame has a tame value. -/
theorem Literal.tame_value (h : Text.Tame t) : (value t).Tame where
  code := (code_value t).symm ▸ h
  code_eq _ := by rw [code_value, text_value]

/-- What a value is run by costs three less than the value. -/
theorem Value.Tame.of_unbracket? (h : v.Tame) (ht : Text.unbracket? v.text = some t) :
    Text.Tame t ∧ t.length + 3 = v.cost := by
  have hc : v.code = Text.bracket t := (h.code_eq ht).trans (Text.eq_bracket_of_unbracket? ht)
  have ht := h.code
  rw [hc] at ht
  refine ⟨ht.of_isInfix (Text.infix_bracket t), ?_⟩
  rw [cost, hc, Text.bracket, List.length_cons, List.length_append, List.length_singleton]

/-! ## Parts -/

namespace Part

theorem code_element (t : Text) : (element t).code = t := by
  unfold element
  split <;> rfl

theorem tame_element (h : Text.Tame t) : (element t).Tame where
  code := (code_element t).symm ▸ h
  code_eq _ := by rw [code_element, text_element]

/-- A list of elements costs at most as much as the interior they are from, and its brackets. -/
theorem tame_ofElements {es : List Text} (h : Text.Tame t) (hes : es <:+: Text.elements t) :
    (ofElements es).Tame ∧ (ofElements es).cost ≤ t.length + 3 := by
  have he : ∀ e ∈ es, Text.Tame e := fun e hmem => h.of_isInfix (Text.infix_of_mem_pieces (hes.subset hmem))
  have hlen := Text.length_unwords_le hes
  refine ⟨Value.tame_list (Text.tame_unwords he).bracket, ?_⟩
  show (Text.bracket (Text.unwords es)).length + 1 ≤ t.length + 3
  rw [Text.bracket, List.length_cons, List.length_append, List.length_singleton]
  omega

/-- Parts of a tame list are tame, and cost little more than the list is long. -/
theorem tame_ofList (h : Text.Tame t) (p : Part) : (p.ofList t).Tame ∧ (p.ofList t).cost ≤ t.length + 3 := by
  rcases p.ofList_cases t with ⟨e, hmem, hp⟩ | hp | hp | hp <;> rw [hp]
  · have he := Text.infix_of_mem_pieces hmem
    refine ⟨tame_element (h.of_isInfix he), ?_⟩
    rw [Value.cost, code_element]
    have := he.length_le
    omega
  · exact ⟨Value.tame_emptyList, Nat.le_add_left _ _⟩
  · exact tame_ofElements h (List.drop_suffix 1 _).isInfix
  · exact tame_ofElements h (List.dropLast_prefix _).isInfix

/-- A part of a tame value is tame and costs at most two more. -/
theorem tame_of_ofValue? {p : Part} (hv : v.Tame) (h : p.ofValue? v = some w) : w.Tame ∧ w.cost ≤ v.cost + 2 := by
  have hword : ∀ t, Text.Tame t → (p.ofWord t).Tame ∧ (p.ofWord t).cost ≤ t.length + 3 := by
    intro t ht
    have hinfix := p.of_isInfix t
    exact ⟨Value.tame_word (ht.of_isInfix hinfix), Nat.add_le_add hinfix.length_le (by decide)⟩
  cases v with
  | word t =>
    cases h
    exact hword t hv.code
  | list t =>
    cases h
    have hinfix := (Text.trim_isInfix _).trans (Text.unbracket?_getD_isInfix t)
    obtain ⟨ht, hc⟩ := tame_ofList (Text.Tame.of_isInfix hv.code hinfix) p
    exact ⟨ht, Nat.le_trans hc (Nat.add_le_add_right hinfix.length_le 3)⟩
  | erased k =>
    cases k with
    | word =>
      cases h
      exact hword [] Text.tame_nil
    | list =>
      cases h
      exact tame_ofList Text.tame_nil p
    | bool | number | error | function => cases h
  | bool b | number n | function t | error t => cases h

end Part

/-! ## States -/

/-- No variable can be run, and all tokens are tame. -/
structure State.Tame (s : State) : Prop where
  bound : s.environment.All Value.Inert
  tokens : ∀ w ∈ s.feed.tokens, Text.Tame w

/-- A machine as a program finds it at first binds nothing that can be run. -/
theorem inert_fresh (output : Sink) (generator : Generator) :
    (Machine.fresh output generator).environment.All Value.Inert := by
  intro f hf b hb
  obtain rfl := List.mem_singleton.1 hf
  obtain rfl := List.mem_singleton.1 hb
  exact Value.inert_literal (by decide)

/-- A tame text read over inert variables is a tame state. -/
theorem State.tame_ofText {m : Machine} (hm : m.environment.All Value.Inert) (ht : Text.Tame t) :
    State.Tame ⟨m, .ofText t⟩ where
  bound := hm
  tokens := by
    rw [Feed.tokens_ofText]
    exact ht.of_mem_words

/-- The length of the tokens that are left, each with a blank behind it. -/
def Feed.bulk (f : Feed) : Nat := Text.bulk f.tokens

/-- A text has no more bulk than characters, and one. -/
theorem Feed.bulk_ofText_le (t : Text) : (Feed.ofText t).bulk ≤ t.length + 1 := by
  rw [bulk, tokens_ofText]
  exact Text.bulk_pieces_le _ t

end MiniLogo
