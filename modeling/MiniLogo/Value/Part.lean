import MiniLogo.Value.Basic

/-!
# Parts of words and lists

`first`, `last`, `butfirst` and `butlast` take a word apart into its characters and a list into its elements. An
element that starts with a bracket is a list, any other a word. The parts of an empty word are empty words, those of
an empty list empty lists.
-/

namespace MiniLogo

/-- The part of a word or list that is asked for. -/
inductive Part where
  | first
  | last
  | butFirst
  | butLast
  deriving DecidableEq, Repr

namespace Part

def of {α : Type} : Part → List α → List α
  | first, xs => xs.take 1
  | last, xs => xs.getLast?.toList
  | butFirst, xs => xs.drop 1
  | butLast, xs => xs.dropLast

/-- The value of an element. -/
def element : Text → Value
  | '[' :: t => .list ('[' :: t)
  | t => .word t

def ofElements (es : List Text) : Value := .list (Text.bracket (Text.unwords es))

def ofWord (p : Part) (t : Text) : Value := .word (p.of t)

/-- A part of a list with the given interior. -/
def ofList (p : Part) (interior : Text) : Value :=
  let es := p.of (Text.elements interior)
  match p with
  | butFirst | butLast => ofElements es
  | first | last => match es with
    | e :: _ => element e
    | [] => .emptyList

/-- A part of a value; only words and lists have parts. -/
def ofValue? (p : Part) : Value → Option Value
  | .word t => some (p.ofWord t)
  | .list t => some (p.ofList (Text.trim ((Text.unbracket? t).getD t)))
  | .erased .word => some (p.ofWord [])
  | .erased .list => some (p.ofList [])
  | _ => none

/-! ## What parts are made of -/

/-- A part stands in the sequence. -/
theorem of_isInfix {α : Type} (p : Part) (xs : List α) : p.of xs <:+: xs := by
  cases p with
  | first => exact (List.take_prefix 1 xs).isInfix
  | last =>
    show xs.getLast?.toList <:+: xs
    cases h : xs.getLast? with
    | none => exact List.nil_infix
    | some x =>
      obtain ⟨ys, rfl⟩ := List.getLast?_eq_some_iff.1 h
      exact (List.suffix_append ys [x]).isInfix
  | butFirst => exact (List.drop_suffix 1 xs).isInfix
  | butLast => exact (List.dropLast_prefix xs).isInfix

theorem of_subset {α : Type} (p : Part) (xs : List α) : p.of xs ⊆ xs := (p.of_isInfix xs).subset

@[simp] theorem text_element (t : Text) : (element t).text = t := by
  unfold element
  split <;> rfl

/-- A part of a list is one of its elements, or the list of the elements but the first or the last, or empty. -/
theorem ofList_cases (p : Part) (interior : Text) :
    (∃ e ∈ Text.elements interior, p.ofList interior = element e) ∨ p.ofList interior = .emptyList ∨
      p.ofList interior = ofElements ((Text.elements interior).drop 1) ∨
      p.ofList interior = ofElements (Text.elements interior).dropLast := by
  have hmem := of_subset p (Text.elements interior)
  cases p with
  | first | last =>
    unfold ofList
    simp only
    split
    · rename_i e es he
      exact .inl ⟨e, hmem (he ▸ List.mem_cons_self), rfl⟩
    · exact .inr (.inl rfl)
  | butFirst => exact .inr (.inr (.inl rfl))
  | butLast => exact .inr (.inr (.inr rfl))

end Part

end MiniLogo
