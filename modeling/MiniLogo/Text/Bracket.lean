import MiniLogo.Text.Blank

/-!
# Brackets, tokens and elements

A character weighs one if it opens a bracket, minus one if it closes one and nothing otherwise; the weight of a
text is its bracket balance. Cutting a text at the blanks that stand at depth zero gives its elements; cutting it
at every blank, that is with all weights zero, gives its tokens. So `words` and `elements` are one function,
`pieces`, at two weights.

- `balance`: how many more brackets a text opens than it closes (`balance_append`);
- `words`, `elements`: the pieces between blanks, none of them empty (`pieces_ne_nil`);
- `groups`: the bracketed groups at depth zero;
- `unbracket?`: what stands between an opening bracket at the start and a closing one at the end.
-/

namespace MiniLogo.Text

/-! ## Balance -/

/-- What a character adds to the bracket depth. -/
def weight (c : Char) : Int := if c = '[' then 1 else if c = ']' then -1 else 0

@[simp] theorem weight_open : weight '[' = 1 := rfl

@[simp] theorem weight_close : weight ']' = -1 := rfl

/-- Only brackets have a weight. -/
theorem weight_cases (c : Char) :
    (c = '[' ∧ weight c = 1) ∨ (c = ']' ∧ weight c = -1) ∨ (c ≠ '[' ∧ c ≠ ']') ∧ weight c = 0 := by
  unfold weight
  split
  · exact .inl ⟨‹_›, rfl⟩
  · split
    · exact .inr (.inl ⟨‹_›, rfl⟩)
    · exact .inr (.inr ⟨⟨‹_›, ‹_›⟩, rfl⟩)

/-- The number of opening brackets less the number of closing ones. -/
def balance : Text → Int
  | [] => 0
  | c :: t => weight c + balance t

@[simp] theorem balance_nil : balance [] = 0 := rfl

@[simp] theorem balance_cons (c : Char) (t : Text) : balance (c :: t) = weight c + balance t := rfl

@[simp] theorem balance_append (s t : Text) : balance (s ++ t) = balance s + balance t := by
  induction s with
  | nil => simp
  | cons c s ih => simp [ih, Int.add_assoc]

/-! ## Pieces between blanks -/

/-- The piece under way, put before the later pieces unless it is empty. -/
def flush : Text × List Text → List Text
  | ([], later) => later
  | (piece, later) => piece :: later

/-- Reads a text at a given depth: the rest of the piece under way, and the pieces after it. A blank at depth
zero ends a piece. -/
def cut (weigh : Char → Int) : Int → Text → Text × List Text
  | _, [] => ([], [])
  | depth, c :: t =>
    if isBlank c ∧ depth = 0 then ([], flush (cut weigh 0 t))
    else
      let rest := cut weigh (depth + weigh c) t
      (c :: rest.1, rest.2)

/-- The pieces of a text between its blanks at depth zero. -/
def pieces (weigh : Char → Int) (t : Text) : List Text := flush (cut weigh 0 t)

/-- The tokens of a text: its pieces between blanks. -/
def words (t : Text) : List Text := pieces (fun _ => 0) t

/-- The elements of a list's interior: its pieces between blanks outside brackets. -/
def elements (t : Text) : List Text := pieces weight t

theorem flush_ne_nil {p : Text × List Text} (h : ∀ w ∈ p.2, w ≠ []) : ∀ w ∈ flush p, w ≠ [] := by
  obtain ⟨piece, later⟩ := p
  cases piece with
  | nil => exact h
  | cons c piece => simpa [flush] using h

/-- No piece but the one under way can be empty. -/
theorem cut_ne_nil (weigh : Char → Int) (depth : Int) (t : Text) : ∀ w ∈ (cut weigh depth t).2, w ≠ [] := by
  induction t generalizing depth with
  | nil => simp [cut]
  | cons c t ih =>
    unfold cut
    split
    · exact flush_ne_nil (ih 0)
    · exact ih _

/-- No piece is empty. -/
theorem pieces_ne_nil (weigh : Char → Int) (t : Text) : ∀ w ∈ pieces weigh t, w ≠ [] :=
  flush_ne_nil (cut_ne_nil weigh 0 t)

/-! ## Groups -/

/-- Scans for groups at a given depth; `seen` holds, last first, what was read since the last group began. -/
def groupsFrom : Int → Text → Text → List Text
  | _, _, [] => []
  | depth, seen, c :: t =>
    let inner := depth + weight c
    if c = '[' ∧ inner = 1 then groupsFrom inner [c] t
    else if c = ']' ∧ inner = 0 then (c :: seen).reverse :: groupsFrom inner [] t
    else groupsFrom inner (c :: seen) t

/-- The bracketed groups at depth zero; text outside them is skipped, and so is a group left open. -/
def groups (t : Text) : List Text := groupsFrom 0 [] t

/-! ## The outer pair -/

/-- What stands between an opening bracket at the start and a closing bracket at the end. -/
def unbracket? : Text → Option Text
  | '[' :: t => if t.getLast? = some ']' then some t.dropLast else none
  | _ => none

def bracket (t : Text) : Text := '[' :: (t ++ [']'])

@[simp] theorem unbracket?_bracket (t : Text) : unbracket? (bracket t) = some t := by
  simp [unbracket?, bracket]

/-- The pair that was taken off is the one that is put on. -/
theorem eq_bracket_of_unbracket? {t u : Text} (h : unbracket? t = some u) : t = bracket u := by
  unfold unbracket? at h
  split at h
  · rename_i t
    split at h
    · rename_i hl
      obtain ⟨rfl⟩ := h
      obtain ⟨s, rfl⟩ := List.getLast?_eq_some_iff.1 hl
      simp [bracket]
    · cases h
  · cases h

def unwords (ws : List Text) : Text := [' '].intercalate ws

end MiniLogo.Text
