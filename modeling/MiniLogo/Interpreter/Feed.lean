import MiniLogo.Text.Bracket
import MiniLogo.Text.Utf8

/-!
# Token sources

A feed hands out tokens one at a time. It holds the tokens of the line that is being used and those of the lines
still to be read, and goes on to the next line only when a token is asked for and none is left. What lies beyond the
last line is the end of the input or a failure of the device it is read from; `ended` says whether that was met.

- `hasNext`, `next?`, `takeFailure?`: what a reader of tokens can ask. Asked of `tokens`, the tokens that are left,
  they are its being nonempty (`hasNext_fst`), its head (`next?_fst`) and its tail (`tokens_next?`);
- `ofText`: the tokens of a text in memory;
- `ofBytes`: the tokens of bytes read line by line, each line as lossy UTF-8. Before a failure the unfinished last
  line is lost.
-/

namespace MiniLogo

/-- A source of tokens. -/
structure Feed where
  /-- Tokens that were read and not used. -/
  pending : List Text
  /-- The tokens of the lines still to be read. -/
  lines : List (List Text) := []
  /-- The failure beyond the last line, until it is reported. -/
  failure : Option Text := none
  /-- Whether the end of the lines was met. -/
  ended : Bool := false
  deriving DecidableEq

namespace Feed

def ofText (t : Text) : Feed where
  pending := Text.words t

/-- The tokens of lines of text. -/
def ofLines (lines : List Text) (failure : Option Text := none) : Feed where
  pending := []
  lines := lines.map Text.words
  failure := failure

/-- The tokens of bytes that are read line by line, up to their end or a failure. -/
def ofBytes (bytes : Bytes) (failure : Option Text := none) : Feed :=
  let (complete, rest) := Utf8.splitLines bytes
  let lines := if failure.isSome ∨ rest = [] then complete else complete ++ [rest]
  ofLines (lines.map Utf8.decodeLossy) failure

def tokens (f : Feed) : List Text := f.pending ++ f.lines.flatten

def size (f : Feed) : Nat := f.tokens.length

/-- Goes through lines until one has a token: its tokens and the lines after it. -/
def advance : List (List Text) → List Text × List (List Text)
  | [] => ([], [])
  | [] :: lines => advance lines
  | (t :: ts) :: lines => (t :: ts, lines)

/-- Reads lines until a token is pending or the lines have ended. -/
def fill (f : Feed) : Feed :=
  match f.pending with
  | _ :: _ => f
  | [] =>
    let (pending, lines) := advance f.lines
    { f with pending, lines, ended := f.ended || pending.isEmpty }

/-- Whether there is another token; this may read lines. -/
def hasNext (f : Feed) : Bool × Feed :=
  let f := f.fill
  (!f.pending.isEmpty, f)

/-- The next token, if there is one. -/
def next? (f : Feed) : Option Text × Feed :=
  let f := f.fill
  match f.pending with
  | [] => (none, f)
  | t :: ts => (some t, { f with pending := ts })

/-- The failure that ended the input, the first time it is asked for. -/
def takeFailure? (f : Feed) : Option Text × Feed :=
  if f.ended then (f.failure, { f with failure := none }) else (none, f)

/-! ## The tokens that are left -/

theorem advance_flatten (lines : List (List Text)) :
    (advance lines).1 ++ (advance lines).2.flatten = lines.flatten := by
  induction lines with
  | nil => rfl
  | cons line lines ih => cases line <;> simp [advance, ih]

@[simp] theorem tokens_ofText (t : Text) : (ofText t).tokens = Text.words t := by
  simp [ofText, tokens]

/-- To read lines ahead changes no tokens. -/
@[simp] theorem tokens_fill (f : Feed) : f.fill.tokens = f.tokens := by
  unfold fill
  split
  · rfl
  · rename_i h
    simp [tokens, h, advance_flatten]

/-- A token is pending after reading ahead unless there is none. -/
theorem pending_fill_eq_nil_iff (f : Feed) : f.fill.pending = [] ↔ f.tokens = [] := by
  unfold fill
  split
  · rename_i h
    simp [tokens, h]
  · rename_i h
    have hl : ∀ lines, (advance lines).1 = [] ↔ lines.flatten = [] := by
      intro lines
      induction lines with
      | nil => simp [advance]
      | cons line lines ih => cases line <;> simp_all [advance]
    simpa [tokens, h] using hl f.lines

/-- Asking for a token gives the first of those that are left. -/
theorem next?_fst (f : Feed) : f.next?.1 = f.tokens.head? := by
  have ht := tokens_fill f
  have hn := pending_fill_eq_nil_iff f
  unfold next?
  simp only
  split
  · rename_i h
    rw [hn.1 h, List.head?_nil]
  · rename_i t ts h
    rw [← ht, tokens, h, List.cons_append, List.head?_cons]

/-- Asking for a token leaves the others. -/
@[simp] theorem tokens_next? (f : Feed) : f.next?.2.tokens = f.tokens.tail := by
  have ht := tokens_fill f
  have hn := pending_fill_eq_nil_iff f
  unfold next?
  simp only
  split
  · rename_i h
    rw [ht, hn.1 h, List.tail_nil]
  · rename_i t ts h
    rw [← ht]
    simp [tokens, h]

/-- There is another token exactly if some are left. -/
theorem hasNext_fst (f : Feed) : f.hasNext.1 = !f.tokens.isEmpty := by
  have hn : f.fill.pending.isEmpty = f.tokens.isEmpty := by
    rw [Bool.eq_iff_iff]
    simpa using pending_fill_eq_nil_iff f
  simp [hasNext, hn]

@[simp] theorem tokens_hasNext (f : Feed) : f.hasNext.2.tokens = f.tokens := tokens_fill f

/-! ## The end of the lines -/

@[simp] theorem failure_fill (f : Feed) : f.fill.failure = f.failure := by
  unfold fill
  split <;> rfl

@[simp] theorem ended_fill (f : Feed) : f.fill.ended = (f.ended || f.tokens.isEmpty) := by
  have hn := pending_fill_eq_nil_iff f
  unfold fill at hn ⊢
  split at hn
  · rename_i t ts h
    simp [h, tokens]
  · rename_i h
    have hp : (advance f.lines).1.isEmpty = f.tokens.isEmpty := by
      rw [Bool.eq_iff_iff]
      simpa using hn
    simp [hp]

@[simp] theorem failure_hasNext (f : Feed) : f.hasNext.2.failure = f.failure := failure_fill f

@[simp] theorem ended_hasNext (f : Feed) : f.hasNext.2.ended = (f.ended || f.tokens.isEmpty) := ended_fill f

@[simp] theorem failure_next? (f : Feed) : f.next?.2.failure = f.failure := by
  rw [← failure_fill f]
  unfold next?
  simp only
  split <;> rfl

/-- The end of the lines is met by asking for a token when none is left. -/
@[simp] theorem ended_next? (f : Feed) : f.next?.2.ended = (f.ended || f.tokens.isEmpty) := by
  rw [← ended_fill f]
  unfold next?
  simp only
  split <;> rfl

/-- A failure is told of once the end of the lines was met. -/
theorem takeFailure?_fst (f : Feed) : f.takeFailure?.1 = if f.ended then f.failure else none := by
  unfold takeFailure?
  split <;> rfl

@[simp] theorem tokens_takeFailure? (f : Feed) : f.takeFailure?.2.tokens = f.tokens := by
  unfold takeFailure?
  split <;> rfl

@[simp] theorem ended_takeFailure? (f : Feed) : f.takeFailure?.2.ended = f.ended := by
  unfold takeFailure?
  split <;> simp [*]

/-- A failure that was told of is forgotten. -/
theorem failure_takeFailure? (f : Feed) : f.takeFailure?.2.failure = if f.ended then none else f.failure := by
  unfold takeFailure?
  split <;> rfl

end Feed

end MiniLogo
