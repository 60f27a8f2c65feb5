import MiniLogo.Value.Basic

/-!
# Variables

A frame binds names to values; binding a name again takes the place of its earlier binding (`Frame.get?_insert_self`,
`Frame.get?_insert_of_ne`). An environment is a stack of frames that is never empty: the top frame, which `make`,
`thing` and `:name` work on, and the frames below it. A frame that is put on top is the one that is taken off
(`Environment.pop?_push`), and only the last one stays (`Environment.pop?_eq_none_iff`).
-/

namespace MiniLogo

/-- The bindings of one level. The first one of a name counts, and `insert` makes no second one. -/
abbrev Frame := List (Text × Value)

namespace Frame

def get? : Frame → Text → Option Value
  | [], _ => none
  | (n, v) :: f, name => if n = name then some v else get? f name

def contains (f : Frame) (name : Text) : Bool := (f.get? name).isSome

/-- Binds a name, in the place of an earlier binding of it. -/
def insert : Frame → Text → Value → Frame
  | [], name, v => [(name, v)]
  | (n, w) :: f, name, v => if n = name then (name, v) :: f else (n, w) :: insert f name v

/-- The frame of a list of bindings, the last one of a name counting. -/
def ofList (bindings : List (Text × Value)) : Frame := bindings.foldl (fun f b => f.insert b.1 b.2) []

/-- The bindings in the order of their names. -/
def toSortedList (f : Frame) : List (Text × Value) := f.mergeSort fun a b => !decide (b.1 < a.1)

@[simp] theorem get?_insert_self (f : Frame) (name : Text) (v : Value) : (f.insert name v).get? name = some v := by
  induction f with
  | nil => simp [insert, get?]
  | cons b f ih =>
    unfold insert
    split
    · simp [get?]
    · rename_i h
      simpa [get?, h] using ih

theorem get?_insert_of_ne {f : Frame} {name other : Text} {v : Value} (h : name ≠ other) :
    (f.insert name v).get? other = f.get? other := by
  induction f with
  | nil => simp [insert, get?, h]
  | cons b f ih =>
    unfold insert
    split
    · rename_i hn
      simp [get?, hn, h]
    · simp only [get?, ih]

end Frame

/-- A stack of frames that is never empty. -/
structure Environment where
  top : Frame
  below : List Frame := []
  deriving DecidableEq

namespace Environment

def empty : Environment where
  top := []

def withConstants : Environment where
  top := [("pi".toList, .literal "3.14159".toList)]

/-- The environment of given frames, the bottom one first; without any it has one empty frame. -/
def ofFrames (frames : List Frame) : Environment :=
  match frames.reverse with
  | [] => empty
  | top :: below => { top, below }

def depth (e : Environment) : Nat := e.below.length + 1

/-- The value that the top frame binds to a name. -/
def get? (e : Environment) (name : Text) : Option Value := e.top.get? name

/-- Whether any frame binds a name. -/
def contains (e : Environment) (name : Text) : Bool := (e.top :: e.below).any fun f => f.contains name

def define (e : Environment) (name : Text) (v : Value) : Environment := { e with top := e.top.insert name v }

def push (e : Environment) (f : Frame) : Environment where
  top := f
  below := e.top :: e.below

/-- Takes the top frame off; the last one stays. -/
def pop? (e : Environment) : Option (Frame × Environment) :=
  match e.below with
  | [] => none
  | f :: below => some (e.top, { top := f, below })

@[simp] theorem get?_define_self (e : Environment) (name : Text) (v : Value) :
    (e.define name v).get? name = some v :=
  Frame.get?_insert_self e.top name v

theorem get?_define_of_ne {e : Environment} {name other : Text} {v : Value} (h : name ≠ other) :
    (e.define name v).get? other = e.get? other :=
  Frame.get?_insert_of_ne h

@[simp] theorem depth_define (e : Environment) (name : Text) (v : Value) : (e.define name v).depth = e.depth := rfl

@[simp] theorem depth_push (e : Environment) (f : Frame) : (e.push f).depth = e.depth + 1 := rfl

/-- The frame that was put on top is the one that is taken off. -/
@[simp] theorem pop?_push (e : Environment) (f : Frame) : (e.push f).pop? = some (f, e) := rfl

/-- Only the last frame is not taken off. -/
theorem pop?_eq_none_iff (e : Environment) : e.pop? = none ↔ e.depth = 1 := by
  obtain ⟨top, below⟩ := e
  cases below <;> simp [pop?, depth]

end Environment

end MiniLogo
