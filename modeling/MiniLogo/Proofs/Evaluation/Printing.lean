import MiniLogo.Proofs.Evaluation.Bodies
import MiniLogo.Proofs.Text.Lines
import MiniLogo.Proofs.Value.Functions

/-!
# Printing literals

A literal is put together of its tokens with single spaces between them, and `print` shows it without its brackets and
the blanks inside them, unless it is a function. So what is shown of a list is what its literal had in its brackets, of
a function the whole literal, each with its tokens put together (`display_value_words`). This is the line that `print`
writes before a literal, and it takes the tokens of the literal and nothing else (`evalNext_print_literal`).
-/

namespace MiniLogo

open MiniLogo.Action Text

variable {files : Files} {m : Machine} {f : Feed} {us : List Text} {body gap : Text}

/-! ## What is shown of a literal -/

/-- A literal is classified alike as it is written and as it is put together of its tokens. -/
theorem isFunction_unwords_words (body : Text) :
    Literal.isFunction (unwords (words (bracket body))) = Literal.isFunction (bracket body) := by
  obtain ⟨u, hu, hw⟩ := unwords_words_bracket body
  rw [hu, Literal.isFunction_bracket_of_words hw]

/-- What is shown of a literal is made of its own tokens if it is a function, and of those in its brackets if not. -/
theorem display_value_words (body : Text) : (Literal.value (unwords (words (bracket body)))).display =
    unwords (words (if Literal.isFunction (bracket body) then bracket body else body)) := by
  obtain ⟨u, hu, hw⟩ := unwords_words_bracket body
  rw [Literal.value, isFunction_unwords_words]
  split
  · rfl
  · rw [hu, Value.display, unbracket?_bracket, Option.map_some, Option.getD_some, trim_of_unwords_words hu, hw]

/-! ## Writing lines -/

/-- There is room for all of the bytes. -/
def Sink.Fits (s : Sink) (bytes : Bytes) : Prop := ∀ room ∈ s.room, bytes.length ≤ room

theorem Sink.write_fst_iff {s : Sink} {bytes : Bytes} : (s.write bytes).1 = true ↔ s.Fits bytes := by
  unfold write Fits
  cases s.room <;> simp

/-- Output with room for the bytes takes all of them. -/
theorem Sink.written_write {s : Sink} {bytes : Bytes} (h : s.Fits bytes) :
    (s.write bytes).2.written = s.written ++ bytes := by
  unfold write
  cases hr : s.room with
  | none => rfl
  | some n => simp [List.take_of_length_le (h n hr)]

def Machine.afterLine (m : Machine) (line : Text) : Machine :=
  { m with output := (m.output.write (Utf8.encode (line ++ ['\n']))).2 }

/-- Whether the line fits into the output of the machine. -/
def Machine.takesLine (m : Machine) (line : Text) : Bool := (m.output.write (Utf8.encode (line ++ ['\n']))).1

theorem writeLine_apply (line : Text) (s : State) : writeLine line s =
    .of (if s.takesLine line then .ok () else .error (.output Sink.full)) (s.afterLine line) s.feed := by
  unfold writeLine Machine.takesLine Machine.afterLine
  simp only
  split <;> rfl

/-- `print` before a literal takes it and writes what is shown of it. -/
theorem evalNext_print {x : Text} {v : Value} (hx : Denotes x v) (files : Files) (m : Machine)
    (hf : f.tokens = Builtin.print.name :: (words x ++ us)) (n : Nat) :
    ∃ g, evalNext files (n + 2) ⟨m, f⟩ =
        .of (if m.takesLine v.display then .ok v else .error (.output Sink.full)) (m.afterLine v.display) g ∧
      f.Leaves us g := by
  obtain ⟨g₀, h₀, l₀⟩ := evalNext_of_cons (m := m) hf files (n + 1)
  obtain ⟨g₁, h₁, l₁⟩ := hx.uses files m n g₀ us l₀.tokens
  refine ⟨g₁, ?_, l₀.trans l₁⟩
  rw [h₀, evalWith_name, apply, bind_apply, h₁]
  simp only [Outcome.of]
  rw [bind_apply, writeLine_apply]
  cases m.takesLine v.display <;> rfl

/-! ## Printing -/

/-- The tokens of `print` and of the literal that follows it after blanks. -/
theorem words_print (hg : Blank gap) (hn : gap ≠ []) (t : Text) :
    words (Builtin.print.name ++ gap ++ t) = Builtin.print.name :: words t := by
  obtain ⟨c, gap, rfl⟩ := List.exists_cons_of_ne_nil hn
  have hblank : Blank gap := fun a ha => hg a (List.mem_cons_of_mem c ha)
  have hskip := words_append_of_blanks (t := t) hblank (q := []) nofun
  rw [List.append_nil] at hskip
  rw [List.append_assoc, List.cons_append, words_append_blank (hg c List.mem_cons_self), words_name, hskip]
  rfl

/-- **Printing a literal restores it.** Before a well-nested text in brackets, `print` writes one line: the tokens of
the text with single spaces between them, or those of the whole literal if it is a function. It takes the tokens of
the literal and leaves those that follow, and nothing else of the machine changes. If the output has no room for the
line, it takes what it has room for, and the fault says that it is full. -/
theorem evalNext_print_literal (files : Files) (hb : WellNested body) (hg : Blank gap) (hn : gap ≠ []) (m : Machine)
    (hf : f.tokens = words (Builtin.print.name ++ gap ++ bracket body) ++ us) (n : Nat) :
    let whole := unwords (words (bracket body))
    let line := if Literal.isFunction (bracket body) then whole else unwords (words body)
    let bytes := Utf8.encode (line ++ ['\n'])
    let v := if Literal.isFunction (bracket body) then Value.function whole else .list whole
    let after : Machine := { m with output := (m.output.write bytes).2 }
    ∃ g, f.Leaves us g ∧
      (m.output.Fits bytes →
        evalNext files (n + 2) ⟨m, f⟩ = .done v ⟨after, g⟩ ∧ after.output.written = m.output.written ++ bytes) ∧
      (¬ m.output.Fits bytes → evalNext files (n + 2) ⟨m, f⟩ = .failed (.output Sink.full) ⟨after, g⟩) := by
  intro whole line bytes v after
  rw [words_print hg hn, List.cons_append] at hf
  obtain ⟨g, he, hl⟩ := evalNext_print (.list hb) files m hf n
  have hline : (Literal.value whole).display = line := by
    rw [display_value_words, apply_ite words, apply_ite unwords]
  have hvalue : Literal.value whole = v := by
    rw [Literal.value, isFunction_unwords_words]
  rw [hline, hvalue] at he
  refine ⟨g, hl, fun hfits => ⟨?_, Sink.written_write hfits⟩, fun hfits => ?_⟩
  · have htakes : m.takesLine line = true := Sink.write_fst_iff.2 hfits
    rw [he, if_pos htakes]
    rfl
  · have htakes : ¬ m.takesLine line = true := mt Sink.write_fst_iff.1 hfits
    rw [he, if_neg htakes]
    rfl

/-- Literals over several lines of bytes, with blanks beside their brackets: a list, and a function. -/
theorem evalNext_print_literals :
    let m : Machine := { environment := .empty, output := { written := [62] } }
    let shows (text : Text) (v : Value) (line : Text) : Prop := ∃ g,
      evalNext (fun _ => .error .notFound) 2 ⟨m, .ofBytes (Utf8.encode text)⟩ =
          .done v ⟨{ m with output := { written := [62] ++ Utf8.encode (line ++ ['\n']) } }, g⟩ ∧
        g.tokens = ["x".toList]
    shows "print [ a\t[b\n c]\n ] x".toList (.list "[ a [b c] ]".toList) "a [b c]".toList ∧
      shows "print\n[[a]\n[ b]] x".toList (.function "[[a] [ b]]".toList) "[[a] [ b]]".toList := by
  intro m shows
  have hshows : ∀ (gap body : Text) {v : Value} {line : Text}, WellNested body → Blank gap → gap ≠ [] →
      (if Literal.isFunction (bracket body) then Value.function (unwords (words (bracket body)))
        else .list (unwords (words (bracket body)))) = v →
      (if Literal.isFunction (bracket body) then unwords (words (bracket body)) else unwords (words body)) = line →
      shows (Builtin.print.name ++ gap ++ bracket body ++ " x".toList) v line := by
    rintro gap body v line hb hg hn rfl rfl
    have hx : words "x".toList = ["x".toList] := by decide +kernel
    have hf : (Feed.ofBytes (Utf8.encode (Builtin.print.name ++ gap ++ bracket body ++ " x".toList))).tokens =
        words (Builtin.print.name ++ gap ++ bracket body) ++ ["x".toList] := by
      rw [Feed.tokens_ofBytes, Utf8.decodeLossy_encode, ← hx]
      exact words_append_blank rfl _ "x".toList
    obtain ⟨g, hl, hdone, -⟩ := evalNext_print_literal (fun _ => .error .notFound) hb hg hn m hf 0
    exact ⟨g, (hdone nofun).1, hl.tokens⟩
  exact ⟨hshows " ".toList " a\t[b\n c]\n ".toList (by decide +kernel) (by decide) (by decide) (by decide +kernel)
      (by decide +kernel),
    hshows "\n".toList "[a]\n[ b]".toList (by decide +kernel) (by decide) (by decide) (by decide +kernel)
      (by decide +kernel)⟩

end MiniLogo
