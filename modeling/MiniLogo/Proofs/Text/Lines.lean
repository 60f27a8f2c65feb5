import MiniLogo.Interpreter.Feed
import MiniLogo.Proofs.Text.Utf8
import MiniLogo.Proofs.Text.Words

/-!
# Line by line

Bytes can be read one line at a time without a change to their text. A character under way admits no byte below
`0x80` (`Guarded`), so that a line feed ends it and stands for itself wherever it comes: lossy text falls apart at every
line feed (`decodeLossy_append_newline`), however broken the bytes on its two sides are. And a line feed is a blank, so
the tokens fall apart with it. Hence the tokens of bytes read line by line are those of their text
(`Feed.tokens_ofBytes`), and those of the complete lines before a failure (`Feed.tokens_ofBytes_failure`).
-/

namespace MiniLogo

namespace Utf8

/-! ## A line feed between bytes -/

/-- No byte of ASCII goes on with the character that is under way. -/
def Guarded : Option Pending → Prop
  | none => True
  | some p => 0x80 ≤ p.low

theorem guarded_start (b : Nat) : Guarded (start b).2 := by
  unfold start
  repeat' split
  all_goals simp [Guarded]

theorem Pending.guarded_extend (p : Pending) (b : Nat) : Guarded (p.extend b).2 := by
  unfold Pending.extend
  simp only
  split <;> simp [Guarded]

/-- After each byte, no byte of ASCII goes on with the character that is under way. -/
theorem guarded_step (state : Option Pending) (b : Nat) : Guarded (step state b).2 := by
  cases state with
  | none => exact guarded_start b
  | some p =>
    unfold step
    simp only
    split
    · exact p.guarded_extend b
    · exact guarded_start b

/-- A line feed gives up the character under way, if there is one, and stands for itself. -/
theorem decodeFrom_newline {state : Option Pending} (h : Guarded state) (rest : Bytes) :
    decodeFrom state (10 :: rest) = decodeFrom state [] ++ '\n' :: decodeFrom none rest := by
  cases state with
  | none => rfl
  | some p =>
    have hlow : ¬ (p.low ≤ 10 ∧ 10 ≤ p.high) := by
      have : 0x80 ≤ p.low := h
      omega
    have hstep : step (some p) 10 = ([replacement, '\n'], none) := by
      unfold step
      simp only [if_neg hlow]
      rfl
    have hten : (10 : UInt8).toNat = 10 := rfl
    rw [decodeFrom_cons, hten, hstep]
    rfl

/-- A line feed ends whatever character was under way, so lines can be decoded one at a time. -/
theorem decodeFrom_append_newline (s rest : Bytes) {state : Option Pending} (h : Guarded state) :
    decodeFrom state (s ++ 10 :: rest) = decodeFrom state s ++ '\n' :: decodeFrom none rest := by
  induction s generalizing state with
  | nil => exact decodeFrom_newline h rest
  | cons b s ih =>
    rw [List.cons_append, decodeFrom_cons, decodeFrom_cons, ih (guarded_step state b.toNat), List.append_assoc]

/-- The text of bytes falls apart at a line feed. -/
theorem decodeLossy_append_newline (s rest : Bytes) :
    decodeLossy (s ++ 10 :: rest) = decodeLossy s ++ '\n' :: decodeLossy rest :=
  decodeFrom_append_newline s rest trivial

/-- The tokens of bytes fall apart at a line feed. -/
theorem words_decodeLossy_append_newline (s rest : Bytes) :
    Text.words (decodeLossy (s ++ 10 :: rest)) =
      Text.words (decodeLossy (s ++ [10])) ++ Text.words (decodeLossy rest) := by
  have hnil : decodeLossy [] = [] := rfl
  simp only [decodeLossy_append_newline, Text.words_append_blank (show Text.isBlank '\n' = true by decide), hnil,
    Text.words_nil, List.append_nil]

/-! ## Lines -/

/-- A line feed at the start is a line of its own. -/
theorem splitLines_newline (bytes : Bytes) :
    splitLines (10 :: bytes) = ([10] :: (splitLines bytes).1, (splitLines bytes).2) := by
  rw [splitLines]
  cases splitLines bytes
  simp

/-- Another byte belongs to the line after it. -/
theorem splitLines_cons {b : UInt8} (hb : b ≠ 10) (bytes : Bytes) :
    splitLines (b :: bytes) = match splitLines bytes with
      | ([], rest) => ([], b :: rest)
      | (line :: lines, rest) => ((b :: line) :: lines, rest) := by
  rw [splitLines]
  rcases splitLines bytes with ⟨lines, rest⟩
  cases lines <;> simp [hb]

/-- Each complete line ends with a line feed. -/
theorem exists_of_mem_splitLines {bytes line : Bytes} (h : line ∈ (splitLines bytes).1) : ∃ s, line = s ++ [10] := by
  induction bytes generalizing line with
  | nil => cases h
  | cons b bytes ih =>
    by_cases hb : b = 10
    · rw [hb, splitLines_newline] at h
      rcases List.mem_cons.1 h with rfl | h
      · exact ⟨[], rfl⟩
      · exact ih h
    · rw [splitLines_cons hb] at h
      revert h ih
      rcases splitLines bytes with ⟨lines, rest⟩
      intro ih h
      cases lines with
      | nil => cases h
      | cons first lines =>
        rcases List.mem_cons.1 h with rfl | h
        · obtain ⟨s, rfl⟩ := ih List.mem_cons_self
          exact ⟨b :: s, rfl⟩
        · exact ih (List.mem_cons_of_mem first h)

/-- The unfinished rest holds no line feed. -/
theorem newline_not_mem_splitLines (bytes : Bytes) : 10 ∉ (splitLines bytes).2 := by
  induction bytes with
  | nil => simp [splitLines]
  | cons b bytes ih =>
    by_cases hb : b = 10
    · rw [hb, splitLines_newline]
      exact ih
    · rw [splitLines_cons hb]
      revert ih
      rcases splitLines bytes with ⟨lines, rest⟩
      intro ih
      cases lines with
      | nil => simpa [Ne.symm hb] using ih
      | cons first lines => exact ih

/-- The complete lines end with a line feed, unless there is none. -/
theorem getLast?_splitLines (bytes : Bytes) :
    (splitLines bytes).1.flatten = [] ∨ (splitLines bytes).1.flatten.getLast? = some 10 := by
  rcases List.eq_nil_or_concat (splitLines bytes).1 with h | ⟨lines, line, h⟩
  · rw [h]
    exact .inl rfl
  · have hmem : line ∈ (splitLines bytes).1 := by
      rw [h]
      simp
    obtain ⟨s, rfl⟩ := exists_of_mem_splitLines hmem
    rw [h]
    exact .inr (by simp)

/-- Lines that end with a line feed have their tokens one after the other, and then those of the rest. -/
theorem words_decodeLossy_lines {lines : List Bytes} (h : ∀ line ∈ lines, ∃ s, line = s ++ [10]) (rest : Bytes) :
    Text.words (decodeLossy (lines.flatten ++ rest)) =
      lines.flatMap (fun line => Text.words (decodeLossy line)) ++ Text.words (decodeLossy rest) := by
  induction lines with
  | nil => rfl
  | cons line lines ih =>
    obtain ⟨s, rfl⟩ := h line List.mem_cons_self
    have hcut : (((s ++ [10]) :: lines).flatten ++ rest) = s ++ 10 :: (lines.flatten ++ rest) := by simp
    rw [hcut, words_decodeLossy_append_newline, ih fun l hl => h l (List.mem_cons_of_mem _ hl), List.flatMap_cons,
      List.append_assoc]

/-! ## Lines of well-formed bytes -/

/-- Encoded text is well formed and decodes to itself. -/
theorem decode?_encode (t : Text) : decode? (encode t) = some t := by
  unfold decode?
  simp only [decodeLossy_encode, if_true]

/-- Well-formed bytes are those of some text. -/
theorem exists_encode_of_decode? {bytes : Bytes} (h : (decode? bytes).isSome = true) : ∃ t, bytes = encode t := by
  unfold decode? at h
  simp only at h
  split at h
  · rename_i he
    exact ⟨_, he.symm⟩
  · cases h

/-- No other character has the byte of a line feed in it. -/
theorem newline_not_mem_utf8EncodeChar {c : Char} (h : c ≠ '\n') : 10 ∉ String.utf8EncodeChar c := by
  have hne : c.toNat ≠ 10 := fun hv => h (Char.ext (UInt32.toNat_inj.1 hv))
  have hbyte : ∀ {n : Nat}, n < 256 → n ≠ 10 → (10 : UInt8) ≠ UInt8.ofNat n := by
    intro n hn h10 he
    have := congrArg UInt8.toNat he
    rw [toNat_ofNat hn] at this
    exact h10 this.symm
  rcases utf8EncodeChar_cases c with ⟨hm, hc⟩ | ⟨hm, hc⟩ | ⟨hm, hc⟩ | ⟨hm, hc⟩ <;>
    simp only [hc, List.mem_cons, List.not_mem_nil, or_false, not_or]
  · exact hbyte (by omega) hne
  · exact ⟨hbyte (by omega) (by omega), hbyte (by omega) (by omega)⟩
  · exact ⟨hbyte (by omega) (by omega), hbyte (by omega) (by omega), hbyte (by omega) (by omega)⟩
  · exact ⟨hbyte (by omega) (by omega), hbyte (by omega) (by omega), hbyte (by omega) (by omega),
      hbyte (by omega) (by omega)⟩

/-- Bytes without a line feed belong to the line after them. -/
theorem splitLines_append {s : Bytes} (hs : 10 ∉ s) (bytes : Bytes) :
    splitLines (s ++ bytes) = match splitLines bytes with
      | ([], rest) => ([], s ++ rest)
      | (line :: lines, rest) => ((s ++ line) :: lines, rest) := by
  induction s with
  | nil =>
    rw [List.nil_append]
    rcases splitLines bytes with ⟨lines, rest⟩
    cases lines <;> rfl
  | cons b s ih =>
    have hb : b ≠ 10 := fun h => hs (h ▸ List.mem_cons_self)
    rw [List.cons_append, splitLines_cons hb, ih fun h => hs (List.mem_cons_of_mem b h)]
    rcases splitLines bytes with ⟨lines, rest⟩
    cases lines <;> rfl

/-- The lines of the bytes of a text are the bytes of texts. -/
theorem exists_encode_of_mem_splitLines (t : Text) :
    (∀ line ∈ (splitLines (encode t)).1, ∃ u, line = encode u) ∧ ∃ u, (splitLines (encode t)).2 = encode u := by
  induction t with
  | nil => exact ⟨nofun, [], rfl⟩
  | cons c t ih =>
    have hcons := encode_cons c
    rw [hcons]
    by_cases hc : c = '\n'
    · have hten : String.utf8EncodeChar c = [10] := by
        rw [hc]
        rfl
      rw [hten, List.singleton_append, splitLines_newline]
      refine ⟨fun line hmem => ?_, ih.2⟩
      rcases List.mem_cons.1 hmem with rfl | hmem
      · exact ⟨['\n'], rfl⟩
      · exact ih.1 line hmem
    · rw [splitLines_append (newline_not_mem_utf8EncodeChar hc)]
      revert ih
      rcases splitLines (encode t) with ⟨lines, rest⟩
      rintro ⟨hlines, u, hu⟩
      cases lines with
      | nil => exact ⟨nofun, c :: u, by rw [hcons, ← hu]⟩
      | cons first lines =>
        obtain ⟨v, rfl⟩ := hlines first List.mem_cons_self
        refine ⟨fun line hmem => ?_, u, hu⟩
        rcases List.mem_cons.1 hmem with rfl | hmem
        · exact ⟨c :: v, (hcons v).symm⟩
        · exact hlines line (List.mem_cons_of_mem _ hmem)

end Utf8

namespace Feed

open Utf8

@[simp] theorem tokens_ofLines (lines : List Text) (failure : Option Text) :
    (ofLines lines failure).tokens = lines.flatMap Text.words := by
  simp [ofLines, tokens, List.flatMap_def]

/-- No bytes have no words. -/
theorem words_decodeLossy_nil : Text.words (decodeLossy []) = [] := rfl

/-- Bytes that are read line by line have the tokens of their text. -/
theorem tokens_ofBytes (bytes : Bytes) : (ofBytes bytes).tokens = Text.words (decodeLossy bytes) := by
  have hw := words_decodeLossy_lines (fun _ => @exists_of_mem_splitLines bytes _) (splitLines bytes).2
  rw [splitLines_flatten] at hw
  rw [hw]
  by_cases hr : (splitLines bytes).2 = []
  · simp [ofBytes, hr, List.flatMap_map, words_decodeLossy_nil]
  · simp [ofBytes, hr, List.flatMap_map]

/-- Before a failure there are the tokens of the complete lines. -/
theorem tokens_ofBytes_failure (bytes : Bytes) (reason : Text) :
    (ofBytes bytes (some reason)).tokens = Text.words (decodeLossy (splitLines bytes).1.flatten) := by
  have hw := words_decodeLossy_lines (fun _ => @exists_of_mem_splitLines bytes _) []
  rw [List.append_nil, words_decodeLossy_nil, List.append_nil] at hw
  rw [hw]
  simp [ofBytes, List.flatMap_map]

end Feed

end MiniLogo
