import MiniLogo.Proofs.Text.Joined
import MiniLogo.Value.Part

/-!
# What stands in a text

Trimming a text and taking its brackets off leave something that stands in it (`trim_isInfix`,
`unbracket?_getD_isInfix`), as its pieces do. So a word that a text lacks is lacking there too (`Lacks`), and it does
not come up when texts are put together with blanks and brackets (`lacks_unwords`, `Lacks.bracket`). The pieces of a
text, each with a blank behind it, are at most one character longer than the text (`bulk_pieces_le`).
-/

namespace MiniLogo.Text

variable {s t k : Text} {c : Char} {vs ws : List Text}

/-- Trimmed text stands in the text. -/
theorem trim_isInfix (t : Text) : trim t <:+: t := by
  obtain ⟨p, q, h, -⟩ := exists_append_trim t
  exact ⟨p, q, h.symm⟩

theorem infix_bracket (t : Text) : t <:+: bracket t := ⟨['['], [']'], rfl⟩

/-- What stands between the brackets of a text stands in the text. -/
theorem unbracket?_getD_isInfix (t : Text) : (unbracket? t).getD t <:+: t := by
  cases h : unbracket? t with
  | none => exact List.infix_refl t
  | some u =>
    rw [eq_bracket_of_unbracket? h]
    exact infix_bracket u

/-- What does not begin with a bracket has none to take off. -/
theorem unbracket?_eq_none (h : '[' ∉ t) : unbracket? t = none := by
  cases hu : unbracket? t with
  | none => rfl
  | some u =>
    rw [eq_bracket_of_unbracket? hu] at h
    exact absurd List.mem_cons_self h

/-! ## Words that a text lacks -/

/-- The word does not stand in the text. -/
def Lacks (k t : Text) : Prop := ¬ k <:+: t

instance (k t : Text) : Decidable (Lacks k t) := inferInstanceAs (Decidable (¬ k <:+: t))

/-- What does not stand in a text does not stand in a part of it. -/
theorem Lacks.of_isInfix (h : Lacks k t) (hs : s <:+: t) : Lacks k s := fun hk => h (hk.trans hs)

theorem lacks_nil (hk : k ≠ []) : Lacks k [] := fun h => hk (List.infix_nil.1 h)

/-- A word without the character between two texts does not reach from one into the other. -/
theorem Lacks.append_cons (hs : Lacks k s) (hc : c ∉ k) (ht : Lacks k t) : Lacks k (s ++ c :: t) := by
  rintro ⟨p, q, h⟩
  rw [List.append_assoc] at h
  rcases List.append_eq_append_iff.1 h with ⟨a, rfl, ha⟩ | ⟨a, rfl, ha⟩
  · rcases List.append_eq_append_iff.1 ha with ⟨b, rfl, -⟩ | ⟨b, rfl, hb⟩
    · exact hs ⟨p, b, by rw [List.append_assoc]⟩
    · cases b with
      | nil => exact hs ⟨p, [], by simp⟩
      | cons d b =>
        obtain rfl := (List.cons.inj hb).1
        exact hc (by simp)
  · cases a with
    | nil =>
      cases k with
      | nil => exact hs List.nil_infix
      | cons d k =>
        obtain rfl := (List.cons.inj ha).1
        exact hc List.mem_cons_self
    | cons d a =>
      obtain ⟨-, rfl⟩ := List.cons.inj ha
      exact ht ⟨a, q, by rw [List.append_assoc]; rfl⟩

/-- A text without blanks stands in joined tokens only if it stands in one of them. -/
theorem lacks_unwords (hk : k ≠ []) (hb : ' ' ∉ k) (h : ∀ w ∈ ws, Lacks k w) : Lacks k (unwords ws) := by
  induction ws with
  | nil => exact lacks_nil hk
  | cons w ws ih =>
    have hw := h w List.mem_cons_self
    have hws := ih fun v hv => h v (List.mem_cons_of_mem w hv)
    by_cases hn : ws = []
    · rwa [hn, unwords_singleton]
    · rw [unwords_cons hn]
      exact hw.append_cons hb hws

/-- Brackets around a text add nothing that has no brackets. -/
theorem Lacks.bracket (hk : k ≠ []) (ho : '[' ∉ k) (hc : ']' ∉ k) (h : Lacks k t) : Lacks k (bracket t) :=
  (lacks_nil hk).append_cons ho (h.append_cons hc (lacks_nil hk))

/-! ## The length of pieces -/

/-- The length of texts with a blank behind each of them. -/
def bulk : List Text → Nat
  | [] => 0
  | w :: ws => w.length + 1 + bulk ws

@[simp] theorem bulk_nil : bulk [] = 0 := rfl

@[simp] theorem bulk_cons (w : Text) (ws : List Text) : bulk (w :: ws) = w.length + 1 + bulk ws := rfl

@[simp] theorem bulk_append (vs ws : List Text) : bulk (vs ++ ws) = bulk vs + bulk ws := by
  induction vs with
  | nil => simp
  | cons v vs ih => simp [ih, Nat.add_assoc]

/-- A part of a row of tokens has no more bulk than the row. -/
theorem bulk_le_of_isInfix (h : vs <:+: ws) : bulk vs ≤ bulk ws := by
  obtain ⟨p, q, rfl⟩ := h
  simp only [bulk_append]
  omega

/-- Texts put together have no blank behind the last one. -/
theorem length_unwords (h : ws ≠ []) : (unwords ws).length + 1 = bulk ws := by
  induction ws with
  | nil => exact absurd rfl h
  | cons w ws ih =>
    by_cases hn : ws = []
    · simp [hn]
    · have := ih hn
      rw [unwords_cons hn, List.length_append, List.length_cons, bulk_cons]
      omega

/-- Closing the first piece adds at most its characters and one. -/
theorem bulk_flush_le (piece : Text) (later : List Text) :
    bulk (flush (piece, later)) ≤ piece.length + 1 + bulk later := by
  cases piece with
  | nil => exact Nat.le_add_left _ _
  | cons c piece => exact Nat.le_of_eq (bulk_cons _ _)

/-- The pieces of a text are at most one character longer than the text. -/
theorem bulk_pieces_le (weigh : Char → Int) (t : Text) : bulk (pieces weigh t) ≤ t.length + 1 := by
  induction t using breakInduction weigh with
  | unbroken t h =>
    by_cases hn : t = []
    · subst hn
      exact Nat.zero_le _
    · rw [pieces_of_unbroken h hn]
      simp
  | broken s c u hs hc hd ih =>
    rw [pieces_append_of_unbroken hs hc hd, List.length_append, List.length_cons]
    have := bulk_flush_le s (pieces weigh u)
    omega

/-- Pieces put together again are at most as long as the text. -/
theorem length_unwords_le {weigh : Char → Int} (h : ws <:+: pieces weigh t) : (unwords ws).length ≤ t.length := by
  by_cases hn : ws = []
  · subst hn
    exact Nat.zero_le _
  · have hw := length_unwords hn
    have hb := bulk_le_of_isInfix h
    have ht := bulk_pieces_le weigh t
    omega

end MiniLogo.Text
