import Mathlib.Data.Nat.Find
import Mathlib.Data.Set.Basic
import Mathlib.Order.Bounds.Defs
import Mathlib.Tactic.ByContra
import MiniLogo.Proofs.Evaluation.Reads
import MiniLogo.Proofs.Text.WellNested

/-!
# The reach of a bracketed literal

The reader of literals looks at the bracket depth between tokens only, where it may jump over zero and come back from
below. All the same it takes the fewest tokens with which the literal has as many opening brackets as closing ones
(`isLeast_balances_iff`), whatever the depth was on the way; without such a number it takes all tokens that there are
(`readBracketed_takes_fewest`).
-/

namespace MiniLogo

open MiniLogo.Action

/-- A first token and the first `k` of those after it hold as many opening brackets as closing ones. -/
def Balances (first : Text) (ts : List Text) (k : Nat) : Prop :=
  (first :: ts.take k).flatten.count '[' = (first :: ts.take k).flatten.count ']'

variable {first : Text} {ts : List Text} {k : Nat}

theorem balances_iff : Balances first ts k ↔ Text.balance first + Text.balance (ts.take k).flatten = 0 := by
  rw [← Text.balance_append, ← List.flatten_cons, Text.balance_eq_count]
  unfold Balances
  omega

/-- The least number of tokens that balance a literal is the one at which its reading is complete. -/
theorem isLeast_balances_iff :
    IsLeast {k | Balances first ts k} k ↔ read (Want.closings (Text.balance first)) ts = .complete k := by
  rw [read_closings_eq_complete_iff]
  constructor
  · rintro ⟨hk, hleast⟩
    refine ⟨?_, balances_iff.1 hk, fun j hj hz => ?_⟩
    · -- beyond the last token there is nothing more to count
      by_contra hlt
      have hall : Balances first ts ts.length := by
        have : ts.take k = ts.take ts.length := by rw [List.take_of_length_le (by omega), List.take_length]
        rwa [Balances, ← this]
      have := hleast hall
      omega
    · have := hleast (balances_iff.2 hz)
      omega
  · rintro ⟨-, hz, hne⟩
    refine ⟨balances_iff.2 hz, fun j hj => ?_⟩
    by_contra hlt
    exact hne j (by omega) (balances_iff.1 hj)

open scoped Classical in
/-- A literal that some number of tokens balances is complete at the least of these numbers. -/
theorem exists_complete_of_balances (h : Balances first ts k) :
    ∃ n, read (Want.closings (Text.balance first)) ts = .complete n :=
  have hex : ∃ k, Balances first ts k := ⟨k, h⟩
  ⟨Nat.find hex, isLeast_balances_iff.1 ⟨Nat.find_spec hex, fun _ hj => Nat.find_min' hex hj⟩⟩

/-- **A literal takes the fewest tokens that balance its brackets.** Reading it succeeds exactly if the first token and
some number of those that follow together hold as many opening brackets as closing ones. Then the least such number of
tokens is taken, and the text of the value is that of the tokens with single blanks between them. Otherwise every token
is taken, and the fault is that the input has ended. Nothing is asked of the depth on the way, which may be negative. -/
theorem readBracketed_takes_fewest (first : Text) (m : Machine) (f : Feed) :
    let balancing := {k | Balances first f.tokens k}
    ((∃ v after, readBracketed first ⟨m, f⟩ = .done v after) ↔ balancing.Nonempty) ∧
    (∀ k, IsLeast balancing k → k ≤ f.tokens.length ∧ ∃ v g, readBracketed first ⟨m, f⟩ = .done v ⟨m, g⟩ ∧
      v.text = Text.unwords (first :: f.tokens.take k) ∧ f.Leaves (f.tokens.drop k) g) ∧
    (balancing = ∅ → ∃ g, readBracketed first ⟨m, f⟩ = .failed .endOfInput ⟨m, g⟩ ∧ f.Drained g) := by
  intro balancing
  rcases readBracketed_cases first ⟨m, f⟩ with ⟨ts, us, hsplit, hc, g, hg, hl⟩ | ⟨hnot, g, hg, hd⟩
  · have hsplit : f.tokens = ts ++ us := hsplit
    have hread := read_append_tokens hc us
    rw [← hsplit] at hread
    have hleast : IsLeast balancing ts.length := isLeast_balances_iff.2 hread
    refine ⟨⟨fun _ => ⟨_, hleast.1⟩, fun _ => ⟨_, _, hg⟩⟩, fun k hk => ?_, fun hempty => ?_⟩
    · obtain rfl : k = ts.length := Reading.complete.inj ((isLeast_balances_iff.1 hk).symm.trans hread)
      refine ⟨le_length_of_read hread, _, g, hg, ?_, ?_⟩
      · rw [Literal.text_value, hsplit, List.take_left]
      · rwa [hsplit, List.drop_left]
    · exact absurd (hempty ▸ hleast.1) (Set.notMem_empty _)
  · have hnone : ∀ k, ¬ Balances first f.tokens k := fun k hk => by
      obtain ⟨n, hn⟩ := exists_complete_of_balances hk
      exact hnot n hn
    refine ⟨⟨?_, ?_⟩, fun k hk => absurd hk.1 (hnone k), fun _ => ⟨g, hg, hd⟩⟩
    · rintro ⟨v, after, hv⟩
      rw [hg] at hv
      cases hv
    · rintro ⟨k, hk⟩
      exact absurd hk (hnone k)

/-- The depth is below zero after the first token, and comes back to zero with the third one. -/
theorem readBracketed_takes_fewest_of_negative :
    let m : Machine := { environment := .empty }
    let f : Feed := .ofText "b [c d".toList
    IsLeast {k | Balances "[a]]".toList f.tokens k} 2 ∧ ∃ v g, readBracketed "[a]]".toList ⟨m, f⟩ = .done v ⟨m, g⟩ ∧
      v.text = "[a]] b [c".toList ∧ f.Leaves ["d".toList] g := by
  intro m f
  have hleast : IsLeast {k | Balances "[a]]".toList f.tokens k} 2 := isLeast_balances_iff.2 (by decide +kernel)
  obtain ⟨-, v, g, hv, ht, hl⟩ := (readBracketed_takes_fewest "[a]]".toList m f).2.1 2 hleast
  have htext : Text.unwords ("[a]]".toList :: f.tokens.take 2) = "[a]] b [c".toList := by decide +kernel
  have hdrop : f.tokens.drop 2 = ["d".toList] := by decide +kernel
  exact ⟨hleast, v, g, hv, ht.trans htext, hdrop ▸ hl⟩

end MiniLogo
