import MiniLogo.Proofs.Evaluation.Halting

/-!
# Operands of a halted machine

Operands are evaluated on a halted machine too, if a builtin asks for them, and what follows them is not. `Coincide`
says of two token lists that they are the same as far as given wants go; an action that takes its tokens as it wants
them does not see where they differ (`Reads.coincide`). Since it ends if the machine is halted (`EndsHalted`), two
evaluations that have come to the same halted machine stay alike (`EndsAlike.bind`).

A builtin evaluates its operands in turn (`InTurn`). So if one of them ends alike, then so does the whole expression
(`InTurn.endsAlike`).
-/

namespace MiniLogo

open MiniLogo.Action

variable {α β : Type} {files : Files} {k n i j : Nat} {m m' : Machine} {f f' g : Feed} {ws vs : List Want}
  {ts us us' xs rest rest' : List Text}

/-! ## Tokens that are the same as far as they are wanted -/

/-- The tokens are the same as far as the wants go, and after that `rest` and `rest'`; tokens that do not meet the
wants are all the same. -/
inductive Coincide (ws : List Want) (rest rest' : List Text) : List Text → List Text → Prop where
  | complete {us : List Text} (h : read ws us = .complete us.length) : Coincide ws rest rest' (us ++ rest) (us ++ rest')
  | incomplete {us : List Text} (h : ∀ n, read ws us ≠ .complete n) : Coincide ws rest rest' us us

namespace Coincide

/-- Tokens that are the same as far as nothing is wanted. -/
theorem nil_iff : Coincide [] rest rest' us us' ↔ us = rest ∧ us' = rest' := by
  constructor
  · rintro (⟨h⟩ | ⟨h⟩)
    · rw [read_nil] at h
      obtain rfl := List.length_eq_zero_iff.1 (Reading.complete.inj h).symm
      exact ⟨rfl, rfl⟩
    · exact absurd (read_nil us) (h 0)
  · rintro ⟨rfl, rfl⟩
    have h : Coincide [] us us' ([] ++ us) ([] ++ us') := .complete rfl
    exact h

/-- What meets the first wants is the same. -/
theorem of_append (h : Coincide (ws ++ vs) rest rest' us us') (hr : read ws ts = .complete ts.length)
    (ht : us = ts ++ xs) : ∃ xs', us' = ts ++ xs' ∧ Coincide vs rest rest' xs xs' := by
  cases h with
  | @complete us h =>
    obtain ⟨n, j, hn, hj, hlen⟩ := complete_of_read_append h
    have hts : read ws (ts ++ xs) = .complete n := by
      rw [← ht]
      exact read_append_tokens hn rest
    obtain rfl : ts.length = n := Reading.complete.inj ((read_append_tokens hr xs).symm.trans hts)
    obtain ⟨ys, rfl⟩ : ts <+: us :=
      List.prefix_of_prefix_length_le ⟨xs, ht.symm⟩ (List.prefix_append us rest) (le_length_of_read hn)
    rw [List.drop_left] at hj
    rw [List.length_append] at hlen
    obtain rfl : j = ys.length := by omega
    rw [List.append_assoc] at ht
    obtain rfl := List.append_cancel_left ht
    exact ⟨ys ++ rest', by rw [List.append_assoc], .complete hj⟩
  | incomplete h =>
    subst ht
    refine ⟨xs, rfl, .incomplete fun n hn => h (ts.length + n) ?_⟩
    rw [read_append_of_complete (read_append_tokens hr xs), List.drop_left, hn]
    rfl

/-- What does not go beyond the first wants is the same. -/
theorem of_le (h : Coincide (ws ++ vs) rest rest' us us') (ht : us = ts ++ xs)
    (hn : ∀ n, read ws us = .complete n → ts.length ≤ n) : ∃ xs', us' = ts ++ xs' := by
  cases h with
  | @complete us h =>
    obtain ⟨n, -, hr, -, -⟩ := complete_of_read_append h
    have hle : ts.length ≤ us.length := Nat.le_trans (hn n (read_append_tokens hr rest)) (le_length_of_read hr)
    obtain ⟨ys, rfl⟩ : ts <+: us := List.prefix_of_prefix_length_le ⟨xs, ht.symm⟩ (List.prefix_append us rest) hle
    exact ⟨ys ++ rest', by rw [List.append_assoc]⟩
  | incomplete => exact ⟨xs, ht⟩

end Coincide

/-- The feed has these tokens left, and its input does not fail. -/
structure Feed.Holds (f : Feed) (us : List Text) : Prop where
  tokens : f.tokens = us
  failure : f.failure = none

theorem Feed.holds_pending (us : List Text) : Feed.Holds { pending := us } us := ⟨List.append_nil us, rfl⟩

theorem Feed.Leaves.holds (h : f.Leaves us g) (hf : f.failure = none) : g.Holds us := ⟨h.tokens, h.failure.trans hf⟩

/-- An action does not see where its tokens differ. -/
theorem Reads.coincide {x : Action α} (hx : Reads ws x) (hf : f.Holds us) (hf' : f'.Holds us')
    (h : Coincide (ws ++ vs) rest rest' us us') {r : Except Fault α} (he : x ⟨m, f⟩ = .of r m' g) :
    ∃ g', x ⟨m, f'⟩ = .of r m' g' ∧
      ∀ a, r = .ok a → ∃ xs xs', g.Holds xs ∧ g'.Holds xs' ∧ Coincide vs rest rest' xs xs' := by
  cases r with
  | ok a =>
    have he : x ⟨m, f⟩ = .done a ⟨m', g⟩ := he
    obtain ⟨ts, xs, ht, hr, hu⟩ := hx.done he
    have hl : f.Leaves xs g := hu.leaves ht he
    obtain ⟨xs', rfl, hc⟩ := h.of_append hr (hf.tokens.symm.trans ht)
    obtain ⟨g', hg', hl'⟩ := hu f' xs' hf'.tokens
    exact ⟨g', hg', fun _ _ => ⟨xs, xs', hl.holds hf.failure, hl'.holds hf'.failure, hc⟩⟩
  | error e =>
    have he : x ⟨m, f⟩ = .failed e ⟨m', g⟩ := he
    rcases hx.failed he with ⟨ts, xs, ht, hn, hu⟩ | hst
    · obtain ⟨xs', rfl⟩ := h.of_le (hf.tokens.symm.trans ht) fun n hr => hn n (hf.tokens ▸ hr)
      obtain ⟨g', hg', -⟩ := hu f' xs' hf'.tokens
      exact ⟨g', hg', nofun⟩
    · obtain ⟨w, hw, -⟩ := id hst
      have ht : f'.tokens = f.tokens := by
        rw [hf.tokens, hf'.tokens]
        cases h with
        | complete h =>
          -- what lacks a token is not met
          obtain ⟨n, -, hr, -⟩ := complete_of_read_append h
          rw [hf.tokens, read_append_tokens hr] at hw
          cases hw
        | incomplete => rfl
      obtain ⟨g', hg', -⟩ := hst.of_tokens_eq he ht (hf'.failure.trans hf.failure.symm)
      exact ⟨g', hg', nofun⟩

/-! ## Actions on a halted machine -/

/-- The action takes its tokens as it wants them, and ends on a halted machine. -/
def Settles (k : Nat) (ws : List Want) (x : Action α) : Prop := Reads ws x ∧ EndsHalted k x

theorem settles_congruence (k : Nat) : Congruence fun ws x _ => Settles k ws x :=
  reads_congruence.and (endsHalted_congruence k)

theorem settles_evalNext (files : Files) (k : Nat) : Settles k [.expression] (evalNext files (k + 1)) :=
  ⟨reads_evalNext files (k + 1), endsHalted_evalNext files k⟩

/-! ## Evaluations that end alike -/

/-- The action ends in the same way from both feeds: with a value only if the machine is halted, and then with tokens
that are still the same as far as the wants go. -/
def EndsAlike (k : Nat) (vs : List Want) (rest rest' : List Text) (x : Action α) (m : Machine) (f f' : Feed) : Prop :=
  ∃ r m' g g', x ⟨m, f⟩ = .of r m' g ∧ x ⟨m, f'⟩ = .of r m' g' ∧
    ∀ a, r = .ok a → m'.halted = true ∧ g.size ≤ k ∧
      ∃ us us', g.Holds us ∧ g'.Holds us' ∧ Coincide vs rest rest' us us'

/-- What goes on from the same halted machine ends alike. -/
theorem EndsAlike.bind {x : Action α} {y : α → Action β} (hx : EndsAlike k (ws ++ vs) rest rest' x m f f')
    (hy : ∀ a, Settles k ws (y a)) : EndsAlike k vs rest rest' (x >>= y) m f f' := by
  obtain ⟨r, m₁, g, g', h, h', ha⟩ := hx
  cases r with
  | error e =>
    exact ⟨.error e, m₁, g, g', bind_eq_of_iff.2 (.inl ⟨e, h, rfl⟩), bind_eq_of_iff.2 (.inl ⟨e, h', rfl⟩), nofun⟩
  | ok a =>
    obtain ⟨hm, hk, us, us', hg, hg', hc⟩ := ha a rfl
    obtain ⟨r, m₂, q, hq, hm₂, hqk⟩ := (hy a).2 ⟨m₁, g⟩ hm hk
    obtain ⟨q', hq', hc'⟩ := (hy a).1.coincide hg hg' hc hq
    exact ⟨r, m₂, q, q', bind_eq_of_iff.2 (.inr ⟨a, _, h, hq⟩), bind_eq_of_iff.2 (.inr ⟨a, _, h', hq'⟩),
      fun b hb => ⟨hm₂, hqk, hc' b hb⟩⟩

/-- The action evaluates `n` operands in turn, unless it fails before, and goes on with one that has the property. -/
inductive InTurn (P : Action Value → Prop) (next : Action Value) : Nat → Action Value → Prop where
  | rest {x : Action Value} (h : P x) : InTurn P next 0 x
  | fail (n : Nat) (e : Fault) : InTurn P next n (Action.fail e)
  | operand {n : Nat} {y : Value → Action Value} (h : ∀ v, InTurn P next n (y v)) : InTurn P next (n + 1) (next >>= y)

/-- After `i` operands that are evaluated to the same values there is one that ends alike. -/
inductive Before (next : Action Value) (k : Nat) (rest rest' : List Text) :
    Nat → List Want → Machine → Feed → Feed → Prop where
  | here {vs : List Want} {m : Machine} {f f' : Feed} (h : EndsAlike k vs rest rest' next m f f') :
    Before next k rest rest' 0 vs m f f'
  | operand {i : Nat} {vs : List Want} {m m₁ : Machine} {f f' g g' : Feed} {v : Value}
    (h : next ⟨m, f⟩ = .done v ⟨m₁, g⟩) (h' : next ⟨m, f'⟩ = .done v ⟨m₁, g'⟩)
    (hb : Before next k rest rest' i vs m₁ g g') : Before next k rest rest' (i + 1) vs m f f'

section

variable {R : ActionRel} {next x : Action Value} {loop : Action (Option Value)}

/-- Builtins that want expressions only evaluate them in turn. -/
theorem inTurn_apply (h : Congruence R) (hl : ∀ feed, R [] (within feed loop) (within feed loop)) {b : Builtin}
    (hb : b.wants = List.replicate n .expression) : InTurn (fun x => R [] x x) next n (apply files next loop b) := by
  obtain rfl : b.wants.length = n := by rw [hb, List.length_replicate]
  cases b with
  | add | sub | mul | div | mod | and | or | eq | gt | lt =>
    exact .operand fun left => .operand fun right => .rest (h.ofExcept _)
  | not | isEmpty => exact .operand fun v => .rest (h.ofExcept _)
  | isNumber | isBool | isWord | isList => exact .operand fun v => .rest (h.pure _)
  | isName => exact .operand fun v => .rest (h.andThen (h.isBound _) fun _ => h.pure _)
  | first | last | butFirst | butLast =>
    refine .operand fun v => .rest ?_
    split
    · exact h.pure _
    · exact h.fail [] _
  | random => exact .operand fun v => .rest (h.andThen (h.ofExcept _) fun bound => h.andThen h.draw fun x => h.pure _)
  | int | sqrt => exact .operand fun v => .rest (h.andThen (h.ofExcept _) fun x => h.pure _)
  | make =>
    refine .operand fun name => .operand fun v => .rest ?_
    cases Procedure.ofLiteral? name.text v with
    | some p => exact h.andThen (h.pure ()) fun _ => h.pure _
    | none => exact h.andThen (h.define _ _) fun _ => h.pure _
  | print => exact .operand fun v => .rest (h.andThen (h.writeLine _) fun _ => h.pure _)
  | run => exact .operand fun v => .rest (h.runList hl v)
  | ifElse =>
    refine .operand fun condition => ?_
    cases condition.truth? with
    | some flag => exact .operand fun consequence => .operand fun alternative => .rest (h.runList hl _)
    | none => exact .fail _ _
  | exit => exact .rest (h.andThen h.halt fun _ => h.pure _)
  | erase | load | read => cases hb

/-- Tokens that want expressions only evaluate them in turn. -/
theorem inTurn_evalWith (h : Congruence R) (hl : ∀ feed, R [] (within feed loop) (within feed loop)) {raw : Text}
    (hw : Want.ofToken raw = some (List.replicate (n + 1) .expression)) :
    InTurn (fun x => R [] x x) next (n + 1) (evalWith files next loop raw) := by
  unfold Want.ofToken at hw
  unfold evalWith
  cases hc : Token.classify raw with
  | word t | number t | bool b | reference name => simp [hc, List.replicate_succ] at hw
  | thing =>
    rw [hc] at hw
    obtain rfl : n = 0 := by simpa using congrArg List.length (Option.some.inj hw)
    exact .operand fun v => .rest (h.lookup _)
  | listStart first =>
    simp only [hc, Want.closings] at hw
    split at hw <;> simp [List.replicate_succ] at hw
  | name name =>
    simp only [hc] at hw
    obtain ⟨b, hb, hbw⟩ := Option.map_eq_some_iff.1 hw
    simp only [hb]
    exact inTurn_apply h hl hbw

theorem InTurn.settles (hn : Settles k [.expression] next) (hx : InTurn (Settles k []) next n x) :
    Settles k (List.replicate n .expression) x := by
  induction hx with
  | rest h => exact h
  | fail n e => exact (settles_congruence k).fail _ e
  | @operand n y _ ih => exact (settles_congruence k).bind (y := next) (g := y) hn ih

/-- If an operand ends alike, then so does what evaluates it. -/
theorem InTurn.endsAlike (hn : Settles k [.expression] next)
    (hx : InTurn (Settles k []) next (j + i + 1) x)
    (hb : Before next k rest rest' i (List.replicate j .expression ++ vs) m f f') :
    EndsAlike k vs rest rest' x m f f' := by
  induction i generalizing x m f f' with
  | zero =>
    cases hx with
    | fail _ e => exact ⟨.error e, m, f, f', rfl, rfl, nofun⟩
    | operand hy =>
      cases hb with
      | here h => exact h.bind fun v => (hy v).settles hn
  | succ i ih =>
    cases hx with
    | fail _ e => exact ⟨.error e, m, f, f', rfl, rfl, nofun⟩
    | operand hy =>
      cases hb with
      | operand h h' hb =>
        obtain ⟨r, m₂, q, q', hq, hq', ha⟩ := ih (hy _) hb
        exact ⟨r, m₂, q, q', bind_eq_of_iff.2 (.inr ⟨_, _, h, hq⟩), bind_eq_of_iff.2 (.inr ⟨_, _, h', hq'⟩), ha⟩

end

end MiniLogo
