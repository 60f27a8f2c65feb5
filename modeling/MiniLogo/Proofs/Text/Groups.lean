import MiniLogo.Proofs.Text.Joined

/-!
# Groups of a text

A group is a well-nested text in brackets (`isGroup_iff`). The scan for groups reads on without a cut as long as the
depth does not go from zero to one or back (`groupsFrom_append`). So a text in which no bracket closes at depth one has
no group (`groups_eq_nil_iff`), and any other falls apart at its first one (`groups_eq_cons_iff`): what stands before
it closes all that it opens and never opens more than it closes (`Outside`), and what stands behind it is scanned on its
own.

The depth of a text is kept in a range (`Stays`) or leaves it at a first character (`stays_or_exists_exit`); this is how
the first group is found. A text without brackets keeps the depth as it is, and what stands outside of groups has no
brackets if it never closes more than it opens either (`Outside.unbracketed`).
-/

namespace MiniLogo.Text

variable {R : Int → Prop} {depth : Int} {c : Char} {s t u g : Text} {gs : List Text}

/-! ## Ranges of depths -/

/-- The depth is in the range all through the text. -/
def Stays (R : Int → Prop) (depth : Int) (t : Text) : Prop := ∀ s, s <+: t → R (depth + balance s)

theorem stays_nil_iff : Stays R depth [] ↔ R depth := by
  simp [Stays]

theorem stays_cons_iff : Stays R depth (c :: t) ↔ R depth ∧ Stays R (depth + weight c) t := by
  constructor
  · intro h
    refine ⟨by simpa using h [] List.nil_prefix, fun s hs => ?_⟩
    have := h (c :: s) (List.cons_prefix_cons.2 ⟨rfl, hs⟩)
    rwa [balance_cons, ← Int.add_assoc] at this
  · rintro ⟨hd, ht⟩ s hs
    rcases List.prefix_cons_iff.1 hs with rfl | ⟨p, rfl, hp⟩
    · simpa using hd
    · rw [balance_cons, ← Int.add_assoc]
      exact ht p hp

theorem Stays.start (h : Stays R depth t) : R depth := by
  simpa using h [] List.nil_prefix

/-- What holds of the depths of a text holds of those of a first part, and of those of the rest from there. -/
theorem stays_append_iff : Stays R depth (s ++ t) ↔ Stays R depth s ∧ Stays R (depth + balance s) t := by
  induction s generalizing depth with
  | nil =>
    rw [List.nil_append, stays_nil_iff, balance_nil, Int.add_zero]
    exact ⟨fun h => ⟨h.start, h⟩, And.right⟩
  | cons c s ih => rw [List.cons_append, stays_cons_iff, stays_cons_iff, ih, balance_cons, Int.add_assoc, and_assoc]

/-- The depths of a text are the balances of its beginnings. -/
theorem stays_iff_take : Stays R depth t ↔ ∀ k ≤ t.length, R (depth + balance (t.take k)) := by
  constructor
  · exact fun h k _ => h _ (List.take_prefix k t)
  · intro h s hs
    rw [List.prefix_iff_eq_take.1 hs]
    exact h _ hs.length_le

/-- The depth is in the range all through the text, or it leaves it at a first character. -/
theorem stays_or_exists_exit (hd : R depth) (t : Text) : Stays R depth t ∨
    ∃ s c u, t = s ++ c :: u ∧ Stays R depth s ∧ ¬ R (depth + balance s + weight c) := by
  induction t generalizing depth with
  | nil => exact .inl (stays_nil_iff.2 hd)
  | cons c t ih =>
    by_cases hc : R (depth + weight c)
    · rcases ih hc with h | ⟨s, d, u, rfl, hs, hout⟩
      · exact .inl (stays_cons_iff.2 ⟨hd, h⟩)
      · refine .inr ⟨c :: s, d, u, rfl, stays_cons_iff.2 ⟨hd, hs⟩, ?_⟩
        rwa [balance_cons, ← Int.add_assoc]
    · exact .inr ⟨[], c, t, rfl, stays_nil_iff.2 hd, by simpa using hc⟩

/-! ## Brackets -/

/-- Well nested is what never goes below the depth it starts at and comes back to it. -/
theorem wellNested_iff : WellNested t ↔ Stays (0 ≤ ·) 0 t ∧ balance t = 0 := by
  rw [stays_iff_take]
  simp [WellNested]

/-- A group is a well-nested text in brackets. -/
theorem isGroup_iff : IsGroup g ↔ ∃ u, g = bracket u ∧ WellNested u := by
  have htake : ∀ u : Text, ∀ k ≤ u.length, (bracket u).take (k + 1) = '[' :: u.take k := fun u k hk => by
    rw [bracket, List.take_succ_cons, List.take_append_of_le_length hk]
  have hlen : ∀ u : Text, (bracket u).length = u.length + 2 := fun u => by simp [bracket]
  constructor
  · rintro ⟨hh, hl, hk, hz⟩
    obtain ⟨u, rfl⟩ := exists_eq_bracket hh hl
    refine ⟨u, rfl, fun k hle => ?_, by rwa [balance_bracket] at hz⟩
    have := hk (k + 1) (by rw [hlen]; omega) (Nat.succ_pos k)
    rw [htake u k hle, balance_cons, weight_open] at this
    omega
  · rintro ⟨u, rfl, hu⟩
    refine ⟨rfl, by rw [bracket, ← List.cons_append, List.getLast?_concat], fun k hlt hpos => ?_,
      by rw [balance_bracket, hu.2]⟩
    obtain ⟨j, rfl⟩ : ∃ j, k = j + 1 := ⟨k - 1, by omega⟩
    have hj : j ≤ u.length := by
      rw [hlen] at hlt
      omega
    have := hu.1 j hj
    rw [htake u j hj, balance_cons, weight_open]
    omega

/-- A group is well nested as a whole. -/
theorem IsGroup.wellNested (h : IsGroup g) : WellNested g := by
  obtain ⟨-, -, hk, hz⟩ := h
  refine ⟨fun k hle => ?_, hz⟩
  rcases Nat.eq_zero_or_pos k with rfl | hpos
  · simp
  rcases Nat.lt_or_eq_of_le hle with hlt | rfl
  · have := hk k hlt hpos
    omega
  · rw [List.take_length]
    exact Int.le_of_eq hz.symm

/-- Well-nested texts side by side are well nested. -/
theorem WellNested.append (hs : WellNested s) (ht : WellNested t) : WellNested (s ++ t) := by
  obtain ⟨hs, hzs⟩ := wellNested_iff.1 hs
  obtain ⟨ht, hzt⟩ := wellNested_iff.1 ht
  refine wellNested_iff.2 ⟨stays_append_iff.2 ⟨hs, by rwa [hzs]⟩, ?_⟩
  rw [balance_append, hzs, hzt]
  rfl

/-! ## The scan -/

/-- Where the depth goes neither from zero to one nor back, the scan cuts nothing. -/
theorem groupsFrom_append (hR : R 0 → ¬ R 1) (h : Stays R depth s) (seen t : Text) :
    groupsFrom depth seen (s ++ t) = groupsFrom (depth + balance s) (s.reverse ++ seen) t := by
  induction s generalizing depth seen with
  | nil => simp
  | cons c s ih =>
    obtain ⟨hd, hs⟩ := stays_cons_iff.1 h
    have hc := hs.start
    have hopen : ¬ (c = '[' ∧ depth + weight c = 1) := by
      rintro ⟨rfl, he⟩
      rw [weight_open] at he
      obtain rfl : depth = 0 := by omega
      exact hR hd hc
    have hclose : ¬ (c = ']' ∧ depth + weight c = 0) := by
      rintro ⟨rfl, he⟩
      rw [weight_close] at he
      obtain rfl : depth = 1 := by omega
      exact hR hc hd
    rw [List.cons_append, groupsFrom]
    simp only [if_neg hopen, if_neg hclose]
    rw [ih hs, balance_cons, Int.add_assoc]
    simp

/-- If the depth never goes from zero to one, then no group begins. -/
theorem groupsFrom_of_stays (hR : R 0 → ¬ R 1) (h : Stays R depth t) (seen : Text) :
    groupsFrom depth seen t = [] := by
  have := groupsFrom_append hR h seen []
  rwa [List.append_nil, groupsFrom] at this

/-- What can stand outside of groups: it closes all that it opens, and no prefix opens more than it closes. -/
def Outside (t : Text) : Prop := (∀ k ≤ t.length, balance (t.take k) ≤ 0) ∧ balance t = 0

instance (t : Text) : Decidable (Outside t) := inferInstanceAs (Decidable (_ ∧ _))

/-- Outside of groups stands what never goes above the depth it starts at and comes back to it. -/
theorem outside_iff : Outside t ↔ Stays (· ≤ 0) 0 t ∧ balance t = 0 := by
  rw [stays_iff_take]
  simp [Outside]

/-- No bracket closes at depth one, and so none closes a group. -/
def Groupless (t : Text) : Prop := ∀ s u, t = s ++ ']' :: u → balance s ≠ 1

/-- Text that never goes above the depth it starts at has no groups. -/
theorem groupless_of_stays (h : Stays (· ≤ 0) 0 t) : Groupless t := by
  rintro s u rfl hs
  have : 0 + balance s ≤ 0 := h s (List.prefix_append s _)
  omega

/-- A group left open closes nothing at depth one. -/
theorem groupless_of_open (hs : Outside s) (hu : Stays (1 ≤ ·) 1 u) : Groupless (s ++ '[' :: u) := by
  obtain ⟨hstay, hz⟩ := outside_iff.1 hs
  intro p q h hp
  rcases List.append_eq_append_iff.1 h with ⟨a, rfl, ha⟩ | ⟨a, rfl, -⟩
  · -- the closing bracket stands behind the opening one
    cases a with
    | nil => cases ha
    | cons d a =>
      obtain ⟨rfl, rfl⟩ := List.cons.inj ha
      have : 1 ≤ 1 + balance (a ++ [']']) := hu _ ⟨q, by simp⟩
      rw [balance_append, balance_cons, weight_open] at hp
      rw [balance_append, balance_cons, weight_close, balance_nil] at this
      omega
  · have : 0 + balance p ≤ 0 := hstay p (List.prefix_append p a)
    omega

theorem groupsFrom_bracket (hu : WellNested u) {depth : Int} (hd : depth = 0) (seen t : Text) :
    groupsFrom depth seen (bracket u ++ t) = bracket u :: groups t := by
  obtain ⟨hstay, hz⟩ := wellNested_iff.1 hu
  have hinner : Stays (1 ≤ ·) 1 u := fun p hp => by
    have : 0 ≤ 0 + balance p := hstay p hp
    omega
  have hcut : bracket u ++ t = '[' :: (u ++ ']' :: t) := by simp [bracket]
  rw [hcut, groupsFrom, hd, weight_open]
  simp only [Int.zero_add, and_self, if_true]
  rw [groupsFrom_append (by omega) hinner, hz, groupsFrom]
  simp [bracket, groups]

/-- The first group, and the groups of what stands behind it. -/
theorem groups_append_bracket (hs : Outside s) (hu : WellNested u) (t : Text) :
    groups (s ++ bracket u ++ t) = bracket u :: groups t := by
  obtain ⟨hstay, hz⟩ := outside_iff.1 hs
  rw [groups, List.append_assoc, groupsFrom_append (by omega) hstay, groupsFrom_bracket hu (by omega)]

/-- A text has no group, or it falls apart at its first one. -/
theorem groups_cases (t : Text) : (groups t = [] ∧ Groupless t) ∨
    ∃ s u v, t = s ++ bracket u ++ v ∧ Outside s ∧ WellNested u := by
  rcases stays_or_exists_exit (R := (· ≤ 0)) (Int.le_refl 0) t with h | ⟨s, c, v, rfl, hs, hout⟩
  · exact .inl ⟨groupsFrom_of_stays (by omega) h [], groupless_of_stays h⟩
  -- the depth goes above zero at an opening bracket
  have hle : 0 + balance s ≤ 0 := hs s (List.prefix_refl s)
  obtain rfl : c = '[' := by
    rcases weight_cases c with ⟨h, -⟩ | ⟨-, h⟩ | ⟨-, h⟩
    · exact h
    · omega
    · omega
  have hs' : Outside s := outside_iff.2 ⟨hs, by rw [weight_open] at hout; omega⟩
  rcases stays_or_exists_exit (R := (1 ≤ ·)) (Int.le_refl 1) v with h | ⟨u, c, v, rfl, hu, hout⟩
  · refine .inl ⟨?_, groupless_of_open hs' h⟩
    rw [groups, groupsFrom_append (by omega) hs, groupsFrom, hs'.2]
    simp only [weight_open, Int.zero_add, and_self, if_true]
    exact groupsFrom_of_stays (by omega) h _
  · -- and comes back to zero at a closing one
    have hle : 1 ≤ 1 + balance u := hu u (List.prefix_refl u)
    obtain rfl : c = ']' := by
      rcases weight_cases c with ⟨-, h⟩ | ⟨h, -⟩ | ⟨-, h⟩
      · omega
      · exact h
      · omega
    refine .inr ⟨s, u, v, by simp [bracket], hs', wellNested_iff.2 ⟨fun p hp => ?_, ?_⟩⟩
    · have : 1 ≤ 1 + balance p := hu p hp
      show 0 ≤ 0 + balance p
      omega
    · rw [weight_close] at hout
      omega

/-- Exactly the groupless texts have no groups. -/
theorem groups_eq_nil_iff : groups t = [] ↔ Groupless t := by
  rcases groups_cases t with ⟨h, hg⟩ | ⟨s, u, v, rfl, hs, hu⟩
  · simp [h, hg]
  · rw [groups_append_bracket hs hu]
    refine ⟨nofun, fun h => ?_⟩
    refine absurd ?_ (h (s ++ '[' :: u) v (by simp [bracket]))
    rw [balance_append, hs.2, balance_cons, hu.2]
    rfl

/-- A text whose first group is the given one. -/
theorem groups_eq_cons_iff : groups t = g :: gs ↔
    ∃ s u, t = s ++ g ++ u ∧ Outside s ∧ IsGroup g ∧ groups u = gs := by
  constructor
  · intro h
    rcases groups_cases t with ⟨h', -⟩ | ⟨s, u, v, rfl, hs, hu⟩
    · rw [h'] at h
      cases h
    · rw [groups_append_bracket hs hu] at h
      obtain ⟨rfl, rfl⟩ := List.cons.inj h
      exact ⟨s, v, rfl, hs, isGroup_iff.2 ⟨u, rfl, hu⟩, rfl⟩
  · rintro ⟨s, v, rfl, hs, hg, rfl⟩
    obtain ⟨u, rfl, hu⟩ := isGroup_iff.1 hg
    exact groups_append_bracket hs hu v

/-! ## Text without brackets -/

def Unbracketed (t : Text) : Prop := '[' ∉ t ∧ ']' ∉ t

instance (t : Text) : Decidable (Unbracketed t) := inferInstanceAs (Decidable (_ ∧ _))

theorem weight_eq_zero_iff : weight c = 0 ↔ c ≠ '[' ∧ c ≠ ']' := by
  rcases weight_cases c with ⟨rfl, -⟩ | ⟨rfl, -⟩ | ⟨hne, h⟩
  · decide
  · decide
  · exact iff_of_true h hne

theorem unbracketed_nil : Unbracketed [] := by simp [Unbracketed]

/-- Texts side by side have no brackets if neither has. -/
theorem unbracketed_append_iff : Unbracketed (s ++ t) ↔ Unbracketed s ∧ Unbracketed t := by
  simp only [Unbracketed, List.mem_append, not_or]
  tauto

/-- Without brackets the depth does not change. -/
theorem Unbracketed.balance_take (h : Unbracketed t) (k : Nat) : balance (t.take k) = 0 := by
  induction t generalizing k with
  | nil => simp
  | cons c t ih =>
    cases k with
    | zero => rfl
    | succ k =>
      obtain ⟨ho, hc⟩ := h
      rw [List.mem_cons, not_or] at ho hc
      rw [List.take_succ_cons, balance_cons, weight_eq_zero_iff.2 ⟨Ne.symm ho.1, Ne.symm hc.1⟩, ih ⟨ho.2, hc.2⟩]
      rfl

theorem Unbracketed.balance (h : Unbracketed t) : balance t = 0 := by
  simpa using h.balance_take t.length

/-- Text without brackets may stand outside of groups. -/
theorem Unbracketed.outside (h : Unbracketed t) : Outside t :=
  ⟨fun k _ => Int.le_of_eq (h.balance_take k), h.balance⟩

theorem Unbracketed.wellNested (h : Unbracketed t) : WellNested t :=
  ⟨fun k _ => Int.le_of_eq (h.balance_take k).symm, h.balance⟩

theorem Unbracketed.groupless (h : Unbracketed t) : Groupless t := by
  rintro s u rfl
  exact absurd (by simp) h.2

/-- What closes no more than it opens, and opens no more than it closes, has no brackets. -/
theorem Outside.unbracketed (h : Outside t) (hs : Stays (0 ≤ ·) 0 t) : Unbracketed t := by
  obtain ⟨hle, -⟩ := outside_iff.1 h
  have hprefix : ∀ s, s <+: t → balance s = 0 := fun s hst => by
    have h₁ : 0 + balance s ≤ 0 := hle s hst
    have h₂ : 0 ≤ 0 + balance s := hs s hst
    omega
  have hmem : ∀ c ∈ t, weight c = 0 := by
    intro c hc
    obtain ⟨p, q, rfl⟩ := List.append_of_mem hc
    have hpc := hprefix (p ++ [c]) ⟨q, by simp⟩
    rw [balance_append, hprefix p (List.prefix_append p _), balance_cons, balance_nil] at hpc
    omega
  exact ⟨fun ho => (weight_eq_zero_iff.1 (hmem _ ho)).1 rfl, fun hc => (weight_eq_zero_iff.1 (hmem _ hc)).2 rfl⟩

end MiniLogo.Text
