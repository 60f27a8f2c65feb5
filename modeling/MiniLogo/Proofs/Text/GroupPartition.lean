import MiniLogo.Proofs.Text.Groups

/-!
# A text is its groups and what is skipped between them

A text falls apart into its groups, what stands before each of them and what stands behind the last one
(`exists_gaps_groups`). What is skipped before a group closes all that it opens and never opens more than it closes, and
nothing closes a group behind the last one. The other way round, groups with such texts around them are the groups of
the text that they make up (`groups_of_gaps`), and so a text and its groups one after the other have the same groups.

Where the whole text is well nested, what is skipped has no brackets at all (`unbracketed_gaps`): before a group the
depth would have to go below zero, and behind the last group the last bracket would have to close a group.
-/

namespace MiniLogo.Text

variable {s t tail : Text} {gaps : List (Text × Text)}

/-! ## Taking a text apart -/

/-- Groups with what can be skipped around them are the groups of the text that they make up. -/
theorem groups_of_gaps (h : ∀ p ∈ gaps, Outside p.1 ∧ IsGroup p.2) (ht : Groupless tail) :
    groups (gaps.flatMap (fun p => p.1 ++ p.2) ++ tail) = gaps.map Prod.snd := by
  induction gaps with
  | nil => exact groups_eq_nil_iff.2 ht
  | cons p gaps ih =>
    obtain ⟨⟨hs, hg⟩, hgaps⟩ := List.forall_mem_cons.1 h
    rw [List.flatMap_cons, List.map_cons, List.append_assoc]
    exact groups_eq_cons_iff.2 ⟨p.1, _, rfl, hs, hg, ih hgaps⟩

/-- A text is its groups, with what is skipped before each of them and behind the last one. -/
theorem exists_gaps_groups (t : Text) : ∃ gaps : List (Text × Text), ∃ tail, gaps.map Prod.snd = groups t ∧
    t = gaps.flatMap (fun p => p.1 ++ p.2) ++ tail ∧ (∀ p ∈ gaps, Outside p.1 ∧ IsGroup p.2) ∧ Groupless tail := by
  generalize hgs : groups t = gs
  induction gs generalizing t with
  | nil => exact ⟨[], t, rfl, rfl, nofun, groups_eq_nil_iff.1 hgs⟩
  | cons g gs ih =>
    obtain ⟨s, u, rfl, hs, hg, hu⟩ := groups_eq_cons_iff.1 hgs
    obtain ⟨gaps, tail, hgroups, rfl, hgaps, htail⟩ := ih u hu
    exact ⟨(s, g) :: gaps, tail, by rw [List.map_cons, hgroups], by simp, List.forall_mem_cons.2 ⟨⟨hs, hg⟩, hgaps⟩,
      htail⟩

theorem isGroup_of_mem_groups {g : Text} (h : g ∈ groups t) : IsGroup g := by
  obtain ⟨gaps, tail, hgroups, -, hgaps, -⟩ := exists_gaps_groups t
  rw [← hgroups] at h
  obtain ⟨p, hp, rfl⟩ := List.mem_map.1 h
  exact (hgaps p hp).2

/-- The groups of a text, one after the other, are the groups of what they make up. -/
theorem groups_flatten_groups (t : Text) : groups (groups t).flatten = groups t := by
  have hbare : ∀ p ∈ (groups t).map fun g => (([], g) : Text × Text), Outside p.1 ∧ IsGroup p.2 := by
    intro p hp
    obtain ⟨g, hg, rfl⟩ := List.mem_map.1 hp
    exact ⟨unbracketed_nil.outside, isGroup_of_mem_groups hg⟩
  have h := groups_of_gaps hbare unbracketed_nil.groupless
  simpa [List.flatMap_map, Function.comp_def] using h

/-! ## Well-nested text -/

/-- In a well-nested text, the parts before and behind a depth of zero are well nested. -/
theorem WellNested.of_append (h : WellNested (s ++ t)) (hs : balance s = 0) : WellNested s ∧ WellNested t := by
  obtain ⟨hstays, hz⟩ := wellNested_iff.1 h
  obtain ⟨hleft, hright⟩ := stays_append_iff.1 hstays
  rw [hs] at hright
  rw [balance_append, hs, Int.zero_add] at hz
  exact ⟨wellNested_iff.2 ⟨hleft, hs⟩, wellNested_iff.2 ⟨hright, hz⟩⟩

/-- A well-nested text without groups has no brackets, since its last one would close a group. -/
theorem WellNested.unbracketed (h : WellNested t) (hg : Groupless t) : Unbracketed t := by
  -- from the end, up to the last bracket
  induction t using List.reverseRecOn with
  | nil => exact unbracketed_nil
  | append_singleton s c ih =>
    have hs : 0 ≤ balance s := h.balance_nonneg
    have hz := h.2
    rw [balance_append, balance_cons, balance_nil] at hz
    rcases weight_cases c with ⟨-, hw⟩ | ⟨rfl, hw⟩ | ⟨⟨ho, hc⟩, hw⟩
    · omega
    · exact absurd (by omega) (hg s [] rfl)
    · have hgs : Groupless s := fun p q hsplit => hg p (q ++ [c]) (by rw [hsplit]; simp)
      obtain ⟨hnested, -⟩ := h.of_append (by omega)
      exact unbracketed_append_iff.2 ⟨ih hnested hgs, by simp [Unbracketed, ho.symm, hc.symm]⟩

/-- What is skipped in a well-nested text has no brackets. -/
theorem unbracketed_gaps (hgaps : ∀ p ∈ gaps, Outside p.1 ∧ IsGroup p.2) (htail : Groupless tail)
    (h : WellNested (gaps.flatMap (fun p => p.1 ++ p.2) ++ tail)) :
    (∀ p ∈ gaps, Unbracketed p.1) ∧ Unbracketed tail := by
  induction gaps with
  | nil => exact ⟨nofun, h.unbracketed htail⟩
  | cons p gaps ih =>
    obtain ⟨⟨hs, hg⟩, hgaps⟩ := List.forall_mem_cons.1 hgaps
    rw [List.flatMap_cons, List.append_assoc, List.append_assoc] at h
    obtain ⟨hfirst, hrest⟩ := h.of_append hs.2
    obtain ⟨-, hlater⟩ := hrest.of_append hg.wellNested.2
    obtain ⟨hbetween, hbehind⟩ := ih hgaps hlater
    exact ⟨List.forall_mem_cons.2 ⟨hs.unbracketed (wellNested_iff.1 hfirst).1, hbetween⟩, hbehind⟩

/-- **A text is its groups and what is skipped between them**, whether its brackets match or not. Each group is one
well-nested pair of brackets with what stands in it. The groups stand in the text in their order; what stands before
each of them closes all that it opens and never opens more than it closes, and behind the last one no bracket closes a
group. If the text is well nested, there is no bracket outside of the groups. The groups one after the other, with
nothing between them, are the groups of the text that they make up. -/
theorem groups_partition (t : Text) :
    (∀ g ∈ groups t, IsGroup g) ∧
    (∃ gaps : List (Text × Text), ∃ tail, gaps.map Prod.snd = groups t ∧
      t = gaps.flatMap (fun p => p.1 ++ p.2) ++ tail ∧ (∀ p ∈ gaps, Outside p.1) ∧ Groupless tail ∧
      (WellNested t → (∀ p ∈ gaps, Unbracketed p.1) ∧ Unbracketed tail)) ∧
    groups (groups t).flatten = groups t := by
  refine ⟨fun g => isGroup_of_mem_groups, ?_, groups_flatten_groups t⟩
  obtain ⟨gaps, tail, hgroups, rfl, hgaps, htail⟩ := exists_gaps_groups t
  exact ⟨gaps, tail, hgroups, rfl, fun p hp => (hgaps p hp).1, htail, unbracketed_gaps hgaps htail⟩

/-- Brackets are closed before they are opened and a group is left open in the first text; the second one is well
nested. -/
theorem groups_partition_of_unmatched :
    let t := "]a[ [b [c]] ][ [] [d [e]".toList
    let u := "to [x [y]] of[]".toList
    (groups t = ["[b [c]]".toList, "[]".toList] ∧ IsGroup "[b [c]]".toList ∧
      groups "[b [c]][]".toList = ["[b [c]]".toList, "[]".toList]) ∧
    WellNested u ∧ ∃ gaps : List (Text × Text), ∃ tail, gaps.map Prod.snd = ["[x [y]]".toList, "[]".toList] ∧
      u = gaps.flatMap (fun p => p.1 ++ p.2) ++ tail ∧ (∀ p ∈ gaps, Unbracketed p.1) ∧ Unbracketed tail := by
  intro t u
  have ht : groups t = ["[b [c]]".toList, "[]".toList] := by decide +kernel
  have hu : groups u = ["[x [y]]".toList, "[]".toList] := by decide +kernel
  have hnested : WellNested u := by decide +kernel
  obtain ⟨hgroups, -, hagain⟩ := groups_partition t
  rw [ht] at hgroups hagain
  obtain ⟨-, ⟨gaps, tail, hgaps, hsplit, -, -, hbare⟩, -⟩ := groups_partition u
  rw [hu] at hgaps
  exact ⟨⟨ht, hgroups _ (by decide), hagain⟩, hnested, gaps, tail, hgaps, hsplit, hbare hnested⟩

end MiniLogo.Text
