import MiniLogo.Proofs.Text.Elements
import MiniLogo.Proofs.Text.Groups
import MiniLogo.Value.Literal
import MiniLogo.Value.Procedure

/-!
# Function literals

A bracketed text is a function literal if it holds two groups, with only blanks before the first one, with what is
outside of groups between them, and with no group behind them, where the last character that is no blank is a closing
bracket (`isFunction_iff`). If its brackets come in pairs, only blanks stand behind the second group
(`isFunction_and_balance_iff`), and if it is one group, no bracket stands between the two
(`isFunction_and_isGroup_iff`).

A procedure is read off all those literals (`isSome_ofLiteral?`).
-/

namespace MiniLogo

namespace Text

variable {s t u g : Text} {c : Char}

/-! ## Blanks -/

def Blank (t : Text) : Prop := ∀ c ∈ t, isBlank c = true

instance (t : Text) : Decidable (Blank t) := List.decidableBAll (fun c => isBlank c = true) t

theorem Blank.unbracketed (h : Blank t) : Unbracketed t :=
  ⟨fun hc => absurd (h _ hc) (by decide), fun hc => absurd (h _ hc) (by decide)⟩

/-! ## The ends of a text with a group in it -/

/-- A text begins with the bracket of its first group if only blanks stand before it. -/
theorem head?_trim_append_group_iff (hs : Outside s) (hg : IsGroup g) :
    (trim (s ++ g ++ t)).head? = some '[' ↔ Blank s := by
  obtain ⟨v, rfl, -⟩ := isGroup_iff.1 hg
  have hcut : s ++ bracket v ++ t = s ++ '[' :: (v ++ ']' :: t) := by simp [bracket]
  rw [head?_trim_eq_some_iff rfl, hcut]
  refine ⟨?_, fun hb => ⟨s, _, rfl, hb⟩⟩
  rintro ⟨p, q, h, hp⟩
  rcases List.append_eq_append_iff.1 h with ⟨a, rfl, -⟩ | ⟨a, rfl, ha⟩
  · exact fun c hc => hp c (List.mem_append_left a hc)
  · cases a with
    | nil => rwa [List.append_nil]
    | cons c a =>
      -- the bracket would stand in front of the group
      obtain ⟨rfl, -⟩ := List.cons.inj ha
      have hle : 0 + balance (p ++ ['[']) ≤ 0 := (outside_iff.1 hs).1 _ ⟨a, by simp⟩
      rw [balance_append, balance_of_forall_blank hp] at hle
      exact absurd hle (by decide)

theorem getLast?_trim_append (h : (trim t).getLast? = some c) : (trim (s ++ t)).getLast? = some c := by
  obtain ⟨-, -, -, -, -, he⟩ := exists_append_trim t
  have hc := he.2 c h
  obtain ⟨p, q, rfl, hq⟩ := (getLast?_trim_eq_some_iff hc).1 h
  exact (getLast?_trim_eq_some_iff hc).2 ⟨s ++ p, q, by simp, hq⟩

/-- A text ends with the bracket of its last group, or with another one behind it. -/
theorem getLast?_trim_append_group_iff (hg : IsGroup g) :
    (trim (s ++ g ++ t)).getLast? = some ']' ↔ ∀ c ∈ (trim t).getLast?, c = ']' := by
  cases h : (trim t).getLast? with
  | some c =>
    rw [getLast?_trim_append h]
    simp
  | none =>
    obtain ⟨v, rfl, -⟩ := isGroup_iff.1 hg
    have hblank : Blank t := forall_mem_trim_iff.1 (by simp [List.getLast?_eq_none_iff.1 h])
    refine iff_of_true ?_ nofun
    exact (getLast?_trim_eq_some_iff rfl).2 ⟨s ++ '[' :: v, t, by simp [bracket], hblank⟩

/-! ## The ink of a text -/

def ink (t : Text) : Text := t.filter fun c => !isBlank c

/-- Without its blanks a text begins as the trimmed text does. -/
theorem head?_ink (t : Text) : (ink t).head? = (trim t).head? := by
  rw [ink, List.head?_filter, head?_trim]

theorem getLast?_ink (t : Text) : (ink t).getLast? = (trim t).getLast? := by
  rw [ink, List.getLast?_eq_head?_reverse, ← List.filter_reverse, List.head?_filter, getLast?_trim]

/-- Blanks neither make nor break groups. -/
theorem length_groupsFrom_ink (depth : Int) (seen seen' t : Text) :
    (groupsFrom depth seen (ink t)).length = (groupsFrom depth seen' t).length := by
  unfold ink
  induction t generalizing depth seen seen' with
  | nil => rfl
  | cons c t ih =>
    cases hc : isBlank c with
    | true =>
      have hw := weight_of_blank hc
      obtain ⟨ho, hn⟩ := weight_eq_zero_iff.1 hw
      rw [List.filter_cons_of_neg (by simp [hc]), groupsFrom, hw, Int.add_zero]
      simp only [ho, hn, false_and, if_false]
      exact ih ..
    | false =>
      rw [List.filter_cons_of_pos (by simp [hc]), groupsFrom, groupsFrom]
      split
      · exact ih ..
      · split
        · rw [List.length_cons, List.length_cons, ih]
        · exact ih ..

theorem length_groups_ink (t : Text) : (groups (ink t)).length = (groups t).length := length_groupsFrom_ink 0 [] [] t

/-! ## Two groups -/

/-- What can stand behind the second group: it has no group, and ends with a closing bracket, blanks aside. -/
def Tail (t : Text) : Prop := Groupless t ∧ ∀ c ∈ (trim t).getLast?, c = ']'

theorem Blank.tail (h : Blank t) : Tail t := by
  refine ⟨h.unbracketed.groupless, fun c hc => ?_⟩
  obtain ⟨-, -, -, -, -, he⟩ := exists_append_trim t
  have := forall_mem_trim_iff.2 h c (List.mem_of_getLast? hc)
  rw [he.2 c hc] at this
  cases this

/-- Behind the second group, brackets that come in pairs would be a group. -/
theorem Tail.blank (h : Tail t) (hz : balance t = 0) : Blank t := by
  obtain ⟨hgroupless, hlast⟩ := h
  cases hl : (trim t).getLast? with
  | none => exact forall_mem_trim_iff.1 (by simp [List.getLast?_eq_none_iff.1 hl])
  | some c =>
    obtain rfl := hlast c hl
    obtain ⟨s, q, rfl, hq⟩ := (getLast?_trim_eq_some_iff rfl).1 hl
    refine absurd ?_ (hgroupless s q rfl)
    rw [balance_append, balance_cons, balance_of_forall_blank hq, weight_close] at hz
    omega

/-- A bracketed text with two groups in it, with blanks before the first one, and with what the predicates say
between the two and behind them. -/
def TwoGroups (middle tail : Text → Prop) (t : Text) : Prop := ∃ w g m h r,
  t = bracket (w ++ g ++ m ++ h ++ r) ∧ Blank w ∧ IsGroup g ∧ middle m ∧ IsGroup h ∧ tail r

/-- A text whose groups are the given two. -/
theorem groups_eq_pair_iff {h : Text} : groups t = [g, h] ↔ ∃ s m r, t = s ++ g ++ m ++ h ++ r ∧ Outside s ∧
    IsGroup g ∧ Outside m ∧ IsGroup h ∧ Groupless r := by
  constructor
  · intro ht
    obtain ⟨s, u, rfl, hs, hg, hu⟩ := groups_eq_cons_iff.1 ht
    obtain ⟨m, r, rfl, hm, hh, hr⟩ := groups_eq_cons_iff.1 hu
    exact ⟨s, m, r, by simp, hs, hg, hm, hh, groups_eq_nil_iff.1 hr⟩
  · rintro ⟨s, m, r, rfl, hs, hg, hm, hh, hr⟩
    refine groups_eq_cons_iff.2 ⟨s, m ++ h ++ r, by simp, hs, hg, ?_⟩
    exact groups_eq_cons_iff.2 ⟨m, r, rfl, hm, hh, groups_eq_nil_iff.2 hr⟩

/-- A text has two groups if and only if it is two groups with text outside of groups before each, and no group
behind. -/
theorem length_groups_eq_two_iff : (groups t).length = 2 ↔ ∃ s g m h r, t = s ++ g ++ m ++ h ++ r ∧ Outside s ∧
    IsGroup g ∧ Outside m ∧ IsGroup h ∧ Groupless r := by
  rw [List.length_eq_two]
  constructor
  · rintro ⟨g, h, ht⟩
    obtain ⟨s, m, r, ht⟩ := groups_eq_pair_iff.1 ht
    exact ⟨s, g, m, h, r, ht⟩
  · rintro ⟨s, g, m, h, r, ht⟩
    exact ⟨g, h, groups_eq_pair_iff.2 ⟨s, m, r, ht⟩⟩

end Text

/-! ## Functions -/

namespace Literal

open Text

variable {t : Text}

/-- A function is a bracketed text of two groups that begins and ends with brackets inside of its own, blanks aside. -/
theorem isFunction_eq_true_iff : isFunction t = true ↔ ∃ u, t = bracket u ∧ (groups u).length = 2 ∧
    (trim u).head? = some '[' ∧ (trim u).getLast? = some ']' := by
  unfold isFunction
  cases hu : unbracket? t with
  | none =>
    refine iff_of_false (by simp) ?_
    rintro ⟨u, rfl, -⟩
    rw [unbracket?_bracket] at hu
    cases hu
  | some u =>
    obtain rfl := eq_bracket_of_unbracket? hu
    simp [and_assoc, bracket]

/-- A function literal has two groups in its brackets, with blanks before them and a closing bracket at the end. -/
theorem isFunction_iff : isFunction t = true ↔ TwoGroups Outside Tail t := by
  rw [isFunction_eq_true_iff]
  constructor
  · rintro ⟨u, rfl, htwo, hhead, hlast⟩
    obtain ⟨s, g, m, h, r, rfl, hs, hg, hm, hh, hr⟩ := length_groups_eq_two_iff.1 htwo
    refine ⟨s, g, m, h, r, rfl, ?_, hg, hm, hh, hr, (getLast?_trim_append_group_iff hh).1 hlast⟩
    rw [List.append_assoc, List.append_assoc] at hhead
    exact (head?_trim_append_group_iff hs hg).1 hhead
  · rintro ⟨s, g, m, h, r, rfl, hs, hg, hm, hh, hr, hlast⟩
    have hout := hs.unbracketed.outside
    refine ⟨_, rfl, length_groups_eq_two_iff.2 ⟨s, g, m, h, r, rfl, hout, hg, hm, hh, hr⟩, ?_,
      (getLast?_trim_append_group_iff hh).2 hlast⟩
    rw [List.append_assoc, List.append_assoc]
    exact (head?_trim_append_group_iff hout hg).2 hs

/-- A function literal whose brackets come in pairs has only blanks behind its groups. -/
theorem isFunction_and_balance_iff : isFunction t = true ∧ balance t = 0 ↔ TwoGroups Outside Blank t := by
  have hbalance : ∀ {w g m h r : Text}, Blank w → IsGroup g → Outside m → IsGroup h →
      balance (bracket (w ++ g ++ m ++ h ++ r)) = balance r := fun hw hg hm hh => by
    simp only [balance_bracket, balance_append, balance_of_forall_blank hw, hg.wellNested.2, hm.2, hh.wellNested.2]
    omega
  rw [isFunction_iff]
  constructor
  · rintro ⟨⟨w, g, m, h, r, rfl, hw, hg, hm, hh, hr⟩, hz⟩
    rw [hbalance hw hg hm hh] at hz
    exact ⟨w, g, m, h, r, rfl, hw, hg, hm, hh, hr.blank hz⟩
  · rintro ⟨w, g, m, h, r, rfl, hw, hg, hm, hh, hr⟩
    refine ⟨⟨w, g, m, h, r, rfl, hw, hg, hm, hh, hr.tail⟩, ?_⟩
    rw [hbalance hw hg hm hh, balance_of_forall_blank hr]

/-- A function literal that is one group has no brackets between its two groups. -/
theorem isFunction_and_isGroup_iff : isFunction t = true ∧ IsGroup t ↔ TwoGroups Unbracketed Blank t := by
  constructor
  · rintro ⟨hf, ht⟩
    obtain ⟨w, g, m, h, r, rfl, hw, hg, hm, hh, hr⟩ := isFunction_and_balance_iff.1 ⟨hf, ht.wellNested.2⟩
    refine ⟨w, g, m, h, r, rfl, hw, hg, hm.unbracketed ?_, hh, hr⟩
    obtain ⟨u, hu, hnested⟩ := isGroup_iff.1 ht
    obtain ⟨rfl, -⟩ := List.append_inj' (List.cons.inj hu).2 rfl
    obtain ⟨hstays, -⟩ := wellNested_iff.1 hnested
    -- the depth is zero where the text between the groups begins
    have hbefore : 0 + balance (w ++ g) = 0 := by
      rw [balance_append, balance_of_forall_blank hw, hg.wellNested.2]
      rfl
    rw [List.append_assoc, List.append_assoc] at hstays
    obtain ⟨-, hrest⟩ := stays_append_iff.1 hstays
    rw [hbefore] at hrest
    exact (stays_append_iff.1 hrest).1
  · rintro ⟨w, g, m, h, r, rfl, hw, hg, hm, hh, hr⟩
    have hnested : WellNested (w ++ g ++ m ++ h ++ r) :=
      (((hw.unbracketed.wellNested.append hg.wellNested).append hm.wellNested).append hh.wellNested).append
        hr.unbracketed.wellNested
    exact ⟨(isFunction_and_balance_iff.2 ⟨w, g, m, h, r, rfl, hw, hg, hm.outside, hh, hr⟩).1,
      isGroup_iff.2 ⟨_, rfl, hnested⟩⟩

/-- Whether a text in brackets is a function literal does not depend on its blanks. -/
theorem isFunction_bracket_of_words {u v : Text} (h : words u = words v) :
    isFunction (bracket u) = isFunction (bracket v) := by
  have hink : ink u = ink v := by
    rw [ink, ink, ← flatten_words, ← flatten_words, h]
  unfold isFunction
  simp only [unbracket?_bracket]
  rw [← length_groups_ink u, ← head?_ink u, ← getLast?_ink u, hink, length_groups_ink, head?_ink, getLast?_ink]

theorem value_eq_function_iff_isFunction : value t = .function t ↔ isFunction t = true := by
  unfold value
  split <;> simp_all

/-- **Function literals.** A bracketed text is a function or a list, and its text is kept. It is a function just if it
has two groups with only blanks before the first one, with text between them that closes all that it opens and never
opens more than it closes, and with nothing behind them but what has no group and ends with a closing bracket, blanks
aside. If the brackets of the text come in pairs, this leaves only blanks behind the second group, and if the text is
one group, it leaves no bracket between the two. -/
theorem value_of_brackets (t : Text) :
    ((value t = .function t ∨ value t = .list t) ∧ (value t).text = t) ∧
    (value t = .function t ↔ TwoGroups Outside Tail t) ∧
    (value t = .function t ∧ balance t = 0 ↔ TwoGroups Outside Blank t) ∧
    (value t = .function t ∧ IsGroup t ↔ TwoGroups Unbracketed Blank t) := by
  refine ⟨⟨?_, text_value t⟩, ?_⟩
  · unfold value
    split
    · exact .inl rfl
    · exact .inr rfl
  · rw [value_eq_function_iff_isFunction]
    exact ⟨isFunction_iff, isFunction_and_balance_iff, isFunction_and_isGroup_iff⟩

/-- Two groups side by side are no pair of brackets with two groups in it, but a function for all that: what stands
between the first and the last bracket closes a bracket before it opens one. -/
theorem value_of_two_outer_groups :
    value "[[a]][[b]]".toList = .function "[[a]][[b]]".toList ∧
      ¬ TwoGroups Unbracketed Blank "[[a]][[b]]".toList := by
  refine ⟨by decide +kernel, fun h => ?_⟩
  have := (isFunction_and_isGroup_iff.2 h).2
  revert this
  decide +kernel

end Literal

/-- A procedure is read off every function literal. -/
theorem Procedure.isSome_ofLiteral? {t : Text} (name : Text) (h : Literal.isFunction t = true) :
    (ofLiteral? name (.function t)).isSome = true := by
  obtain ⟨u, rfl, htwo, -⟩ := Literal.isFunction_eq_true_iff.1 h
  obtain ⟨parameters, body, hgroups⟩ := List.length_eq_two.1 htwo
  simp [ofLiteral?, hgroups]

end MiniLogo
