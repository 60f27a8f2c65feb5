import MiniLogo.Operation.Logic
import MiniLogo.Proofs.Text.Elements
import MiniLogo.Value.Part

/-!
# Parts of lists and words

The elements of a list are those of the trimmed text in its brackets, or of its trimmed text if it has none
(`Text.members`). A list that is put together of some of them that stand side by side has just these for elements
(`members_bracket_unwords`), whatever blanks and brackets there are inside of them. So the parts of a list are those of
the sequence of its elements, a list is empty if it has none, and going through a list by its first element and by
what is left without it comes to each element once (`visit_list`). The parts of a word are those of the sequence of
its characters.
-/

namespace MiniLogo

variable {t : Text} {ws : List Text}

/-! ## The elements of a list -/

namespace Text

/-- The elements of a list with the given text. -/
def members (t : Text) : List Text := elements (trim ((unbracket? t).getD t))

/-- Some elements of a list that stand side by side, put together again, have no blank at their ends. -/
theorem endsInked_unwords_of_members (h : ws <:+: members t) : EndsInked (unwords ws) := by
  obtain ⟨-, -, -, -, -, he⟩ := exists_append_trim ((unbracket? t).getD t)
  refine endsInked_unwords fun w hw => ⟨pieces_ne_nil _ _ w (h.subset hw), ?_⟩
  exact endsInked_of_mem_elements he.2 (h.subset hw)

/-- A list that is put together of elements has these for elements. -/
theorem members_bracket_unwords (h : ws <:+: members t) : members (bracket (unwords ws)) = ws := by
  rw [members, unbracket?_bracket, Option.getD_some, trim_of_endsInked (endsInked_unwords_of_members h),
    elements_unwords h]

/-- A list has no elements if there are only blanks in it. -/
theorem members_eq_nil_iff : members t = [] ↔ isAllBlank ((unbracket? t).getD t) = true := by
  rw [members, elements, pieces_eq_nil_iff, forall_mem_trim_iff, isAllBlank, List.all_eq_true]

end Text

/-! ## Parts of lists -/

namespace Part

/-- An element that begins with a bracket is a list, and any other one a word. -/
theorem element_eq (e : Text) : element e = if e.head? = some '[' then .list e else .word e := by
  unfold element
  split
  · simp
  · rename_i h
    rw [if_neg fun hh => ?_]
    obtain ⟨u, rfl⟩ := List.head?_eq_some_iff.1 hh
    exact h u rfl

theorem first_of_list (t : Text) :
    first.ofValue? (.list t) = some (((Text.members t).head?.map element).getD .emptyList) := by
  show some (first.ofList _) = _
  unfold ofList of Text.members
  cases Text.elements (Text.trim ((Text.unbracket? t).getD t)) <;> rfl

theorem last_of_list (t : Text) :
    last.ofValue? (.list t) = some (((Text.members t).getLast?.map element).getD .emptyList) := by
  show some (last.ofList _) = _
  unfold ofList of Text.members
  simp only
  cases (Text.elements (Text.trim ((Text.unbracket? t).getD t))).getLast? <;> rfl

theorem butFirst_of_list (t : Text) : butFirst.ofValue? (.list t) = some (ofElements ((Text.members t).drop 1)) := rfl

theorem butLast_of_list (t : Text) : butLast.ofValue? (.list t) = some (ofElements (Text.members t).dropLast) := rfl

/-- Leaving out the first element and the last one, in either order, leaves the elements between them. -/
theorem butFirst_butLast_of_list (t : Text) :
    (butFirst.ofValue? (.list t)).bind butLast.ofValue? = some (ofElements ((Text.members t).drop 1).dropLast) ∧
      (butLast.ofValue? (.list t)).bind butFirst.ofValue? = some (ofElements ((Text.members t).drop 1).dropLast) := by
  have hdrop := Text.members_bracket_unwords (List.drop_suffix 1 (Text.members t)).isInfix
  have hlast := Text.members_bracket_unwords (List.dropLast_prefix (Text.members t)).isInfix
  constructor
  · rw [butFirst_of_list, Option.bind_some, ofElements, butLast_of_list, hdrop]
  · rw [butLast_of_list, Option.bind_some, ofElements, butFirst_of_list, hlast, List.drop_one, List.drop_one,
      List.tail_dropLast]

/-- A list is empty if it has no elements. -/
theorem isEmpty_of_list (t : Text) : Operation.isEmpty (.list t) = .ok (.bool (Text.members t).isEmpty) := by
  have hblank : Text.isAllBlank ((Text.unbracket? t).getD t) = (Text.members t).isEmpty := by
    rw [Bool.eq_iff_iff, ← Text.members_eq_nil_iff, List.isEmpty_iff]
  rw [Operation.isEmpty, hblank]

/-! ## Going through a list -/

/-- Goes through a list: its first element, and then what is left without it, until it is empty. Each look at what is
left uses one unit of fuel. -/
def visit : Nat → Value → Option (List Value)
  | 0, _ => none
  | fuel + 1, v =>
    match Operation.isEmpty v with
    | .ok (.bool true) => some []
    | .ok (.bool false) => do
      let e ← first.ofValue? v
      let rest ← butFirst.ofValue? v
      return e :: (← visit fuel rest)
    | _ => none

/-- Going through a list comes to each of its elements once and in order, and then it stops. -/
theorem visit_list (fuel : Nat) (t : Text) : visit fuel (.list t) =
    if (Text.members t).length < fuel then some ((Text.members t).map element) else none := by
  induction fuel generalizing t with
  | zero => simp [visit]
  | succ fuel ih =>
    rw [visit, isEmpty_of_list]
    cases hm : Text.members t with
    | nil => simp
    | cons e es =>
      have hrest : Text.members (Text.bracket (Text.unwords es)) = es :=
        Text.members_bracket_unwords (hm ▸ (List.suffix_cons e es).isInfix)
      have hnext := ih (Text.bracket (Text.unwords es))
      rw [hrest] at hnext
      rw [first_of_list, butFirst_of_list, hm]
      simp only [List.isEmpty_cons, List.head?_cons, Option.map_some, Option.getD_some, List.drop_one,
        List.tail_cons, ofElements]
      show (visit fuel (.list (Text.bracket (Text.unwords es)))).bind (fun vs => some (element e :: vs)) = _
      rw [hnext, List.length_cons]
      by_cases hlt : es.length < fuel
      · rw [if_pos hlt, if_pos (by omega)]
        rfl
      · rw [if_neg hlt, if_neg (by omega)]
        rfl

/-! ## Words -/

/-- A sequence is its first item and the others. -/
theorem first_append_butFirst {α : Type} (xs : List α) : first.of xs ++ butFirst.of xs = xs :=
  List.take_append_drop 1 xs

/-- A sequence is all but its last item and that one. -/
theorem butLast_append_last {α : Type} (xs : List α) : butLast.of xs ++ last.of xs = xs := by
  rcases List.eq_nil_or_concat xs with rfl | ⟨ys, x, rfl⟩
  · rfl
  · simp [of]

theorem length_first {α : Type} (xs : List α) : (first.of xs).length = min 1 xs.length := List.length_take

theorem length_last {α : Type} (xs : List α) : (last.of xs).length = min 1 xs.length := by
  rcases List.eq_nil_or_concat xs with rfl | ⟨ys, x, rfl⟩
  · rfl
  · simp [of]

end Part

/-! ## Sequences -/

/-- **Lists and words are sequences.** The first and the last part of a list are the first and the last of its
elements, as a list if they begin with a bracket and as a word if not, and the empty list if there is none. The other
two parts are lists of the elements that are left, and they commute. A list is empty if it has no elements, and going
through it comes to each of them once, in order, and stops after the last one. A word is its first character and the
others, and all but its last character and that one. -/
theorem parts_of_sequences :
    (∀ t : Text,
      let es := Text.members t
      let given (e : Text) : Value := if e.head? = some '[' then .list e else .word e
      (Part.first.ofValue? (.list t) = some ((es.head?.map given).getD (.list "[]".toList)) ∧
        Part.last.ofValue? (.list t) = some ((es.getLast?.map given).getD (.list "[]".toList))) ∧
      ((∃ u, Part.butFirst.ofValue? (.list t) = some (.list u) ∧ Text.members u = es.drop 1) ∧
        ∃ u, Part.butLast.ofValue? (.list t) = some (.list u) ∧ Text.members u = es.dropLast) ∧
      (∃ u, (Part.butFirst.ofValue? (.list t)).bind Part.butLast.ofValue? = some (.list u) ∧
        (Part.butLast.ofValue? (.list t)).bind Part.butFirst.ofValue? = some (.list u)) ∧
      Operation.isEmpty (.list t) = .ok (.bool es.isEmpty) ∧
      ∀ fuel, Part.visit fuel (.list t) = if es.length < fuel then some (es.map given) else none) ∧
    ∀ w : Text,
      (∃ a b, Part.first.ofValue? (.word w) = some (.word a) ∧ Part.butFirst.ofValue? (.word w) = some (.word b) ∧
        a ++ b = w ∧ a.length = min 1 w.length) ∧
      ∃ a b, Part.butLast.ofValue? (.word w) = some (.word a) ∧ Part.last.ofValue? (.word w) = some (.word b) ∧
        a ++ b = w ∧ b.length = min 1 w.length := by
  refine ⟨fun t => ?_, fun w => ?_⟩
  · intro es given
    have hgiven : given = Part.element := funext fun e => (Part.element_eq e).symm
    have hdrop := Text.members_bracket_unwords (List.drop_suffix 1 es).isInfix
    have hlast := Text.members_bracket_unwords (List.dropLast_prefix es).isInfix
    obtain ⟨hcommute, hcommute'⟩ := Part.butFirst_butLast_of_list t
    rw [hgiven]
    refine ⟨⟨Part.first_of_list t, Part.last_of_list t⟩,
      ⟨⟨_, Part.butFirst_of_list t, hdrop⟩, _, Part.butLast_of_list t, hlast⟩, ⟨_, hcommute, hcommute'⟩,
      Part.isEmpty_of_list t, fun fuel => Part.visit_list fuel t⟩
  · exact ⟨⟨_, _, rfl, rfl, Part.first_append_butFirst w, Part.length_first w⟩,
      _, _, rfl, rfl, Part.butLast_append_last w, Part.length_last w⟩

/-- A list with a blank inside an element whose depth is below zero, and with a last element that is left open. -/
example : Part.visit 4 (.list "[ x] y[  [a [b]]  [c  d ]".toList) =
    some [.word "x] y[".toList, .list "[a [b]]".toList, .list "[c  d".toList] := by
  decide +kernel

end MiniLogo
