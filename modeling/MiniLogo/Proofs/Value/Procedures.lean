import MiniLogo.Proofs.Value.Functions

/-!
# Procedures and their literals

A procedure is read off the two groups of a function value, whatever the text around them is, balanced or not
(`ofLiteral?_eq_some_iff`). Its own literal is those two groups in one pair of brackets, with nothing around them. So
it is a function literal, and the procedure that is read off it is the one that was written (`ofLiteral?_text`).
-/

namespace MiniLogo.Procedure

open MiniLogo.Text

variable {name t : Text} {v : Value} {p : Procedure}

/-- A procedure is read off the two groups in the brackets of a function value. -/
theorem ofLiteral?_eq_some_iff : ofLiteral? name v = some p ↔ ∃ u g h, v = .function (bracket u) ∧
    groups u = [g, h] ∧ p = { name, parameters := .list g, body := .list h } := by
  constructor
  · intro hp
    cases v with
    | function t =>
      cases hu : unbracket? t with
      | none => simp [ofLiteral?, hu] at hp
      | some u =>
        obtain rfl := eq_bracket_of_unbracket? hu
        simp only [ofLiteral?, unbracket?_bracket, Option.bind_eq_bind, Option.bind_some] at hp
        split at hp
        · rename_i g h hgroups
          exact ⟨u, g, h, rfl, hgroups, (Option.some.inj hp).symm⟩
        · cases hp
    | bool b | number n | word t | list t | error t | erased k => cases hp
  · rintro ⟨u, g, h, rfl, hgroups, rfl⟩
    simp [ofLiteral?, hgroups]

/-- Two groups with text around them that belongs to no group describe the procedure that they are. -/
theorem ofLiteral?_of_groups {s g m h r : Text} (hs : Outside s) (hg : IsGroup g) (hm : Outside m) (hh : IsGroup h)
    (hr : Groupless r) : ofLiteral? name (.function (bracket (s ++ g ++ m ++ h ++ r))) =
      some { name, parameters := .list g, body := .list h } :=
  ofLiteral?_eq_some_iff.2 ⟨_, g, h, rfl, groups_eq_pair_iff.2 ⟨s, m, r, rfl, hs, hg, hm, hh, hr⟩, rfl⟩

/-- Two groups in brackets, with nothing around them, are a function literal. -/
theorem isFunction_of_groups {g h : Text} (hg : IsGroup g) (hh : IsGroup h) :
    Literal.isFunction (bracket (g ++ h)) = true := by
  have hblank : Blank [] := nofun
  exact Literal.isFunction_iff.2 ⟨[], g, [], h, [], by simp, hblank, hg, unbracketed_nil.outside, hh, hblank.tail⟩

/-- **Procedures read back.** The literal of a procedure that was read off a function value, of whatever text, is a
function literal, and the procedure that is read off it under the same name is the same one, with its parameters, their
names and its body, and so with the same literal again. It stays the same if text that belongs to no group is put
before, between and behind the two groups, blanks or brackets that do not match among it. -/
theorem ofLiteral?_text (h : ofLiteral? name v = some p) :
    Literal.value p.text = .function p.text ∧ ofLiteral? name (Literal.value p.text) = some p ∧
    ∀ s m r, Outside s → Outside m → Groupless r →
      ofLiteral? name (.function (bracket (s ++ p.parameters.text ++ m ++ p.body.text ++ r))) = some p := by
  obtain ⟨u, g, b, rfl, hgroups, rfl⟩ := ofLiteral?_eq_some_iff.1 h
  obtain ⟨-, -, -, -, -, hg, -, hb, -⟩ := groups_eq_pair_iff.1 hgroups
  have hvalue : Literal.value (bracket (g ++ b)) = .function (bracket (g ++ b)) :=
    Literal.value_eq_function_iff_isFunction.2 (isFunction_of_groups hg hb)
  have hpadded : ∀ s m r, Outside s → Outside m → Groupless r → ofLiteral? name
      (.function (bracket (s ++ g ++ m ++ b ++ r))) = some { name, parameters := .list g, body := .list b } :=
    fun s m r hs hm hr => ofLiteral?_of_groups hs hg hm hb hr
  refine ⟨hvalue, ?_, hpadded⟩
  have hbare := hpadded [] [] [] unbracketed_nil.outside unbracketed_nil.outside unbracketed_nil.groupless
  rw [List.nil_append, List.append_nil, List.append_nil] at hbare
  show ofLiteral? name (Literal.value (bracket (g ++ b))) = _
  rw [hvalue, hbare]

/-- The text around the groups closes a bracket that it has not opened, and leaves one open. -/
theorem ofLiteral?_text_of_unmatched :
    let p : Procedure := ⟨"sum".toList, .list "[x y]".toList, .list "[add :x :y]".toList⟩
    ofLiteral? "sum".toList (.function "[] [ [x y] and [add :x :y] []".toList) = some p ∧
      Literal.value p.text = .function p.text ∧ ofLiteral? "sum".toList (Literal.value p.text) = some p ∧
      p.text = "[[x y][add :x :y]]".toList := by
  intro p
  have hgroups : groups "] [ [x y] and [add :x :y] [".toList = ["[x y]".toList, "[add :x :y]".toList] := by
    decide +kernel
  have h : ofLiteral? "sum".toList (.function "[] [ [x y] and [add :x :y] []".toList) = some p :=
    ofLiteral?_eq_some_iff.2 ⟨_, _, _, rfl, hgroups, rfl⟩
  obtain ⟨hvalue, hread, -⟩ := ofLiteral?_text h
  exact ⟨h, hvalue, hread, rfl⟩

end MiniLogo.Procedure
