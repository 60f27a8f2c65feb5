import MiniLogo.Value.Basic

/-!
# Procedures

A function literal describes a procedure: its first group holds the parameters, its second the body. Procedures are
recognised and described but never called. The text of a procedure is its literal without anything around the two
groups.
-/

namespace MiniLogo

/-- A named procedure: its parameter list and its body. -/
structure Procedure where
  name : Text
  parameters : Value
  body : Value

namespace Procedure

/-- The procedure that a function value describes. -/
def ofLiteral? (name : Text) : Value → Option Procedure
  | .function t => do
    let interior ← Text.unbracket? t
    match Text.groups interior with
    | [parameters, body] => some { name, parameters := .list parameters, body := .list body }
    | _ => none
  | _ => none

def names (p : Procedure) : List Text := (p.parameters.interior?.map Text.words).getD []

/-- The literal of a procedure, without anything around its two groups. -/
def text (p : Procedure) : Text := Text.bracket (p.parameters.text ++ p.body.text)

end Procedure

end MiniLogo
