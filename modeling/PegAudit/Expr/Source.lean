import PegAudit.Expr

namespace PegAudit

/-!
# Source text of expressions

An expression is shown with as few parentheses as its binding strength allows.
A part is enclosed when it binds no more tightly than the place it stands in:
a choice inside a choice, a choice or sequence inside a sequence, anything but
an iteration or a single item under a predicate, and anything but a single
item under an iteration.
-/

/-- How tightly the body of an operator has to bind to stand without parentheses. -/
def Operator.strength :
    Operator →
    Nat
  | .andPredicate => 3
  | .notPredicate => 3
  | .oneOrMore => 4
  | .zeroOrMore => 4
  | .optional => 4

/-- An operator written around its body. -/
def Operator.around
    (body : String) :
    Operator →
    String
  | .andPredicate => "&" ++ body
  | .notPredicate => "!" ++ body
  | .oneOrMore => body ++ "+"
  | .zeroOrMore => body ++ "*"
  | .optional => body ++ "?"

/-- How tightly the parts of a group have to bind to stand without parentheses. -/
def Grouping.strength :
    Grouping →
    Nat
  | .choice => 0
  | .sequence => 1

/-- What stands between two parts of a group. -/
def Grouping.separator :
    Grouping →
    String
  | .choice => " / "
  | .sequence => " "

/-- Put parentheses around a text that needs them. -/
def enclosed
    (needed : Bool)
    (text : String) :
    String :=
  if needed then
    "(" ++ text ++ ")"
  else
    text

namespace Expr

/-- How tightly the outermost construct of an expression binds. -/
def strength :
    Expr →
    Nat
  | .terminal .endOfInput => 3
  | .terminal _ => 5
  | .reference _ => 5
  | .unary operator _ => operator.strength
  | .group grouping _ => grouping.strength

mutual

/-- The text of an expression in a grammar. -/
def source :
    Expr →
    String
  | .terminal item =>
      item.source
  | .reference target =>
      target
  | .unary operator body =>
      operator.around
        (enclosed (body.strength ≤ operator.strength) body.source)
  | .group grouping parts =>
      grouping.separator.intercalate
        (partSources grouping.strength parts)

/-- The texts of the parts of a group. -/
def partSources
    (strength : Nat) :
    List Expr →
    List String
  | [] =>
      []
  | part :: rest =>
      enclosed (part.strength ≤ strength) part.source ::
        partSources strength rest

end

/-- Each part of a group is enclosed on its own. -/
theorem partSources_eq_map
    (strength : Nat)
    (parts : List Expr) :
    partSources strength parts =
      parts.map fun part =>
        enclosed (part.strength ≤ strength) part.source := by
  induction parts with
  | nil =>
      rfl
  | cons part rest inductionHypothesis =>
      simp [partSources, inductionHypothesis]

end Expr

end PegAudit
