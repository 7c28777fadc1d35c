import PegAudit.Expr

namespace PegAudit

/-!
# Grammars

A grammar is a list of named rules in declaration order.  The first rule is
the start rule.
-/

/-- A named rule. -/
structure Rule where
  name : String
  body : Expr
  deriving Repr, DecidableEq, Inhabited

/-- Rules in declaration order. -/
structure Grammar where
  rules : List Rule
  deriving Repr, DecidableEq, Inhabited

namespace Grammar

/-- The rule names in declaration order. -/
def names
    (grammar : Grammar) :
    List String :=
  grammar.rules.map Rule.name

/-- The rule bodies in declaration order. -/
def bodies
    (grammar : Grammar) :
    List Expr :=
  grammar.rules.map Rule.body

/-- The body of the first rule with the given name. -/
def body?
    (grammar : Grammar)
    (name : String) :
    Option Expr :=
  (grammar.rules.find? fun rule => rule.name == name).map Rule.body

end Grammar

namespace Expr

mutual

/-- The names an expression refers to, from left to right. -/
def targets :
    Expr →
    List String
  | .terminal _ =>
      []
  | .reference target =>
      [target]
  | .unary _ body =>
      body.targets
  | .group _ parts =>
      partTargets parts

/-- The names a list of expressions refers to, from left to right. -/
def partTargets :
    List Expr →
    List String
  | [] =>
      []
  | part :: rest =>
      part.targets ++ partTargets rest

end

end Expr

namespace Grammar

/-- The names of the rules after the first that no reference mentions. -/
def unused
    (grammar : Grammar) :
    List String :=
  let mentioned := Expr.partTargets grammar.bodies
  (grammar.names.drop 1).filter fun name => !mentioned.contains name

end Grammar

end PegAudit
