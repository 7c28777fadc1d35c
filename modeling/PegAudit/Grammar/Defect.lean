import PegAudit.Grammar
import PegAudit.Wording

namespace PegAudit

/-!
# Defects of grammars

A grammar can be laid out only if it has a rule, no two rules share a name,
every reference names a rule, every choice and sequence has at least two
parts, no literal or class is empty, and no range runs backwards.

`Grammar.defects` lists every violation: first one entry for each rule whose
name was taken by an earlier rule, then, rule by rule, those of the bodies.
Within a body a part is looked at before the parts after it, and a group is
counted after its parts have been looked at.
-/

/-- One reason for which a grammar is rejected. -/
inductive Defect where
  | noRules
  | duplicateRule (name : String)
  | undefinedRule (target name : String)
  | emptyExpression (name : String)
  | emptyLiteral (name : String)
  | emptyClass (name : String)
  | invertedRange (name : String) (low high : Char)
  deriving Repr, DecidableEq, Inhabited

namespace Defect

/-- The wording of a defect. -/
def message :
    Defect →
    String
  | .noRules =>
      "grammar has no rules"
  | .duplicateRule name =>
      "duplicate name " ++ quoted name
  | .undefinedRule target name =>
      "undefined name " ++ quoted target ++ " in " ++ quoted name
  | .emptyExpression name =>
      "empty sequence or choice at " ++ quoted name
  | .emptyLiteral name =>
      "empty string literal at " ++ quoted name
  | .emptyClass name =>
      "empty character class at " ++ quoted name
  | .invertedRange name low high =>
      "range [" ++ String.singleton low ++ "-" ++
        String.singleton high ++ "] at " ++ quoted name ++ " is empty"

/-- The wording of all defects of a grammar together. -/
def summary
    (defects : List Defect) :
    String :=
  toString defects.length ++ " error(s) in grammar: " ++
    "; ".intercalate (defects.map message)

end Defect

/-- The name of the part at a 1-based position below a named expression. -/
def partName
    (name : String)
    (position : Nat) :
    String :=
  name ++ "." ++ toString position

/-- The defects of a terminal. -/
def Terminal.defects
    (name : String) :
    Terminal →
    List Defect
  | .literal text =>
      if text.isEmpty then
        [.emptyLiteral name]
      else
        []
  | .charClass members _ =>
      if members.isEmpty then
        [.emptyClass name]
      else
        []
  | .range low high =>
      if high < low then
        [.invertedRange name low high]
      else
        []
  | .anyChar =>
      []
  | .endOfInput =>
      []

namespace Expr

mutual

/-- The defects of a named expression, given the names of the rules. -/
def defects
    (known : List String)
    (name : String) :
    Expr →
    List Defect
  | .terminal item =>
      item.defects name
  | .reference target =>
      if known.contains target then
        []
      else
        [.undefinedRule target name]
  | .unary _ body =>
      body.defects known (partName name 1)
  | .group _ parts =>
      partDefects known name 1 parts ++
        if parts.length < 2 then
          [.emptyExpression name]
        else
          []

/-- The defects of the parts of a group from a position on. -/
def partDefects
    (known : List String)
    (name : String)
    (position : Nat) :
    List Expr →
    List Defect
  | [] =>
      []
  | part :: rest =>
      part.defects known (partName name position) ++
        partDefects known name (position + 1) rest

end

end Expr

namespace Grammar

/-- One defect for each name that occurred earlier. -/
def duplicates
    (earlier : List String) :
    List String →
    List Defect
  | [] =>
      []
  | name :: rest =>
      if earlier.contains name then
        .duplicateRule name :: duplicates earlier rest
      else
        duplicates (name :: earlier) rest

/-- Every defect of a grammar, in order. -/
def defects
    (grammar : Grammar) :
    List Defect :=
  if grammar.rules.isEmpty then
    [.noRules]
  else
    duplicates [] grammar.names ++
      grammar.rules.flatMap fun rule =>
        rule.body.defects grammar.names rule.name

end Grammar

end PegAudit
