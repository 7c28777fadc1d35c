import PegAudit.Grammar.Defect

namespace PegAudit

/-!
# Paths to nodes

A path leads from an expression to a node in it: for each step it says which
part to go into, counted from 1.  A reference has no parts, so no path leads
into the rule it names.  A node is called by the name of its rule and, behind
it, the positions on its path, each after a dot.

Nodes are visited part by part, and each node after all that is below it.
-/

/-- Which part to go into at each step, counted from 1. -/
abbrev NodePath :=
  List Nat

/-- The name of the node that a path leads to from a named expression. -/
def nodeName
    (name : String)
    (path : NodePath) :
    String :=
  path.foldl partName name

/-- The node at the first path is visited before the node at the second. -/
inductive VisitedBefore :
    NodePath →
    NodePath →
    Prop
  /-- What is below a node is visited before the node. -/
  | descendant
      (position : Nat)
      (path : NodePath) :
      VisitedBefore (position :: path) []
  /-- Everything in a part is visited before everything in a later part. -/
  | aside
      {position later : Nat}
      (path other : NodePath)
      (earlier : position < later) :
      VisitedBefore (position :: path) (later :: other)
  /-- Within one part the paths into it decide. -/
  | within
      {path other : NodePath}
      (position : Nat)
      (before : VisitedBefore path other) :
      VisitedBefore (position :: path) (position :: other)

namespace Expr

/-- The parts of an expression. -/
def parts :
    Expr →
    List Expr
  | .terminal _ => []
  | .reference _ => []
  | .unary _ body => [body]
  | .group _ parts => parts

/-- The part at a position, counted from 1. -/
def part?
    (expression : Expr) :
    Nat →
    Option Expr
  | 0 => none
  | index + 1 => expression.parts[index]?

/-- The node that a path leads to. -/
def at? :
    Expr →
    NodePath →
    Option Expr
  | expression, [] =>
      some expression
  | expression, position :: path =>
      (expression.part? position).bind fun part => part.at? path

mutual

/-- The nodes of an expression with their paths, in the order in which they are visited. -/
def nodes :
    Expr →
    List (NodePath × Expr)
  | .terminal item =>
      [([], .terminal item)]
  | .reference target =>
      [([], .reference target)]
  | .unary operator body =>
      body.nodes.map (fun (path, node) => (1 :: path, node)) ++
        [([], .unary operator body)]
  | .group grouping parts =>
      partNodes 1 parts ++ [([], .group grouping parts)]

/-- The nodes of the parts from a position on. -/
def partNodes
    (position : Nat) :
    List Expr →
    List (NodePath × Expr)
  | [] =>
      []
  | part :: rest =>
      part.nodes.map (fun (path, node) => (position :: path, node)) ++
        partNodes (position + 1) rest

end

end Expr

end PegAudit
