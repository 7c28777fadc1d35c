import PegAudit.Follow

namespace PegAudit

/-!
# Choices that one character cannot make

A parser that looks at one terminal has to choose between two alternatives, or
between another round of an iteration and what follows it.  A conflict names
such a choice together with the pairs of terminals that may start one input and
lead both ways.  The second way sees what follows the choice exactly when its
alternative is transparent.
-/

/-- A choice between `first` and `second`, or, without one, the tail of `owner`. -/
structure Conflict where
  first : NodeId
  second : Option NodeId
  owner : NodeId
  /-- Pairs of terminals that may start the same input. -/
  pairs : List (NodeId × NodeId)
  deriving Repr, DecidableEq, Inhabited

/-- A choice that has to be made while matching a node. -/
structure Decision where
  first : NodeId
  second : Option NodeId
  owner : NodeId
  deriving Repr, DecidableEq, Inhabited

/-- Each element with each later one, in order. -/
def orderedPairs :
    List α →
    List (α × α)
  | [] =>
      []
  | element :: rest =>
      rest.map (fun later => (element, later)) ++ orderedPairs rest

/-- The decisions of a shape with the given number. -/
def Shape.decisions
    (owner : NodeId) :
    Shape NodeId →
    List Decision
  | .group .choice parts =>
      (orderedPairs parts).map fun (first, second) =>
        { first := first, second := some second, owner := owner }
  | .unary .oneOrMore body =>
      [{ first := body, second := none, owner := owner }]
  | .unary .zeroOrMore body =>
      [{ first := body, second := none, owner := owner }]
  | .unary .optional body =>
      [{ first := body, second := none, owner := owner }]
  | _ =>
      []

namespace Chart

/-- The terminals that lead to the second way of a decision. -/
def secondTerms
    (chart : Chart)
    (decision : Decision) :
    IndexSet :=
  match decision.second with
  | some second =>
      if (chart.attrsOf second).transparent then
        (chart.firstOf second).union (chart.followOf decision.owner)
      else
        chart.firstOf second
  | none =>
      chart.followOf decision.owner

/--
The pairs of terminals that lead both ways and are not disjoint, in ascending
order.
-/
def collisions
    (chart : Chart)
    (relations : Relations)
    (decision : Decision) :
    List (NodeId × NodeId) :=
  let second := chart.secondTerms decision
  (chart.firstOf decision.first).toList.flatMap fun left =>
    ((relations.nonDisjoint.row left).intersect second).toList.map
      (left, ·)

/-- The conflict of a decision, if some pair collides. -/
def conflict?
    (chart : Chart)
    (relations : Relations)
    (decision : Decision) :
    Option Conflict :=
  match chart.collisions relations decision with
  | [] =>
      none
  | pairs =>
      some
        { first := decision.first
          second := decision.second
          owner := decision.owner
          pairs := pairs }

/-- The decisions of all nodes, by number. -/
def decisions
    (chart : Chart) :
    List Decision :=
  chart.layout.compoundIds.flatMap fun id =>
    match chart.layout.shape? id with
    | some shape => shape.decisions id
    | none => []

/-- The conflicts of all decisions, by node. -/
def foundConflicts
    (chart : Chart)
    (relations : Relations) :
    List Conflict :=
  chart.decisions.filterMap (chart.conflict? relations)

/-- The conflicts ordered by the name of the deciding node. -/
def conflicts
    (chart : Chart)
    (relations : Relations) :
    List Conflict :=
  (chart.foundConflicts relations).mergeSort fun left right =>
    !decide
      (chart.layout.name right.owner < chart.layout.name left.owner)

end Chart

namespace Conflict

/-- A conflict as it is shown. -/
def text
    (layout : Layout)
    (conflict : Conflict) :
    String :=
  let second :=
    match conflict.second with
    | some second => layout.simple second ++ " "
    | none => ""
  layout.simple conflict.first ++ "  <==>  " ++ second ++
    "Tail(" ++ layout.name conflict.owner ++ ")"

/-- A pair of colliding terminals as it is shown. -/
def pairText
    (layout : Layout)
    (pair : NodeId × NodeId) :
    String :=
  layout.source pair.1 ++ "  <==>  " ++ layout.source pair.2

/-- The nodes that showing a conflict and its pairs looks at. -/
def shownNodes
    (conflict : Conflict) :
    List NodeId :=
  conflict.first :: conflict.owner :: conflict.second.toList ++
    conflict.pairs.flatMap fun pair => [pair.1, pair.2]

/-- Has every node that showing the conflict looks at its place in the layout? -/
def placed
    (layout : Layout)
    (conflict : Conflict) :
    Bool :=
  conflict.shownNodes.all layout.has

end Conflict

end PegAudit
