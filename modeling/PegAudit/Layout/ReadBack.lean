import PegAudit.Layout.Build

namespace PegAudit

/-!
# Reading a layout back

The expression a node was made from is found by following shapes and parts; a
reference gives back the name it was written with.  No path from a node through
its parts is longer than the number of nodes, so that number bounds the search.
The same search lists the nodes in pre-order, each before its parts.
-/

namespace Layout

/-- The expression at a node, with parts followed to a limited depth. -/
def exprWithin?
    (layout : Layout) :
    Nat →
    NodeId →
    Option Expr
  | 0, _ =>
      none
  | depth + 1, id =>
      match layout.shape? id with
      | some (.terminal item) =>
          some (.terminal item)
      | some (.reference target _) =>
          some (.reference target)
      | some (.unary operator body) =>
          (exprWithin? layout depth body).map (.unary operator)
      | some (.group grouping parts) =>
          (parts.mapM (exprWithin? layout depth)).map (.group grouping)
      | some .remainingInput =>
          none
      | none =>
          none

/-- The expression a node was made from. -/
def expr?
    (layout : Layout)
    (id : NodeId) :
    Option Expr :=
  layout.exprWithin? layout.exprCount id

/-- The rule a top node was made from. -/
def rule?
    (layout : Layout)
    (top : NodeId) :
    Option Rule := do
  let node ← layout.node? top
  let body ← layout.expr? top
  return { name := node.name, body := body }

/-- The grammar a layout was made from. -/
def grammar?
    (layout : Layout) :
    Option Grammar :=
  (layout.rules.mapM layout.rule?).map fun rules =>
    { rules := rules }

/-- The parts of a node. -/
def children
    (layout : Layout)
    (id : NodeId) :
    List NodeId :=
  (layout.shape? id).elim [] Shape.children

/-- The nodes of the tree below a node in pre-order, to a limited depth. -/
def treeWithin
    (layout : Layout) :
    Nat →
    NodeId →
    List NodeId
  | 0, _ =>
      []
  | depth + 1, id =>
      id :: (layout.children id).flatMap (treeWithin layout depth)

/-- The nodes of the tree below a node in pre-order, the node first. -/
def tree
    (layout : Layout)
    (id : NodeId) :
    List NodeId :=
  layout.treeWithin layout.exprCount id

/-- The nodes of all rules in pre-order, the rules in declaration order. -/
def preorder
    (layout : Layout) :
    List NodeId :=
  layout.rules.flatMap layout.tree

end Layout

end PegAudit
