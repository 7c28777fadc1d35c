import PegAudit.IndexRelation.Checked
import PegAudit.Relations

namespace PegAudit

/-!
# Attributes and relations with checks

Every node that is looked at has to be there, every pair that is related needs
a row and a bit, and the sweeps have to come to an end.
-/

namespace Layout

/-- Look at nodes, refused if one of them is missing. -/
def visit?
    (layout : Layout)
    (ids : List NodeId) :
    Option Unit :=
  if ids.all layout.has then
    some ()
  else
    none

/-- The nodes that a node mentions. -/
def mentioned
    (layout : Layout)
    (id : NodeId) :
    List NodeId :=
  (layout.shape? id).elim [] Shape.mentioned

/-- Look at a node and at the nodes it mentions. -/
def inspect?
    (layout : Layout)
    (id : NodeId) :
    Option Unit :=
  layout.visit? (id :: layout.mentioned id)

/-- Switch on the flags that follow for a node, looking at its parts. -/
def updateAttrs?
    (layout : Layout)
    (table : AttrTable)
    (id : NodeId)
    (current : Attrs) :
    Option Attrs := do
  layout.inspect? id
  return layout.updateAttrs table id current

/-- Sweep until nothing changes. -/
def settleAttrs?
    (layout : Layout) :
    Option (Settled AttrTable) :=
  settle? (sweep? layout.updateAttrs? layout.ids)
    (4 * layout.exprCount + 1) layout.initialAttrs

/-- Relate every expression to what `related` gives for its shape. -/
def relate?
    (layout : Layout)
    (related : Shape NodeId → List NodeId) :
    Option IndexRelation := do
  let pairs ←
    layout.compoundIds.mapM fun id => do
      layout.inspect? id
      return ((layout.shape? id).elim [] related).map (id, ·)
  IndexRelation.ofPairs? layout.exprCount pairs.flatten

/-- Are these two terminals that no input starts with both of? -/
def disjointAt
    (layout : Layout)
    (left right : NodeId) :
    Bool :=
  match layout.terminal? left, layout.terminal? right with
  | some leftItem, some rightItem => leftItem.disjoint rightItem
  | _, _ => false

/--
The pairs of disjoint terminals: each terminal is compared with itself and the
later ones, and a disjoint pair is taken both ways.
-/
def disjointPairs
    (layout : Layout) :
    List (NodeId × NodeId) :=
  layout.terminalIds.flatMap fun left =>
    (layout.terminalIds.filter fun right =>
      decide (left ≤ right) && layout.disjointAt left right).flatMap
        fun right => [(left, right), (right, left)]

/-- The pairs of terminals that no input starts with both of. -/
def disjointTerminals?
    (layout : Layout) :
    Option IndexRelation := do
  layout.visit? layout.terminalIds
  IndexRelation.ofPairs? layout.terminalCount layout.disjointPairs

/-- All relations of a layout, given the attributes of its nodes. -/
def relations?
    (layout : Layout)
    (table : AttrTable) :
    Option Relations := do
  let calls ← layout.relate? (Shape.callees table)
  let first ← layout.relate? (Shape.openers table)
  let callsClosure ← calls.closure?
  let firstClosure ← first.star?
  let disjoint ← layout.disjointTerminals?
  let nonDisjoint ← disjoint.complement?
  return {
    calls := calls
    callsClosure := callsClosure
    first := first
    firstClosure := firstClosure
    disjoint := disjoint
    nonDisjoint := nonDisjoint }

end Layout

/-- The terminals among `terminalCount` that may begin a match of a node. -/
def Relations.firstTerms?
    (relations : Relations)
    (terminalCount : Nat)
    (id : NodeId) :
    Option IndexSet := do
  let row ← relations.firstClosure.row? id
  IndexSet.ofList? terminalCount (row.toList.takeWhile (· < terminalCount))

end PegAudit
