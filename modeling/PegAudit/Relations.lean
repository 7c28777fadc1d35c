import PegAudit.Attrs
import PegAudit.IndexRelation
import PegAudit.Terminal.Disjoint

namespace PegAudit

/-!
# Relations between expressions

Matching a node may begin by matching another one at the same position; the
node then calls the other.  A sequence calls its elements up to and including
the first that is not transparent.  Where the called node may also consume, it
may contribute the first character, which the relation `first` records; a
predicate contributes nothing, and a reference always contributes its rule.

Between terminals the relations say which can never, and which may, match at
the start of one input.
-/

/-- The elements up to and including the first that stops. -/
def upTo
    (stops : α → Bool) :
    List α →
    List α
  | [] =>
      []
  | element :: rest =>
      if stops element then
        [element]
      else
        element :: upTo stops rest

namespace AttrTable

/-- The elements of a sequence that may be reached without consuming. -/
def reachable
    (table : AttrTable) :
    List NodeId →
    List NodeId :=
  upTo fun id => !(table.of id).transparent

end AttrTable

namespace Shape

/-- The nodes that a match of the shape may begin with. -/
def callees
    (table : AttrTable) :
    Shape NodeId →
    List NodeId
  | .terminal _ => []
  | .reference _ rule => [rule]
  | .unary _ body => [body]
  | .group .choice parts => parts
  | .group .sequence parts => table.reachable parts
  | .remainingInput => []

/-- The nodes that may contribute the first character to a match. -/
def openers
    (table : AttrTable)
    (shape : Shape NodeId) :
    List NodeId :=
  match shape with
  | .reference _ rule => [rule]
  | .unary .andPredicate _ => []
  | .unary .notPredicate _ => []
  | _ => (shape.callees table).filter fun id => (table.of id).advances

end Shape

/-- Relations between all expressions and between all terminals of a layout. -/
structure Relations where
  /-- The first may call the second as its very next action. -/
  calls : IndexRelation
  /-- Transitive closure of `calls`. -/
  callsClosure : IndexRelation
  /-- The first may call the second as its very next action to consume input. -/
  first : IndexRelation
  /-- Reflexive and transitive closure of `first`. -/
  firstClosure : IndexRelation
  /-- No input starts with a match of both terminals. -/
  disjoint : IndexRelation
  nonDisjoint : IndexRelation
  deriving Repr, DecidableEq, Inhabited

namespace Layout

/-- Relate every expression to what `related` gives for its shape. -/
def relate
    (layout : Layout)
    (related : Shape NodeId → List NodeId) :
    IndexRelation :=
  IndexRelation.ofRows layout.exprCount fun id =>
    match layout.shape? id with
    | some shape => related shape
    | none => []

/-- The pairs of terminals that no input starts with both of. -/
def disjointTerminals
    (layout : Layout) :
    IndexRelation :=
  IndexRelation.ofRows layout.terminalCount fun left =>
    layout.terminalIds.filter fun right =>
      match layout.terminal? left, layout.terminal? right with
      | some leftItem, some rightItem => leftItem.disjoint rightItem
      | _, _ => false

/-- All relations of a layout, given the attributes of its nodes. -/
def relations
    (layout : Layout)
    (table : AttrTable) :
    Relations :=
  let calls := layout.relate (Shape.callees table)
  let first := layout.relate (Shape.openers table)
  let disjoint := layout.disjointTerminals
  { calls := calls
    callsClosure := calls.closure
    first := first
    firstClosure := first.star
    disjoint := disjoint
    nonDisjoint := disjoint.complement }

end Layout

namespace Relations

/-- The terminals among `terminalCount` that may begin a match of a node. -/
def firstTerms
    (relations : Relations)
    (terminalCount : Nat)
    (id : NodeId) :
    IndexSet :=
  IndexSet.ofList terminalCount
    ((relations.firstClosure.row id).toList.takeWhile
      (· < terminalCount))

end Relations

end PegAudit
