import PegAudit.Expr.Source
import PegAudit.Grammar.Defect

namespace PegAudit

/-!
# Numbered nodes

A layout is a grammar whose expressions have become nodes with consecutive
numbers.  Terminals come first, `0, …, T - 1`, then all other expressions up to
`N - 1`; within each of the two blocks the numbers follow the rules in
declaration order and each body from the outside in and from left to right.
References are resolved to the top node of the rule they name.

A layout can be extended by one node numbered `N`, which stands for the input
that a start rule leaves over.  It belongs to no rule body, so it is outside
the counted range.
-/

/-- The number of a node. -/
abbrev NodeId :=
  Nat

/-- One level of an expression, its direct parts being of type `ι`. -/
inductive Shape (ι : Type) where
  | terminal (item : Terminal)
  | reference (target : String) (rule : ι)
  | unary (operator : Operator) (body : ι)
  | group (grouping : Grouping) (parts : List ι)
  | remainingInput
  deriving Repr, DecidableEq, Inhabited

namespace Shape

/-- Does the shape look at characters directly? -/
def isTerminal :
    Shape ι →
    Bool
  | .terminal _ => true
  | .reference _ _ => false
  | .unary _ _ => false
  | .group _ _ => false
  | .remainingInput => true

/-- The parts a shape owns.  A reference does not own its rule. -/
def children :
    Shape ι →
    List ι
  | .terminal _ => []
  | .reference _ _ => []
  | .unary _ body => [body]
  | .group _ parts => parts
  | .remainingInput => []

/-- The nodes a shape mentions: its parts, or the rule of a reference. -/
def mentioned :
    Shape ι →
    List ι
  | .terminal _ => []
  | .reference _ rule => [rule]
  | .unary _ body => [body]
  | .group _ parts => parts
  | .remainingInput => []

end Shape

/-- One numbered expression. -/
structure Node where
  shape : Shape NodeId
  /-- The rule name, or a path such as `Rule.2.1` below it. -/
  name : String
  isRule : Bool
  /-- The top node of the enclosing rule. -/
  rule : NodeId
  source : String
  deriving Repr, DecidableEq, Inhabited

namespace Node

/-- The name of a rule, and the source text of anything else. -/
def simple
    (node : Node) :
    String :=
  if node.isRule then
    node.name
  else
    node.source

/-- Name and source text, as a rule is written. -/
def named
    (node : Node) :
    String :=
  node.name ++ " = " ++ node.source

end Node

/-- The nodes of a grammar by number. -/
structure Layout where
  nodes : Array Node
  terminalCount : Nat
  /-- The number of expressions; later nodes belong to no rule. -/
  exprCount : Nat
  /-- The top node of each rule, in declaration order. -/
  rules : List NodeId
  /-- The rules after the first that nothing refers to. -/
  unused : List String
  deriving Repr, DecidableEq, Inhabited

namespace Layout

/-- The node with a number, if there is one. -/
def node?
    (layout : Layout)
    (id : NodeId) :
    Option Node :=
  layout.nodes[id]?

/-- Is there a node with this number? -/
def has
    (layout : Layout)
    (id : NodeId) :
    Bool :=
  id < layout.nodes.size

/-- The numbers of all expressions. -/
def ids
    (layout : Layout) :
    List NodeId :=
  List.range layout.exprCount

/-- The numbers of the terminals. -/
def terminalIds
    (layout : Layout) :
    List NodeId :=
  List.range layout.terminalCount

/-- The numbers of all expressions that are not terminals. -/
def compoundIds
    (layout : Layout) :
    List NodeId :=
  List.range' layout.terminalCount
    (layout.exprCount - layout.terminalCount)

/-- The top node of the first rule. -/
def start
    (layout : Layout) :
    NodeId :=
  layout.rules.headD 0

/-- The first expression with a name. -/
def find?
    (layout : Layout)
    (name : String) :
    Option NodeId :=
  layout.ids.find? fun id =>
    (layout.node? id).any (·.name == name)

/-- The shape of a node; a number without a node has none. -/
def shape?
    (layout : Layout)
    (id : NodeId) :
    Option (Shape NodeId) :=
  (layout.node? id).map Node.shape

/-- The name of a node. -/
def name
    (layout : Layout)
    (id : NodeId) :
    String :=
  (layout.node? id).elim "" Node.name

/-- The source text of a node. -/
def source
    (layout : Layout)
    (id : NodeId) :
    String :=
  (layout.node? id).elim "" Node.source

/-- The name of a rule node, and the source text of any other. -/
def simple
    (layout : Layout)
    (id : NodeId) :
    String :=
  (layout.node? id).elim "" Node.simple

/-- Is this the top node of a rule? -/
def isRule
    (layout : Layout)
    (id : NodeId) :
    Bool :=
  (layout.node? id).any Node.isRule

/-- The terminal at a node, if it is one that is written in a rule. -/
def terminal?
    (layout : Layout)
    (id : NodeId) :
    Option Terminal :=
  match layout.shape? id with
  | some (.terminal item) => some item
  | _ => none

/-- The node that stands for the input a start rule leaves over. -/
def remainderNode
    (layout : Layout) :
    Node :=
  { shape := .remainingInput
    name := "Any string"
    isRule := false
    rule := layout.start
    source := "_*" }

/-- Append the node for the input that a start rule leaves over. -/
def withRemainder
    (layout : Layout) :
    Layout :=
  { layout with nodes := layout.nodes.push layout.remainderNode }

/-- The added node leaves all earlier ones in place. -/
theorem node?_withRemainder_of_lt
    (layout : Layout)
    {id : NodeId}
    (present : id < layout.nodes.size) :
    layout.withRemainder.node? id = layout.node? id := by
  have notLast : id ≠ layout.nodes.size :=
    Nat.ne_of_lt present
  simp [node?, withRemainder, Array.getElem?_push, notLast]

end Layout

end PegAudit
