import PegAudit.Relations

namespace PegAudit

/-!
# What may follow an expression

A strand is one way of reaching an expression from inside another: after the
called node succeeds, the elements after it run, and then, unless the input has
ended, whatever follows the calling node.  The tail of a node is the list of
its strands, one for each call site in the order of the calling nodes.

A chart keeps, for every node of a layout, its attributes, its first terminals,
its tail, and the terminals that may come first after it.
-/

/-- One way of reaching `called` from inside `outer`. -/
structure Strand where
  called : NodeId
  outer : NodeId
  /-- What runs after `called` succeeds. -/
  elements : List NodeId
  /-- Does the path go on with whatever follows `outer`? -/
  hasTail : Bool
  deriving Repr, DecidableEq, Inhabited

namespace Strand

/-- The strand of a call; it has a tail unless something on it ends the input. -/
def ofCall
    (table : AttrTable)
    (outer called : NodeId)
    (elements : List NodeId) :
    Strand :=
  { called := called
    outer := outer
    elements := elements
    hasTail :=
      !(table.of called).endsInput &&
        !elements.any fun element => (table.of element).endsInput }

end Strand

/-- Each element with the elements after it. -/
def withRest :
    List α →
    List (α × List α)
  | [] =>
      []
  | element :: rest =>
      (element, rest) :: withRest rest

/--
The nodes a shape with the given number calls, each with the elements that run
after it.  An iteration calls its body once with another round after it and
once without.
-/
def Shape.sites
    (id : NodeId) :
    Shape NodeId →
    List (NodeId × List NodeId)
  | .terminal _ =>
      []
  | .reference _ rule =>
      [(rule, [])]
  | .unary .oneOrMore body =>
      [(body, [id]), (body, [])]
  | .unary .zeroOrMore body =>
      [(body, [id]), (body, [])]
  | .unary _ body =>
      [(body, [])]
  | .group .choice parts =>
      parts.map fun part => (part, [])
  | .group .sequence parts =>
      withRest parts
  | .remainingInput =>
      []

namespace Layout

/-- The strands of one calling node; none for a node that ends the input. -/
def strandsFrom
    (layout : Layout)
    (table : AttrTable)
    (outer : NodeId) :
    List Strand :=
  match layout.shape? outer with
  | some shape =>
      ((shape.sites outer).filter fun site =>
        !(table.of site.1).endsInput).map fun site =>
          Strand.ofCall table outer site.1 site.2
  | none =>
      []

/-- The strands of all call sites, by calling node. -/
def strands
    (layout : Layout)
    (table : AttrTable) :
    List Strand :=
  layout.compoundIds.flatMap (layout.strandsFrom table)

end Layout

/-- What is known of every node. -/
structure Chart where
  layout : Layout
  attrs : AttrTable
  /-- The terminals that may begin a match of a node. -/
  first : Array IndexSet
  tails : Array (List Strand)
  /-- The terminals that may come first after a match of a node. -/
  follow : Array IndexSet
  deriving Repr, DecidableEq, Inhabited

namespace Chart

/-- The set of no terminals. -/
def noTerminals
    (chart : Chart) :
    IndexSet :=
  IndexSet.empty chart.layout.terminalCount

/-- The attributes of a node. -/
def attrsOf
    (chart : Chart)
    (id : NodeId) :
    Attrs :=
  chart.attrs.of id

/-- The terminals that may begin a match of a node. -/
def firstOf
    (chart : Chart)
    (id : NodeId) :
    IndexSet :=
  chart.first[id]?.getD chart.noTerminals

/-- The tail of a node. -/
def tailOf
    (chart : Chart)
    (id : NodeId) :
    List Strand :=
  chart.tails[id]?.getD []

/-- The terminals that may come first after a match of a node. -/
def followOf
    (chart : Chart)
    (id : NodeId) :
    IndexSet :=
  chart.follow[id]?.getD chart.noTerminals

/-- A chart of which only the attributes are known. -/
def ofAttrs
    (layout : Layout)
    (table : AttrTable) :
    Chart :=
  let nothing :=
    Array.replicate layout.nodes.size
      (IndexSet.empty layout.terminalCount)
  { layout := layout
    attrs := table
    first := nothing
    tails := Array.replicate layout.nodes.size []
    follow := nothing }

/-- Fill in the first terminals of every node. -/
def fillFirst
    (chart : Chart)
    (relations : Relations) :
    Chart :=
  { chart with
    first := Array.ofFn fun (id : Fin chart.layout.nodes.size) =>
      relations.firstTerms chart.layout.terminalCount id }

/-- Fill in the tail of every node. -/
def fillTails
    (chart : Chart) :
    Chart :=
  let strands := chart.layout.strands chart.attrs
  { chart with
    tails := Array.ofFn fun (id : Fin chart.layout.nodes.size) =>
      strands.filter fun strand => strand.called == id.val }

/--
Let a start rule that does not end the input be followed by anything: a node
for the remaining input is added, and a strand to it at the end of the start
rule's tail.
-/
def withRemainder
    (chart : Chart) :
    Chart :=
  let start := chart.layout.start
  if (chart.attrsOf start).endsInput then
    chart
  else
    let remainder := chart.layout.nodes.size
    let table := chart.attrs.push Attrs.all
    let strand := Strand.ofCall table start start [remainder]
    { layout := chart.layout.withRemainder
      attrs := table
      first := chart.first.push chart.noTerminals
      tails := (chart.tails.modify start (· ++ [strand])).push []
      follow := chart.follow.push chart.noTerminals }

end Chart

end PegAudit
