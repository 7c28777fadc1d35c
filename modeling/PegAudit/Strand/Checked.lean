import PegAudit.Strand.Refine

namespace PegAudit

/-!
# Strands made by hand

A strand that did not come out of a chart may mention numbers without a node.
The operations below look at the same nodes as their unchecked counterparts and
refuse when one of those nodes is missing.  An element behind one that ends the
walk is not looked at, so it may be missing.
-/

namespace Strand

/-- The nodes that showing a strand looks at. -/
def shownNodes
    (chart : Chart)
    (strand : Strand) :
    List NodeId :=
  if (chart.attrsOf strand.called).endsInput then
    [strand.called]
  else if strand.ends chart then
    strand.called :: strand.shown chart
  else
    strand.called :: strand.shown chart ++ [strand.outer]

/-- A strand as it is shown, refused if a node is missing. -/
def text?
    (chart : Chart)
    (strand : Strand) :
    Option String :=
  if (strand.shownNodes chart).all chart.layout.has then
    some (strand.text chart)
  else
    none

/-- The nodes that the first terminals along a strand are read from. -/
def openingNodes
    (chart : Chart)
    (strand : Strand) :
    List NodeId :=
  if strand.passesThrough chart.attrs then
    strand.opening chart.attrs ++ [strand.outer]
  else
    strand.opening chart.attrs

/-- Terminals that may start what follows, refused if a node is missing. -/
def firstTerms?
    (chart : Chart)
    (strand : Strand) :
    Option IndexSet :=
  if (strand.openingNodes chart).all chart.layout.has then
    some (strand.firstTerms chart)
  else
    none

/-- The expansions of a strand, refused if the calling node is missing. -/
def expand?
    (chart : Chart)
    (strand : Strand) :
    Option (List Strand) :=
  if chart.layout.has strand.outer then
    some (strand.expand chart)
  else
    none

/-- The refinements of a strand, refused if it has a tail and no calling node. -/
def refine?
    (chart : Chart)
    (strand : Strand) :
    Option (List TracedStrand) :=
  if strand.hasTail && !chart.layout.has strand.outer then
    none
  else
    some (strand.refine chart)

end Strand

end PegAudit
