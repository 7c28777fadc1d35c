import PegAudit.Chart

namespace PegAudit

/-!
# First terminals of tails

Along a strand the input after the called node may start in any element that
only transparent ones precede, and, when all are transparent and the strand has
a tail, in whatever follows the calling node.  Taken over all tails this is a
system of equations between the nodes; its least solution is reached by sweeps
from the empty sets.
-/

namespace Strand

/-- The elements in which the input after the called node may start. -/
def opening
    (table : AttrTable)
    (strand : Strand) :
    List NodeId :=
  table.reachable strand.elements

/-- May all elements be passed without consuming, into the tail of `outer`? -/
def passesThrough
    (table : AttrTable)
    (strand : Strand) :
    Bool :=
  strand.hasTail &&
    strand.elements.all fun element => (table.of element).transparent

/-- Terminals that may start what follows along a strand, given a follow table. -/
def firstTermsIn
    (chart : Chart)
    (follow : Array IndexSet)
    (strand : Strand) :
    IndexSet :=
  let own :=
    ((strand.opening chart.attrs).map chart.firstOf).foldl
      IndexSet.union chart.noTerminals
  if strand.passesThrough chart.attrs then
    own.union (follow[strand.outer]?.getD chart.noTerminals)
  else
    own

/-- Terminals that may start what follows along a strand. -/
def firstTerms
    (chart : Chart)
    (strand : Strand) :
    IndexSet :=
  strand.firstTermsIn chart chart.follow

end Strand

namespace Chart

/-- Add the first terminals of a node's tail to those already found. -/
def updateFollow
    (chart : Chart)
    (follow : Array IndexSet)
    (id : NodeId)
    (current : IndexSet) :
    IndexSet :=
  ((chart.tailOf id).map (Strand.firstTermsIn chart follow)).foldl
    IndexSet.union current

/-- One sweep over all expressions in the order of their numbers. -/
def sweepFollow
    (chart : Chart) :
    Array IndexSet →
    Array IndexSet :=
  sweep chart.updateFollow chart.layout.ids

/-- Sweep until nothing changes. -/
def settleFollow
    (chart : Chart) :
    Settled (Array IndexSet) :=
  settle chart.sweepFollow
    (chart.layout.exprCount * chart.layout.terminalCount + 1)
    chart.follow

/-- Fill in the first terminals of every tail. -/
def fillFollow
    (chart : Chart) :
    Chart :=
  { chart with follow := chart.settleFollow.state }

end Chart

end PegAudit
