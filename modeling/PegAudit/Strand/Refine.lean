import PegAudit.Strand.Text

namespace PegAudit

/-!
# Refining strands

A strand with a tail can be expanded: the tail of its calling node is replaced
by each strand of that tail.  Refinement expands in rounds until every strand
has no tail or goes on with the tail of a rule.  Every strand that comes out of
an expansion remembers the strands it came from.
-/

/-- A strand with the strands it was expanded from, the latest first. -/
structure TracedStrand where
  strand : Strand
  origins : List Strand
  deriving Repr, DecidableEq, Inhabited

namespace TracedStrand

/-- A strand that was not expanded from another. -/
def ofStrand
    (strand : Strand) :
    TracedStrand :=
  { strand := strand, origins := [] }

/-- The strand followed by the strands it was expanded from. -/
def lineage
    (traced : TracedStrand) :
    List Strand :=
  traced.strand :: traced.origins

end TracedStrand

namespace Strand

/-- Replace the tail of the calling node by one of its strands. -/
def continueWith
    (strand next : Strand) :
    Strand :=
  { called := strand.called
    outer := next.outer
    elements := strand.elements ++ next.elements
    hasTail := next.hasTail }

/-- The strand without its tail. -/
def closed
    (strand : Strand) :
    Strand :=
  { strand with hasTail := false }

/-- Replace the tail of the calling node by each of its strands. -/
def expand
    (chart : Chart)
    (strand : Strand) :
    List Strand :=
  let tail := chart.tailOf strand.outer
  if !strand.hasTail || tail.isEmpty then
    [strand.closed]
  else
    tail.map strand.continueWith

/-- Does the strand go on with the tail of something other than a rule? -/
def expandable
    (chart : Chart)
    (strand : Strand) :
    Bool :=
  strand.hasTail && !chart.layout.isRule strand.outer

end Strand

namespace TracedStrand

/-- The expansions of a strand, each remembering it. -/
def expand
    (chart : Chart)
    (traced : TracedStrand) :
    List TracedStrand :=
  (traced.strand.expand chart).map fun strand =>
    { strand := strand, origins := traced.lineage }

/-- One round of refinement of one strand. -/
def refineOnce
    (chart : Chart)
    (traced : TracedStrand) :
    List TracedStrand :=
  if traced.strand.expandable chart then
    traced.expand chart
  else
    [traced]

/-- Rounds of refinement until no strand can be expanded. -/
def refineRounds
    (chart : Chart) :
    Nat →
    List TracedStrand →
    List TracedStrand
  | 0, pending =>
      pending
  | fuel + 1, pending =>
      if pending.any fun traced => traced.strand.expandable chart then
        refineRounds chart fuel (pending.flatMap (refineOnce chart))
      else
        pending

end TracedStrand

namespace Strand

/--
Expand until every strand ends the input or goes on with the tail of a rule.
Each round moves to the node that owns the last one, so there are at most as
many rounds as nodes, and one more.
-/
def refine
    (chart : Chart)
    (strand : Strand) :
    List TracedStrand :=
  TracedStrand.refineRounds chart (chart.layout.nodes.size + 1)
    [.ofStrand strand]

end Strand

/-- The elements whose key did not occur before, in order. -/
def firstOfEach
    [DecidableEq κ]
    (key : α → κ)
    (seen : List κ) :
    List α →
    List α
  | [] =>
      []
  | element :: rest =>
      if seen.contains (key element) then
        firstOfEach key seen rest
      else
        element :: firstOfEach key (key element :: seen) rest

namespace Chart

/-- The refinements of every strand in a node's tail. -/
def expandedTail
    (chart : Chart)
    (id : NodeId) :
    List TracedStrand :=
  (chart.tailOf id).flatMap (Strand.refine chart)

/-- The refinements of a node's tail, the first of each that look alike. -/
def uniqueTail
    (chart : Chart)
    (id : NodeId) :
    List TracedStrand :=
  firstOfEach (fun traced => traced.strand.text chart) []
    (chart.expandedTail id)

end Chart

end PegAudit
