import PegAudit.Analysis.Checked
import PegAudit.Strand.Checked

namespace PegAudit

/-!
# Tails with checks

Showing a tail, refining its strands and reading off first terminals, step by
step.  Each is refused if a node is missing, a union is refused, or the rounds
of refinement do not end.
-/

/-- Terminals that may start what follows along a strand, element by element. -/
def Strand.gathered?
    (chart : Chart)
    (strand : Strand) :
    Option IndexSet :=
  chart.gather? chart.follow chart.noTerminals strand

/-- Rounds of refinement until no strand can be expanded. -/
def TracedStrand.refineRounds?
    (chart : Chart) :
    Nat →
    List TracedStrand →
    Option (List TracedStrand)
  | 0, _ =>
      none
  | fuel + 1, pending => do
      chart.layout.visit?
        ((pending.filter fun traced => traced.strand.hasTail).map
          fun traced => traced.strand.outer)
      if pending.any fun traced => traced.strand.expandable chart then
        refineRounds? chart fuel (pending.flatMap (refineOnce chart))
      else
        return pending

/-- The refinements of a strand, round by round. -/
def Strand.refined?
    (chart : Chart)
    (strand : Strand) :
    Option (List TracedStrand) :=
  TracedStrand.refineRounds? chart (chart.layout.nodes.size + 1)
    [.ofStrand strand]

namespace Chart

/-- The tail of a node as it is shown. -/
def tailLines?
    (chart : Chart)
    (id : NodeId) :
    Option String := do
  let lines ← (chart.tailOf id).mapM (Strand.text? chart)
  return "\n".intercalate lines

/-- The refinements of every strand in a node's tail. -/
def expandedTail?
    (chart : Chart)
    (id : NodeId) :
    Option (List TracedStrand) := do
  let refined ← (chart.tailOf id).mapM (Strand.refined? chart)
  return refined.flatten

/-- The refinements of a node's tail, the first of each that look alike. -/
def uniqueTail?
    (chart : Chart)
    (id : NodeId) :
    Option (List TracedStrand) := do
  let expanded ← chart.expandedTail? id
  let texts ←
    expanded.mapM fun traced => traced.strand.text? chart
  let unique :=
    firstOfEach (fun shown : TracedStrand × String => shown.2) []
      (expanded.zip texts)
  return unique.map Prod.fst

end Chart

end PegAudit
