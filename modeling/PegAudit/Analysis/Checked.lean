import PegAudit.Analysis
import PegAudit.Diagnosis.Checked
import PegAudit.Layout.Checked

namespace PegAudit

/-!
# The analysis with checks

The stages of an analysis one after the other, each refused if it looks at a
missing node, needs a bit or a row that is not there, unites a set with one of
fewer words, takes the last part of a group without parts, or does not end.
-/

namespace Chart

/-- Fill in the first terminals of every expression. -/
def fillFirst?
    (chart : Chart)
    (relations : Relations) :
    Option Chart := do
  let first ←
    sweep?
      (fun _ id _ => relations.firstTerms? chart.layout.terminalCount id)
      chart.layout.ids chart.first
  return { chart with first := first }

/-- Append a strand to the tail of the node it calls. -/
def pushStrand?
    (tails : Array (List Strand))
    (strand : Strand) :
    Option (Array (List Strand)) :=
  if strand.called < tails.size then
    some (tails.modify strand.called (· ++ [strand]))
  else
    none

/-- The nodes that finding the strands of a calling node looks at. -/
def strandNodes
    (chart : Chart)
    (outer : NodeId) :
    List NodeId :=
  outer ::
    ((chart.layout.shape? outer).elim [] (Shape.sites outer)).flatMap
      fun site => site.1 :: site.2

/-- Append the strand of each call site to the tail of the called node. -/
def fillTails?
    (chart : Chart) :
    Option Chart := do
  chart.layout.visit?
    (chart.layout.compoundIds.flatMap chart.strandNodes)
  let tails ←
    (chart.layout.strands chart.attrs).foldlM pushStrand? chart.tails
  return { chart with tails := tails }

/-- Let a start rule that does not end the input be followed by anything. -/
def withRemainder?
    (chart : Chart) :
    Option Chart := do
  let start ← chart.layout.rules.head?
  chart.layout.visit? [start]
  if (chart.attrsOf start).endsInput then
    return chart
  else
    let remainder := chart.layout.nodes.size
    let layout := chart.layout.withRemainder
    let table := chart.attrs.push Attrs.all
    layout.visit? [start, remainder]
    let tails ←
      pushStrand? (chart.tails.push [])
        (Strand.ofCall table start start [remainder])
    return {
      layout := layout
      attrs := table
      first := chart.first.push chart.noTerminals
      tails := tails
      follow := chart.follow.push chart.noTerminals }

/--
Add the first terminals of consecutive elements up to the first that is not
transparent; also whether there was none.
-/
def gatherElements?
    (chart : Chart)
    (terms : IndexSet) :
    List NodeId →
    Option (IndexSet × Bool)
  | [] =>
      some (terms, true)
  | element :: rest => do
      chart.layout.visit? [element]
      let grown ← terms.union? (chart.firstOf element)
      if (chart.attrsOf element).transparent then
        gatherElements? chart grown rest
      else
        return (grown, false)

/-- Add the first terminals along a strand, given a follow table. -/
def gather?
    (chart : Chart)
    (follow : Array IndexSet)
    (terms : IndexSet)
    (strand : Strand) :
    Option IndexSet := do
  let (grown, passes) ← chart.gatherElements? terms strand.elements
  if passes && strand.hasTail then
    chart.layout.visit? [strand.outer]
    grown.union? (follow[strand.outer]?.getD chart.noTerminals)
  else
    return grown

/-- Add the first terminals of a node's tail to those already found. -/
def updateFollow?
    (chart : Chart)
    (follow : Array IndexSet)
    (id : NodeId)
    (current : IndexSet) :
    Option IndexSet := do
  chart.layout.visit? [id]
  let terms ←
    (chart.tailOf id).foldlM (chart.gather? follow) chart.noTerminals
  current.union? terms

/-- Fill in the first terminals of every tail. -/
def fillFollow?
    (chart : Chart) :
    Option Chart := do
  let settled ←
    settle? (sweep? chart.updateFollow? chart.layout.ids)
      (chart.layout.exprCount * chart.layout.terminalCount + 1)
      chart.follow
  return { chart with follow := settled.state }

/-- The terminals that lead to the second way of a decision. -/
def secondTerms?
    (chart : Chart)
    (decision : Decision) :
    Option IndexSet :=
  match decision.second with
  | some second =>
      if (chart.attrsOf second).transparent then
        (chart.firstOf second).union? (chart.followOf decision.owner)
      else
        some (chart.firstOf second)
  | none =>
      some (chart.followOf decision.owner)

/-- The conflict of a decision, if some pair collides. -/
def examine?
    (chart : Chart)
    (relations : Relations)
    (decision : Decision) :
    Option (Option Conflict) := do
  chart.layout.visit?
    (decision.owner :: decision.first :: decision.second.toList)
  let second ← chart.secondTerms? decision
  let both ←
    IndexRelation.product? (chart.firstOf decision.first) second
      chart.layout.terminalCount
  match (both.intersect relations.nonDisjoint).pairs with
  | [] =>
      return none
  | pairs =>
      return some
        { first := decision.first
          second := decision.second
          owner := decision.owner
          pairs := pairs }

/-- The conflicts of all decisions, ordered by the name of the deciding node. -/
def conflicts?
    (chart : Chart)
    (relations : Relations) :
    Option (List Conflict) := do
  chart.layout.visit? chart.layout.compoundIds
  let examined ← chart.decisions.mapM (chart.examine? relations)
  let found := examined.filterMap id
  chart.layout.visit? (found.map Conflict.owner)
  return found.mergeSort fun left right =>
    !decide
      (chart.layout.name right.owner < chart.layout.name left.owner)

end Chart

namespace Layout

/-- The chart of a layout before the first terminals of tails are known. -/
def openChart?
    (layout : Layout)
    (table : AttrTable)
    (relations : Relations)
    (options : Options) :
    Option Chart := do
  let withFirst ← (Chart.ofAttrs layout table).fillFirst? relations
  let withTails ← withFirst.fillTails?
  if options.remainingInputTail then
    withTails.withRemainder?
  else
    return withTails

/-- The analysis of a layout. -/
def analyze?
    (layout : Layout)
    (options : Options) :
    Option Analysis := do
  let settled ← layout.settleAttrs?
  let table := settled.state
  let relations ← layout.relations? table
  let faults ← layout.faults? table relations
  if faults.isEmpty then
    let notes ←
      if options.styleNotes then layout.notes? table else some []
    let opened ← layout.openChart? table relations options
    let chart ← opened.fillFollow?
    let conflicts ←
      if options.conflicts then chart.conflicts? relations else some []
    return {
      chart := chart
      relations := relations
      faults := []
      notes := notes
      conflicts := conflicts }
  else
    return {
      chart := Chart.ofAttrs layout table
      relations := relations
      faults := faults
      notes := []
      conflicts := [] }

end Layout

/-- The analysis of a grammar, or its defects. -/
def Grammar.analyze?
    (grammar : Grammar)
    (options : Options) :
    Option (Except (List Defect) Analysis) := do
  match ← grammar.toLayout? with
  | .ok layout =>
      let analysis ← layout.analyze? options
      return .ok analysis
  | .error defects =>
      return .error defects

/-- The lines of a conflict, refused if a node of it is missing. -/
def Conflict.lines?
    (layout : Layout)
    (conflict : Conflict) :
    Option (List String) :=
  if conflict.placed layout then
    some (conflict.text layout ::
      conflict.pairs.map fun pair =>
        "  " ++ Conflict.pairText layout pair)
  else
    none

/-- The report, one finding a line. -/
def Analysis.report?
    (analysis : Analysis) :
    Option String := do
  let shown ← analysis.conflicts.mapM (Conflict.lines? analysis.layout)
  return "\n".intercalate
    (analysis.faults.map Fault.message ++
      analysis.notes.map Note.message ++ shown.flatten)

end PegAudit
