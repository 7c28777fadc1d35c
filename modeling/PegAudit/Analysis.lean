import PegAudit.Conflict
import PegAudit.Diagnosis
import PegAudit.Layout.Build
import PegAudit.Strand.Refine

namespace PegAudit

/-!
# The analysis of a grammar

A grammar without defects is laid out, its attributes and relations are
computed, and faults are looked for.  Only a grammar without faults goes on to
first sets, tails and conflicts.  Options switch single results off and touch
nothing else.
-/

/-- Which optional results to compute. -/
structure Options where
  /-- Let a start rule that does not end the input be followed by anything. -/
  remainingInputTail : Bool := true
  styleNotes : Bool := true
  conflicts : Bool := true
  deriving Repr, DecidableEq, Inhabited

/-- Everything computed for one grammar. -/
structure Analysis where
  chart : Chart
  relations : Relations
  faults : List Fault
  notes : List Note
  conflicts : List Conflict
  deriving Repr, DecidableEq, Inhabited

namespace Layout

/-- The chart of a layout before the first terminals of tails are known. -/
def openChart
    (layout : Layout)
    (options : Options) :
    Chart :=
  let table := layout.attrs
  let chart :=
    ((Chart.ofAttrs layout table).fillFirst
      (layout.relations table)).fillTails
  if options.remainingInputTail then
    chart.withRemainder
  else
    chart

/-- The analysis of a layout. -/
def analyze
    (layout : Layout)
    (options : Options) :
    Analysis :=
  let table := layout.attrs
  let relations := layout.relations table
  let faults := layout.faults table relations
  if faults.isEmpty then
    let chart := (layout.openChart options).fillFollow
    { chart := chart
      relations := relations
      faults := []
      notes := if options.styleNotes then layout.notes table else []
      conflicts :=
        if options.conflicts then
          chart.conflicts relations
        else
          [] }
  else
    { chart := Chart.ofAttrs layout table
      relations := relations
      faults := faults
      notes := []
      conflicts := [] }

end Layout

namespace Grammar

/-- The analysis of a grammar, or its defects. -/
def analyze
    (grammar : Grammar)
    (options : Options) :
    Except (List Defect) Analysis :=
  match grammar.toLayout with
  | .ok layout => .ok (layout.analyze options)
  | .error defects => .error defects

end Grammar

namespace Analysis

/-- The nodes that were analyzed. -/
def layout
    (analysis : Analysis) :
    Layout :=
  analysis.chart.layout

/-- Is the grammar usable for a recursive-descent parser? -/
def wellFormed
    (analysis : Analysis) :
    Bool :=
  analysis.faults.isEmpty

/-- The lines of the report: faults, or notes and conflicts with their pairs. -/
def reportLines
    (analysis : Analysis) :
    List String :=
  analysis.faults.map Fault.message ++
    analysis.notes.map Note.message ++
    analysis.conflicts.flatMap fun conflict =>
      conflict.text analysis.layout ::
        conflict.pairs.map fun pair =>
          "  " ++ Conflict.pairText analysis.layout pair

/-- The report, one finding a line. -/
def report
    (analysis : Analysis) :
    String :=
  "\n".intercalate analysis.reportLines

end Analysis

end PegAudit
