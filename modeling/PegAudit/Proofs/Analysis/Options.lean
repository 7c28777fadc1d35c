import PegAudit.Proofs.Checked.Analysis
import PegAudit.Proofs.Follow.Remainder

namespace PegAudit

/-!
# What options change

Style notes and conflicts are looked for behind everything else, so switching
them off changes only their own lists.  Room for the remaining input is made
before the sweeps for the first terminals of tails.  As these run in step with
and without it, it is seen only in the added node and in the last strand of the
start rule's tail.
-/

/-- Orders that agree on the elements sort them alike. -/
theorem mergeSort_congr
    {order other : α → α → Bool}
    {elements : List α}
    (agree :
      ∀ left ∈ elements,
        ∀ right ∈ elements, other left right = order left right) :
    elements.mergeSort other = elements.mergeSort order := by
  simpa using List.map_mergeSort (f := id) agree

namespace Chart.Agrees

variable
  {chart other : Chart}
  {relations : Relations}

/-- Charts that agree have the same decisions. -/
theorem decisions_eq
    (agrees : chart.Agrees other) :
    other.decisions = chart.decisions := by
  have sameIds : other.layout.compoundIds = chart.layout.compoundIds := by
    rw [Layout.compoundIds, Layout.compoundIds, agrees.terminalCount_eq,
      agrees.exprCount_eq]
  rw [decisions, decisions, sameIds]
  apply List.flatMap_congr
  intro id compound
  have counted : id < chart.layout.exprCount := by
    rw [Layout.compoundIds, List.mem_range'_1] at compound
    lia
  rw [Layout.shape?, Layout.shape?, agrees.node?_eq id counted]

/-- The same terminals lead to the second way of a decision between expressions. -/
theorem secondTerms_eq
    (agrees : chart.Agrees other)
    {decision : Decision}
    (counted : ∀ id ∈ decision.nodes, id < chart.layout.exprCount) :
    other.secondTerms decision = chart.secondTerms decision := by
  have ownerCounted : decision.owner < chart.layout.exprCount :=
    counted _ (by simp [Decision.nodes])
  unfold secondTerms
  cases isSecond : decision.second with
  | none =>
      exact agrees.followOf_eq _ ownerCounted
  | some second =>
      have secondCounted : second < chart.layout.exprCount :=
        counted _ (by simp [Decision.nodes, isSecond])
      simp only [agrees.attrsOf_eq _ secondCounted,
        agrees.firstOf_eq _ secondCounted,
        agrees.followOf_eq _ ownerCounted]

/-- A decision between expressions is the same conflict or none. -/
theorem conflict?_eq
    (agrees : chart.Agrees other)
    {decision : Decision}
    (counted : ∀ id ∈ decision.nodes, id < chart.layout.exprCount) :
    other.conflict? relations decision =
      chart.conflict? relations decision := by
  have firstCounted : decision.first < chart.layout.exprCount :=
    counted _ (by simp [Decision.nodes])
  have samePairs :
      other.collisions relations decision =
        chart.collisions relations decision := by
    rw [collisions, collisions, agrees.firstOf_eq _ firstCounted,
      agrees.secondTerms_eq counted]
  rw [conflict?, conflict?, samePairs]

/-- Charts that agree have the same conflicts, in the same order. -/
theorem conflicts_eq
    (agrees : chart.Agrees other)
    (counted :
      ∀ decision ∈ chart.decisions,
        ∀ id ∈ decision.nodes, id < chart.layout.exprCount) :
    other.conflicts relations = chart.conflicts relations := by
  have sameFound :
      other.foundConflicts relations = chart.foundConflicts relations := by
    rw [foundConflicts, foundConflicts, agrees.decisions_eq]
    apply List.filterMap_congr
    intro decision decides
    exact agrees.conflict?_eq (counted decision decides)
  have sameName :
      ∀ conflict ∈ chart.foundConflicts relations,
        other.layout.name conflict.owner =
          chart.layout.name conflict.owner := by
    intro conflict found
    obtain ⟨decision, decides, isConflict⟩ := List.mem_filterMap.mp found
    have ownerCounted :=
      counted decision decides decision.owner List.mem_cons_self
    rw [eq_of_conflict?_eq_some isConflict, Layout.name, Layout.name,
      agrees.node?_eq _ ownerCounted]
  rw [conflicts, conflicts, sameFound]
  apply mergeSort_congr
  intro left isLeft right isRight
  rw [sameName left isLeft, sameName right isRight]

end Chart.Agrees

/-- Everything but room for the remaining input. -/
def Options.withoutRemainder : Options :=
  { remainingInputTail := false }

namespace Layout

/-- The chart of a layout without room for the remaining input. -/
def plainChart
    (layout : Layout) :
    Chart :=
  layout.openChart .withoutRemainder

/-- Room for the remaining input is made in the plain chart if it is asked for. -/
theorem openChart_eq
    (layout : Layout)
    (options : Options) :
    layout.openChart options =
      if options.remainingInputTail then
        layout.plainChart.withRemainder
      else
        layout.plainChart :=
  rfl

namespace WellNumbered

variable {layout : Layout}

/-- The plain chart is filled for all expressions. -/
theorem filled_plainChart
    (wellNumbered : layout.WellNumbered) :
    layout.plainChart.Filled where
  nodes_size := wellNumbered.size_nodes
  attrs_size := layout.size_attrs.trans wellNumbered.size_nodes
  first_size := Array.size_ofFn.trans wellNumbered.size_nodes
  tails_size := Array.size_ofFn.trans wellNumbered.size_nodes
  follow_size := Array.size_replicate.trans wellNumbered.size_nodes
  start_lt := wellNumbered.start_lt
  strands_lt := by
    intro id strand inTail
    have within :=
      (wellNumbered.furnished_openChart _).within_tailOf inTail
    have sized : layout.plainChart.layout.nodes.size = layout.exprCount :=
      wellNumbered.size_nodes
    exact
      ⟨sized ▸ within.outer_lt,
        fun element member => sized ▸ within.elements_lt element member⟩

end WellNumbered

end Layout

namespace Analysis

/-- Is the remaining input left to whatever may follow the start rule? -/
def leavesInput
    (analysis : Analysis) :
    Bool :=
  analysis.wellFormed &&
    !(analysis.chart.attrsOf analysis.layout.start).endsInput

/-- Analyses of one grammar with two options differ only where the options do. -/
structure VariesWith
    (analysis other : Analysis)
    (options others : Options) :
    Prop where
  relations_eq :
    other.relations = analysis.relations
  faults_eq :
    other.faults = analysis.faults
  notes_eq :
    others.styleNotes = options.styleNotes →
    other.notes = analysis.notes
  /-- Conflicts do not depend on room for the remaining input. -/
  conflicts_eq :
    others.conflicts = options.conflicts →
    other.conflicts = analysis.conflicts
  chart_eq :
    others.remainingInputTail = options.remainingInputTail →
    other.chart = analysis.chart
  agrees :
    analysis.chart.Agrees other.chart
  chart_eq_withRemainder :
    options.remainingInputTail = false →
    others.remainingInputTail = true →
    other.chart =
      if analysis.wellFormed then
        analysis.chart.withRemainder
      else
        analysis.chart
  /-- Asking for room adds one node behind the expressions. -/
  nodes_eq :
    options.remainingInputTail = false →
    others.remainingInputTail = true →
    other.layout.nodes =
      if analysis.leavesInput then
        analysis.layout.nodes.push analysis.layout.remainderNode
      else
        analysis.layout.nodes
  /-- Asking for room adds one strand, behind those of the start. -/
  tailOf_start :
    options.remainingInputTail = false →
    others.remainingInputTail = true →
    other.chart.tailOf analysis.layout.start =
      analysis.chart.tailOf analysis.layout.start ++
        if analysis.leavesInput then
          [.toRemainder analysis.layout.start analysis.layout.exprCount]
        else
          []

end Analysis

namespace Layout

variable {layout : Layout}

/-- An analysis with faults has nothing else but the attributes and the relations. -/
theorem analyze_eq_of_faults_ne_nil
    {options : Options}
    (hasFaults :
      layout.faults layout.attrs (layout.relations layout.attrs) ≠ []) :
    layout.analyze options =
      { chart := Chart.ofAttrs layout layout.attrs
        relations := layout.relations layout.attrs
        faults := layout.faults layout.attrs (layout.relations layout.attrs)
        notes := []
        conflicts := [] } := by
  simp [analyze, hasFaults]

namespace WellNumbered

variable (wellNumbered : layout.WellNumbered)

include wellNumbered

/-- Room for the remaining input is made behind the sweeps, if it is asked for. -/
theorem fillFollow_openChart
    (options : Options) :
    (layout.openChart options).fillFollow =
      if options.remainingInputTail then
        layout.plainChart.fillFollow.withRemainder
      else
        layout.plainChart.fillFollow := by
  rw [openChart_eq]
  split
  · exact wellNumbered.filled_plainChart.fillFollow_withRemainder
  · rfl

/-- Whether room is asked for or not, expressions have the same in the chart. -/
theorem agrees_openChart
    (options others : Options) :
    (layout.openChart options).fillFollow.Agrees
      (layout.openChart others).fillFollow := by
  have room :=
    wellNumbered.filled_plainChart.fillFollow.agrees_withRemainder
  rw [wellNumbered.fillFollow_openChart options,
    wellNumbered.fillFollow_openChart others]
  split
  · split
    · exact .refl _
    · exact room.symm
  · split
    · exact room
    · exact .refl _

/-- Decisions are between expressions. -/
theorem lt_of_mem_decisions
    {options : Options}
    {decision : Decision}
    (decides : decision ∈ (layout.openChart options).decisions)
    {id : NodeId}
    (isNode : id ∈ decision.nodes) :
    id < layout.exprCount := by
  have inPlain : decision ∈ layout.plainChart.decisions := by
    rw [plainChart, wellNumbered.decisions_openChart]
    rwa [wellNumbered.decisions_openChart] at decides
  have inside := wellNumbered.nodes_lt_of_mem_decisions _ inPlain isNode
  exact Nat.lt_of_lt_of_eq inside wellNumbered.size_nodes

/-- Whether room is asked for or not, there are the same conflicts. -/
theorem conflicts_openChart_eq
    (options others : Options)
    (relations : Relations) :
    (layout.openChart others).fillFollow.conflicts relations =
      (layout.openChart options).fillFollow.conflicts relations := by
  apply (wellNumbered.agrees_openChart options others).conflicts_eq
  intro decision decides id isNode
  rw [Chart.layout_fillFollow,
    (wellNumbered.describes_openChart options).exprCount_eq]
  exact wellNumbered.lt_of_mem_decisions decides isNode

/-- Analyses of one layout differ only where the options do. -/
theorem variesWith
    (options others : Options) :
    (layout.analyze options).VariesWith (layout.analyze others) options
      others := by
  by_cases faults :
      layout.faults layout.attrs (layout.relations layout.attrs) = []
  · rw [analyze_eq_of_faults_eq_nil faults, analyze_eq_of_faults_eq_nil faults]
    have filled := wellNumbered.filled_plainChart.fillFollow
    have conflicts :=
      wellNumbered.conflicts_openChart_eq options others
        (layout.relations layout.attrs)
    exact
      { relations_eq := rfl
        faults_eq := rfl
        notes_eq := fun same => by rw [same]
        conflicts_eq := fun same => by simp only [same, conflicts]
        chart_eq := fun same => by
          rw [openChart_eq, same, ← openChart_eq]
        agrees := wellNumbered.agrees_openChart options others
        chart_eq_withRemainder := fun without wanted => by
          simp [Analysis.wellFormed, wellNumbered.fillFollow_openChart,
            without, wanted]
        nodes_eq := fun without wanted => by
          simp only [Analysis.layout, Analysis.leavesInput,
            Analysis.wellFormed, wellNumbered.fillFollow_openChart, without,
            wanted, if_true, Chart.nodes_withRemainder]
          rfl
        tailOf_start := fun without wanted => by
          simp [Analysis.layout, Analysis.leavesInput, Analysis.wellFormed,
            wellNumbered.fillFollow_openChart, without, wanted,
            filled.tailOf_withRemainder] }
  · rw [analyze_eq_of_faults_ne_nil faults, analyze_eq_of_faults_ne_nil faults]
    exact
      { relations_eq := rfl
        faults_eq := rfl
        notes_eq := fun _ => rfl
        conflicts_eq := fun _ => rfl
        chart_eq := fun _ => rfl
        agrees := .refl _
        chart_eq_withRemainder := fun _ _ => by
          simp [Analysis.wellFormed, faults]
        nodes_eq := fun _ _ => by
          simp [Analysis.leavesInput, Analysis.wellFormed, faults]
        tailOf_start := fun _ _ => by
          simp [Analysis.leavesInput, Analysis.wellFormed, faults] }

end WellNumbered

end Layout

namespace Grammar

/--
A grammar that is analyzed with some options is analyzed with any others, and
what does not belong to an option that changed stays as it is.  Conflicts are
the same with and without room for the remaining input, and so is everything
else but the added node and the last strand of the start.
-/
theorem analyze_varies
    {grammar : Grammar}
    {options : Options}
    {analysis : Analysis}
    (analyzed : grammar.analyze options = .ok analysis)
    (others : Options) :
    ∃ other,
      grammar.analyze others = .ok other ∧
        analysis.VariesWith other options others := by
  obtain ⟨clean, rfl⟩ := analyze_eq_ok_iff.mp analyzed
  exact
    ⟨grammar.layOut.analyze others,
      analyze_eq_ok_iff.mpr ⟨clean, rfl⟩,
      (wellNumbered_layOut clean).variesWith options others⟩

/-- Room for what brackets leave over is the eighth node, at the end of the start's tail. -/
theorem analyze_varies_brackets :
    brackets.analyze .withoutRemainder =
        .ok (brackets.layOut.analyze .withoutRemainder) ∧
      ∃ other,
        brackets.analyze {} = .ok other ∧
          other.layout.nodes.size = 8 ∧
          (other.chart.tailOf 3).getLast? = some (.toRemainder 3 7) ∧
          other.conflicts =
            (brackets.layOut.analyze .withoutRemainder).conflicts := by
  have analyzed :
      brackets.analyze .withoutRemainder =
        .ok (brackets.layOut.analyze .withoutRemainder) :=
    analyze_eq_ok_iff.mpr ⟨defects_brackets, rfl⟩
  have leaves :
      (brackets.layOut.analyze .withoutRemainder).leavesInput = true := by
    decide +kernel
  have starts :
      (brackets.layOut.analyze .withoutRemainder).layout.start = 3 := by
    decide +kernel
  have sized :
      (brackets.layOut.analyze .withoutRemainder).layout.nodes.size = 7 := by
    decide +kernel
  have counted : brackets.layOut.exprCount = 7 := by
    decide
  obtain ⟨other, otherAnalyzed, varies⟩ := analyze_varies analyzed {}
  refine ⟨analyzed, other, otherAnalyzed, ?_, ?_, varies.conflicts_eq rfl⟩
  · rw [varies.nodes_eq rfl rfl, if_pos leaves, Array.size_push, sized]
  · have tail := varies.tailOf_start rfl rfl
    rw [if_pos leaves, starts] at tail
    rw [tail, List.getLast?_concat, Layout.exprCount_analyze, counted]

end Grammar

end PegAudit
