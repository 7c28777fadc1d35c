import PegAudit.Analysis
import PegAudit.Proofs.Layout.WellNumbered
import PegAudit.Proofs.Matching.Runs

namespace PegAudit

/-!
# The nodes of an analysis

An analysis keeps the layout it was made from and may add one node for the
remaining input.  No expression reaches that node, so expressions match alike
in the analysis and in the layout.
-/

namespace Chart

/-- Filling in the first terminals of tails keeps the layout. -/
@[simp] theorem layout_fillFollow
    (chart : Chart) :
    chart.fillFollow.layout = chart.layout :=
  rfl

/-- Room for the remaining input is made behind the layout, if at all. -/
theorem layout_withRemainder
    (chart : Chart) :
    chart.withRemainder.layout = chart.layout ∨
      chart.withRemainder.layout = chart.layout.withRemainder := by
  unfold withRemainder
  dsimp only
  split
  · exact .inl rfl
  · exact .inr rfl

end Chart

namespace Layout

/-- The layout of an analysis is the analyzed one, perhaps with a node behind it. -/
theorem layout_analyze
    (layout : Layout)
    (options : Options) :
    (layout.analyze options).layout = layout ∨
      (layout.analyze options).layout = layout.withRemainder := by
  unfold analyze
  dsimp only
  split
  · simp only [Analysis.layout, Chart.layout_fillFollow, openChart]
    split
    · exact Chart.layout_withRemainder _
    · exact .inl rfl
  · exact .inl rfl

variable
  {layout : Layout}
  {options : Options}

/-- Only a layout without faults has a well-formed analysis. -/
theorem faults_eq_nil_of_wellFormed
    (wellFormed : (layout.analyze options).wellFormed = true) :
    layout.faults layout.attrs (layout.relations layout.attrs) = [] := by
  unfold analyze at wellFormed
  dsimp only at wellFormed
  split at wellFormed
  case isTrue none =>
    exact List.isEmpty_iff.mp none
  case isFalse some =>
    exact (some wellFormed).elim

/-- The analysis of a layout without faults. -/
theorem analyze_eq_of_faults_eq_nil
    (noFaults :
      layout.faults layout.attrs (layout.relations layout.attrs) = []) :
    layout.analyze options =
      { chart := (layout.openChart options).fillFollow
        relations := layout.relations layout.attrs
        faults := []
        notes :=
          if options.styleNotes then layout.notes layout.attrs else []
        conflicts :=
          if options.conflicts then
            (layout.openChart options).fillFollow.conflicts
              (layout.relations layout.attrs)
          else
            [] } := by
  simp [analyze, noFaults]

/-- The chart of a well-formed analysis has the first terminals of tails. -/
theorem chart_analyze
    (wellFormed : (layout.analyze options).wellFormed = true) :
    (layout.analyze options).chart =
      (layout.openChart options).fillFollow := by
  rw [analyze_eq_of_faults_eq_nil (faults_eq_nil_of_wellFormed wellFormed)]

/-- An analysis counts the expressions of its layout. -/
@[simp] theorem exprCount_analyze :
    (layout.analyze options).layout.exprCount = layout.exprCount := by
  rcases layout.layout_analyze options with same | extended
  · rw [same]
  · rw [extended]
    rfl

/-- An analysis starts where its layout does. -/
@[simp] theorem start_analyze :
    (layout.analyze options).layout.start = layout.start := by
  rcases layout.layout_analyze options with same | extended
  · rw [same]
  · rw [extended]
    rfl

/-- Expressions have the same shapes in an analysis and in its layout. -/
theorem shape?_analyze
    (wellNumbered : layout.WellNumbered)
    {id : NodeId}
    (counted : id < layout.exprCount) :
    (layout.analyze options).layout.shape? id = layout.shape? id := by
  rcases layout.layout_analyze options with same | extended
  · rw [same]
  · have present : id < layout.nodes.size := by
      rwa [wellNumbered.size_nodes]
    rw [extended, shape?, node?_withRemainder_of_lt layout present, shape?]

/-- Whatever is written in a rule has the same shape in the analyzed layout. -/
theorem shape?_of_shape?_analyze
    {id : NodeId}
    {shape : Shape NodeId}
    (found : (layout.analyze options).layout.shape? id = some shape)
    (isWritten : shape ≠ .remainingInput) :
    layout.shape? id = some shape := by
  rcases layout.layout_analyze options with same | extended
  · rwa [same] at found
  · rw [extended] at found
    by_cases last : id = layout.nodes.size
    · subst id
      apply (isWritten _).elim
      simpa [shape?, node?, withRemainder, remainderNode, eq_comm] using
        found
    · simpa [shape?, node?, withRemainder, Array.getElem?_push, last] using
        found

/-- Expressions match alike in an analysis and in its layout. -/
theorem runs_analyze_iff
    (wellNumbered : layout.WellNumbered)
    {id : NodeId}
    (counted : id < layout.exprCount)
    {input : List Char}
    {outcome : Outcome NodeId} :
    Runs (layout.analyze options).layout.view (.node id) input outcome ↔
      Runs layout.view (.node id) input outcome := by
  have agree
      (other : NodeId)
      (otherCounted : other < layout.exprCount) :
      (layout.analyze options).layout.view other = layout.view other :=
    shape?_analyze wellNumbered otherCounted
  have starts : ∀ other ∈ [id], other < layout.exprCount := by
    simpa using counted
  constructor
  · intro run
    refine run.of_agree (fun other reached => (agree other reached).symm)
      ?_ starts
    intro other shape reached found part mentioned
    rw [agree other reached] at found
    exact wellNumbered.mentioned_lt found mentioned
  · intro run
    refine run.of_agree agree ?_ starts
    intro other shape _ found part mentioned
    exact wellNumbered.mentioned_lt found mentioned

end Layout

namespace Grammar

/-- An analysis is that of the layout of a grammar without defects. -/
theorem analyze_eq_ok_iff
    {grammar : Grammar}
    {options : Options}
    {analysis : Analysis} :
    grammar.analyze options = .ok analysis ↔
      grammar.defects = [] ∧ grammar.layOut.analyze options = analysis := by
  unfold analyze
  constructor
  · intro analyzed
    split at analyzed
    case h_1 layout laidOut =>
      obtain ⟨clean, rfl⟩ := toLayout_eq_ok_iff.mp laidOut
      cases analyzed
      exact ⟨clean, rfl⟩
    case h_2 =>
      cases analyzed
  · rintro ⟨clean, rfl⟩
    rw [toLayout_eq_ok_iff.mpr ⟨clean, rfl⟩]

/-- The letters are analyzed and found well formed. -/
theorem analyze_letters :
    letters.analyze {} = .ok (letters.layOut.analyze {}) ∧
      (letters.layOut.analyze {}).wellFormed = true :=
  ⟨analyze_eq_ok_iff.mpr ⟨defects_letters, rfl⟩, by decide +kernel⟩

end Grammar

end PegAudit
