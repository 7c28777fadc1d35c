import PegAudit.Proofs.Follow.Closed

namespace PegAudit

/-!
# The tails of an analysis

The tail of a node in the chart of an analysis has the strands of all call
sites of the node and, behind them, the strand to the remaining input if the
node is the start and such a strand is asked for.  So only expressions have
tails, and every strand stands in the tail of the node it calls.
-/

/-- The strand from a start rule to the node of the remaining input. -/
def Strand.toRemainder
    (start remainder : NodeId) :
    Strand :=
  { called := start
    outer := start
    elements := [remainder]
    hasTail := false }

namespace Chart

/-- Room for the remaining input adds one strand, to the tail of the start. -/
theorem tailOf_withRemainder
    {chart : Chart}
    (attrsFilled : chart.attrs.size = chart.layout.nodes.size)
    (tailsFilled : chart.tails.size = chart.layout.nodes.size)
    (startInside : chart.layout.start < chart.layout.nodes.size)
    (id : NodeId) :
    chart.withRemainder.tailOf id =
      chart.tailOf id ++
        if (chart.attrsOf chart.layout.start).endsInput = false ∧
            id = chart.layout.start then
          [.toRemainder chart.layout.start chart.layout.nodes.size]
        else
          [] := by
  unfold withRemainder
  dsimp only
  by_cases ends : (chart.attrsOf chart.layout.start).endsInput = true
  · simp [ends]
  · -- The node for the remaining input ends the input, so its strand has no tail.
    have strandIs :
        Strand.ofCall (chart.attrs.push Attrs.all) chart.layout.start
            chart.layout.start [chart.layout.nodes.size] =
          .toRemainder chart.layout.start chart.layout.nodes.size := by
      simp [Strand.ofCall, Strand.toRemainder, AttrTable.of, ← attrsFilled,
        Attrs.all]
    rw [if_neg ends, strandIs]
    simp only [tailOf, Array.getElem?_push, Array.size_modify,
      Array.getElem?_modify]
    by_cases isStart : id = chart.layout.start
    · subst id
      simp [ends, tailsFilled, Nat.ne_of_lt startInside, startInside]
    · by_cases isLast : id = chart.tails.size
      · simp [isLast ▸ isStart, isLast]
      · simp [isStart, Ne.symm isStart, isLast]

end Chart

namespace Layout

/-- The strand to the remaining input, if the start rule is given one. -/
def remainderStrands
    (layout : Layout)
    (options : Options) :
    List Strand :=
  if options.remainingInputTail = true ∧
      (layout.attrs.of layout.start).endsInput = false then
    [.toRemainder layout.start layout.nodes.size]
  else
    []

namespace WellNumbered

variable {layout : Layout}

/-- Strands call expressions only. -/
theorem called_lt
    (wellNumbered : layout.WellNumbered)
    {strand : Strand}
    (isStrand : strand ∈ layout.strands layout.attrs) :
    strand.called < layout.exprCount := by
  obtain ⟨outer, _, fromOuter⟩ := List.mem_flatMap.mp isStrand
  unfold strandsFrom at fromOuter
  split at fromOuter
  case h_1 shape found =>
    obtain ⟨site, isSite, rfl⟩ := List.mem_map.mp fromOuter
    exact (wellNumbered.sites_lt found (List.mem_filter.mp isSite).1).1
  case h_2 =>
    cases fromOuter

/-- Before there is room for the remaining input, tails have their call sites. -/
theorem tailOf_fillTails
    (wellNumbered : layout.WellNumbered)
    (id : NodeId) :
    (((Chart.ofAttrs layout layout.attrs).fillFirst
        (layout.relations layout.attrs)).fillTails).tailOf id =
      (layout.strands layout.attrs).filter (·.called == id) := by
  by_cases present : id < layout.nodes.size
  · simp [Chart.tailOf, Chart.fillTails, Chart.fillFirst, Chart.ofAttrs,
      present]
  · have noStrand :
        (layout.strands layout.attrs).filter (·.called == id) = [] := by
      apply List.filter_eq_nil_iff.mpr
      intro strand isStrand isCalled
      have counted := wellNumbered.called_lt isStrand
      rw [eq_of_beq isCalled, ← wellNumbered.size_nodes] at counted
      exact present counted
    simp [Chart.tailOf, Chart.fillTails, Chart.fillFirst, Chart.ofAttrs,
      present, noStrand]

/-- The tail of a node: its call sites, and what the start leaves over. -/
theorem tailOf_openChart
    (wellNumbered : layout.WellNumbered)
    (options : Options)
    (id : NodeId) :
    (layout.openChart options).tailOf id =
      (layout.strands layout.attrs).filter (·.called == id) ++
        if id = layout.start then
          layout.remainderStrands options
        else
          [] := by
  have startInside : layout.start < layout.nodes.size := by
    rw [wellNumbered.size_nodes]
    exact wellNumbered.start_lt
  unfold openChart
  dsimp only
  by_cases wanted : options.remainingInputTail = true
  · rw [if_pos wanted, Chart.tailOf_withRemainder layout.size_attrs
        (by simp [Chart.fillTails, Chart.fillFirst, Chart.ofAttrs])
        startInside,
      wellNumbered.tailOf_fillTails]
    by_cases isStart : id = layout.start
    · simp [isStart, remainderStrands, wanted, Chart.attrsOf,
        Chart.fillTails, Chart.fillFirst, Chart.ofAttrs]
    · simp [isStart, Chart.fillTails, Chart.fillFirst, Chart.ofAttrs]
  · simp [wanted, wellNumbered.tailOf_fillTails, remainderStrands]

/-- A strand stands in the tail of the expression it calls. -/
theorem called_eq_of_mem_tailOf
    (wellNumbered : layout.WellNumbered)
    {options : Options}
    {id : NodeId}
    {strand : Strand}
    (inTail : strand ∈ (layout.openChart options).tailOf id) :
    strand.called = id ∧ id < layout.exprCount := by
  rw [wellNumbered.tailOf_openChart] at inTail
  rcases List.mem_append.mp inTail with isSite | isRemainder
  · obtain ⟨isStrand, isCalled⟩ := List.mem_filter.mp isSite
    have same := eq_of_beq isCalled
    exact ⟨same, same ▸ wellNumbered.called_lt isStrand⟩
  · by_cases isStart : id = layout.start
    · subst id
      refine ⟨?_, wellNumbered.start_lt⟩
      rw [if_pos rfl, remainderStrands] at isRemainder
      split at isRemainder
      · rw [List.mem_singleton.mp isRemainder]
        rfl
      · cases isRemainder
    · rw [if_neg isStart] at isRemainder
      cases isRemainder

/-- Behind the expressions there is at most the node for the remaining input. -/
theorem openChart_of_le
    (wellNumbered : layout.WellNumbered)
    (options : Options)
    {id : NodeId}
    (notCounted : layout.exprCount ≤ id) :
    (layout.openChart options).attrsOf id =
        (if (layout.remainderStrands options).isEmpty = false ∧
            id = layout.exprCount then
          Attrs.all
        else
          Attrs.none) ∧
      (layout.openChart options).firstOf id =
        IndexSet.empty layout.terminalCount := by
  have outside : ¬ id < layout.nodes.size := by
    rw [wellNumbered.size_nodes]
    exact Nat.not_lt.mpr notCounted
  have sizeAttrs : layout.attrs.size = layout.exprCount :=
    layout.size_attrs.trans wellNumbered.size_nodes
  have known : layout.attrs.of id = Attrs.none := by
    simp [AttrTable.of, sizeAttrs, notCounted]
  have pushed :
      AttrTable.of (layout.attrs.push Attrs.all) id =
        if id = layout.exprCount then Attrs.all else Attrs.none := by
    rw [AttrTable.of, Array.getElem?_push, sizeAttrs]
    split
    · rfl
    · simp [sizeAttrs, notCounted]
  unfold openChart remainderStrands Chart.withRemainder
  dsimp only
  by_cases wanted : options.remainingInputTail = true
  · by_cases ends : (layout.attrs.of layout.start).endsInput = true
    · simp [wanted, ends, known, Chart.attrsOf, Chart.firstOf,
        Chart.fillTails, Chart.fillFirst, Chart.ofAttrs,
        Chart.noTerminals, outside]
    · simp [wanted, ends, pushed, Chart.attrsOf, Chart.firstOf,
        Chart.fillTails, Chart.fillFirst, Chart.ofAttrs,
        Chart.noTerminals, Array.getElem?_push, outside,
        Layout.withRemainder]
      split <;> rfl
  · simp [wanted, known, Chart.attrsOf, Chart.firstOf, Chart.fillTails,
      Chart.fillFirst, Chart.ofAttrs, Chart.noTerminals, outside]

end WellNumbered

end Layout

end PegAudit
