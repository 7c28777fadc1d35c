import PegAudit.Analysis
import PegAudit.Proofs.FirstTerms

namespace PegAudit

/-!
# What the chart of an analysis says

The chart that the first terminals of tails are computed in describes the
layout it was made from: attributes, first terminals and tails of every
expression are the computed ones.  Room for the remaining input is made behind
the expressions and changes nothing for them except the tail of the start rule,
which only gets longer.
-/

/-- A chart has what was computed for each expression of a layout. -/
structure Chart.Describes
    (chart : Chart)
    (layout : Layout) :
    Prop where
  terminalCount_eq :
    chart.layout.terminalCount = layout.terminalCount
  exprCount_eq :
    chart.layout.exprCount = layout.exprCount
  shape?_eq :
    ∀ {id},
      id < layout.exprCount →
      chart.layout.shape? id = layout.shape? id
  attrsOf_eq :
    ∀ {id},
      id < layout.exprCount →
      chart.attrsOf id = layout.attrs.of id
  firstOf_eq :
    ∀ {id},
      id < layout.exprCount →
      chart.firstOf id =
        (layout.relations layout.attrs).firstTerms
          layout.terminalCount id
  firstOf_lt :
    ∀ {id terminal},
      (chart.firstOf id).contains terminal = true →
      terminal < layout.terminalCount
  mem_tailOf :
    ∀ {strand},
      strand ∈ layout.strands layout.attrs →
      strand.called < layout.exprCount →
      strand ∈ chart.tailOf strand.called

namespace Chart

/-- Filling in the first terminals of tails changes no description. -/
theorem Describes.fillFollow
    {chart : Chart}
    {layout : Layout}
    (describes : chart.Describes layout) :
    chart.fillFollow.Describes layout :=
  { describes with }

/-- Making room for the remaining input changes no description. -/
theorem Describes.withRemainder
    {chart : Chart}
    {layout : Layout}
    (describes : chart.Describes layout)
    (attrsFilled : chart.attrs.size = layout.exprCount)
    (firstFilled : chart.first.size = layout.exprCount)
    (tailsFilled : chart.tails.size = layout.exprCount)
    (nodesFilled : chart.layout.nodes.size = layout.exprCount) :
    chart.withRemainder.Describes layout := by
  unfold Chart.withRemainder
  dsimp only
  split
  case isTrue =>
    exact describes
  case isFalse =>
    refine
      { terminalCount_eq := describes.terminalCount_eq
        exprCount_eq := describes.exprCount_eq
        shape?_eq := ?_
        attrsOf_eq := ?_
        firstOf_eq := ?_
        firstOf_lt := ?_
        mem_tailOf := ?_ }
    · intro id counted
      rw [← describes.shape?_eq counted, Layout.shape?,
        Layout.node?_withRemainder_of_lt _ (by rwa [nodesFilled]),
        Layout.shape?]
    · intro id counted
      rw [← describes.attrsOf_eq counted]
      have notLast : id ≠ chart.attrs.size := by
        rw [attrsFilled]
        exact Nat.ne_of_lt counted
      simp [attrsOf, AttrTable.of, Array.getElem?_push, notLast]
    · intro id counted
      rw [← describes.firstOf_eq counted]
      have notLast : id ≠ chart.first.size := by
        rw [firstFilled]
        exact Nat.ne_of_lt counted
      simp [firstOf, Array.getElem?_push, notLast, noTerminals,
        Layout.withRemainder]
    · intro id terminal member
      by_cases last : id = chart.first.size
      · subst id
        simp [firstOf, noTerminals] at member
      · apply describes.firstOf_lt
        simpa [firstOf, Array.getElem?_push, last, noTerminals,
          Layout.withRemainder] using member
    · intro strand isStrand counted
      have before := describes.mem_tailOf isStrand counted
      have notLast : strand.called ≠ chart.tails.size := by
        rw [tailsFilled]
        exact Nat.ne_of_lt counted
      simp only [tailOf, Array.getElem?_push, Array.size_modify, notLast,
        if_false, Array.getElem?_modify] at before ⊢
      split
      case isTrue =>
        cases found : chart.tails[strand.called]? with
        | none =>
            rw [found] at before
            cases before
        | some tail =>
            rw [found] at before
            exact List.mem_append_left _ before
      case isFalse =>
        exact before

end Chart

namespace Layout

/-- The chart of a well-numbered layout describes it. -/
theorem WellNumbered.describes_openChart
    {layout : Layout}
    (wellNumbered : layout.WellNumbered)
    (options : Options) :
    (layout.openChart options).Describes layout := by
  have inside
      {id : NodeId}
      (counted : id < layout.exprCount) :
      id < layout.nodes.size := by
    rwa [wellNumbered.size_nodes]
  have base :
      (((Chart.ofAttrs layout layout.attrs).fillFirst
        (layout.relations layout.attrs)).fillTails).Describes layout := by
    refine
      { terminalCount_eq := rfl
        exprCount_eq := rfl
        shape?_eq := fun _ => rfl
        attrsOf_eq := fun _ => rfl
        firstOf_eq := ?_
        firstOf_lt := ?_
        mem_tailOf := ?_ }
    · intro id counted
      simp [Chart.firstOf, Chart.fillTails, Chart.fillFirst,
        Chart.ofAttrs, inside counted]
    · intro id terminal member
      by_cases present : id < layout.nodes.size
      · simp only [Chart.firstOf, Chart.fillTails, Chart.fillFirst,
          Chart.ofAttrs, Array.getElem?_ofFn, present, dif_pos,
          Option.getD_some] at member
        exact (Relations.contains_firstTerms_iff.mp member).2
      · simp [Chart.firstOf, Chart.fillTails, Chart.fillFirst,
          Chart.ofAttrs, Chart.noTerminals, present] at member
    · intro strand isStrand counted
      simp [Chart.tailOf, Chart.fillTails, Chart.fillFirst,
        Chart.ofAttrs, inside counted, isStrand]
  unfold openChart
  dsimp only
  split
  case isTrue =>
    apply base.withRemainder
    · exact layout.size_attrs.trans wellNumbered.size_nodes
    · simp [Chart.fillTails, Chart.fillFirst, Chart.ofAttrs,
        wellNumbered.size_nodes]
    · simp [Chart.fillTails, Chart.fillFirst, Chart.ofAttrs,
        wellNumbered.size_nodes]
    · exact wellNumbered.size_nodes
  case isFalse =>
    exact base

end Layout

end PegAudit
