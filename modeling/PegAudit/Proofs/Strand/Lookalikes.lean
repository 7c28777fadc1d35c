import PegAudit.Proofs.Strand.Alignment

namespace PegAudit

/-!
# Only lookalikes are dropped

The strands of an expanded tail are kept unless an earlier one looks the same.
In a legible grammar strands that look the same show the same expressions and
go on behind the same rule, so the one that is kept stands for all of them.
What is not shown may differ: the calling node of a strand that has come to the
end of the input, and how sequences are nested.
-/

/--
One strand stands for another: as far as they are shown their elements were made
from the same expressions, sequences taken apart, and continue alike, and where
nothing has ended the input they go on behind the same name.
-/
structure Strand.StandsFor
    (chart : Chart)
    (kept strand : Strand) :
    Prop where
  ends_eq : kept.ends chart = strand.ends chart
  name_eq :
    strand.ends chart = false →
    chart.layout.name kept.outer = chart.layout.name strand.outer
  outer_eq :
    kept.hasTail = true →
    strand.hasTail = true →
    kept.outer = strand.outer
  parts :
    List.Forall₂ chart.layout.ShowAlike (kept.shownParts chart)
      (strand.shownParts chart)
  alike :
    Matching.ContinueAlike chart.layout.view (kept.shown chart)
      (strand.shown chart)

/-- Of the strands of an expanded tail the first of each text is kept, in order. -/
structure Chart.KeepsFirst
    (chart : Chart)
    (id : NodeId) :
    Prop where
  sublist : (chart.uniqueTail id).Sublist (chart.expandedTail id)
  distinct :
    (chart.uniqueTail id).Pairwise fun one other =>
      one.strand.text chart ≠ other.strand.text chart
  first :
    ∀ kept ∈ chart.uniqueTail id,
      ∃ before after,
        chart.expandedTail id = before ++ kept :: after ∧
          ∀ earlier ∈ before,
            earlier.strand.text chart ≠ kept.strand.text chart
  kept :
    ∀ refined ∈ chart.expandedTail id,
      ∃ kept ∈ chart.uniqueTail id,
        kept.strand.text chart = refined.strand.text chart

/-- The first of each text is kept. -/
theorem Chart.keepsFirst
    (chart : Chart)
    (id : NodeId) :
    chart.KeepsFirst id where
  sublist := sublist_firstOfEach
  distinct := pairwise_firstOfEach
  first := fun _ isKept => (exists_split_of_mem_firstOfEach isKept).2
  kept := fun _ isRefined =>
    exists_mem_firstOfEach isRefined List.not_mem_nil

namespace Grammar

/-- A name belongs to one rule. -/
theorem eq_of_name_eq
    {grammar : Grammar}
    (clean : grammar.defects = [])
    {id other : NodeId}
    (isRule : grammar.layOut.isRule id = true)
    (otherIsRule : grammar.layOut.isRule other = true)
    (same : grammar.layOut.name id = grammar.layOut.name other) :
    id = other := by
  obtain ⟨before, rule, after, rules, rfl, named⟩ :=
    exists_rule_of_isRule isRule
  obtain ⟨otherBefore, otherRule, otherAfter, otherRules, rfl, otherNamed⟩ :=
    exists_rule_of_isRule otherIsRule
  rw [named, otherNamed] at same
  have distinct := nodup_names clean
  rw [names, rules, List.map_append, List.map_cons, List.nodup_middle,
    ← List.map_append] at distinct
  have notElsewhere : otherRule ∉ before ++ after := by
    intro elsewhere
    refine (List.nodup_cons.mp distinct).1 ?_
    rw [same]
    exact List.mem_map_of_mem elsewhere
  obtain ⟨notBefore, notAfter⟩ :=
    not_or.mp (mt List.mem_append.mpr notElsewhere)
  rw [rules] at otherRules
  obtain ⟨rfl, rfl, -⟩ :=
    (List.append_cons_inj_of_notMem notBefore notAfter).mp otherRules
  rfl

section Refined

variable
  {grammar : Grammar}
  (clean : grammar.defects = [])
  {options : Options}
  (wellFormed : (grammar.layOut.analyze options).wellFormed = true)
  {id : NodeId}
  {kept refined : TracedStrand}

include clean

/-- The elements of refined strands are nodes that show expressions. -/
theorem showsAs_of_mem_shown
    (legible : grammar.Legible)
    (isRefined :
      refined ∈ (grammar.layOut.analyze options).chart.expandedTail id)
    {element : NodeId}
    (isShown :
      element ∈
        refined.strand.shown (grammar.layOut.analyze options).chart) :
    ∃ expression,
      (grammar.layOut.analyze options).chart.ShowsAs element expression := by
  have navigable :=
    (wellNumbered_layOut clean).navigable_analyze isRule_layOut_iff options
  obtain ⟨strand, inTail, fromStrand⟩ := List.mem_flatMap.mp isRefined
  have within :=
    (navigable.refined?_eq_some
      (navigable.furnished.within_tailOf inTail)).2 refined fromStrand
      refined.strand List.mem_cons_self
  exact
    exists_showsAs clean options legible
      (within.elements_lt element (mem_of_mem_upTo isShown))

/-- Two refined strands that go on behind one name go on behind one rule. -/
theorem outer_eq_of_name_eq
    (goesOn : (grammar.layOut.analyze options).chart.GoesOn)
    (isKept :
      kept ∈ (grammar.layOut.analyze options).chart.expandedTail id)
    (isRefined :
      refined ∈ (grammar.layOut.analyze options).chart.expandedTail id)
    (keptHasTail : kept.strand.hasTail = true)
    (hasTail : refined.strand.hasTail = true)
    (same :
      (grammar.layOut.analyze options).chart.layout.name
          kept.strand.outer =
        (grammar.layOut.analyze options).chart.layout.name
          refined.strand.outer) :
    kept.strand.outer = refined.strand.outer := by
  have wellNumbered := wellNumbered_layOut clean
  have navigable :=
    wellNumbered.navigable_analyze isRule_layOut_iff options
  have atRule
      {refined : TracedStrand}
      (isRefined :
        refined ∈ (grammar.layOut.analyze options).chart.expandedTail id)
      (hasTail : refined.strand.hasTail = true) :
      (grammar.layOut.analyze options).chart.layout.node?
            refined.strand.outer =
          grammar.layOut.node? refined.strand.outer ∧
        (grammar.layOut.analyze options).chart.layout.isRule
            refined.strand.outer =
          true := by
    have counted : refined.strand.outer < grammar.layOut.exprCount :=
      Nat.lt_of_lt_of_eq
        (TracedStrand.stops_of_mem_expandedTail goesOn isRefined).outer_lt
        Layout.exprCount_analyze
    refine ⟨wellNumbered.node?_analyze options counted, ?_⟩
    refine
      (TracedStrand.settled_of_mem_expandedTail navigable
        isRefined).resolve_left ?_
    rw [hasTail]
    exact Bool.noConfusion
  obtain ⟨keptNode, keptIsRule⟩ := atRule isKept keptHasTail
  obtain ⟨node, isRule⟩ := atRule isRefined hasTail
  unfold Layout.isRule at keptIsRule isRule
  unfold Layout.name at same
  rw [keptNode] at keptIsRule same
  rw [node] at isRule same
  exact eq_of_name_eq clean keptIsRule isRule same

include wellFormed

/-- In a legible grammar strands that look the same stand for each other. -/
theorem standsFor_of_text_eq
    (legible : grammar.Legible)
    (isKept :
      kept ∈ (grammar.layOut.analyze options).chart.expandedTail id)
    (isRefined :
      refined ∈ (grammar.layOut.analyze options).chart.expandedTail id)
    (same :
      kept.strand.text (grammar.layOut.analyze options).chart =
        refined.strand.text (grammar.layOut.analyze options).chart) :
    kept.strand.StandsFor (grammar.layOut.analyze options).chart
      refined.strand := by
  have goesOn := goesOn_openChart clean options
  rw [← Layout.chart_analyze wellFormed] at goesOn
  have keptStops := TracedStrand.stops_of_mem_expandedTail goesOn isKept
  have stops := TracedStrand.stops_of_mem_expandedTail goesOn isRefined
  obtain ⟨sameTail, sameShown⟩ :=
    Strand.sameShown_of_text_eq keptStops stops
      (fun _ isShown => showsAs_of_mem_shown clean legible isKept isShown)
      (fun _ isShown => showsAs_of_mem_shown clean legible isRefined isShown)
      same
  obtain ⟨sameEnds, sameName⟩ := Strand.of_shownTail_eq sameTail
  have alikeParts :
      Matching.ContinueAlike (grammar.layOut.analyze options).layout.view
        (kept.strand.shownParts (grammar.layOut.analyze options).chart)
        (refined.strand.shownParts
          (grammar.layOut.analyze options).chart) := by
    apply Matching.ContinueAlike.of_forall₂
    refine sameShown.imp ?_
    rintro part other ⟨expression, read, otherRead⟩
    exact matchAlike_of_shownExpr? clean options read otherRead
  exact
    { ends_eq := sameEnds
      name_eq := sameName
      outer_eq := fun keptHasTail hasTail =>
        outer_eq_of_name_eq clean goesOn isKept isRefined keptHasTail
          hasTail (sameName (stops.of_hasTail hasTail))
      parts :=
        (endsAsShown_analyze clean wellFormed).forall₂_shownParts sameEnds
          sameShown
      alike :=
        ((Layout.continueAlike_sideBySide _ _).trans alikeParts).trans
          (Layout.continueAlike_sideBySide _ _).symm }

end Refined

/-- One rule called twice with the same letter behind it. -/
def calledTwice : Grammar :=
  { rules :=
      [{ name := "S"
         body :=
          .choice
            [.sequence [.reference "A", .literal "x"],
              .sequence [.reference "A", .literal "x"]] },
        { name := "A", body := .literal "a" }] }

/--
Strands that look the same: an escaped character or two characters, a class or a
range, a rule named as any character is shown, a sequence or its parts or one
literal with quotes inside, and the end of the input in two alternatives.
-/
def lookalikes : Grammar :=
  { rules :=
      [{ name := "S"
         body :=
          .choice
            [.sequence [.reference "A", .literal "\n"],
              .sequence [.reference "A", .literal "\\n"],
              .sequence [.reference "A", .charClass "a-z"],
              .sequence [.reference "A", .range 'a' 'z'],
              .sequence [.reference "A", .reference "_"],
              .sequence [.reference "A", .anyChar],
              .sequence
                [.reference "A",
                  .sequence [.literal "b", .literal "c"]],
              .sequence [.reference "A", .literal "b", .literal "c"],
              .sequence [.reference "A", .literal "b\" \"c"],
              .sequence [.reference "A", .endOfInput],
              .sequence [.reference "A", .endOfInput]] },
        { name := "A", body := .literal "a" },
        { name := "_", body := .literal "a" }] }

end Grammar

end PegAudit
