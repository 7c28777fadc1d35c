import PegAudit.Proofs.Strand.Continuation
import PegAudit.Proofs.Strand.Elements

namespace PegAudit

/-!
# Strands that look the same

A strand is shown as a line of the expressions of its elements, so two strands
that look the same show the same expressions, sequences taken apart.  The
remaining input is not taken for any number of characters: where it is shown it
is the first to end the input, and something in the other strand has to end the
input as well.
-/

/-- Lists that are related and end in one element each are related before it. -/
theorem forall₂_append_singleton
    {related : α → β → Prop}
    {before : List α}
    {otherBefore : List β}
    {last : α}
    {otherLast : β}
    (each :
      List.Forall₂ related (before ++ [last]) (otherBefore ++ [otherLast])) :
    List.Forall₂ related before otherBefore ∧ related last otherLast := by
  rw [← List.forall₂_reverse_iff, List.reverse_append, List.reverse_append]
    at each
  cases each with
  | cons lasts others =>
      exact ⟨List.forall₂_reverse_iff.mp others, lasts⟩

namespace Layout

/-- Two nodes are shown as the same expression. -/
def SameShown
    (layout : Layout)
    (id other : NodeId) :
    Prop :=
  ∃ expression,
    layout.shownExpr? id = some expression ∧
      layout.shownExpr? other = some expression

variable
  {layout : Layout}
  {id other : NodeId}

/-- Either node is shown as the other is. -/
theorem SameShown.symm
    (same : layout.SameShown id other) :
    layout.SameShown other id := by
  obtain ⟨expression, read, otherRead⟩ := same
  exact ⟨expression, otherRead, read⟩

/-- Either node was made from what the other was. -/
theorem ShowAlike.symm
    (alike : layout.ShowAlike id other) :
    layout.ShowAlike other id := by
  rcases alike with ⟨here, there⟩ | ⟨expression, read, otherRead⟩
  · exact .inl ⟨there, here⟩
  · exact .inr ⟨expression, otherRead, read⟩

/-- What is shown of a node other than the remaining input is its expression. -/
theorem shownExpr?_eq
    (isWritten : layout.shape? id ≠ some .remainingInput) :
    layout.shownExpr? id = layout.expr? id := by
  unfold shownExpr?
  split
  case h_1 isRemainder =>
    exact (isWritten isRemainder).elim
  case h_2 =>
    rfl

/-- Nodes that show the same were made from the same, the remaining input apart. -/
theorem SameShown.showAlike
    (same : layout.SameShown id other)
    (isWritten : layout.shape? id ≠ some .remainingInput)
    (otherIsWritten : layout.shape? other ≠ some .remainingInput) :
    layout.ShowAlike id other := by
  obtain ⟨expression, read, otherRead⟩ := same
  rw [shownExpr?_eq isWritten] at read
  rw [shownExpr?_eq otherIsWritten] at otherRead
  exact .inr ⟨expression, read, otherRead⟩

/-- Where the remaining input does not occur, what shows the same is the same. -/
theorem forall₂_showAlike
    {ids others : List NodeId}
    (same : List.Forall₂ layout.SameShown ids others)
    (written :
      ∀ id ∈ ids, layout.shape? id ≠ some .remainingInput)
    (otherWritten :
      ∀ other ∈ others, layout.shape? other ≠ some .remainingInput) :
    List.Forall₂ layout.ShowAlike ids others := by
  induction same with
  | nil =>
      exact .nil
  | cons first _ inductionHypothesis =>
      obtain ⟨here, later⟩ := List.forall_mem_cons.mp written
      obtain ⟨otherHere, otherLater⟩ := List.forall_mem_cons.mp otherWritten
      exact
        .cons (first.showAlike here otherHere)
          (inductionHypothesis later otherLater)

end Layout

/-- The nodes that a strand shows side by side, sequences taken apart. -/
def Strand.shownParts
    (chart : Chart)
    (strand : Strand) :
    List NodeId :=
  (strand.shown chart).flatMap chart.layout.sideBySide

/-- Parts that are shown up to where the input ends: not before the last element. -/
structure Chart.EndsLast
    (chart : Chart)
    (before : List NodeId)
    (last : NodeId) :
    Prop where
  someEnds :
    ((before ++ [last]).any fun part => (chart.attrsOf part).endsInput) =
      true
  written :
    ∀ part ∈ before, chart.layout.shape? part ≠ some .remainingInput
  /-- The remaining input stands alone, so nothing before it ends the input. -/
  alone :
    chart.layout.shape? last = some .remainingInput →
    (before.any fun part => (chart.attrsOf part).endsInput) = false

namespace Chart.EndsAsShown

variable
  {chart : Chart}
  (ends : chart.EndsAsShown)

include ends

/-- An element ends the input if something does that stands there side by side. -/
theorem endsInput_eq_any_sideBySide
    (id : NodeId) :
    (chart.attrsOf id).endsInput =
      (chart.layout.sideBySide id).any fun part =>
        (chart.attrsOf part).endsInput := by
  unfold Layout.sideBySide
  split
  case h_1 parts shape =>
    exact ends.sequence shape
  case h_2 =>
    simp

/-- Elements end the input if something does that stands there side by side. -/
theorem any_flatMap_sideBySide
    (elements : List NodeId) :
    ((elements.flatMap chart.layout.sideBySide).any fun part =>
        (chart.attrsOf part).endsInput) =
      elements.any fun element => (chart.attrsOf element).endsInput := by
  rw [List.any_flatMap, ← funext ends.endsInput_eq_any_sideBySide]

/-- What does not end the input is not the remaining input. -/
theorem written_of_any_eq_false
    {parts : List NodeId}
    (noneEnds :
      (parts.any fun part => (chart.attrsOf part).endsInput) = false) :
    ∀ part ∈ parts, chart.layout.shape? part ≠ some .remainingInput := by
  intro part isPart isRemainder
  exact
    List.any_eq_false.mp noneEnds part isPart (ends.remainder isRemainder)

/-- A strand without an element that ends the input shows no remaining input. -/
theorem written_shownParts
    {strand : Strand}
    (goesOn : strand.ends chart = false) :
    ∀ part ∈ strand.shownParts chart,
      chart.layout.shape? part ≠ some .remainingInput := by
  apply ends.written_of_any_eq_false
  have allShown : strand.shown chart = strand.elements :=
    upTo_eq_self (by simpa [Strand.ends] using goesOn)
  rw [Strand.shownParts, ends.any_flatMap_sideBySide, allShown]
  exact goesOn

/-- A strand with an element that ends the input shows nothing behind it. -/
theorem exists_endsLast
    {strand : Strand}
    (isEnd : strand.ends chart = true) :
    ∃ before last,
      strand.shownParts chart = before ++ [last] ∧
        chart.EndsLast before last := by
  obtain ⟨before, element, after, split, passed, here⟩ :=
    exists_first_of_any isEnd
  have isShown : strand.shown chart = before ++ [element] := by
    rw [Strand.shown, split]
    exact upTo_append_cons passed here
  have noneBefore :
      ((before.flatMap chart.layout.sideBySide).any fun part =>
          (chart.attrsOf part).endsInput) =
        false := by
    rw [ends.any_flatMap_sideBySide]
    exact List.any_eq_false.mpr (by simpa using passed)
  have writtenBefore := ends.written_of_any_eq_false noneBefore
  have sameEnds := ends.endsInput_eq_any_sideBySide element
  rw [here] at sameEnds
  rw [Strand.shownParts, isShown, List.flatMap_append,
    List.flatMap_singleton]
  unfold Layout.sideBySide at sameEnds ⊢
  split at sameEnds
  case h_1 parts shape =>
    rcases List.eq_nil_or_concat parts with none | ⟨init, last, rfl⟩
    · rw [none] at sameEnds
      cases sameEnds
    · have isWritten := ends.written shape
      rw [List.concat_eq_append] at sameEnds isWritten ⊢
      refine ⟨_, last, (List.append_assoc _ _ _).symm, ?_⟩
      exact
        { someEnds := by
            rw [List.append_assoc, List.any_append, ← sameEnds,
              Bool.or_true]
          written :=
            List.forall_mem_append.mpr
              ⟨writtenBefore, fun part isPart =>
                isWritten part (List.mem_append_left _ isPart)⟩
          alone := fun isRemainder =>
            (isWritten last (by simp) isRemainder).elim }
  case h_2 =>
    refine ⟨_, element, rfl, ?_⟩
    exact
      { someEnds := by simp [here]
        written := writtenBefore
        alone := fun _ => noneBefore }

/-- Nodes that were made from the same expressions end the input alike. -/
theorem any_eq_of_forall₂
    {parts others : List NodeId}
    (alike : List.Forall₂ chart.layout.ShowAlike parts others) :
    (parts.any fun part => (chart.attrsOf part).endsInput) =
      others.any fun part => (chart.attrsOf part).endsInput := by
  induction alike with
  | nil =>
      rfl
  | cons first _ inductionHypothesis =>
      rw [List.any_cons, List.any_cons, inductionHypothesis]
      rcases first with ⟨here, there⟩ | ⟨expression, read, otherRead⟩
      · rw [ends.remainder here, ends.remainder there]
      · rw [ends.congr read otherRead]

/-- Where the input ends in the same line, it is the remaining input or not. -/
theorem remainder_of_endsLast
    {before otherBefore : List NodeId}
    {last otherLast : NodeId}
    (endsLast : chart.EndsLast before last)
    (otherEndsLast : chart.EndsLast otherBefore otherLast)
    (sameBefore :
      List.Forall₂ chart.layout.ShowAlike before otherBefore)
    (same : chart.layout.SameShown last otherLast)
    (isRemainder : chart.layout.shape? last = some .remainingInput) :
    chart.layout.shape? otherLast = some .remainingInput := by
  by_contra otherIsWritten
  obtain ⟨expression, read, otherRead⟩ := same
  rw [Layout.shownExpr?, isRemainder] at read
  cases read
  rw [Layout.shownExpr?_eq otherIsWritten] at otherRead
  have noneEnds := endsLast.alone isRemainder
  have someEnds := otherEndsLast.someEnds
  rw [List.any_append, ← ends.any_eq_of_forall₂ sameBefore, noneEnds]
    at someEnds
  simp [ends.anyChars otherRead] at someEnds

/--
Two strands that both have an element that ends the input, or both have none,
and show the same expressions were made from the same ones.
-/
theorem forall₂_shownParts
    {strand other : Strand}
    (sameEnds : strand.ends chart = other.ends chart)
    (same :
      List.Forall₂ chart.layout.SameShown (strand.shownParts chart)
        (other.shownParts chart)) :
    List.Forall₂ chart.layout.ShowAlike (strand.shownParts chart)
      (other.shownParts chart) := by
  cases isEnd : strand.ends chart with
  | false =>
      exact
        Layout.forall₂_showAlike same (ends.written_shownParts isEnd)
          (ends.written_shownParts (sameEnds ▸ isEnd))
  | true =>
      obtain ⟨before, last, parts, endsLast⟩ := ends.exists_endsLast isEnd
      obtain ⟨otherBefore, otherLast, otherParts, otherEndsLast⟩ :=
        ends.exists_endsLast (sameEnds ▸ isEnd)
      rw [parts, otherParts] at same ⊢
      obtain ⟨sameBefore, sameLast⟩ := forall₂_append_singleton same
      have alike :=
        Layout.forall₂_showAlike sameBefore endsLast.written
          otherEndsLast.written
      have alikeLast : chart.layout.ShowAlike last otherLast := by
        by_cases isRemainder :
            chart.layout.shape? last = some .remainingInput
        · exact
            .inl
              ⟨isRemainder,
                ends.remainder_of_endsLast endsLast otherEndsLast alike
                  sameLast isRemainder⟩
        · refine sameLast.showAlike isRemainder fun otherIsRemainder => ?_
          exact
            isRemainder
              (ends.remainder_of_endsLast otherEndsLast endsLast
                (alike.imp fun _ _ => .symm).flip sameLast.symm
                otherIsRemainder)
      exact List.rel_append alike (.cons alikeLast .nil)

end Chart.EndsAsShown

/-- Nodes are shown as legible expressions that they are read back as. -/
structure Chart.ShowsLine
    (chart : Chart)
    (ids : List NodeId)
    (elements : List Expr) :
    Prop where
  texts :
    ids.map (Strand.elementText chart) = elements.map Expr.elementText
  legible : ∀ element ∈ elements, element.Legible
  parts :
    List.Forall₂
      (fun part shown => chart.layout.shownExpr? part = some shown)
      (ids.flatMap chart.layout.sideBySide)
      (elements.flatMap Expr.sideBySide)

/-- If each node is shown as an expression, together they are as some line. -/
theorem Chart.exists_showsLine
    {chart : Chart}
    {ids : List NodeId}
    (each : ∀ id ∈ ids, ∃ expression, chart.ShowsAs id expression) :
    ∃ elements, chart.ShowsLine ids elements := by
  induction ids with
  | nil =>
      exact ⟨[], rfl, List.forall_mem_nil _, .nil⟩
  | cons id rest inductionHypothesis =>
      obtain ⟨⟨expression, shown⟩, later⟩ := List.forall_mem_cons.mp each
      obtain ⟨elements, line⟩ := inductionHypothesis later
      exact
        ⟨expression :: elements,
          { texts := by
              rw [List.map_cons, List.map_cons, shown.text, line.texts]
            legible :=
              List.forall_mem_cons.mpr ⟨shown.legible, line.legible⟩
            parts := List.rel_append shown.sideBySide line.parts }⟩

namespace Strand

/-- The name behind which a strand goes on as it is shown. -/
def shownTail
    (chart : Chart)
    (strand : Strand) :
    Option String :=
  if strand.ends chart then
    none
  else
    some (chart.layout.name strand.outer)

variable
  {chart : Chart}
  {strand other : Strand}

/-- Strands with the same tail shown both have come to the end, or neither has. -/
theorem of_shownTail_eq
    (same : strand.shownTail chart = other.shownTail chart) :
    strand.ends chart = other.ends chart ∧
      (other.ends chart = false →
        chart.layout.name strand.outer = chart.layout.name other.outer) := by
  unfold shownTail at same
  cases isEnd : strand.ends chart <;>
    cases otherIsEnd : other.ends chart <;> simp_all

/-- A strand is shown as the line that its elements are, with its tail. -/
theorem Stops.text_eq
    (stops : strand.Stops chart)
    {elements : List Expr}
    (line : chart.ShowsLine (strand.shown chart) elements) :
    strand.text chart = Expr.lineText elements (strand.shownTail chart) := by
  rw [text, stops.called_goesOn, words, line.texts, Expr.lineText, shownTail]
  cases strand.ends chart <;> simp [Expr.tailTexts, tailText]

/-- If nothing is shown behind the elements, there is an element. -/
theorem shown_ne_nil
    (noTail : strand.shownTail chart = none) :
    strand.shown chart ≠ [] := by
  have isEnd : strand.ends chart = true := by
    by_contra goesOn
    simp [shownTail, goesOn] at noTail
  obtain ⟨before, element, after, split, passed, here⟩ :=
    exists_first_of_any isEnd
  rw [shown, split, upTo_append_cons passed here]
  simp

/-- Strands that look the same show the same side by side, and the same tail. -/
theorem sameShown_of_text_eq
    (stops : strand.Stops chart)
    (otherStops : other.Stops chart)
    (showing :
      ∀ element ∈ strand.shown chart,
        ∃ expression, chart.ShowsAs element expression)
    (otherShowing :
      ∀ element ∈ other.shown chart,
        ∃ expression, chart.ShowsAs element expression)
    (same : strand.text chart = other.text chart) :
    strand.shownTail chart = other.shownTail chart ∧
      List.Forall₂ chart.layout.SameShown (strand.shownParts chart)
        (other.shownParts chart) := by
  obtain ⟨elements, line⟩ := Chart.exists_showsLine showing
  obtain ⟨otherElements, otherLine⟩ := Chart.exists_showsLine otherShowing
  have someElement
      {strand : Strand}
      {elements : List Expr}
      (line : chart.ShowsLine (strand.shown chart) elements)
      (noTail : strand.shownTail chart = none) :
      elements ≠ [] := by
    rintro rfl
    exact shown_ne_nil noTail (List.map_eq_nil_iff.mp line.texts)
  rw [stops.text_eq line, otherStops.text_eq otherLine] at same
  obtain ⟨sameParts, sameTail⟩ :=
    Expr.eq_of_lineText_eq line.legible otherLine.legible (someElement line)
      (someElement otherLine) same
  refine ⟨sameTail, forall₂_of_both line.parts ?_⟩
  rw [sameParts]
  exact otherLine.parts

end Strand

end PegAudit
