import PegAudit.Proofs.Analysis.CallSites
import PegAudit.Proofs.Analysis.ReadBack
import PegAudit.Proofs.Diagnosis.Faults
import PegAudit.Proofs.Source.Lines

namespace PegAudit

/-!
# What elements show

In a legible grammar every node of an analysis is shown as a legible expression
that it is read back as.  Only the remaining input and any number of characters
look the same; they are told apart by where they stand, since the remaining
input ends the input and nothing is shown behind it.
-/

/-- All rules of the grammar can be read back. -/
def Grammar.Legible
    (grammar : Grammar) :
    Prop :=
  ∀ rule ∈ grammar.rules, rule.body.Legible

/-- A node is shown as an expression that it is read back as. -/
structure Chart.ShowsAs
    (chart : Chart)
    (id : NodeId)
    (expression : Expr) :
    Prop where
  read : chart.layout.shownExpr? id = some expression
  legible : expression.Legible
  text : Strand.elementText chart id = expression.elementText
  sideBySide :
    List.Forall₂
      (fun part shown => chart.layout.shownExpr? part = some shown)
      (chart.layout.sideBySide id) expression.sideBySide

/-- Two nodes are the remaining input, or were made from the same expression. -/
def Layout.ShowAlike
    (layout : Layout)
    (id other : NodeId) :
    Prop :=
  (layout.shape? id = some .remainingInput ∧
    layout.shape? other = some .remainingInput) ∨
    ∃ expression,
      layout.expr? id = some expression ∧
        layout.expr? other = some expression

namespace Grammar

variable {grammar : Grammar}

/-- Whatever is placed in a legible grammar is legible. -/
theorem Places.legible
    (legible : grammar.Legible)
    {site : Site}
    {cursor : Cursor}
    {expression : Expr}
    (places : grammar.Places site cursor expression) :
    expression.Legible := by
  induction places with
  | rule rules here =>
      exact legible _ (rules ▸ List.mem_append_right _ List.mem_cons_self)
  | body whole wholeLegible =>
      cases wholeLegible with
      | unary notEnd bodyLegible =>
        exact bodyLegible
  | part whole wholeLegible =>
      cases wholeLegible with
      | group two each =>
        exact each _ (List.mem_append_right _ List.mem_cons_self)

section Analysis

variable
  (clean : grammar.defects = [])
  (options : Options)

include clean

/-- A placed expression is shown as itself. -/
theorem Places.shownExpr?_analyze
    {site : Site}
    {cursor : Cursor}
    {expression : Expr}
    (places : grammar.Places site cursor expression) :
    (grammar.layOut.analyze options).layout.shownExpr?
        (expression.topId cursor) =
      some expression := by
  unfold Layout.shownExpr?
  rw [places.shape?_analyze clean options]
  cases expression <;> exact places.expr?_analyze clean options

/-- A placed expression is shown as an expression that it is read back as. -/
theorem Places.showsAs_analyze
    (legible : grammar.Legible)
    {site : Site}
    {cursor : Cursor}
    {expression : Expr}
    (places : grammar.Places site cursor expression) :
    (grammar.layOut.analyze options).chart.ShowsAs
      (expression.topId cursor) expression := by
  have shape :
      (grammar.layOut.analyze options).chart.layout.shape?
          (expression.topId cursor) =
        some (expression.shapeAt grammar.scope cursor) :=
    places.shape?_analyze clean options
  have source :
      (grammar.layOut.analyze options).chart.layout.source
          (expression.topId cursor) =
        expression.source := by
    have node :
        (grammar.layOut.analyze options).chart.layout.node?
            (expression.topId cursor) =
          _ :=
      ((wellNumbered_layOut clean).node?_analyze options
        places.topId_lt).trans places.node?
    rw [Layout.source, node]
    rfl
  have read
      {site : Site}
      {cursor : Cursor}
      {expression : Expr}
      (places : grammar.Places site cursor expression) :=
    places.shownExpr?_analyze clean options
  refine
    { read := read places
      legible := places.legible legible
      text := ?_
      sideBySide := ?_ }
  · unfold Strand.elementText Expr.elementText
    rw [shape, source]
    cases expression with
    | group grouping parts =>
        cases grouping <;> rfl
    | _ =>
        rfl
  · unfold Layout.sideBySide
    rw [shape]
    cases expression with
    | group grouping parts =>
        cases grouping with
        | choice =>
            exact .cons (read places) .nil
        | sequence =>
            exact places.forall₂_topIds read
    | _ =>
        exact .cons (read places) .nil

omit clean in
/-- What is not an expression is the node for the remaining input. -/
theorem node?_analyze_of_le
    {id : NodeId}
    (notCounted : grammar.layOut.exprCount ≤ id)
    (present : id < (grammar.layOut.analyze options).layout.nodes.size) :
    (grammar.layOut.analyze options).layout.node? id =
      some grammar.layOut.remainderNode := by
  have sizeNodes := size_nodes_layOut grammar
  rcases grammar.layOut.layout_analyze options with same | extended
  · rw [same, sizeNodes] at present
    exact absurd present (Nat.not_lt.mpr notCounted)
  · rw [extended, Layout.withRemainder, Array.size_push, sizeNodes] at present
    have last : id = grammar.layOut.nodes.size := by
      rw [sizeNodes]
      exact Nat.le_antisymm (Nat.le_of_lt_succ present) notCounted
    rw [extended, last]
    exact Array.getElem?_push_size

/-- Every node of an analysis is shown as an expression that it is read back as. -/
theorem exists_showsAs
    (legible : grammar.Legible)
    {id : NodeId}
    (present : id < (grammar.layOut.analyze options).layout.nodes.size) :
    ∃ expression,
      (grammar.layOut.analyze options).chart.ShowsAs id expression := by
  by_cases counted : id < grammar.layOut.exprCount
  · obtain ⟨site, cursor, expression, places, rfl⟩ :=
      exists_places grammar counted
    exact ⟨expression, places.showsAs_analyze clean options legible⟩
  · have node :
        (grammar.layOut.analyze options).chart.layout.node? id = _ :=
      node?_analyze_of_le options (Nat.le_of_not_lt counted) present
    have shape :
        (grammar.layOut.analyze options).chart.layout.shape? id =
          some .remainingInput := by
      rw [Layout.shape?, node]
      rfl
    have read :
        (grammar.layOut.analyze options).chart.layout.shownExpr? id =
          some (.zeroOrMore .anyChar) := by
      rw [Layout.shownExpr?, shape]
    refine
      ⟨.zeroOrMore .anyChar,
        { read := read
          legible := .unary (by simp) (.terminal trivial)
          text := ?_
          sideBySide := ?_ }⟩
    · rw [Strand.elementText, shape, Layout.source, node]
      rfl
    · rw [Layout.sideBySide, shape]
      exact .cons read .nil

end Analysis

end Grammar

/-- What can be told of the ends of the input from what nodes show. -/
structure Chart.EndsAsShown
    (chart : Chart) :
    Prop where
  remainder :
    ∀ {id},
      chart.layout.shape? id = some .remainingInput →
      (chart.attrsOf id).endsInput = true
  anyChars :
    ∀ {id},
      chart.layout.expr? id = some (.zeroOrMore .anyChar) →
      (chart.attrsOf id).endsInput = false
  congr :
    ∀ {id other expression},
      chart.layout.expr? id = some expression →
      chart.layout.expr? other = some expression →
      (chart.attrsOf id).endsInput = (chart.attrsOf other).endsInput
  sequence :
    ∀ {id parts},
      chart.layout.shape? id = some (.group .sequence parts) →
      (chart.attrsOf id).endsInput =
        parts.any fun part => (chart.attrsOf part).endsInput
  /-- The remaining input is not part of a sequence. -/
  written :
    ∀ {id parts},
      chart.layout.shape? id = some (.group .sequence parts) →
      ∀ part ∈ parts,
        chart.layout.shape? part ≠ some .remainingInput

/-- What is known of consecutive parts does not depend on where they are placed. -/
theorem Expr.map_topIds_congr
    {known : NodeId → α}
    {cursor other : Cursor}
    {parts : List Expr}
    (each :
      ∀ before part after,
        parts = before ++ part :: after →
        known (part.topId (skipParts cursor before)) =
          known (part.topId (skipParts other before))) :
    (topIds cursor parts).map known = (topIds other parts).map known := by
  induction parts generalizing cursor other with
  | nil =>
      rfl
  | cons part rest inductionHypothesis =>
      have first :
          known (part.topId cursor) = known (part.topId other) :=
        each [] part rest rfl
      have later :=
        inductionHypothesis fun before later after same =>
          each (part :: before) later after (congrArg _ same)
      rw [topIds, topIds, List.map_cons, List.map_cons, first, later]

namespace Grammar

variable {grammar : Grammar}

/-- The same expression has the same attributes wherever it is placed. -/
theorem Places.attrs_eq
    (clean : grammar.defects = [])
    {site otherSite : Site}
    {cursor otherCursor : Cursor}
    {expression : Expr}
    (places : grammar.Places site cursor expression)
    (otherPlaces : grammar.Places otherSite otherCursor expression) :
    grammar.layOut.attrs.of (expression.topId cursor) =
      grammar.layOut.attrs.of (expression.topId otherCursor) := by
  have wellNumbered := wellNumbered_layOut clean
  induction expression generalizing site otherSite cursor otherCursor with
  | terminal item =>
      rw [wellNumbered.attrs_of_shape places.shape?,
        wellNumbered.attrs_of_shape otherPlaces.shape?]
      rfl
  | reference target =>
      obtain ⟨top, _, lookup⟩ := places.exists_lookup clean
      rw [wellNumbered.attrs_of_shape places.shape?,
        wellNumbered.attrs_of_shape otherPlaces.shape?]
      simp only [Expr.shapeAt, lookup, Option.getD_some, Shape.attrs]
  | unary operator body bodySame =>
      rw [wellNumbered.attrs_of_shape places.shape?,
        wellNumbered.attrs_of_shape otherPlaces.shape?]
      simp only [Expr.shapeAt, Shape.attrs,
        bodySame places.body otherPlaces.body]
  | group grouping parts partsSame =>
      have sameParts :
          (Expr.topIds cursor.skipCompound parts).map
              grammar.layOut.attrs.of =
            (Expr.topIds otherCursor.skipCompound parts).map
              grammar.layOut.attrs.of := by
        apply Expr.map_topIds_congr
        rintro before part after rfl
        exact partsSame part (by simp) places.part otherPlaces.part
      rw [wellNumbered.attrs_of_shape places.shape?,
        wellNumbered.attrs_of_shape otherPlaces.shape?]
      simp only [Expr.shapeAt, Shape.attrs, sameParts]

/-- Expressions are not the remaining input. -/
theorem shape?_analyze_ne_remainder
    (clean : grammar.defects = [])
    {options : Options}
    {id : NodeId}
    (counted : id < grammar.layOut.exprCount) :
    (grammar.layOut.analyze options).chart.layout.shape? id ≠
      some .remainingInput := by
  intro isRemainder
  obtain ⟨site, cursor, expression, places, rfl⟩ :=
    exists_places grammar counted
  have shape := places.shape?_analyze clean options
  cases expression <;> cases shape.symm.trans isRemainder

/-- The remaining input ends the input. -/
theorem endsInput_remainder
    (clean : grammar.defects = [])
    {options : Options}
    (wellFormed : (grammar.layOut.analyze options).wellFormed = true)
    {id : NodeId}
    (isRemainder :
      (grammar.layOut.analyze options).chart.layout.shape? id =
        some .remainingInput) :
    ((grammar.layOut.analyze options).chart.attrsOf id).endsInput =
      true := by
  have wellNumbered := wellNumbered_layOut clean
  have notCounted : grammar.layOut.exprCount ≤ id := by
    apply Nat.le_of_not_lt
    intro counted
    exact shape?_analyze_ne_remainder clean counted isRemainder
  rw [Layout.chart_analyze wellFormed] at isRemainder ⊢
  have present :
      id <
        (grammar.layOut.openChart options).layout.nodes.size := by
    apply Nat.lt_of_not_le
    intro outside
    simp [Layout.shape?, Layout.node?,
      Array.getElem?_eq_none outside] at isRemainder
  have sizeNodes := wellNumbered.size_nodes_openChart options
  have behind := (wellNumbered.openChart_of_le options notCounted).1
  unfold Layout.remainderStrands at sizeNodes behind
  split at sizeNodes
  case isTrue wanted =>
    rw [sizeNodes, List.length_singleton] at present
    have last : id = grammar.layOut.exprCount :=
      Nat.le_antisymm (Nat.le_of_lt_succ present) notCounted
    rw [if_pos wanted, if_pos ⟨rfl, last⟩] at behind
    exact congrArg Attrs.endsInput behind
  case isFalse =>
    rw [sizeNodes] at present
    exact absurd present (Nat.not_lt.mpr notCounted)

/-- In a well-formed analysis the ends of the input can be told. -/
theorem endsAsShown_analyze
    (clean : grammar.defects = [])
    {options : Options}
    (wellFormed : (grammar.layOut.analyze options).wellFormed = true) :
    (grammar.layOut.analyze options).chart.EndsAsShown := by
  have wellNumbered := wellNumbered_layOut clean
  have known
      {site : Site}
      {cursor : Cursor}
      {expression : Expr}
      (places : grammar.Places site cursor expression) :
      (grammar.layOut.analyze options).chart.attrsOf
          (expression.topId cursor) =
        grammar.layOut.attrs.of (expression.topId cursor) :=
    wellNumbered.attrsOf_analyze places.topId_lt
  have inSequence
      {id : NodeId}
      {parts : List NodeId}
      (shape :
        (grammar.layOut.analyze options).chart.layout.shape? id =
          some (.group .sequence parts)) :
      grammar.layOut.shape? id = some (.group .sequence parts) :=
    Layout.shape?_of_shape?_analyze shape nofun
  refine
    { remainder := ?_
      anyChars := ?_
      congr := ?_
      sequence := ?_
      written := ?_ }
  · exact endsInput_remainder clean wellFormed
  · intro id read
    obtain ⟨site, cursor, places, rfl⟩ :=
      exists_places_of_expr?_analyze clean options read
    rw [known places, wellNumbered.attrs_of_shape places.shape?]
    rfl
  · intro id other expression read otherRead
    obtain ⟨site, cursor, places, rfl⟩ :=
      exists_places_of_expr?_analyze clean options read
    obtain ⟨otherSite, otherCursor, otherPlaces, rfl⟩ :=
      exists_places_of_expr?_analyze clean options otherRead
    rw [known places, known otherPlaces, places.attrs_eq clean otherPlaces]
  · intro id parts shape
    have found := inSequence shape
    have counted := wellNumbered.exists_shape_iff.mp ⟨_, found⟩
    have sameParts :
        parts.map grammar.layOut.attrs.of =
          parts.map (grammar.layOut.analyze options).chart.attrsOf := by
      apply List.map_congr_left
      intro part isPart
      exact
        (wellNumbered.attrsOf_analyze
          (wellNumbered.mentioned_lt found isPart)).symm
    rw [wellNumbered.attrsOf_analyze counted,
      wellNumbered.attrs_of_shape found, Shape.attrs, sameParts]
    exact List.any_map
  · intro id parts shape part isPart
    exact
      shape?_analyze_ne_remainder clean
        (wellNumbered.mentioned_lt (inSequence shape) isPart)

end Grammar

end PegAudit
