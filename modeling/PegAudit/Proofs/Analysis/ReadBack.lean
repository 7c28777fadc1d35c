import PegAudit.Proofs.Analysis.View
import PegAudit.Proofs.Layout.ReadBack
import PegAudit.Proofs.Matching.Alike

namespace PegAudit

/-!
# Nodes of one expression match alike

The nodes of an analysis are read back as the expressions they were made from.
The remaining input is shown as any number of characters and is read back as
that.  Nodes that are read back as the same expression match alike, for their
parts are read back as the same parts and their references lead to the same
rule.
-/

/-- Elements that are related to the same ones are related through them. -/
theorem forall₂_of_both
    {related : α → β → Prop}
    {elements others : List α}
    {shared : List β}
    (first : List.Forall₂ related elements shared)
    (second : List.Forall₂ related others shared) :
    List.Forall₂
      (fun element other =>
        ∃ between, related element between ∧ related other between)
      elements others := by
  induction first generalizing others with
  | nil =>
      cases second
      exact .nil
  | cons here _ inductionHypothesis =>
      cases second with
      | cons otherHere otherLater =>
          exact
            .cons ⟨_, here, otherHere⟩ (inductionHypothesis otherLater)

namespace Layout

/-- The expression at a node; the remaining input is any number of characters. -/
def shownExpr?
    (layout : Layout)
    (id : NodeId) :
    Option Expr :=
  match layout.shape? id with
  | some .remainingInput => some (.zeroOrMore .anyChar)
  | _ => layout.expr? id

/-- The nodes that stand side by side where a node is shown: the parts of a sequence. -/
def sideBySide
    (layout : Layout)
    (id : NodeId) :
    List NodeId :=
  match layout.shape? id with
  | some (.group .sequence parts) => parts
  | _ => [id]

/-- Running side by side what stands so is running one after the other. -/
theorem continueAlike_sideBySide
    (layout : Layout)
    (elements : List NodeId) :
    Matching.ContinueAlike layout.view elements
      (elements.flatMap layout.sideBySide) := by
  induction elements with
  | nil =>
      exact .refl []
  | cons id others inductionHypothesis =>
      rw [List.flatMap_cons]
      unfold sideBySide
      split
      case h_1 parts shape =>
        exact
          (Matching.ContinueAlike.sequence shape others).trans
            (inductionHypothesis.append_left parts)
      case h_2 =>
        exact inductionHypothesis.append_left [id]

end Layout

/-- What relates each part to its number relates the parts to their numbers. -/
theorem Expr.EachPart.forall₂_topIds
    {related : NodeId → Expr → Prop}
    {cursor : Cursor}
    {parts : List Expr}
    (each :
      EachPart (fun cursor part => related (part.topId cursor) part) cursor
        parts) :
    List.Forall₂ related (topIds cursor parts) parts := by
  induction each with
  | nil =>
      exact .nil
  | cons first _ inductionHypothesis =>
      exact .cons first inductionHypothesis

namespace Grammar

variable {grammar : Grammar}

/-- What holds of every placed expression and its number holds of all parts. -/
theorem Places.forall₂_topIds
    {site : Site}
    {cursor : Cursor}
    {grouping : Grouping}
    {parts : List Expr}
    (whole : grammar.Places site cursor (.group grouping parts))
    {related : NodeId → Expr → Prop}
    (each :
      ∀ {inside : Site}
        {inner : Cursor}
        {part : Expr},
        grammar.Places inside inner part →
        related (part.topId inner) part) :
    List.Forall₂ related (Expr.topIds cursor.skipCompound parts) parts := by
  apply Expr.EachPart.forall₂_topIds
  apply Expr.EachPart.of_split
  rintro before part after rfl
  exact each whole.part

/-- Two numbers are read back as the same expression. -/
def SameExpr
    (grammar : Grammar)
    (id other : NodeId) :
    Prop :=
  ∃ expression,
    grammar.layOut.expr? id = some expression ∧
      grammar.layOut.expr? other = some expression

/-- Nodes of one expression have alike shapes with parts of the same expressions. -/
theorem simulates_sameExpr
    (clean : grammar.defects = []) :
    Matching.Simulates grammar.layOut.view grammar.SameExpr := by
  intro id other shape same found
  obtain ⟨expression, read, otherRead⟩ := same
  obtain ⟨site, cursor, places, rfl⟩ := exists_places_of_expr? read
  obtain ⟨otherSite, otherCursor, otherPlaces, rfl⟩ :=
    exists_places_of_expr? otherRead
  have isShape : expression.shapeAt grammar.scope cursor = shape :=
    Option.some.inj (places.shape?.symm.trans found)
  subst isShape
  refine ⟨_, otherPlaces.shape?, ?_⟩
  cases expression with
  | terminal item =>
      exact .terminal item
  | reference target =>
      obtain ⟨top, isTop, lookup⟩ := places.exists_lookup clean
      obtain ⟨_, _, _, topPlaces, rfl, _⟩ :=
        exists_places_of_mem_topIds isTop
      simp only [Expr.shapeAt, lookup, Option.getD_some]
      exact .reference ⟨_, topPlaces.expr?_eq, topPlaces.expr?_eq⟩
  | unary operator body =>
      exact
        .unary ⟨body, places.body.expr?_eq, otherPlaces.body.expr?_eq⟩
  | group grouping parts =>
      have partsRead
          {site : Site}
          {cursor : Cursor}
          (places :
            grammar.Places site cursor (.group grouping parts)) :
          List.Forall₂
            (fun id part => grammar.layOut.expr? id = some part)
            (Expr.topIds cursor.skipCompound parts) parts :=
        places.forall₂_topIds fun partPlaces => partPlaces.expr?_eq
      exact
        .group (forall₂_of_both (partsRead places) (partsRead otherPlaces))

/-- Nodes of one expression match alike. -/
theorem SameExpr.matchAlike
    (clean : grammar.defects = [])
    {id other : NodeId}
    (same : grammar.SameExpr id other) :
    Matching.MatchAlike grammar.layOut.view id other := by
  apply Matching.matchAlike_of_simulates (simulates_sameExpr clean) _ same
  rintro id other ⟨expression, read, otherRead⟩
  exact ⟨expression, otherRead, read⟩

section Analysis

variable
  (clean : grammar.defects = [])
  (options : Options)

include clean

/-- A placed expression has its shape in an analysis. -/
theorem Places.shape?_analyze
    {site : Site}
    {cursor : Cursor}
    {expression : Expr}
    (places : grammar.Places site cursor expression) :
    (grammar.layOut.analyze options).layout.shape?
        (expression.topId cursor) =
      some (expression.shapeAt grammar.scope cursor) :=
  (Layout.shape?_analyze (wellNumbered_layOut clean)
    places.topId_lt).trans places.shape?

/-- Placed expressions are read back from an analysis. -/
theorem Places.expr?_analyze
    {site : Site}
    {cursor : Cursor}
    {expression : Expr}
    (places : grammar.Places site cursor expression) :
    (grammar.layOut.analyze options).layout.expr?
        (expression.topId cursor) =
      some expression := by
  rw [Layout.expr?, Layout.exprCount_analyze]
  exact
    places.exprWithin?_eq
      (fun counted =>
        Layout.shape?_analyze (wellNumbered_layOut clean) counted)
      places.total_skip_le

/-- Whatever is read back from a node of an analysis is placed there. -/
theorem exists_places_of_expr?_analyze
    {id : NodeId}
    {expression : Expr}
    (read :
      (grammar.layOut.analyze options).layout.expr? id =
        some expression) :
    ∃ site cursor,
      grammar.Places site cursor expression ∧
        expression.topId cursor = id := by
  obtain ⟨shape, found, isWritten⟩ := exists_shape_of_expr? read
  obtain ⟨site, cursor, placed, places, rfl, _⟩ :=
    exists_places_of_shape?
      (Layout.shape?_of_shape?_analyze found isWritten)
  cases (places.expr?_analyze clean options).symm.trans read
  exact ⟨site, cursor, places, rfl⟩

/-- What is shown of a node is the remaining input or a placed expression. -/
theorem exists_places_of_shownExpr?
    {id : NodeId}
    {expression : Expr}
    (read :
      (grammar.layOut.analyze options).layout.shownExpr? id =
        some expression) :
    ((grammar.layOut.analyze options).layout.shape? id =
        some .remainingInput ∧
      expression = .zeroOrMore .anyChar) ∨
      ∃ site cursor,
        grammar.Places site cursor expression ∧
          expression.topId cursor = id := by
  unfold Layout.shownExpr? at read
  split at read
  case h_1 isRemainder =>
    exact .inl ⟨isRemainder, (Option.some.inj read).symm⟩
  case h_2 =>
    exact .inr (exists_places_of_expr?_analyze clean options read)

/-- A node at which any number of characters is placed takes all there is. -/
theorem takesAll_of_places
    {site : Site}
    {cursor : Cursor}
    (places :
      grammar.Places site cursor (.zeroOrMore .anyChar)) :
    Matching.TakesAll (grammar.layOut.analyze options).layout.view
      ((Expr.zeroOrMore .anyChar).topId cursor) := by
  apply Matching.takesAll_of_anyChars
  · exact places.shape?_analyze clean options
  · exact places.body.shape?_analyze clean options

/-- Nodes of an analysis that show the same expression match alike. -/
theorem matchAlike_of_shownExpr?
    {id other : NodeId}
    {expression : Expr}
    (read :
      (grammar.layOut.analyze options).layout.shownExpr? id =
        some expression)
    (otherRead :
      (grammar.layOut.analyze options).layout.shownExpr? other =
        some expression) :
    Matching.MatchAlike (grammar.layOut.analyze options).layout.view id
      other := by
  have wellNumbered := wellNumbered_layOut clean
  rcases exists_places_of_shownExpr? clean options read with
    ⟨isRemainder, isAny⟩ | ⟨site, cursor, places, rfl⟩
  · have takesAll := Matching.takesAll_of_remainingInput isRemainder
    rcases exists_places_of_shownExpr? clean options otherRead with
      ⟨otherIsRemainder, _⟩ | ⟨_, _, otherPlaces, rfl⟩
    · exact
        takesAll.matchAlike
          (Matching.takesAll_of_remainingInput otherIsRemainder)
    · subst isAny
      exact
        takesAll.matchAlike (takesAll_of_places clean options otherPlaces)
  · rcases exists_places_of_shownExpr? clean options otherRead with
      ⟨otherIsRemainder, isAny⟩ | ⟨_, _, otherPlaces, rfl⟩
    · subst isAny
      exact
        (takesAll_of_places clean options places).matchAlike
          (Matching.takesAll_of_remainingInput otherIsRemainder)
    · have alike :=
        SameExpr.matchAlike clean
          ⟨expression, places.expr?_eq, otherPlaces.expr?_eq⟩
      refine
        { succeeds_iff := ?_
          fails_iff := ?_ }
      · intro input rest
        simpa only [Succeeds,
          Layout.runs_analyze_iff wellNumbered places.topId_lt,
          Layout.runs_analyze_iff wellNumbered otherPlaces.topId_lt] using
          alike.succeeds_iff
      · intro input
        simpa only [Fails,
          Layout.runs_analyze_iff wellNumbered places.topId_lt,
          Layout.runs_analyze_iff wellNumbered otherPlaces.topId_lt] using
          alike.fails_iff

end Analysis

end Grammar

end PegAudit
