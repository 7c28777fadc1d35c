import PegAudit.Layout.Build

namespace PegAudit

/-!
# Placements

Numbering walks over the expressions of a grammar with a cursor.  A placement
is one stop of that walk: an expression, the site it stands at, and the cursor
it is numbered from.  Every placed expression is the node with its number, and
every number of a layout is that of some placed expression.
-/

/-- Induction over expressions, with a hypothesis for each part of a group. -/
@[elab_as_elim, induction_eliminator]
theorem Expr.induction
    {motive : Expr → Prop}
    (terminal : ∀ item, motive (.terminal item))
    (reference : ∀ target, motive (.reference target))
    (unary :
      ∀ operator body, motive body → motive (.unary operator body))
    (group :
      ∀ grouping parts,
        (∀ part ∈ parts, motive part) →
        motive (.group grouping parts)) :
    ∀ expression, motive expression
  | .terminal item =>
      terminal item
  | .reference target =>
      reference target
  | .unary operator body =>
      unary operator body
        (Expr.induction terminal reference unary group body)
  | .group grouping parts =>
      group grouping parts fun part _ =>
        Expr.induction terminal reference unary group part

namespace Cursor

/-- Move both cursors on by the numbers taken in each block. -/
def advance
    (cursor taken : Cursor) :
    Cursor :=
  { terminal := cursor.terminal + taken.terminal
    compound := cursor.compound + taken.compound }

/-- Moving on twice is moving on by the sum. -/
theorem advance_assoc
    (cursor first second : Cursor) :
    (cursor.advance first).advance second =
      cursor.advance (first.advance second) := by
  simp [advance, Nat.add_assoc]

/-- Is the number taken between two states of the cursor? -/
def Between
    (first last : Cursor)
    (id : NodeId) :
    Prop :=
  (first.terminal ≤ id ∧ id < last.terminal) ∨
    (first.compound ≤ id ∧ id < last.compound)

/-- A number taken on the way through a middle state is taken before or after it. -/
theorem Between.split
    {first last : Cursor}
    {id : NodeId}
    (between : Between first last id)
    (middle : Cursor) :
    Between first middle id ∨ Between middle last id := by
  unfold Between at *
  lia

end Cursor

namespace NodeBlocks

/-- The numbers that blocks of nodes take. -/
def extent
    (blocks : NodeBlocks) :
    Cursor :=
  { terminal := blocks.terminals.length
    compound := blocks.compounds.length }

/-- Consecutive blocks take the numbers of both. -/
@[simp] theorem extent_append
    (first later : NodeBlocks) :
    (first.append later).extent =
      first.extent.advance later.extent := by
  simp [extent, append, Cursor.advance]

/-- Blocks are put together in any grouping. -/
theorem append_assoc
    (first second third : NodeBlocks) :
    (first.append second).append third =
      first.append (second.append third) := by
  simp [append]

/-- A node above its parts is a block of its own in front of them. -/
theorem under_eq_append
    (node : Node)
    (parts : NodeBlocks) :
    under node parts = (under node empty).append parts :=
  rfl

end NodeBlocks

namespace Expr

/-- Laying out consecutive parts is laying out the first ones and then the others. -/
theorem layOutParts_append
    (scope : Scope)
    (site : Site)
    (position : Nat)
    (cursor : Cursor)
    (before after : List Expr) :
    layOutParts scope site position cursor (before ++ after) =
      (layOutParts scope site position cursor before).append
        (layOutParts scope site (position + before.length)
          (skipParts cursor before) after) := by
  induction before generalizing cursor position with
  | nil =>
      rfl
  | cons part rest inductionHypothesis =>
      simp only [List.cons_append, layOutParts, inductionHypothesis,
        NodeBlocks.append_assoc, skipParts, List.length_cons]
      congr 3
      omega

/--
Skipping parts takes as many numbers as they have nodes, if that holds for each
of them.
-/
theorem advance_extent_layOutParts
    {scope : Scope}
    {parts : List Expr}
    (eachTakes :
      ∀ part ∈ parts,
        ∀ (site : Site) (other cursor : Cursor),
          cursor.advance (part.layOut scope site other).extent =
            part.skip cursor)
    (site : Site)
    (position : Nat)
    (other cursor : Cursor) :
    cursor.advance
        (layOutParts scope site position other parts).extent =
      skipParts cursor parts := by
  induction parts generalizing position other cursor with
  | nil =>
      rfl
  | cons part rest inductionHypothesis =>
      have restTakes :=
        inductionHypothesis fun later inRest =>
          eachTakes later (List.mem_cons_of_mem part inRest)
      rw [layOutParts, NodeBlocks.extent_append,
        ← Cursor.advance_assoc,
        eachTakes part List.mem_cons_self, restTakes]
      rfl

/--
Skipping an expression takes as many numbers as it has nodes, wherever it is
laid out.
-/
theorem advance_extent_layOut
    (scope : Scope)
    (expression : Expr)
    (site : Site)
    (other cursor : Cursor) :
    cursor.advance (expression.layOut scope site other).extent =
      expression.skip cursor := by
  induction expression generalizing site other cursor with
  | terminal item =>
      rfl
  | reference target =>
      rfl
  | unary operator body bodyTakes =>
      rw [layOut, NodeBlocks.under_eq_append,
        NodeBlocks.extent_append, ← Cursor.advance_assoc, bodyTakes]
      rfl
  | group grouping parts partsTake =>
      rw [layOut, NodeBlocks.under_eq_append,
        NodeBlocks.extent_append, ← Cursor.advance_assoc,
        advance_extent_layOutParts partsTake]
      rfl

/-- Skipping never moves the cursor back. -/
theorem le_skip
    (expression : Expr)
    (cursor : Cursor) :
    cursor.terminal ≤ (expression.skip cursor).terminal ∧
      cursor.compound ≤ (expression.skip cursor).compound := by
  rw [← advance_extent_layOut [] expression default cursor cursor]
  exact ⟨Nat.le_add_right _ _, Nat.le_add_right _ _⟩

/-- Skipping parts never moves the cursor back. -/
theorem le_skipParts
    (parts : List Expr)
    (cursor : Cursor) :
    cursor.terminal ≤ (skipParts cursor parts).terminal ∧
      cursor.compound ≤ (skipParts cursor parts).compound := by
  rw [← advance_extent_layOutParts
    (fun part _ => advance_extent_layOut [] part)
    default 0 cursor cursor]
  exact ⟨Nat.le_add_right _ _, Nat.le_add_right _ _⟩

/-- An expression takes its own number. -/
theorem between_topId
    (expression : Expr)
    (cursor : Cursor) :
    Cursor.Between cursor (expression.skip cursor)
      (expression.topId cursor) := by
  cases expression with
  | terminal item =>
      exact .inl ⟨Nat.le_refl _, Nat.lt_succ_self _⟩
  | reference target =>
      exact .inr ⟨Nat.le_refl _, Nat.lt_succ_self _⟩
  | unary operator body =>
      exact .inr ⟨Nat.le_refl _, (body.le_skip cursor.skipCompound).2⟩
  | group grouping parts =>
      exact .inr ⟨Nat.le_refl _, (le_skipParts parts cursor.skipCompound).2⟩

/-- A number taken by consecutive expressions is taken by one of them. -/
theorem exists_part_of_between
    {cursor : Cursor}
    {parts : List Expr}
    {id : NodeId}
    (between : Cursor.Between cursor (skipParts cursor parts) id) :
    ∃ before part after,
      parts = before ++ part :: after ∧
        Cursor.Between (skipParts cursor before)
          (part.skip (skipParts cursor before)) id := by
  induction parts generalizing cursor with
  | nil =>
      simp only [skipParts, Cursor.Between] at between
      lia
  | cons part rest inductionHypothesis =>
      rcases between.split (part.skip cursor) with inPart | inRest
      · exact ⟨[], part, rest, rfl, inPart⟩
      · obtain ⟨before, later, after, restShape, inLater⟩ :=
          inductionHypothesis inRest
        exact ⟨part :: before, later, after, by simp [restShape], inLater⟩

/-- The shape of an expression that is numbered from a cursor. -/
def shapeAt
    (scope : Scope)
    (cursor : Cursor) :
    Expr →
    Shape NodeId
  | .terminal item =>
      .terminal item
  | .reference target =>
      .reference target ((scope.lookup target).getD cursor.compound)
  | .unary operator body =>
      .unary operator (body.topId cursor.skipCompound)
  | .group grouping parts =>
      .group grouping (topIds cursor.skipCompound parts)

end Expr

namespace Grammar

/-- The nodes of a grammar in their two blocks. -/
def blocks
    (grammar : Grammar) :
    NodeBlocks :=
  layOutRules grammar.scope grammar.cursor grammar.rules

/-- Laying out consecutive rules is laying out the first ones and then the others. -/
theorem layOutRules_append
    (scope : Scope)
    (cursor : Cursor)
    (before after : List Rule) :
    layOutRules scope cursor (before ++ after) =
      (layOutRules scope cursor before).append
        (layOutRules scope
          (Expr.skipParts cursor (before.map Rule.body)) after) := by
  induction before generalizing cursor with
  | nil =>
      rfl
  | cons rule rest inductionHypothesis =>
      simp [layOutRules, inductionHypothesis, NodeBlocks.append_assoc,
        Expr.skipParts]

/-- Rules take the numbers of their bodies. -/
theorem advance_extent_layOutRules
    (scope : Scope)
    (rules : List Rule)
    (other cursor : Cursor) :
    cursor.advance (layOutRules scope other rules).extent =
      Expr.skipParts cursor (rules.map Rule.body) := by
  induction rules generalizing other cursor with
  | nil =>
      rfl
  | cons rule rest inductionHypothesis =>
      rw [layOutRules, NodeBlocks.extent_append,
        ← Cursor.advance_assoc, Expr.advance_extent_layOut,
        inductionHypothesis]
      rfl

/-- Numbers of nonterminals start where those of terminals end. -/
theorem compound_cursor
    (grammar : Grammar) :
    grammar.cursor.compound = grammar.blocks.extent.terminal := by
  have taken :=
    advance_extent_layOutRules grammar.scope grammar.rules
      grammar.cursor ⟨0, 0⟩
  have terminals := congrArg Cursor.terminal taken
  simpa [Cursor.advance, cursor, bodies, blocks] using terminals.symm

/-- The cursor after all rules. -/
theorem skipParts_bodies
    (grammar : Grammar) :
    Expr.skipParts grammar.cursor grammar.bodies =
      grammar.cursor.advance grammar.blocks.extent :=
  (advance_extent_layOutRules grammar.scope grammar.rules
    grammar.cursor grammar.cursor).symm

/-- The terminals are the first block. -/
theorem terminalCount_layOut
    (grammar : Grammar) :
    grammar.layOut.terminalCount = grammar.cursor.compound := by
  have last : grammar.layOut.terminalCount =
      (Expr.skipParts grammar.cursor grammar.bodies).terminal :=
    rfl
  rw [last, skipParts_bodies, compound_cursor]
  exact Nat.zero_add _

/-- The nonterminals are the second block. -/
theorem exprCount_layOut
    (grammar : Grammar) :
    grammar.layOut.exprCount =
      grammar.cursor.compound + grammar.blocks.extent.compound := by
  have last : grammar.layOut.exprCount =
      (Expr.skipParts grammar.cursor grammar.bodies).compound :=
    rfl
  rw [last, skipParts_bodies]
  rfl

/-- Every number up to the count has a node, and no other. -/
theorem size_nodes_layOut
    (grammar : Grammar) :
    grammar.layOut.nodes.size = grammar.layOut.exprCount := by
  rw [exprCount_layOut, compound_cursor]
  simp [layOut, blocks, NodeBlocks.extent]

/-- The expression stands at the site and is numbered from the cursor. -/
inductive Places (grammar : Grammar) :
    Site →
    Cursor →
    Expr →
    Prop
  /-- A rule body is numbered after the bodies of the rules before it. -/
  | rule
      {before after : List Rule}
      {rule : Rule}
      {cursor : Cursor}
      (rules : grammar.rules = before ++ rule :: after)
      (here :
        cursor =
          Expr.skipParts grammar.cursor (before.map Rule.body)) :
      Places grammar
        { name := rule.name
          isRule := true
          rule := rule.body.topId cursor }
        cursor rule.body
  /-- The body of an operator is numbered right after the operator. -/
  | body
      {site : Site}
      {cursor : Cursor}
      {operator : Operator}
      {body : Expr}
      (whole : Places grammar site cursor (.unary operator body)) :
      Places grammar (site.part 1) cursor.skipCompound body
  /-- A part of a group is numbered after the group and the parts before it. -/
  | part
      {site : Site}
      {cursor : Cursor}
      {grouping : Grouping}
      {before after : List Expr}
      {part : Expr}
      (whole :
        Places grammar site cursor
          (.group grouping (before ++ part :: after))) :
      Places grammar (site.part (1 + before.length))
        (Expr.skipParts cursor.skipCompound before) part

/-- The blocks stand among the nodes of the grammar from the cursor on. -/
def Holds
    (grammar : Grammar)
    (cursor : Cursor)
    (blocks : NodeBlocks) :
    Prop :=
  ∃ before after : NodeBlocks,
    grammar.blocks = before.append (blocks.append after) ∧
      grammar.cursor.advance before.extent = cursor

namespace Holds

/-- The first of two consecutive blocks stands where both stand. -/
theorem left
    {grammar : Grammar}
    {cursor : Cursor}
    {first later : NodeBlocks}
    (holds : grammar.Holds cursor (first.append later)) :
    grammar.Holds cursor first := by
  obtain ⟨before, after, blocks, here⟩ := holds
  exact
    ⟨before, later.append after,
      by rw [blocks, NodeBlocks.append_assoc], here⟩

/-- The second of two consecutive blocks stands behind the first. -/
theorem right
    {grammar : Grammar}
    {cursor : Cursor}
    {first later : NodeBlocks}
    (holds : grammar.Holds cursor (first.append later)) :
    grammar.Holds (cursor.advance first.extent) later := by
  obtain ⟨before, after, blocks, here⟩ := holds
  refine ⟨before.append first, after, ?_, ?_⟩
  · rw [blocks, NodeBlocks.append_assoc, NodeBlocks.append_assoc]
  · rw [NodeBlocks.extent_append, ← Cursor.advance_assoc, here]

/-- Blocks that stand in the layout end before the counts. -/
theorem advance_le
    {grammar : Grammar}
    {cursor : Cursor}
    {blocks : NodeBlocks}
    (holds : grammar.Holds cursor blocks) :
    (cursor.advance blocks.extent).terminal ≤
        grammar.layOut.terminalCount ∧
      (cursor.advance blocks.extent).compound ≤
        grammar.layOut.exprCount := by
  obtain ⟨before, after, shape, rfl⟩ := holds
  have extent := congrArg NodeBlocks.extent shape
  have zero : grammar.cursor.terminal = 0 := rfl
  have starts := compound_cursor grammar
  simp only [NodeBlocks.extent_append] at extent
  rw [extent] at starts
  rw [exprCount_layOut, terminalCount_layOut, extent]
  simp only [Cursor.advance] at *
  lia

/-- The node of a terminal has the number the cursor gives. -/
theorem node?_terminal
    {grammar : Grammar}
    {cursor : Cursor}
    {node : Node}
    (holds : grammar.Holds cursor (.ofTerminal node)) :
    grammar.layOut.node? cursor.terminal = some node := by
  obtain ⟨before, after, shape, rfl⟩ := holds
  have terminals := congrArg NodeBlocks.terminals shape
  change (grammar.blocks.terminals ++ grammar.blocks.compounds).toArray[
    (0 + before.terminals.length)]? = some node
  rw [terminals]
  simp [NodeBlocks.append, NodeBlocks.ofTerminal]

/-- The node of a nonterminal has the number the cursor gives. -/
theorem node?_compound
    {grammar : Grammar}
    {cursor : Cursor}
    {node : Node}
    {parts : NodeBlocks}
    (holds : grammar.Holds cursor (.under node parts)) :
    grammar.layOut.node? cursor.compound = some node := by
  obtain ⟨before, after, shape, rfl⟩ := holds
  have compounds := congrArg NodeBlocks.compounds shape
  change (grammar.blocks.terminals ++ grammar.blocks.compounds).toArray[
    (grammar.cursor.compound + before.compounds.length)]? = some node
  rw [compound_cursor, compounds]
  simp [NodeBlocks.extent, NodeBlocks.append, NodeBlocks.under]

end Holds

/-- The nodes of a placed expression stand from its cursor on. -/
theorem Places.holds
    {grammar : Grammar}
    {site : Site}
    {cursor : Cursor}
    {expression : Expr}
    (places : grammar.Places site cursor expression) :
    grammar.Holds cursor
      (expression.layOut grammar.scope site cursor) := by
  induction places with
  | @rule before after rule cursor rules here =>
      refine
        ⟨layOutRules grammar.scope grammar.cursor before,
          layOutRules grammar.scope (rule.body.skip cursor) after,
          ?_, ?_⟩
      · rw [blocks, rules, layOutRules_append, ← here]
        rfl
      · rw [advance_extent_layOutRules, here]
  | @body site cursor operator body whole wholeHolds =>
      rw [Expr.layOut, NodeBlocks.under_eq_append] at wholeHolds
      exact wholeHolds.right
  | @part site cursor grouping before after part whole wholeHolds =>
      rw [Expr.layOut, NodeBlocks.under_eq_append,
        Expr.layOutParts_append] at wholeHolds
      have partHolds := wholeHolds.right.right.left
      rw [Expr.advance_extent_layOutParts fun earlier _ =>
        Expr.advance_extent_layOut grammar.scope earlier] at partHolds
      exact partHolds

namespace Places

/-- A placed expression is the node with its number. -/
theorem node?
    {grammar : Grammar}
    {site : Site}
    {cursor : Cursor}
    {expression : Expr}
    (places : grammar.Places site cursor expression) :
    grammar.layOut.node? (expression.topId cursor) =
      some
        (site.node (expression.shapeAt grammar.scope cursor)
          expression) := by
  have holds := places.holds
  cases expression with
  | terminal item =>
      exact holds.node?_terminal
  | reference target =>
      exact holds.node?_compound
  | unary operator body =>
      exact holds.node?_compound
  | group grouping parts =>
      exact holds.node?_compound

/-- The numbers of a placed expression and of all below it stay below the counts. -/
theorem skip_le
    {grammar : Grammar}
    {site : Site}
    {cursor : Cursor}
    {expression : Expr}
    (places : grammar.Places site cursor expression) :
    (expression.skip cursor).terminal ≤ grammar.layOut.terminalCount ∧
      (expression.skip cursor).compound ≤ grammar.layOut.exprCount := by
  have within := places.holds.advance_le
  rwa [Expr.advance_extent_layOut] at within

/-- Numbers of nonterminals lie behind all terminals. -/
theorem terminalCount_le
    {grammar : Grammar}
    {site : Site}
    {cursor : Cursor}
    {expression : Expr}
    (places : grammar.Places site cursor expression) :
    grammar.layOut.terminalCount ≤ cursor.compound := by
  obtain ⟨before, after, shape, rfl⟩ := places.holds
  rw [terminalCount_layOut]
  exact Nat.le_add_right _ _

/-- Every number that a placed expression takes is that of a placed expression. -/
theorem exists_of_between
    {grammar : Grammar}
    {site : Site}
    {cursor : Cursor}
    {expression : Expr}
    (places : grammar.Places site cursor expression)
    {id : NodeId}
    (between : Cursor.Between cursor (expression.skip cursor) id) :
    ∃ site cursor expression,
      grammar.Places site cursor expression ∧
        expression.topId cursor = id := by
  induction expression generalizing site cursor with
  | terminal item =>
      refine ⟨site, cursor, .terminal item, places, ?_⟩
      simp only [Cursor.Between, Expr.skip, Cursor.skipTerminal] at between
      simp only [Expr.topId]
      lia
  | reference target =>
      refine ⟨site, cursor, .reference target, places, ?_⟩
      simp only [Cursor.Between, Expr.skip, Cursor.skipCompound] at between
      simp only [Expr.topId]
      lia
  | unary operator body inBody =>
      rcases between.split cursor.skipCompound with atTop | below
      · refine ⟨site, cursor, .unary operator body, places, ?_⟩
        simp only [Cursor.Between, Cursor.skipCompound] at atTop
        simp only [Expr.topId]
        lia
      · exact inBody places.body below
  | group grouping parts inPart =>
      rcases between.split cursor.skipCompound with atTop | below
      · refine ⟨site, cursor, .group grouping parts, places, ?_⟩
        simp only [Cursor.Between, Cursor.skipCompound] at atTop
        simp only [Expr.topId]
        lia
      · obtain ⟨before, part, after, rfl, within⟩ :=
          Expr.exists_part_of_between below
        exact inPart part (by simp) places.part within

end Places

/-- The body of a rule is placed as one, behind the bodies of the rules before it. -/
theorem exists_places_body
    {grammar : Grammar}
    {before after : List Expr}
    {body : Expr}
    (split : grammar.bodies = before ++ body :: after) :
    ∃ site,
      grammar.Places site (Expr.skipParts grammar.cursor before) body ∧
        site.isRule = true ∧
        site.rule =
          body.topId (Expr.skipParts grammar.cursor before) := by
  obtain ⟨earlier, laterRules, rules, rfl, laterBodies⟩ :=
    List.map_eq_append_iff.mp split
  obtain ⟨rule, later, rfl, rfl, rfl⟩ :=
    List.map_eq_cons_iff.mp laterBodies
  exact ⟨_, .rule rules rfl, rfl, rfl⟩

/-- Every number of a layout is that of a placed expression. -/
theorem exists_places
    (grammar : Grammar)
    {id : NodeId}
    (counted : id < grammar.layOut.exprCount) :
    ∃ site cursor expression,
      grammar.Places site cursor expression ∧
        expression.topId cursor = id := by
  have between :
      Cursor.Between grammar.cursor
        (Expr.skipParts grammar.cursor grammar.bodies) id := by
    have starts := terminalCount_layOut grammar
    have zero : grammar.cursor.terminal = 0 := rfl
    simp only [layOut] at counted starts
    unfold Cursor.Between
    lia
  obtain ⟨before, body, after, bodies, inBody⟩ :=
    Expr.exists_part_of_between between
  obtain ⟨site, places, _⟩ := exists_places_body bodies
  exact places.exists_of_between inBody

end Grammar

end PegAudit
