import PegAudit.Layout.Filling
import PegAudit.Proofs.Layout.Numbers

namespace PegAudit

/-!
# Filling agrees with counting

Filling the slots of a grammar gives every rule the number counted beforehand,
writes every slot exactly once, and ends with the nodes of the layout.  Step by
step, filling leaves the cursor where counting does, writes the numbers that
the expression takes, and writes to each the node that the layout has there.
-/

/-- The written slots hold the nodes that the layout has there. -/
structure Slots.Holds
    (layout : Layout)
    (slots : Slots) :
    Prop where
  size_nodes :
    slots.nodes.size = layout.exprCount
  written :
    ∀ id ∈ slots.written, slots.nodes[id]? = some (layout.node? id)

namespace Slots.Holds

variable
  {layout : Layout}
  {slots : Slots}

/-- Taking a number of a terminal writes nothing. -/
theorem takeTerminal
    (holds : slots.Holds layout) :
    slots.takeTerminal.Holds layout :=
  ⟨holds.size_nodes, holds.written⟩

/-- Taking another number writes nothing. -/
theorem takeCompound
    (holds : slots.Holds layout) :
    slots.takeCompound.Holds layout :=
  ⟨holds.size_nodes, holds.written⟩

/-- Writing the node that the layout has keeps the slots as in the layout. -/
theorem write
    (holds : slots.Holds layout)
    (sameSize : layout.nodes.size = layout.exprCount)
    {id : NodeId}
    {node : Node}
    (found : layout.node? id = some node) :
    (slots.write id node).Holds layout where
  size_nodes := by
    simpa [Slots.write] using holds.size_nodes
  written := by
    intro other member
    have inside : id < slots.nodes.size := by
      rw [holds.size_nodes, ← sameSize]
      exact (Array.getElem?_eq_some_iff.mp found).1
    by_cases same : id = other
    · subst other
      simp [Slots.write, inside, found]
    · have before : other ∈ slots.written := by
        simpa [Slots.write, Ne.symm same] using member
      simpa [Slots.write, Array.getElem?_setIfInBounds_ne same] using
        holds.written other before

end Slots.Holds

namespace Expr

/-- Consecutive expressions are filled as counted if each of them is. -/
theorem fillParts_agrees
    {scope : Scope}
    {parts : List Expr}
    (each :
      ∀ part ∈ parts,
        ∀ (site : Site) (slots : Slots),
          (part.fill scope site slots).1 = part.topId slots.cursor ∧
            (part.fill scope site slots).2.cursor =
              part.skip slots.cursor)
    (site : Site)
    (position : Nat)
    (slots : Slots) :
    (fillParts scope site position slots parts).1 =
        topIds slots.cursor parts ∧
      (fillParts scope site position slots parts).2.cursor =
        skipParts slots.cursor parts := by
  induction parts generalizing position slots with
  | nil =>
      exact ⟨rfl, rfl⟩
  | cons part rest inductionHypothesis =>
      obtain ⟨firstId, firstCursor⟩ :=
        each part List.mem_cons_self (site.part position) slots
      obtain ⟨laterIds, laterCursor⟩ :=
        inductionHypothesis
          (fun later inRest => each later (List.mem_cons_of_mem part inRest))
          (position + 1) (part.fill scope (site.part position) slots).2
      rw [firstCursor] at laterIds laterCursor
      exact
        ⟨by rw [fillParts, firstId, laterIds]; rfl,
          laterCursor⟩

/-- Filling an expression gives it its counted number and the counted cursor. -/
theorem fill_agrees
    (scope : Scope)
    (expression : Expr)
    (site : Site)
    (slots : Slots) :
    (expression.fill scope site slots).1 = expression.topId slots.cursor ∧
      (expression.fill scope site slots).2.cursor =
        expression.skip slots.cursor := by
  induction expression generalizing site slots with
  | terminal item =>
      exact ⟨rfl, rfl⟩
  | reference target =>
      exact ⟨rfl, rfl⟩
  | unary operator body bodyAgrees =>
      exact ⟨rfl, (bodyAgrees (site.part 1) slots.takeCompound).2⟩
  | group grouping parts partsAgree =>
      exact
        ⟨rfl, (fillParts_agrees partsAgree site 1 slots.takeCompound).2⟩

/-- Consecutive expressions are written where they are numbered if each of them is. -/
theorem written_fillParts
    {scope : Scope}
    {parts : List Expr}
    (each :
      ∀ part ∈ parts,
        ∀ (site : Site) (slots : Slots),
          (part.fill scope site slots).2.written.Perm
            (slots.written ++ part.numbers slots.cursor))
    (site : Site)
    (position : Nat)
    (slots : Slots) :
    (fillParts scope site position slots parts).2.written.Perm
      (slots.written ++ numbersOf slots.cursor parts) := by
  induction parts generalizing position slots with
  | nil =>
      rw [numbersOf, List.append_nil]
      exact .refl _
  | cons part rest inductionHypothesis =>
      have first := each part List.mem_cons_self (site.part position) slots
      have later :=
        inductionHypothesis
          (fun later inRest => each later (List.mem_cons_of_mem part inRest))
          (position + 1) (part.fill scope (site.part position) slots).2
      rw [(part.fill_agrees scope (site.part position) slots).2] at later
      rw [numbersOf, ← List.append_assoc]
      exact later.trans (first.append_right _)

/-- What is written after the numbers below a node makes all of its numbers. -/
theorem perm_append_write
    {before below written : List NodeId}
    {id : NodeId}
    (inside : written.Perm (before ++ below)) :
    (written ++ [id]).Perm (before ++ id :: below) := by
  refine (inside.append_right [id]).trans ?_
  rw [List.append_assoc]
  exact (List.perm_append_singleton id below).append_left before

/-- Filling an expression writes exactly the slots with its numbers. -/
theorem written_fill
    (scope : Scope)
    (expression : Expr)
    (site : Site)
    (slots : Slots) :
    (expression.fill scope site slots).2.written.Perm
      (slots.written ++ expression.numbers slots.cursor) := by
  induction expression generalizing site slots with
  | terminal item =>
      exact .refl _
  | reference target =>
      exact .refl _
  | unary operator body bodyWritten =>
      exact perm_append_write
        (bodyWritten (site.part 1) slots.takeCompound)
  | group grouping parts partsWritten =>
      exact perm_append_write
        (written_fillParts partsWritten site 1 slots.takeCompound)

end Expr

namespace Grammar

/-- The parts of a placed group are filled as in the layout if each of them is. -/
theorem Places.holds_fillParts
    {grammar : Grammar}
    {site : Site}
    {cursor : Cursor}
    {grouping : Grouping}
    {before after : List Expr}
    (whole : grammar.Places site cursor (.group grouping (before ++ after)))
    (each :
      ∀ part ∈ after,
        ∀ {inside : Site}
          {slots : Slots},
          grammar.Places inside slots.cursor part →
          slots.Holds grammar.layOut →
          (part.fill grammar.scope inside slots).2.Holds grammar.layOut)
    {slots : Slots}
    (here : slots.cursor = Expr.skipParts cursor.skipCompound before)
    (holds : slots.Holds grammar.layOut) :
    (Expr.fillParts grammar.scope site (1 + before.length) slots
      after).2.Holds grammar.layOut := by
  induction after generalizing before slots with
  | nil =>
      exact holds
  | cons part rest inductionHypothesis =>
      have partPlaces := whole.part
      rw [← here] at partPlaces
      have first := each part List.mem_cons_self partPlaces holds
      have moved :=
        (part.fill_agrees grammar.scope
          (site.part (1 + before.length)) slots).2
      rw [List.append_cons] at whole
      have later :=
        inductionHypothesis whole
          (fun later inRest => each later (List.mem_cons_of_mem part inRest))
          (by rw [moved, here, Expr.skipParts_append]; rfl) first
      rw [List.length_append, ← Nat.add_assoc] at later
      exact later

/-- A placed expression is filled as in the layout. -/
theorem Places.holds_fill
    {grammar : Grammar}
    {site : Site}
    {slots : Slots}
    {expression : Expr}
    (places : grammar.Places site slots.cursor expression)
    (holds : slots.Holds grammar.layOut) :
    (expression.fill grammar.scope site slots).2.Holds grammar.layOut := by
  have sameSize := size_nodes_layOut grammar
  induction expression generalizing site slots with
  | terminal item =>
      exact holds.takeTerminal.write sameSize places.node?
  | reference target =>
      exact holds.takeCompound.write sameSize places.node?
  | unary operator body bodyHolds =>
      have inside :
          (body.fill grammar.scope (site.part 1)
            slots.takeCompound).2.Holds grammar.layOut :=
        bodyHolds places.body holds.takeCompound
      refine inside.write sameSize ?_
      rw [(body.fill_agrees grammar.scope (site.part 1)
        slots.takeCompound).1]
      exact places.node?
  | group grouping parts partsHold =>
      have whole :
          grammar.Places site slots.cursor
            (.group grouping ([] ++ parts)) :=
        places
      have inside :
          (Expr.fillParts grammar.scope site 1 slots.takeCompound
            parts).2.Holds grammar.layOut :=
        whole.holds_fillParts partsHold rfl holds.takeCompound
      refine inside.write sameSize ?_
      rw [(Expr.fillParts_agrees
        (fun part _ => part.fill_agrees grammar.scope) site 1
        slots.takeCompound).1]
      exact places.node?

/-- Rules are given the numbers counted beforehand. -/
theorem fillRules_agrees
    (scope : Scope)
    (rules : List Rule)
    (tops : List NodeId)
    (sameLength : tops.length = rules.length)
    (slots : Slots) :
    (fillRules scope slots (rules.zip tops)).1 =
        Expr.topIds slots.cursor (rules.map Rule.body) ∧
      (fillRules scope slots (rules.zip tops)).2.written.Perm
        (slots.written ++
          Expr.numbersOf slots.cursor (rules.map Rule.body)) := by
  induction rules generalizing tops slots with
  | nil =>
      exact ⟨rfl, by simp [fillRules, Expr.numbersOf]⟩
  | cons rule rest inductionHypothesis =>
      obtain ⟨top, others, rfl⟩ :=
        List.exists_cons_of_length_eq_add_one sameLength
      let site : Site :=
        { name := rule.name
          isRule := true
          rule := top }
      obtain ⟨firstId, firstCursor⟩ :=
        rule.body.fill_agrees scope site slots
      have firstWritten := rule.body.written_fill scope site slots
      obtain ⟨laterIds, laterWritten⟩ :=
        inductionHypothesis others (by simpa using sameLength)
          (rule.body.fill scope site slots).2
      rw [firstCursor] at laterIds laterWritten
      constructor
      · rw [List.zip_cons_cons, fillRules, List.map_cons, Expr.topIds,
          ← firstId, ← laterIds]
      · rw [List.map_cons, Expr.numbersOf, ← List.append_assoc]
        exact laterWritten.trans (firstWritten.append_right _)

/-- Rules are filled as in the layout. -/
theorem holds_fillRules
    {grammar : Grammar}
    {before after : List Rule}
    (rules : grammar.rules = before ++ after)
    {slots : Slots}
    (here :
      slots.cursor =
        Expr.skipParts grammar.cursor (before.map Rule.body))
    (holds : slots.Holds grammar.layOut) :
    (fillRules grammar.scope slots
      (after.zip
        (Expr.topIds slots.cursor (after.map Rule.body)))).2.Holds
          grammar.layOut := by
  induction after generalizing before slots with
  | nil =>
      exact holds
  | cons rule rest inductionHypothesis =>
      have places := Places.rule rules here
      have first := places.holds_fill holds
      have moved :=
        (rule.body.fill_agrees grammar.scope
          { name := rule.name
            isRule := true
            rule := rule.body.topId slots.cursor }
          slots).2
      rw [List.append_cons] at rules
      have later :=
        inductionHypothesis rules
          (by
            rw [moved, here, List.map_append, Expr.skipParts_append]
            rfl)
          first
      rw [moved] at later
      exact later

/-- Empty slots hold what was written to them, nothing. -/
theorem holds_empty
    (grammar : Grammar) :
    (Slots.empty grammar.cursor grammar.layOut.exprCount).Holds
      grammar.layOut where
  size_nodes := by simp [Slots.empty]
  written := by simp [Slots.empty]

/-- Filling gives every rule the number counted beforehand. -/
theorem fst_fill
    (grammar : Grammar) :
    grammar.fill.1 = grammar.topIds :=
  (fillRules_agrees grammar.scope grammar.rules grammar.topIds
    (by simp [topIds, bodies]) _).1

/-- Filling writes every slot exactly once. -/
theorem perm_written_fill
    (grammar : Grammar) :
    grammar.fill.2.written.Perm grammar.layOut.ids := by
  have written :=
    (fillRules_agrees grammar.scope grammar.rules grammar.topIds
      (by simp [topIds, bodies])
      (.empty grammar.cursor grammar.layOut.exprCount)).2
  have listed := grammar.perm_preorder
  rw [preorder_layOut] at listed
  exact written.trans listed

/-- The filled slots are the nodes of the layout. -/
theorem nodes_fill
    (grammar : Grammar) :
    grammar.fill.2.nodes = grammar.layOut.nodes.map some := by
  have holds :
      grammar.fill.2.Holds grammar.layOut :=
    holds_fillRules (List.nil_append grammar.rules).symm rfl
      grammar.holds_empty
  have sameSize := size_nodes_layOut grammar
  apply Array.ext_getElem?
  intro id
  by_cases counted : id < grammar.layOut.exprCount
  · have member : id ∈ grammar.fill.2.written :=
      grammar.perm_written_fill.mem_iff.mpr (List.mem_range.mpr counted)
    have inside : id < grammar.layOut.nodes.size := by
      rwa [sameSize]
    rw [holds.written id member]
    simp [Layout.node?, inside]
  · have size := holds.size_nodes
    rw [Array.getElem?_eq_none (by lia),
      Array.getElem?_eq_none (by rw [Array.size_map]; lia)]

end Grammar

end PegAudit
