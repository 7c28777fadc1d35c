import PegAudit.Layout.Checked
import PegAudit.Proofs.Layout.Filling

namespace PegAudit

/-!
# Filling slots is never refused

There are as many slots as numbers are given out, and filling writes and looks
at no other.  This holds of every grammar, whether or not it has defects.
-/

namespace Slots

/-- Writing leaves the number of slots. -/
@[simp] theorem size_write
    (slots : Slots)
    (id : NodeId)
    (node : Node) :
    (slots.write id node).nodes.size = slots.nodes.size := by
  simp [write]

@[simp] theorem size_takeTerminal
    (slots : Slots) :
    slots.takeTerminal.nodes.size = slots.nodes.size :=
  rfl

@[simp] theorem size_takeCompound
    (slots : Slots) :
    slots.takeCompound.nodes.size = slots.nodes.size :=
  rfl

/-- A write to a slot goes through. -/
theorem write?_eq_some
    {slots : Slots}
    {id : NodeId}
    (inside : id < slots.nodes.size)
    (node : Node) :
    slots.write? id node = some (slots.write id node) :=
  if_pos inside

/-- Looking at slots goes through. -/
theorem look?_eq_some
    {slots : Slots}
    {ids : List NodeId}
    (inside : ∀ id ∈ ids, id < slots.nodes.size) :
    slots.look? ids = some () := by
  simpa [look?] using inside

end Slots

namespace Expr

/-- The number of an expression is one of those it takes. -/
theorem topId_mem_numbers
    (expression : Expr)
    (cursor : Cursor) :
    expression.topId cursor ∈ expression.numbers cursor := by
  cases expression <;> simp [topId, numbers]

/-- The numbers of consecutive expressions are among those they take. -/
theorem mem_numbersOf_of_mem_topIds
    {cursor : Cursor}
    {parts : List Expr}
    {id : NodeId}
    (member : id ∈ topIds cursor parts) :
    id ∈ numbersOf cursor parts := by
  induction parts generalizing cursor with
  | nil =>
      cases member
  | cons part rest inductionHypothesis =>
      rw [numbersOf, List.mem_append]
      rcases List.mem_cons.mp member with rfl | inRest
      · exact .inl (part.topId_mem_numbers cursor)
      · exact .inr (inductionHypothesis inRest)

/-- The parts of a group go through, and leave as many slots, if each does. -/
theorem fillParts?_eq_some
    {scope : Scope}
    {parts : List Expr}
    (each :
      ∀ part ∈ parts,
        ∀ (site : Site) {slots : Slots},
          (∀ id ∈ part.numbers slots.cursor, id < slots.nodes.size) →
          part.fill? scope site slots =
              some (part.fill scope site slots) ∧
            (part.fill scope site slots).2.nodes.size =
              slots.nodes.size)
    (site : Site)
    (position : Nat)
    {slots : Slots}
    (inside :
      ∀ id ∈ numbersOf slots.cursor parts, id < slots.nodes.size) :
    fillParts? scope site position slots parts =
        some (fillParts scope site position slots parts) ∧
      (fillParts scope site position slots parts).2.nodes.size =
        slots.nodes.size := by
  induction parts generalizing position slots with
  | nil =>
      exact ⟨rfl, rfl⟩
  | cons part rest inductionHypothesis =>
      rw [numbersOf] at inside
      have first :=
        each part List.mem_cons_self (site.part position)
          fun id member => inside id (List.mem_append_left _ member)
      have moved := (part.fill_agrees scope (site.part position) slots).2
      have restInside :
          ∀ id ∈
              numbersOf (part.fill scope (site.part position) slots).2.cursor
                rest,
            id <
              (part.fill scope (site.part position) slots).2.nodes.size := by
        rw [moved, first.2]
        exact fun id member => inside id (List.mem_append_right _ member)
      have later :=
        inductionHypothesis
          (fun other inRest => each other (List.mem_cons_of_mem part inRest))
          (position + 1) restInside
      rw [fillParts?, fillParts, first.1]
      simp [later.1, later.2, first.2]

/-- An expression goes through if its numbers have slots, and leaves as many. -/
theorem fill?_eq_some
    (scope : Scope)
    (expression : Expr)
    (site : Site)
    {slots : Slots}
    (inside :
      ∀ id ∈ expression.numbers slots.cursor, id < slots.nodes.size) :
    expression.fill? scope site slots =
        some (expression.fill scope site slots) ∧
      (expression.fill scope site slots).2.nodes.size =
        slots.nodes.size := by
  induction expression generalizing site slots with
  | terminal item =>
      have here : slots.cursor.terminal < slots.takeTerminal.nodes.size :=
        inside _ (topId_mem_numbers _ _)
      simp only [fill?, fill, Slots.write?_eq_some here,
        Option.bind_eq_bind, Option.bind_some, Slots.size_write,
        Slots.size_takeTerminal, and_true]
      rfl
  | reference target =>
      have here : slots.cursor.compound < slots.takeCompound.nodes.size :=
        inside _ (topId_mem_numbers _ _)
      simp only [fill?, fill, Slots.write?_eq_some here,
        Option.bind_eq_bind, Option.bind_some, Slots.size_write,
        Slots.size_takeCompound, and_true]
      rfl
  | unary operator body bodyFilled =>
      let filled := body.fill scope (site.part 1) slots.takeCompound
      have below :
          ∀ id ∈ body.numbers slots.takeCompound.cursor,
            id < slots.takeCompound.nodes.size :=
        fun id member => inside id (List.mem_cons_of_mem _ member)
      have through :
          body.fill? scope (site.part 1) slots.takeCompound = some filled ∧
            filled.2.nodes.size = slots.nodes.size :=
        bodyFilled (site.part 1) below
      have here : slots.cursor.compound < filled.2.nodes.size := by
        rw [through.2]
        exact inside _ (topId_mem_numbers _ _)
      have partHere : ∀ id ∈ [filled.1], id < filled.2.nodes.size := by
        rw [through.2, (body.fill_agrees scope _ _).1]
        simpa using below _ (body.topId_mem_numbers _)
      simp only [fill?, through.1, Slots.look?_eq_some partHere,
        Slots.write?_eq_some here, Option.bind_eq_bind, Option.bind_some]
      exact ⟨rfl, (Slots.size_write _ _ _).trans through.2⟩
  | group grouping parts partsFilled =>
      let filled := fillParts scope site 1 slots.takeCompound parts
      have below :
          ∀ id ∈ numbersOf slots.takeCompound.cursor parts,
            id < slots.takeCompound.nodes.size :=
        fun id member => inside id (List.mem_cons_of_mem _ member)
      have through :
          fillParts? scope site 1 slots.takeCompound parts = some filled ∧
            filled.2.nodes.size = slots.nodes.size :=
        fillParts?_eq_some partsFilled site 1 below
      have here : slots.cursor.compound < filled.2.nodes.size := by
        rw [through.2]
        exact inside _ (topId_mem_numbers _ _)
      have agrees :
          filled.1 = topIds slots.takeCompound.cursor parts :=
        (fillParts_agrees (fun part _ => part.fill_agrees scope) site 1
          slots.takeCompound).1
      have partsHere : ∀ id ∈ filled.1, id < filled.2.nodes.size := by
        rw [through.2, agrees]
        exact fun id member => below id (mem_numbersOf_of_mem_topIds member)
      simp only [fill?, through.1, Slots.look?_eq_some partsHere,
        Slots.write?_eq_some here, Option.bind_eq_bind, Option.bind_some]
      exact ⟨rfl, (Slots.size_write _ _ _).trans through.2⟩

end Expr

namespace Grammar

/-- Consecutive rules go through if their numbers have slots. -/
theorem fillRules?_eq_some
    (scope : Scope)
    {slots : Slots}
    (rules : List Rule)
    (tops : List NodeId)
    (inside :
      ∀ id ∈ Expr.numbersOf slots.cursor (rules.map Rule.body),
        id < slots.nodes.size) :
    fillRules? scope slots (rules.zip tops) =
      some (fillRules scope slots (rules.zip tops)) := by
  induction rules generalizing slots tops with
  | nil =>
      rfl
  | cons rule rest inductionHypothesis =>
      cases tops with
      | nil =>
          rfl
      | cons top laterTops =>
          let site : Site :=
            { name := rule.name, isRule := true, rule := top }
          let filled := rule.body.fill scope site slots
          rw [List.map_cons, Expr.numbersOf] at inside
          have bodyInside :
              ∀ id ∈ rule.body.numbers slots.cursor,
                id < slots.nodes.size :=
            fun id member => inside id (List.mem_append_left _ member)
          have through :
              rule.body.fill? scope site slots = some filled ∧
                filled.2.nodes.size = slots.nodes.size :=
            rule.body.fill?_eq_some scope site bodyInside
          have agrees := rule.body.fill_agrees scope site slots
          have topHere : ∀ id ∈ [filled.1], id < filled.2.nodes.size := by
            rw [through.2, agrees.1]
            simpa using bodyInside _ (rule.body.topId_mem_numbers _)
          have restInside :
              ∀ id ∈ Expr.numbersOf filled.2.cursor (rest.map Rule.body),
                id < filled.2.nodes.size := by
            rw [through.2, agrees.2]
            exact fun id member => inside id (List.mem_append_right _ member)
          simp only [List.zip_cons_cons, fillRules?]
          rw [show rule.body.fill? scope _ slots = some filled from through.1]
          simp only [Option.bind_eq_bind, Option.bind_some,
            Slots.look?_eq_some topHere,
            inductionHypothesis laterTops restInside]
          rfl

variable
  (grammar : Grammar)

/-- The slots of every grammar are filled. -/
theorem fill?_eq_some :
    grammar.fill? = some grammar.fill := by
  apply fillRules?_eq_some
  intro id member
  have counted : id ∈ grammar.layOut.ids := by
    apply (perm_preorder grammar).mem_iff.mp
    rw [preorder_layOut]
    exact member
  have sameCount :
      (Slots.empty grammar.cursor grammar.layOut.exprCount).nodes.size =
        grammar.layOut.exprCount := by
    simp [Slots.empty]
  exact sameCount.symm ▸ List.mem_range.mp counted

/-- Numbering is never refused, and gives the layout or the defects. -/
theorem toLayout?_eq_some :
    grammar.toLayout? = some grammar.toLayout := by
  unfold toLayout?
  split
  case isTrue empty =>
    simp [toLayout, defects, empty]
  case isFalse =>
    have filled :
        grammar.fill.2.nodes.filterMap id = grammar.layOut.nodes := by
      rw [nodes_fill, Array.filterMap_map]
      simp
    simp only [fill?_eq_some, Option.bind_eq_bind, Option.bind_some, filled,
      toLayout]
    cases grammar.defects <;> rfl

end Grammar

end PegAudit
