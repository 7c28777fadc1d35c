import PegAudit.Layout.ReadBack
import PegAudit.Proofs.Layout.WellNumbered

namespace PegAudit

/-!
# The numbers of an expression

Listed in pre-order, the numbers that an expression takes ascend within each of
the two blocks, and each of them but the first is a part of exactly one of the
others.  Following the parts of nodes from the top of a rule gives this list.
-/

namespace Cursor

/-- How many numbers were given out before. -/
def total
    (cursor : Cursor) :
    Nat :=
  cursor.terminal + cursor.compound

/--
Between two states of the cursor the listed numbers are given out, those of
each block in ascending order; the numbers below the count are the terminals'.
-/
structure GivesOut
    (count : Nat)
    (first last : Cursor)
    (ids : List NodeId) :
    Prop where
  terminals :
    ids.filter (· < count) =
      List.range' first.terminal (last.terminal - first.terminal)
  compounds :
    ids.filter (count ≤ ·) =
      List.range' first.compound (last.compound - first.compound)
  terminal_le :
    first.terminal ≤ last.terminal
  compound_le :
    first.compound ≤ last.compound

namespace GivesOut

variable {count : Nat}

/-- Nothing is given out while the cursor stands. -/
theorem nil
    (cursor : Cursor) :
    GivesOut count cursor cursor [] where
  terminals := by simp
  compounds := by simp
  terminal_le := Nat.le_refl _
  compound_le := Nat.le_refl _

/-- A terminal is given the next number of the first block. -/
theorem terminal
    {cursor : Cursor}
    (below : cursor.terminal < count) :
    GivesOut count cursor cursor.skipTerminal [cursor.terminal] where
  terminals := by simp [skipTerminal, below]
  compounds := by simp [skipTerminal, below]
  terminal_le := Nat.le_succ _
  compound_le := Nat.le_refl _

/-- Anything else is given the next number of the second block. -/
theorem compound
    {cursor : Cursor}
    (behind : count ≤ cursor.compound) :
    GivesOut count cursor cursor.skipCompound [cursor.compound] where
  terminals := by simp [skipCompound, behind]
  compounds := by simp [skipCompound, behind]
  terminal_le := Nat.le_refl _
  compound_le := Nat.le_succ _

/-- Consecutive ranges join. -/
theorem range'_join
    {first middle last : Nat}
    (firstLe : first ≤ middle)
    (lastLe : middle ≤ last) :
    List.range' first (middle - first) ++
        List.range' middle (last - middle) =
      List.range' first (last - first) := by
  obtain ⟨some, rfl⟩ := Nat.exists_eq_add_of_le firstLe
  obtain ⟨more, rfl⟩ := Nat.exists_eq_add_of_le lastLe
  rw [Nat.add_sub_cancel_left, Nat.add_sub_cancel_left, Nat.add_assoc,
    Nat.add_sub_cancel_left, List.range'_append_1]

/-- What is given out one after the other is given out together. -/
theorem append
    {first middle last : Cursor}
    {ids later : List NodeId}
    (before : GivesOut count first middle ids)
    (after : GivesOut count middle last later) :
    GivesOut count first last (ids ++ later) where
  terminals := by
    rw [List.filter_append, before.terminals, after.terminals,
      range'_join before.terminal_le after.terminal_le]
  compounds := by
    rw [List.filter_append, before.compounds, after.compounds,
      range'_join before.compound_le after.compound_le]
  terminal_le := Nat.le_trans before.terminal_le after.terminal_le
  compound_le := Nat.le_trans before.compound_le after.compound_le

/-- Numbers given out from the start of both blocks are all numbers, each once. -/
theorem perm_range
    {first last : Cursor}
    {ids : List NodeId}
    (givesOut : GivesOut count first last ids)
    (terminalsFirst : first.terminal = 0)
    (terminalsEnd : last.terminal = count)
    (compoundsFirst : first.compound = count) :
    ids.Perm (List.range last.compound) := by
  have others :
      ids.filter (fun id => !decide (id < count)) =
        ids.filter (count ≤ ·) := by
    apply List.filter_congr
    intro id _
    rw [← decide_not, decide_eq_decide, Nat.not_lt]
  have split :=
    List.filter_append_perm (fun id => decide (id < count)) ids
  have within := givesOut.compound_le
  rw [others, givesOut.terminals, givesOut.compounds, terminalsFirst,
    terminalsEnd, compoundsFirst, range'_join (Nat.zero_le _) (by lia),
    Nat.sub_zero, ← List.range_eq_range'] at split
  exact split.symm

end GivesOut

end Cursor

namespace Expr

/-- Skipping consecutive parts is skipping the first ones and then the others. -/
theorem skipParts_append
    (cursor : Cursor)
    (before after : List Expr) :
    skipParts cursor (before ++ after) =
      skipParts (skipParts cursor before) after := by
  induction before generalizing cursor with
  | nil =>
      rfl
  | cons part rest inductionHypothesis =>
      exact inductionHypothesis (part.skip cursor)

/-- The number of a part is among those of consecutive expressions. -/
theorem mem_topIds
    (cursor : Cursor)
    (before : List Expr)
    (part : Expr)
    (after : List Expr) :
    part.topId (skipParts cursor before) ∈
      topIds cursor (before ++ part :: after) := by
  induction before generalizing cursor with
  | nil =>
      exact List.mem_cons_self
  | cons first rest inductionHypothesis =>
      exact List.mem_cons_of_mem _ (inductionHypothesis (first.skip cursor))

/-- Consecutive expressions all have a property at the cursor that numbers them. -/
inductive EachPart
    (holds : Cursor → Expr → Prop) :
    Cursor →
    List Expr →
    Prop
  | nil
      {cursor : Cursor} :
      EachPart holds cursor []
  | cons
      {cursor : Cursor}
      {part : Expr}
      {rest : List Expr}
      (first : holds cursor part)
      (later : EachPart holds (part.skip cursor) rest) :
      EachPart holds cursor (part :: rest)

/-- It is enough to look at each part with the parts before it. -/
theorem EachPart.of_split
    {holds : Cursor → Expr → Prop}
    {cursor : Cursor}
    {parts : List Expr}
    (each :
      ∀ before part after,
        parts = before ++ part :: after →
        holds (skipParts cursor before) part) :
    EachPart holds cursor parts := by
  induction parts generalizing cursor with
  | nil =>
      exact .nil
  | cons part rest inductionHypothesis =>
      refine .cons (each [] part rest rfl) ?_
      apply inductionHypothesis
      intro before later after same
      exact each (part :: before) later after (congrArg _ same)

/-- An expression takes at least its own number. -/
theorem total_lt_skip
    (expression : Expr)
    (cursor : Cursor) :
    cursor.total < (expression.skip cursor).total := by
  have own := expression.between_topId cursor
  have moved := expression.le_skip cursor
  unfold Cursor.Between at own
  unfold Cursor.total
  lia

/-- A depth that is enough for an expression is not zero. -/
theorem exists_depth
    {expression : Expr}
    {cursor : Cursor}
    {depth : Nat}
    (enough : (expression.skip cursor).total ≤ cursor.total + depth) :
    ∃ inner, depth = inner + 1 := by
  have least := expression.total_lt_skip cursor
  exact ⟨depth - 1, by lia⟩

/-- A depth that is enough for an operator leaves enough for its body. -/
theorem total_body_le
    {operator : Operator}
    {body : Expr}
    {cursor : Cursor}
    {depth : Nat}
    (enough :
      ((Expr.unary operator body).skip cursor).total ≤
        cursor.total + (depth + 1)) :
    (body.skip cursor.skipCompound).total ≤
      cursor.skipCompound.total + depth := by
  simp only [skip, Cursor.total, Cursor.skipCompound] at *
  lia

mutual

/-- The numbers that an expression takes from a cursor on, in pre-order. -/
def numbers
    (cursor : Cursor) :
    Expr →
    List NodeId
  | .terminal _ =>
      [cursor.terminal]
  | .reference _ =>
      [cursor.compound]
  | .unary _ body =>
      cursor.compound :: body.numbers cursor.skipCompound
  | .group _ parts =>
      cursor.compound :: numbersOf cursor.skipCompound parts

/-- The numbers that consecutive expressions take. -/
def numbersOf
    (cursor : Cursor) :
    List Expr →
    List NodeId
  | [] =>
      []
  | part :: rest =>
      part.numbers cursor ++ numbersOf (part.skip cursor) rest

end

/-- Consecutive expressions take their numbers in order if each of them does. -/
theorem givesOut_numbersOf
    {count : Nat}
    {parts : List Expr}
    (each :
      ∀ part ∈ parts,
        ∀ cursor : Cursor,
          (part.skip cursor).terminal ≤ count →
          count ≤ cursor.compound →
          cursor.GivesOut count (part.skip cursor) (part.numbers cursor))
    {cursor : Cursor}
    (below : (skipParts cursor parts).terminal ≤ count)
    (behind : count ≤ cursor.compound) :
    cursor.GivesOut count (skipParts cursor parts)
      (numbersOf cursor parts) := by
  induction parts generalizing cursor with
  | nil =>
      exact .nil cursor
  | cons part rest inductionHypothesis =>
      have moved := part.le_skip cursor
      have further := le_skipParts rest (part.skip cursor)
      have first :=
        each part List.mem_cons_self cursor
          (Nat.le_trans further.1 below) behind
      apply first.append
      exact inductionHypothesis
        (fun later inRest => each later (List.mem_cons_of_mem part inRest))
        below (Nat.le_trans behind moved.2)

/-- An expression takes its numbers in order. -/
theorem givesOut_numbers
    {count : Nat}
    (expression : Expr)
    (cursor : Cursor)
    (below : (expression.skip cursor).terminal ≤ count)
    (behind : count ≤ cursor.compound) :
    cursor.GivesOut count (expression.skip cursor)
      (expression.numbers cursor) := by
  induction expression generalizing cursor with
  | terminal item =>
      exact .terminal below
  | reference target =>
      exact .compound behind
  | unary operator body bodyGives =>
      exact (Cursor.GivesOut.compound behind).append
        (bodyGives cursor.skipCompound below (Nat.le_succ_of_le behind))
  | group grouping parts partsGive =>
      exact (Cursor.GivesOut.compound behind).append
        (givesOut_numbersOf partsGive below (Nat.le_succ_of_le behind))

/-- Lists made from the parts, each giving its numbers, are the numbers of all. -/
theorem EachPart.flatMap_topIds
    {listed : NodeId → List NodeId}
    {cursor : Cursor}
    {parts : List Expr}
    (each :
      EachPart
        (fun cursor part =>
          listed (part.topId cursor) = part.numbers cursor)
        cursor parts) :
    (topIds cursor parts).flatMap listed = numbersOf cursor parts := by
  induction each with
  | nil =>
      rfl
  | cons first later inductionHypothesis =>
      rw [topIds, List.flatMap_cons, first, inductionHypothesis, numbersOf]

/--
If all numbers of each part are its own and those below it, then all numbers of
consecutive parts are their own and those below them.
-/
theorem EachPart.perm_numbersOf
    {below : NodeId → List NodeId}
    {cursor : Cursor}
    {parts : List Expr}
    (each :
      EachPart
        (fun cursor part =>
          (part.numbers cursor).Perm
            (part.topId cursor :: (part.numbers cursor).flatMap below))
        cursor parts) :
    (numbersOf cursor parts).Perm
      (topIds cursor parts ++ (numbersOf cursor parts).flatMap below) := by
  induction each with
  | nil =>
      exact .nil
  | @cons cursor part rest first later inductionHypothesis =>
      rw [numbersOf, topIds, List.flatMap_append]
      refine (first.append inductionHypothesis).trans ?_
      simp only [List.cons_append]
      exact List.Perm.cons _ (List.perm_append_comm_assoc _ _ _)

/-- A number taken by consecutive expressions is one of those one of them takes. -/
theorem exists_part_of_mem_numbersOf
    {cursor : Cursor}
    {parts : List Expr}
    {id : NodeId}
    (member : id ∈ numbersOf cursor parts) :
    ∃ before part after,
      parts = before ++ part :: after ∧
        id ∈ part.numbers (skipParts cursor before) := by
  induction parts generalizing cursor with
  | nil =>
      cases member
  | cons part rest inductionHypothesis =>
      rcases List.mem_append.mp member with inFirst | inRest
      · exact ⟨[], part, rest, rfl, inFirst⟩
      · obtain ⟨before, later, after, same, inLater⟩ :=
          inductionHypothesis inRest
        exact ⟨part :: before, later, after, congrArg _ same, inLater⟩

end Expr

namespace Grammar

/-- No placed expression is larger than the whole layout. -/
theorem Places.total_skip_le
    {grammar : Grammar}
    {site : Site}
    {cursor : Cursor}
    {expression : Expr}
    (places : grammar.Places site cursor expression) :
    (expression.skip cursor).total ≤
      cursor.total + grammar.layOut.exprCount := by
  have within := places.skip_le
  have starts := places.terminalCount_le
  unfold Cursor.total
  lia

/-- The parts of a placed group are placed, and none reaches beyond the group. -/
theorem Places.eachPart
    {grammar : Grammar}
    {site : Site}
    {cursor : Cursor}
    {grouping : Grouping}
    {parts : List Expr}
    (whole : grammar.Places site cursor (.group grouping parts))
    {holds : Cursor → Expr → Prop}
    {depth : Nat}
    (enough :
      (Expr.skipParts cursor.skipCompound parts).total ≤
        cursor.total + (depth + 1))
    (each :
      ∀ {inside : Site}
        {inner : Cursor}
        {part : Expr},
        part ∈ parts →
        grammar.Places inside inner part →
        (part.skip inner).total ≤ inner.total + depth →
        holds inner part) :
    Expr.EachPart holds cursor.skipCompound parts := by
  apply Expr.EachPart.of_split
  rintro before part after rfl
  refine each (by simp) whole.part ?_
  have earlier := Expr.le_skipParts before cursor.skipCompound
  have later :=
    Expr.le_skipParts after
      (part.skip (Expr.skipParts cursor.skipCompound before))
  rw [Expr.skipParts_append, Expr.skipParts] at enough
  simp only [Cursor.total, Cursor.skipCompound] at *
  lia

/-- All rule bodies are placed. -/
theorem eachPart_bodies
    {grammar : Grammar}
    {holds : Cursor → Expr → Prop}
    (each :
      ∀ {site : Site}
        {cursor : Cursor}
        {body : Expr},
        grammar.Places site cursor body →
        holds cursor body) :
    Expr.EachPart holds grammar.cursor grammar.bodies := by
  apply Expr.EachPart.of_split
  intro before body after split
  obtain ⟨site, places, _⟩ := exists_places_body split
  exact each places

namespace Places

variable
  {grammar : Grammar}
  {site : Site}
  {cursor : Cursor}
  {expression : Expr}

/-- A placed expression has the shape that its node has. -/
theorem shape?
    (places : grammar.Places site cursor expression) :
    grammar.layOut.shape? (expression.topId cursor) =
      some (expression.shapeAt grammar.scope cursor) := by
  simp [Layout.shape?, places.node?, Site.node]

/-- The parts of the node of a placed expression. -/
theorem children_eq
    (places : grammar.Places site cursor expression) :
    grammar.layOut.children (expression.topId cursor) =
      (expression.shapeAt grammar.scope cursor).children := by
  rw [Layout.children, places.shape?]
  rfl

/-- Following parts from a placed expression gives its numbers in pre-order. -/
theorem treeWithin_eq
    (places : grammar.Places site cursor expression)
    {depth : Nat}
    (enough : (expression.skip cursor).total ≤ cursor.total + depth) :
    grammar.layOut.treeWithin depth (expression.topId cursor) =
      expression.numbers cursor := by
  induction expression generalizing site cursor depth with
  | terminal item =>
      obtain ⟨inner, rfl⟩ := Expr.exists_depth enough
      rw [Layout.treeWithin, places.children_eq]
      rfl
  | reference target =>
      obtain ⟨inner, rfl⟩ := Expr.exists_depth enough
      rw [Layout.treeWithin, places.children_eq]
      rfl
  | unary operator body bodyTree =>
      obtain ⟨inner, rfl⟩ := Expr.exists_depth enough
      have below := bodyTree places.body (Expr.total_body_le enough)
      rw [Layout.treeWithin, places.children_eq, Expr.shapeAt,
        Shape.children, List.flatMap_singleton, below]
      rfl
  | group grouping parts partTrees =>
      obtain ⟨inner, rfl⟩ := Expr.exists_depth enough
      have below :=
        places.eachPart enough fun member partPlaces within =>
          partTrees _ member partPlaces within
      rw [Layout.treeWithin, places.children_eq, Expr.shapeAt,
        Shape.children, below.flatMap_topIds]
      rfl

/-- The numbers of a placed expression are its own and the parts of all of them. -/
theorem perm_numbers
    (places : grammar.Places site cursor expression) :
    (expression.numbers cursor).Perm
      (expression.topId cursor ::
        (expression.numbers cursor).flatMap grammar.layOut.children) := by
  have parts := places.children_eq
  induction expression generalizing site cursor with
  | terminal item =>
      simp only [Expr.topId, Expr.shapeAt, Shape.children] at parts
      simp [Expr.numbers, Expr.topId, parts]
  | reference target =>
      simp only [Expr.topId, Expr.shapeAt, Shape.children] at parts
      simp [Expr.numbers, Expr.topId, parts]
  | unary operator body bodyPerm =>
      have below := bodyPerm places.body places.body.children_eq
      simp only [Expr.topId, Expr.shapeAt, Shape.children] at parts
      simpa [Expr.numbers, Expr.topId, parts] using below
  | group grouping members membersPerm =>
      have below :=
        Expr.EachPart.perm_numbersOf
          (places.eachPart (Nat.le_succ_of_le places.total_skip_le)
            fun member partPlaces _ =>
              membersPerm _ member partPlaces partPlaces.children_eq)
      simp only [Expr.topId, Expr.shapeAt, Shape.children] at parts
      simpa [Expr.numbers, Expr.topId, parts] using below

/-- All nodes of a placed expression belong to the rule that the expression stands in. -/
theorem rule_of_mem_numbers
    (places : grammar.Places site cursor expression)
    {id : NodeId}
    (member : id ∈ expression.numbers cursor) :
    ∃ node, grammar.layOut.node? id = some node ∧ node.rule = site.rule := by
  induction expression generalizing site cursor with
  | terminal item =>
      rw [List.mem_singleton.mp member]
      exact ⟨_, places.node?, rfl⟩
  | reference target =>
      rw [List.mem_singleton.mp member]
      exact ⟨_, places.node?, rfl⟩
  | unary operator body inBody =>
      rcases List.mem_cons.mp member with rfl | below
      · exact ⟨_, places.node?, rfl⟩
      · have found := inBody places.body below
        exact found
  | group grouping parts inParts =>
      rcases List.mem_cons.mp member with rfl | below
      · exact ⟨_, places.node?, rfl⟩
      · obtain ⟨before, part, after, rfl, inPart⟩ :=
          Expr.exists_part_of_mem_numbersOf below
        have found := inParts part (by simp) places.part inPart
        exact found

end Places

/-- The tree of a placed expression is that of its numbers. -/
theorem Places.tree_eq
    {grammar : Grammar}
    {site : Site}
    {cursor : Cursor}
    {expression : Expr}
    (places : grammar.Places site cursor expression) :
    grammar.layOut.tree (expression.topId cursor) =
      expression.numbers cursor :=
  places.treeWithin_eq places.total_skip_le

/-- The nodes of all rules in pre-order are the numbers of all bodies. -/
theorem preorder_layOut
    (grammar : Grammar) :
    grammar.layOut.preorder =
      Expr.numbersOf grammar.cursor grammar.bodies :=
  (eachPart_bodies fun places => places.tree_eq).flatMap_topIds

/-- The numbers of all bodies are given out in order. -/
theorem givesOut_preorder
    (grammar : Grammar) :
    grammar.cursor.GivesOut grammar.layOut.terminalCount
      (Expr.skipParts grammar.cursor grammar.bodies)
      grammar.layOut.preorder := by
  rw [preorder_layOut]
  apply Expr.givesOut_numbersOf
  · intro body _ cursor below behind
    exact body.givesOut_numbers cursor below behind
  · exact Nat.le_refl _
  · exact Nat.le_of_eq grammar.terminalCount_layOut

/-- In pre-order every number stands once. -/
theorem perm_preorder
    (grammar : Grammar) :
    grammar.layOut.preorder.Perm grammar.layOut.ids :=
  grammar.givesOut_preorder.perm_range rfl rfl
    grammar.terminalCount_layOut.symm

/-- The tops of rules and the parts of nodes are all numbers, each once. -/
theorem perm_topIds_children
    (grammar : Grammar) :
    (grammar.layOut.rules ++
        grammar.layOut.ids.flatMap grammar.layOut.children).Perm
      grammar.layOut.ids := by
  have eachBody :
      Expr.EachPart
        (fun cursor body =>
          (body.numbers cursor).Perm
            (body.topId cursor ::
              (body.numbers cursor).flatMap grammar.layOut.children))
        grammar.cursor grammar.bodies :=
    eachPart_bodies fun places => places.perm_numbers
  have parts := eachBody.perm_numbersOf
  rw [← preorder_layOut] at parts
  have listed := grammar.perm_preorder
  have below :=
    (listed.flatMap_right grammar.layOut.children).append_left
      grammar.layOut.rules
  exact below.symm.trans (parts.symm.trans listed)

end Grammar

end PegAudit
