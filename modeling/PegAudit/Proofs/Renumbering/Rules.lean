import Mathlib.Algebra.Group.End
import Mathlib.Data.List.NodupEquivFin
import PegAudit.Proofs.Layout.ReadBack
import PegAudit.Proofs.Renumbering.Layout

namespace PegAudit

/-!
# Rules in another order

A grammar may list the same rules in another order.  It has a defect exactly if
the grammar has one.  Every rule body takes its numbers from another cursor on,
but as many as before, so pairing the numbers of each rule in pre-order gives a
renumbering that takes each sub-expression to itself.
-/

namespace Expr

/-- The cursor after consecutive expressions is reached step by step. -/
theorem skipParts_eq_foldl
    (cursor : Cursor)
    (parts : List Expr) :
    skipParts cursor parts = parts.foldl skip cursor := by
  induction parts generalizing cursor with
  | nil =>
      rfl
  | cons part rest inductionHypothesis =>
      exact inductionHypothesis (part.skip cursor)

/-- The order of two expressions does not matter to the cursor after both. -/
theorem skip_skip_comm
    (first second : Expr)
    (cursor : Cursor) :
    second.skip (first.skip cursor) = first.skip (second.skip cursor) := by
  have moves
      (expression : Expr)
      (here : Cursor) :=
    expression.advance_extent_layOut [] default ⟨0, 0⟩ here
  simp only [← moves, Cursor.advance, Cursor.mk.injEq]
  lia

/-- The order of expressions does not matter to the cursor after all of them. -/
theorem skipParts_perm
    {parts others : List Expr}
    (reordered : others.Perm parts)
    (cursor : Cursor) :
    skipParts cursor others = skipParts cursor parts := by
  rw [skipParts_eq_foldl, skipParts_eq_foldl]
  exact
    reordered.foldl_eq'
      (fun first _ second _ here => skip_skip_comm first second here) cursor

/-- The first number of an expression is its own. -/
theorem exists_numbers_eq_cons
    (cursor : Cursor)
    (expression : Expr) :
    ∃ below,
      expression.numbers cursor = expression.topId cursor :: below := by
  cases expression <;> exact ⟨_, rfl⟩

/-- Consecutive expressions take as many numbers as each of them does. -/
theorem length_numbersOf
    {parts : List Expr}
    (each :
      ∀ part ∈ parts,
        ∀ cursor other,
          (part.numbers cursor).length = (part.numbers other).length)
    (cursor other : Cursor) :
    (numbersOf cursor parts).length = (numbersOf other parts).length := by
  induction parts generalizing cursor other with
  | nil =>
      rfl
  | cons part rest inductionHypothesis =>
      have later :=
        inductionHypothesis fun next inRest =>
          each next (List.mem_cons_of_mem part inRest)
      rw [numbersOf, numbersOf, List.length_append, List.length_append,
        each part List.mem_cons_self cursor other,
        later (part.skip cursor) (part.skip other)]

/-- An expression takes as many numbers from every cursor. -/
theorem length_numbers
    (expression : Expr)
    (cursor other : Cursor) :
    (expression.numbers cursor).length =
      (expression.numbers other).length := by
  induction expression generalizing cursor other with
  | terminal item =>
      rfl
  | reference target =>
      rfl
  | unary operator body sameLength =>
      simp [numbers, sameLength cursor.skipCompound other.skipCompound]
  | group grouping parts sameLengths =>
      simp [numbers,
        length_numbersOf sameLengths cursor.skipCompound
          other.skipCompound]

/-- Numbers of consecutive expressions correspond if those of each one do. -/
theorem map_numbersOf_cons
    {renumber : NodeId → NodeId}
    {part : Expr}
    {rest : List Expr}
    {cursor other : Cursor}
    (same :
      (numbersOf cursor (part :: rest)).map renumber =
        numbersOf other (part :: rest)) :
    (part.numbers cursor).map renumber = part.numbers other ∧
      (numbersOf (part.skip cursor) rest).map renumber =
        numbersOf (part.skip other) rest := by
  rw [numbersOf, numbersOf, List.map_append] at same
  apply List.append_inj same
  rw [List.length_map, part.length_numbers cursor other]

/-- Behind consecutive expressions the numbers of the next one correspond. -/
theorem map_numbers_of_split
    {renumber : NodeId → NodeId}
    {before after : List Expr}
    {part : Expr}
    {cursor other : Cursor}
    (same :
      (numbersOf cursor (before ++ part :: after)).map renumber =
        numbersOf other (before ++ part :: after)) :
    (part.numbers (skipParts cursor before)).map renumber =
      part.numbers (skipParts other before) := by
  induction before generalizing cursor other with
  | nil =>
      exact (map_numbersOf_cons same).1
  | cons first rest inductionHypothesis =>
      exact inductionHypothesis (map_numbersOf_cons same).2

/-- An expression whose numbers correspond has a corresponding number itself. -/
theorem renumber_topId
    {renumber : NodeId → NodeId}
    {expression : Expr}
    {cursor other : Cursor}
    (same :
      (expression.numbers cursor).map renumber =
        expression.numbers other) :
    renumber (expression.topId cursor) = expression.topId other := by
  obtain ⟨below, here⟩ := expression.exists_numbers_eq_cons cursor
  obtain ⟨otherBelow, there⟩ := expression.exists_numbers_eq_cons other
  rw [here, there, List.map_cons, List.cons.injEq] at same
  exact same.1

/-- Consecutive expressions whose numbers correspond have corresponding tops. -/
theorem map_topIds
    {renumber : NodeId → NodeId}
    {parts : List Expr}
    {cursor other : Cursor}
    (same :
      (numbersOf cursor parts).map renumber = numbersOf other parts) :
    (topIds cursor parts).map renumber = topIds other parts := by
  induction parts generalizing cursor other with
  | nil =>
      rfl
  | cons part rest inductionHypothesis =>
      obtain ⟨first, later⟩ := map_numbersOf_cons same
      rw [topIds, topIds, List.map_cons, renumber_topId first,
        inductionHypothesis later]

end Expr

/-- Two lists of the same numbers without repetition are paired by a renumbering. -/
theorem exists_perm_map_eq
    {ids others : List NodeId}
    (nodup : ids.Nodup)
    (reordered : ids.Perm others) :
    ∃ renumber : Equiv.Perm NodeId,
      ids.map renumber = others ∧ ∀ id, id ∉ ids → renumber id = id := by
  let here := nodup.getEquiv ids
  let there := (reordered.nodup_iff.mp nodup).getEquiv others
  let sameMembers : { id // id ∈ others } ≃ { id // id ∈ ids } :=
    Equiv.subtypeEquivRight fun _ => reordered.symm.mem_iff
  let paired : Equiv.Perm { id // id ∈ ids } :=
    here.symm.trans
      ((finCongr reordered.length_eq).trans (there.trans sameMembers))
  refine
    ⟨Equiv.Perm.ofSubtype paired, ?_,
      fun id notMember => Equiv.Perm.ofSubtype_apply_of_not_mem paired notMember⟩
  apply List.ext_getElem
  · rw [List.length_map, reordered.length_eq]
  · intro position inside otherInside
    rw [List.length_map] at inside
    have isHere :
        here.symm ⟨ids[position], List.getElem_mem inside⟩ =
          ⟨position, inside⟩ := by
      rw [Equiv.symm_apply_eq]
      rfl
    rw [List.getElem_map,
      Equiv.Perm.ofSubtype_apply_of_mem paired (List.getElem_mem inside)]
    simp only [paired, Equiv.trans_apply, isHere]
    rfl

namespace Grammar

/-- The cursor that the body of a rule is numbered from. -/
def cursorAt
    (grammar : Grammar)
    (rule : Rule) :
    Cursor :=
  Expr.skipParts grammar.cursor
    ((grammar.rules.takeWhile (· ≠ rule)).map Rule.body)

/-- The number of the body of a rule. -/
def topAt
    (grammar : Grammar)
    (rule : Rule) :
    NodeId :=
  rule.body.topId (grammar.cursorAt rule)

/-- The numbers of a rule's sub-expressions in pre-order. -/
def numbersAt
    (grammar : Grammar)
    (rule : Rule) :
    List NodeId :=
  rule.body.numbers (grammar.cursorAt rule)

/-- Two numbers belong to the same sub-expression of the same rule. -/
def Corresponds
    (grammar other : Grammar)
    (id otherId : NodeId) :
    Prop :=
  ∃ rule ∈ grammar.rules,
    ∃ position : Nat,
      (grammar.numbersAt rule)[position]? = some id ∧
        (other.numbersAt rule)[position]? = some otherId

section Cursors

variable
  {grammar : Grammar}
  (clean : grammar.defects = [])

include clean

/-- A grammar without defects lists no rule twice. -/
theorem nodup_rules :
    grammar.rules.Nodup :=
  (nodup_names clean).of_map

/-- The cursor of a rule is the one behind the rules before it. -/
theorem cursorAt_eq
    {before after : List Rule}
    {rule : Rule}
    (rules : grammar.rules = before ++ rule :: after) :
    grammar.cursorAt rule =
      Expr.skipParts grammar.cursor (before.map Rule.body) := by
  have distinct := nodup_rules clean
  rw [rules] at distinct
  have notBefore : ∀ earlier ∈ before, earlier ≠ rule := by
    rintro earlier isBefore rfl
    exact
      (List.nodup_append.mp distinct).2.2 earlier isBefore earlier
        List.mem_cons_self rfl
  rw [cursorAt, rules, List.takeWhile_append_of_pos (by simpa using notBefore)]
  simp

/-- What is taken at the cursor of each rule is taken rule by rule. -/
theorem numbersOf_bodies :
    Expr.numbersOf grammar.cursor grammar.bodies =
        grammar.rules.flatMap grammar.numbersAt ∧
      grammar.topIds = grammar.rules.map grammar.topAt := by
  have behind
      {before rest : List Rule}
      (rules : grammar.rules = before ++ rest) :
      Expr.numbersOf
            (Expr.skipParts grammar.cursor (before.map Rule.body))
            (rest.map Rule.body) =
          rest.flatMap grammar.numbersAt ∧
        Expr.topIds
            (Expr.skipParts grammar.cursor (before.map Rule.body))
            (rest.map Rule.body) =
          rest.map grammar.topAt := by
    induction rest generalizing before with
    | nil =>
        exact ⟨rfl, rfl⟩
    | cons rule rest inductionHypothesis =>
        have here := cursorAt_eq clean rules
        have moved :
            Expr.skipParts grammar.cursor
                ((before ++ [rule]).map Rule.body) =
              rule.body.skip (grammar.cursorAt rule) := by
          rw [here, List.map_append, Expr.skipParts_append]
          rfl
        have later :=
          @inductionHypothesis (before ++ [rule]) (by simpa using rules)
        rw [moved] at later
        simp only [List.map_cons, Expr.numbersOf, Expr.topIds, ← here,
          later, List.flatMap_cons, numbersAt, topAt, and_self]
  exact @behind [] grammar.rules rfl

/-- Rule by rule all numbers are listed, each once. -/
theorem perm_numbersAt :
    (grammar.rules.flatMap grammar.numbersAt).Perm grammar.layOut.ids := by
  rw [← (numbersOf_bodies clean).1, ← preorder_layOut]
  exact grammar.perm_preorder

end Cursors

end Grammar

end PegAudit
