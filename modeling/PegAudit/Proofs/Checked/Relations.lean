import PegAudit.Proofs.Attrs.Closed
import PegAudit.Proofs.Checked.IndexRelation
import PegAudit.Proofs.FirstTerms
import PegAudit.Relations.Checked

namespace PegAudit

/-!
# Attributes and relations are not refused

A well-numbered layout has every node that is looked at.  Attributes only grow,
so the sweeps end, and relations have a row and a bit for every expression.
-/

namespace Layout

variable {layout : Layout}

/-- Looking at nodes that are there is not refused. -/
theorem visit?_eq_some
    {ids : List NodeId}
    (placed : ∀ id ∈ ids, id < layout.nodes.size) :
    layout.visit? ids = some () := by
  simpa [visit?, has] using placed

namespace WellNumbered

/-- Looking at expressions is not refused. -/
theorem visit?_eq_some
    (wellNumbered : layout.WellNumbered)
    {ids : List NodeId}
    (counted : ∀ id ∈ ids, id < layout.exprCount) :
    layout.visit? ids = some () := by
  apply Layout.visit?_eq_some
  rwa [wellNumbered.size_nodes]

/-- An expression mentions expressions. -/
theorem lt_of_mem_mentioned
    (wellNumbered : layout.WellNumbered)
    {id other : NodeId}
    (mentioned : other ∈ layout.mentioned id) :
    other < layout.exprCount := by
  unfold Layout.mentioned at mentioned
  cases found : layout.shape? id with
  | none =>
      simp [found] at mentioned
  | some shape =>
      rw [found] at mentioned
      exact wellNumbered.mentioned_lt found mentioned

/-- Looking at an expression and what it mentions is not refused. -/
theorem inspect?_eq_some
    (wellNumbered : layout.WellNumbered)
    {id : NodeId}
    (counted : id < layout.exprCount) :
    layout.inspect? id = some () := by
  apply wellNumbered.visit?_eq_some
  intro other member
  rcases List.mem_cons.mp member with rfl | mentioned
  · exact counted
  · exact wellNumbered.lt_of_mem_mentioned mentioned

/-- The sweeps over the attributes end and miss no node. -/
theorem settleAttrs?_eq_some
    (wellNumbered : layout.WellNumbered) :
    layout.settleAttrs? = some layout.settleAttrs := by
  apply layout.growing_updateAttrs.settle?_eq_some 4
  · intro table index entry _ _
    exact entry.count_le_four
  · intro table index sameSize listed
    rw [sameSize, wellNumbered.size_nodes]
    exact List.mem_range.mp listed
  · intro table index entry _ listed _
    rw [updateAttrs?,
      wellNumbered.inspect?_eq_some (List.mem_range.mp listed)]
    rfl
  · simp only [ids, List.length_range]
    omega
  · simp [initialAttrs]

/-- Relating expressions to what their shapes mention is not refused. -/
theorem relate?_eq_some
    (wellNumbered : layout.WellNumbered)
    {related : Shape NodeId → List NodeId}
    (mentions :
      ∀ {shape other},
        other ∈ related shape →
        other ∈ shape.mentioned)
    (terminalsNothing :
      ∀ {shape},
        shape.isTerminal = true →
        related shape = []) :
    layout.relate? related = some (layout.relate related) := by
  have looked :
      (layout.compoundIds.mapM fun id => do
        layout.inspect? id
        return ((layout.shape? id).elim [] related).map (id, ·)) =
        some (layout.compoundIds.map fun id =>
          ((layout.shape? id).elim [] related).map (id, ·)) := by
    apply mapM_eq_some
    intro id compound
    rw [wellNumbered.inspect?_eq_some
      (wellNumbered.lt_of_mem_compoundIds compound)]
    rfl
  rw [relate?, looked]
  apply IndexRelation.ofPairs?_ofRows
  · intro left right
    simp only [List.mem_flatten, List.mem_map]
    constructor
    · rintro ⟨_, ⟨id, compound, rfl⟩, listed⟩
      obtain ⟨other, member, same⟩ := List.mem_map.mp listed
      cases same
      refine ⟨wellNumbered.lt_of_mem_compoundIds compound, ?_⟩
      cases found : layout.shape? left with
      | none =>
          simp [found] at member
      | some shape =>
          simpa [found] using member
    · rintro ⟨counted, member⟩
      split at member
      case h_1 shape found =>
        have isCompound : shape.isTerminal = false := by
          apply Bool.eq_false_iff.mpr
          intro isTerminal
          rw [terminalsNothing isTerminal] at member
          cases member
        refine
          ⟨_, ⟨left, wellNumbered.mem_compoundIds found isCompound, rfl⟩, ?_⟩
        simpa [found] using member
      case h_2 =>
        cases member
  · intro left _ right member
    split at member
    case h_1 shape found =>
      exact wellNumbered.mentioned_lt found (mentions member)
    case h_2 =>
      cases member

/-- Comparing the terminals is not refused. -/
theorem disjointTerminals?_eq_some
    (wellNumbered : layout.WellNumbered) :
    layout.disjointTerminals? = some layout.disjointTerminals := by
  have terminalsThere : layout.visit? layout.terminalIds = some () := by
    apply wellNumbered.visit?_eq_some
    intro id member
    exact Nat.lt_of_lt_of_le (List.mem_range.mp member)
      wellNumbered.terminalCount_le
  have comm
      (left right : NodeId) :
      layout.disjointAt left right = layout.disjointAt right left := by
    unfold disjointAt
    cases layout.terminal? left <;> cases layout.terminal? right <;>
      simp [Terminal.disjoint_comm]
  have listed
      (left right : NodeId) :
      (left, right) ∈ layout.disjointPairs ↔
        left < layout.terminalCount ∧
          right ∈ layout.terminalIds.filter (layout.disjointAt left) := by
    simp only [disjointPairs, List.mem_flatMap, List.mem_filter,
      List.mem_cons, List.not_mem_nil, or_false, Prod.mk.injEq,
      Bool.and_eq_true, decide_eq_true_eq, terminalIds, List.mem_range]
    constructor
    · rintro ⟨first, firstIn, second, ⟨secondIn, _, disjoint⟩,
        ⟨rfl, rfl⟩ | ⟨rfl, rfl⟩⟩
      · exact ⟨firstIn, secondIn, disjoint⟩
      · rw [comm] at disjoint
        exact ⟨secondIn, firstIn, disjoint⟩
    · rintro ⟨leftIn, rightIn, disjoint⟩
      rcases Nat.le_total left right with ascending | descending
      · exact
          ⟨left, leftIn, right, ⟨rightIn, ascending, disjoint⟩,
            .inl ⟨rfl, rfl⟩⟩
      · rw [comm] at disjoint
        exact
          ⟨right, rightIn, left, ⟨leftIn, descending, disjoint⟩,
            .inr ⟨rfl, rfl⟩⟩
  rw [disjointTerminals?, terminalsThere]
  apply IndexRelation.ofPairs?_ofRows listed
  · intro left _ right member
    exact List.mem_range.mp (List.mem_filter.mp member).1

/-- All relations are built without refusal. -/
theorem relations?_eq_some
    (wellNumbered : layout.WellNumbered)
    (table : AttrTable) :
    layout.relations? table = some (layout.relations table) := by
  have calls :
      layout.relate? (Shape.callees table) =
        some (layout.relate (Shape.callees table)) := by
    apply wellNumbered.relate?_eq_some Shape.mentioned_of_mem_callees
    intro shape isTerminal
    cases shape <;> first | rfl | cases isTerminal
  have first :
      layout.relate? (Shape.openers table) =
        some (layout.relate (Shape.openers table)) := by
    apply wellNumbered.relate?_eq_some
      (fun opens =>
        Shape.mentioned_of_mem_callees (Shape.mem_callees_of_mem_openers opens))
    intro shape isTerminal
    cases shape <;> first | rfl | cases isTerminal
  have callsUniform := layout.uniform_relate (Shape.callees table)
  have firstUniform := layout.uniform_relate (Shape.openers table)
  have disjointUniform :
      layout.disjointTerminals.Uniform
        (IndexSet.empty layout.terminalCount).room :=
    IndexRelation.Uniform.ofRows _ _
  simp only [relations?, calls, first, callsUniform.closure?_eq_some,
    IndexRelation.Uniform.star?_eq_some firstUniform,
    wellNumbered.disjointTerminals?_eq_some,
    disjointUniform.complement?_eq_some, Option.bind_eq_bind,
    Option.bind_some]
  rfl

end WellNumbered

/-- The first terminals of an expression are collected without refusal. -/
theorem firstTerms?_eq_some
    (layout : Layout)
    (table : AttrTable)
    {id : NodeId}
    (counted : id < layout.exprCount) :
    (layout.relations table).firstTerms? layout.terminalCount id =
      some ((layout.relations table).firstTerms layout.terminalCount id) := by
  have uniform := layout.uniform_relate (Shape.openers table)
  have row :
      (layout.relations table).firstClosure.row? id =
        some ((layout.relations table).firstClosure.row id) := by
    apply (uniform.star).row?_eq_some
    rwa [IndexRelation.size_star]
  have members :
      ∀ index ∈
          ((layout.relations table).firstClosure.row id).toList.takeWhile
            (· < layout.terminalCount),
        index < (IndexSet.empty layout.terminalCount).room := by
    intro index member
    have below :=
      (mem_takeWhile_lt_iff (IndexSet.pairwise_toList _)).mp member |>.2
    exact Nat.lt_of_lt_of_le below (IndexSet.le_room_empty _)
  rw [Relations.firstTerms?, row, Option.bind_eq_bind, Option.bind_some,
    IndexSet.ofList?_eq_some members]
  rfl

end Layout

end PegAudit
