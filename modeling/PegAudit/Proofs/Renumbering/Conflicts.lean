import Mathlib.Data.Finset.Dedup
import PegAudit.Proofs.Renumbering.Chart

namespace PegAudit

/-!
# Conflicts under other numbers

Corresponding nodes decide between corresponding ways, and the same terminals
lead them.  Only the order differs in which conflicts, and the pairs of a
conflict, are listed.
-/

/-- A decision between nodes with other numbers. -/
def Decision.renumbered
    (renumber : NodeId → NodeId)
    (decision : Decision) :
    Decision :=
  { first := renumber decision.first
    second := decision.second.map renumber
    owner := renumber decision.owner }

/-- What a conflict is about, under other numbers and without an order of pairs. -/
structure Conflict.Outline where
  first : NodeId
  second : Option NodeId
  owner : NodeId
  pairs : Finset (NodeId × NodeId)

/-- The outline of a conflict under other numbers. -/
def Conflict.outline
    (renumber : NodeId → NodeId)
    (conflict : Conflict) :
    Conflict.Outline :=
  { first := renumber conflict.first
    second := conflict.second.map renumber
    owner := renumber conflict.owner
    pairs := (conflict.pairs.map (Prod.map renumber renumber)).toFinset }

/-- Pairs of renumbered elements are renumbered pairs. -/
theorem orderedPairs_map
    (renumber : α → β)
    (elements : List α) :
    orderedPairs (elements.map renumber) =
      (orderedPairs elements).map (Prod.map renumber renumber) := by
  induction elements with
  | nil =>
      rfl
  | cons element rest inductionHypothesis =>
      simp [orderedPairs, inductionHypothesis]

/-- Corresponding shapes have corresponding decisions to make. -/
theorem Shape.decisions_renumbered
    (renumber : NodeId → NodeId)
    (owner : NodeId)
    (shape : Shape NodeId) :
    (shape.renumbered renumber).decisions (renumber owner) =
      (shape.decisions owner).map (Decision.renumbered renumber) := by
  cases shape with
  | unary operator body =>
      cases operator <;> rfl
  | group grouping parts =>
      cases grouping with
      | choice =>
          simp [renumbered, decisions, orderedPairs_map,
            Function.comp_def, Decision.renumbered]
      | sequence =>
          rfl
  | _ =>
      rfl

/-- A decision is a conflict unless no pair collides. -/
theorem Chart.conflict?_eq_ite
    (chart : Chart)
    (relations : Relations)
    (decision : Decision) :
    chart.conflict? relations decision =
      if (chart.collisions relations decision).isEmpty then
        none
      else
        some
          { first := decision.first
            second := decision.second
            owner := decision.owner
            pairs := chart.collisions relations decision } := by
  unfold conflict?
  cases chart.collisions relations decision <;> rfl

namespace Chart.Renumbers

variable
  {renumber : Equiv.Perm NodeId}
  {chart other : Chart}
  {relations otherRelations : Relations}

/-- The same terminals lead to the second way of corresponding decisions. -/
theorem contains_secondTerms
    (renumbers : chart.Renumbers renumber other)
    (terminated : chart.Terminated)
    (otherTerminated : other.Terminated)
    (decision : Decision)
    (terminal : NodeId) :
    (other.secondTerms (decision.renumbered renumber)).contains
        (renumber terminal) =
      (chart.secondTerms decision).contains terminal := by
  rw [Bool.eq_iff_iff, terminated.contains_secondTerms_iff,
    otherTerminated.contains_secondTerms_iff]
  simp [Decision.renumbered, renumbers.attrsOf_eq,
    (renumbers.firstOf _).contains_eq, (renumbers.followOf _).contains_eq]

/-- Corresponding pairs collide. -/
theorem mem_collisions_iff
    (renumbers : chart.Renumbers renumber other)
    (terminated : chart.Terminated)
    (otherTerminated : other.Terminated)
    (related : relations.Renumbers renumber otherRelations)
    (uniform :
      relations.nonDisjoint.Uniform chart.noTerminals.room)
    (otherUniform :
      otherRelations.nonDisjoint.Uniform other.noTerminals.room)
    {decision : Decision}
    {left right : NodeId} :
    (renumber left, renumber right) ∈
        other.collisions otherRelations (decision.renumbered renumber) ↔
      (left, right) ∈ chart.collisions relations decision := by
  rw [terminated.mem_collisions_iff uniform,
    otherTerminated.mem_collisions_iff otherUniform,
    renumbers.contains_secondTerms terminated otherTerminated,
    related.nonDisjoint.relates_iff, Decision.renumbered,
    (renumbers.firstOf _).contains_eq]

/-- Corresponding decisions are the same conflict or none. -/
theorem outline_conflict?
    (renumbers : chart.Renumbers renumber other)
    (terminated : chart.Terminated)
    (otherTerminated : other.Terminated)
    (related : relations.Renumbers renumber otherRelations)
    (uniform :
      relations.nonDisjoint.Uniform chart.noTerminals.room)
    (otherUniform :
      otherRelations.nonDisjoint.Uniform other.noTerminals.room)
    (decision : Decision) :
    (other.conflict? otherRelations (decision.renumbered renumber)).map
        (Conflict.outline id) =
      (chart.conflict? relations decision).map
        (Conflict.outline renumber) := by
  have collides
      {left right : NodeId} :
      (renumber left, renumber right) ∈
          other.collisions otherRelations (decision.renumbered renumber) ↔
        (left, right) ∈ chart.collisions relations decision :=
    renumbers.mem_collisions_iff terminated otherTerminated related uniform
      otherUniform
  have samePairs :
      (other.collisions otherRelations
          (decision.renumbered renumber)).toFinset =
        ((chart.collisions relations decision).map
          (Prod.map renumber renumber)).toFinset := by
    ext ⟨left, right⟩
    rw [List.mem_toFinset, List.mem_toFinset, List.mem_map]
    constructor
    · intro isOther
      refine ⟨(renumber.symm left, renumber.symm right), ?_, by simp⟩
      rwa [← collides, Equiv.apply_symm_apply, Equiv.apply_symm_apply]
    · rintro ⟨⟨first, second⟩, isPair, same⟩
      cases same
      exact collides.mpr isPair
  have sameEmpty :
      (other.collisions otherRelations
          (decision.renumbered renumber)).isEmpty =
        (chart.collisions relations decision).isEmpty := by
    rw [Bool.eq_iff_iff, List.isEmpty_iff, List.isEmpty_iff,
      ← List.toFinset_eq_empty_iff, samePairs, List.toFinset_eq_empty_iff,
      List.map_eq_nil_iff]
  rw [conflict?_eq_ite, conflict?_eq_ite, sameEmpty]
  split
  · rfl
  · simp only [Option.map_some, Conflict.outline, Prod.map_id,
      List.map_id, samePairs]
    simp [Decision.renumbered]

/-- Charts whose decisions correspond have the same conflicts, in some order. -/
theorem conflicts_perm
    (renumbers : chart.Renumbers renumber other)
    (terminated : chart.Terminated)
    (otherTerminated : other.Terminated)
    (related : relations.Renumbers renumber otherRelations)
    (uniform :
      relations.nonDisjoint.Uniform chart.noTerminals.room)
    (otherUniform :
      otherRelations.nonDisjoint.Uniform other.noTerminals.room)
    (decisions :
      other.decisions.Perm
        (chart.decisions.map (Decision.renumbered renumber))) :
    ((other.conflicts otherRelations).map (Conflict.outline id)).Perm
      ((chart.conflicts relations).map (Conflict.outline renumber)) := by
  have sameOutline :=
    renumbers.outline_conflict? terminated otherTerminated related uniform
      otherUniform
  calc
    ((other.conflicts otherRelations).map (Conflict.outline id)).Perm
        ((other.foundConflicts otherRelations).map
          (Conflict.outline id)) :=
      (List.mergeSort_perm _ _).map _
    _ |>.Perm
        (((chart.decisions.map (Decision.renumbered renumber)).filterMap
          (other.conflict? otherRelations)).map (Conflict.outline id)) :=
      (decisions.filterMap _).map _
    _ = (chart.foundConflicts relations).map
          (Conflict.outline renumber) := by
      simp only [foundConflicts, List.filterMap_map, List.map_filterMap,
        Function.comp_def, sameOutline]
    _ |>.Perm
        ((chart.conflicts relations).map (Conflict.outline renumber)) :=
      (List.mergeSort_perm _ _).symm.map _

end Chart.Renumbers

namespace Layout.Renumbers

variable
  {renumber : Equiv.Perm NodeId}
  {layout other : Layout}
  (renumbers : layout.Renumbers renumber other)
  (wellNumbered : layout.WellNumbered)
  (otherNumbered : other.WellNumbered)

include renumbers wellNumbered otherNumbered

/-- The decisions of opened charts correspond. -/
theorem decisions_perm
    (options : Options) :
    (other.openChart options).fillFollow.decisions.Perm
      ((layout.openChart options).fillFollow.decisions.map
        (Decision.renumbered renumber)) := by
  have compound := renumbers.compoundIds_perm wellNumbered otherNumbered
  have decides
      (id : NodeId) :
      (other.shape? (renumber id)).elim []
          (Shape.decisions (renumber id)) =
        ((layout.shape? id).elim [] (Shape.decisions id)).map
          (Decision.renumbered renumber) := by
    rw [renumbers.shape?_eq]
    cases layout.shape? id with
    | none =>
        rfl
    | some shape =>
        exact Shape.decisions_renumbered renumber id shape
  have here := wellNumbered.decisions_openChart options
  have there := otherNumbered.decisions_openChart options
  change ((other.openChart options).decisions).Perm
    ((layout.openChart options).decisions.map _)
  rw [here, there]
  refine (compound.flatMap_right _).trans (.of_eq ?_)
  rw [List.flatMap_map, List.map_flatMap]
  simp only [decides]

/-- Analyses without faults have the same conflicts, in some order. -/
theorem conflicts_perm
    (options : Options) :
    (((other.openChart options).fillFollow.conflicts
        (other.relations other.attrs)).map (Conflict.outline id)).Perm
      (((layout.openChart options).fillFollow.conflicts
        (layout.relations layout.attrs)).map
          (Conflict.outline renumber)) :=
  (renumbers.fillFollow wellNumbered otherNumbered options).conflicts_perm
    (wellNumbered.terminated_fillFollow options)
    (otherNumbered.terminated_fillFollow options)
    (renumbers.relations wellNumbered otherNumbered)
    (wellNumbered.uniform_nonDisjoint_openChart options)
    (otherNumbered.uniform_nonDisjoint_openChart options)
    (renumbers.decisions_perm wellNumbered otherNumbered options)

end Layout.Renumbers

end PegAudit
