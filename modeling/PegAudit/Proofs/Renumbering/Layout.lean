import Mathlib.Data.List.Nodup
import Mathlib.Data.List.Perm.Basic
import Mathlib.Logic.Equiv.Defs
import PegAudit.Proofs.Attrs.Least

namespace PegAudit

/-!
# Layouts that differ in their numbers only

Two layouts may have the same nodes under different numbers.  Their attributes
are then the same, node by node: each table of attributes is the least one that
is closed under what follows from the parts of nodes, so neither has a flag
that the other does not have.
-/

namespace Shape

/-- A shape whose parts have other numbers. -/
def renumbered
    (renumber : ι → κ) :
    Shape ι →
    Shape κ
  | .terminal item => .terminal item
  | .reference target rule => .reference target (renumber rule)
  | .unary operator body => .unary operator (renumber body)
  | .group grouping parts => .group grouping (parts.map renumber)
  | .remainingInput => .remainingInput

/-- Renumbering twice is renumbering once. -/
theorem renumbered_renumbered
    (first : ι → κ)
    (second : κ → ο)
    (shape : Shape ι) :
    (shape.renumbered first).renumbered second =
      shape.renumbered (second ∘ first) := by
  cases shape <;> simp [renumbered]

/-- Renumbering every part with its own number changes nothing. -/
@[simp] theorem renumbered_id
    (shape : Shape ι) :
    shape.renumbered id = shape := by
  cases shape <;> simp [renumbered]

/-- Terminals stay terminals. -/
@[simp] theorem isTerminal_renumbered
    (renumber : ι → κ)
    (shape : Shape ι) :
    (shape.renumbered renumber).isTerminal = shape.isTerminal := by
  cases shape <;> rfl

/-- Attributes are asked for under the new numbers. -/
@[simp] theorem attrs_renumbered
    (renumber : ι → κ)
    (known : κ → Attrs)
    (shape : Shape ι) :
    (shape.renumbered renumber).attrs known =
      shape.attrs fun id => known (renumber id) := by
  cases shape <;> simp [renumbered, attrs, Function.comp_def]

end Shape

/-- A node whose parts and whose rule have other numbers. -/
def Node.renumbered
    (renumber : NodeId → NodeId)
    (node : Node) :
    Node :=
  { node with
    shape := node.shape.renumbered renumber
    rule := renumber node.rule }

namespace Layout

/-- The other layout has the same nodes under other numbers. -/
structure Renumbers
    (renumber : Equiv.Perm NodeId)
    (layout other : Layout) :
    Prop where
  terminalCount_eq :
    other.terminalCount = layout.terminalCount
  exprCount_eq :
    other.exprCount = layout.exprCount
  node?_eq :
    ∀ id,
      other.node? (renumber id) =
        (layout.node? id).map (Node.renumbered renumber)
  rules_perm :
    other.rules.Perm (layout.rules.map renumber)
  start_eq :
    other.start = renumber layout.start
  unused_perm :
    other.unused.Perm layout.unused
  fixed :
    ∀ {id}, layout.exprCount ≤ id → renumber id = id

namespace Renumbers

variable
  {renumber : Equiv.Perm NodeId}
  {layout other : Layout}

/-- What has the numbers of the one layout under other numbers, the other way round. -/
theorem symm
    (renumbers : layout.Renumbers renumber other) :
    other.Renumbers renumber.symm layout where
  terminalCount_eq := renumbers.terminalCount_eq.symm
  exprCount_eq := renumbers.exprCount_eq.symm
  node?_eq := by
    intro id
    have there := renumbers.node?_eq (renumber.symm id)
    rw [Equiv.apply_symm_apply] at there
    rw [there, Option.map_map]
    have back :
        Node.renumbered renumber.symm ∘ Node.renumbered renumber =
          fun node => node := by
      funext node
      simp only [Function.comp_apply, Node.renumbered,
        Shape.renumbered_renumbered, Equiv.symm_comp_self,
        Shape.renumbered_id, Equiv.symm_apply_apply]
    rw [back, Option.map_id']
  rules_perm := by
    have back := renumbers.rules_perm.map renumber.symm
    simpa using back.symm
  start_eq := by
    rw [renumbers.start_eq, Equiv.symm_apply_apply]
  unused_perm := renumbers.unused_perm.symm
  fixed := by
    intro id notCounted
    rw [renumbers.exprCount_eq] at notCounted
    rw [Equiv.symm_apply_eq, renumbers.fixed notCounted]

/-- Corresponding nodes have corresponding shapes. -/
theorem shape?_eq
    (renumbers : layout.Renumbers renumber other)
    (id : NodeId) :
    other.shape? (renumber id) =
      (layout.shape? id).map (Shape.renumbered renumber) := by
  rw [shape?, shape?, renumbers.node?_eq]
  cases layout.node? id <;> rfl

/-- Corresponding nodes are shown alike. -/
theorem simple_eq
    (renumbers : layout.Renumbers renumber other)
    (id : NodeId) :
    other.simple (renumber id) = layout.simple id := by
  rw [simple, simple, renumbers.node?_eq]
  cases layout.node? id <;> rfl

/-- Corresponding nodes have the same source text. -/
theorem source_eq
    (renumbers : layout.Renumbers renumber other)
    (id : NodeId) :
    other.source (renumber id) = layout.source id := by
  rw [source, source, renumbers.node?_eq]
  cases layout.node? id <;> rfl

/-- Exactly the counted numbers get counted numbers. -/
theorem lt_exprCount_iff
    (renumbers : layout.Renumbers renumber other)
    {id : NodeId} :
    renumber id < layout.exprCount ↔ id < layout.exprCount := by
  constructor
  · intro counted
    by_contra notCounted
    rw [renumbers.fixed (Nat.le_of_not_lt notCounted)] at counted
    exact notCounted counted
  · intro counted
    by_contra notCounted
    have fixed := renumbers.fixed (Nat.le_of_not_lt notCounted)
    rw [renumber.injective fixed] at notCounted
    exact notCounted counted

/-- Exactly the terminals get numbers of terminals. -/
theorem lt_terminalCount_iff
    (renumbers : layout.Renumbers renumber other)
    (wellNumbered : layout.WellNumbered)
    (otherNumbered : other.WellNumbered)
    {id : NodeId} :
    renumber id < layout.terminalCount ↔ id < layout.terminalCount := by
  cases found : layout.shape? id with
  | some shape =>
      have otherFound := renumbers.shape?_eq id
      rw [found, Option.map_some] at otherFound
      rw [← wellNumbered.isTerminal_iff found,
        ← renumbers.terminalCount_eq,
        ← otherNumbered.isTerminal_iff otherFound,
        Shape.isTerminal_renumbered]
  | none =>
      have notCounted : layout.exprCount ≤ id := by
        by_contra counted
        obtain ⟨shape, present⟩ :=
          wellNumbered.exists_shape_iff.mpr (Nat.lt_of_not_le counted)
        rw [found] at present
        cases present
      rw [renumbers.fixed notCounted]

/-- Lists without repetition and with corresponding members correspond. -/
theorem perm_map_of_mem_iff
    {ids others : List NodeId}
    (nodup : ids.Nodup)
    (othersNodup : others.Nodup)
    (member_iff : ∀ id, renumber id ∈ others ↔ id ∈ ids) :
    others.Perm (ids.map renumber) := by
  apply (List.perm_ext_iff_of_nodup othersNodup
    (List.Nodup.map renumber.injective nodup)).mpr
  intro id
  rw [List.mem_map]
  constructor
  · intro isOther
    refine ⟨renumber.symm id, ?_, renumber.apply_symm_apply id⟩
    rwa [← member_iff, Equiv.apply_symm_apply]
  · rintro ⟨before, isBefore, rfl⟩
    exact (member_iff before).mpr isBefore

/-- The numbers of the expressions correspond. -/
theorem ids_perm
    (renumbers : layout.Renumbers renumber other) :
    other.ids.Perm (layout.ids.map renumber) := by
  apply perm_map_of_mem_iff List.nodup_range List.nodup_range
  intro id
  simp only [renumbers.exprCount_eq, List.mem_range,
    renumbers.lt_exprCount_iff]

/-- The numbers of the expressions that are not terminals correspond. -/
theorem compoundIds_perm
    (renumbers : layout.Renumbers renumber other)
    (wellNumbered : layout.WellNumbered)
    (otherNumbered : other.WellNumbered) :
    other.compoundIds.Perm (layout.compoundIds.map renumber) := by
  apply perm_map_of_mem_iff List.nodup_range' List.nodup_range'
  intro id
  have counted :
      renumber id < layout.exprCount ↔ id < layout.exprCount :=
    renumbers.lt_exprCount_iff
  have terminal :
      renumber id < layout.terminalCount ↔ id < layout.terminalCount :=
    renumbers.lt_terminalCount_iff wellNumbered otherNumbered
  have least := wellNumbered.terminalCount_le
  simp only [renumbers.exprCount_eq, renumbers.terminalCount_eq,
    List.mem_range'_1]
  lia

/-- The other layout gives a node no flag that the node does not have here. -/
theorem included_attrs
    (renumbers : layout.Renumbers renumber other)
    (wellNumbered : layout.WellNumbered)
    (id : NodeId) :
    (other.attrs.of (renumber id)).included (layout.attrs.of id) := by
  have below :=
    other.attrs_least
      (fun otherId => layout.attrs.of (renumber.symm otherId)) ?_
      (renumber id)
  · rwa [Equiv.symm_apply_apply] at below
  · intro otherId shape found
    have here := renumbers.symm.shape?_eq otherId
    rw [found, Option.map_some] at here
    have closed := attrs_closed wellNumbered here
    rwa [Shape.attrs_renumbered] at closed

/-- Nodes that correspond have the same attributes. -/
theorem attrs_eq
    (renumbers : layout.Renumbers renumber other)
    (wellNumbered : layout.WellNumbered)
    (otherNumbered : other.WellNumbered)
    (id : NodeId) :
    other.attrs.of (renumber id) = layout.attrs.of id := by
  apply Attrs.included_antisymm (renumbers.included_attrs wellNumbered id)
  have back :=
    renumbers.symm.included_attrs otherNumbered (renumber id)
  rwa [Equiv.symm_apply_apply] at back

end Renumbers

end Layout

end PegAudit
