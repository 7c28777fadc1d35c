import PegAudit.Proofs.Layout.WellNumbered
import PegAudit.Proofs.Sweeps
import PegAudit.Attrs

namespace PegAudit

/-!
# The attributes are closed

The sweeps over a layout end in a table that no node can add to: the attributes
of a node include those that follow from its parts.
-/

namespace Attrs

/-- A union adds nothing exactly if the right operand is included. -/
theorem union_eq_left_iff
    {left right : Attrs} :
    left.union right = left ↔ right.included left := by
  rcases left with ⟨nullable, advances, canFail, endsInput⟩
  simp [union, included]

/-- Adding to a flag leaves its count only if it was on before. -/
theorem toNat_or
    (flag added : Bool) :
    flag.toNat ≤ (flag || added).toNat ∧
      ((flag || added).toNat ≤ flag.toNat → added = true → flag = true) := by
  cases flag <;> cases added <;> decide

/-- A union that adds a flag has more flags. -/
theorem count_lt_count_union
    {left right : Attrs}
    (grown : left.union right ≠ left) :
    left.count < (left.union right).count := by
  apply Nat.lt_of_not_le
  intro noMore
  have nullable := toNat_or left.nullable right.nullable
  have advances := toNat_or left.advances right.advances
  have canFail := toNat_or left.canFail right.canFail
  have endsInput := toNat_or left.endsInput right.endsInput
  simp only [count, union] at noMore
  -- Without more flags in all, no single flag was switched on.
  apply grown
  apply union_eq_left_iff.mpr
  exact
    ⟨nullable.2 (by omega), advances.2 (by omega),
      canFail.2 (by omega), endsInput.2 (by omega)⟩

end Attrs

namespace Layout

/-- Attribute updates keep the size of the table and only switch flags on. -/
theorem growing_updateAttrs
    (layout : Layout) :
    Growing layout.updateAttrs
      (fun table => table.size = layout.nodes.size)
      Attrs.count where
  keeps := by
    intro table index sameSize
    simpa using sameSize
  grows := by
    intro table index entry _ present changed
    unfold updateAttrs at *
    split at changed
    case h_1 shape found =>
      exact Attrs.count_lt_count_union changed
    case h_2 =>
      exact (changed rfl).elim

/-- The sweeps keep one entry for each node. -/
theorem size_attrs
    (layout : Layout) :
    layout.attrs.size = layout.nodes.size :=
  settle_sweep_preserves (fun table => table.size = layout.nodes.size)
    layout.growing_updateAttrs.keeps layout.ids
    (4 * layout.exprCount + 1) (by simp [initialAttrs])

/-- The attributes of a node include those that follow from its parts. -/
theorem attrs_closed
    {layout : Layout}
    (wellNumbered : layout.WellNumbered)
    {id : NodeId}
    {shape : Shape NodeId}
    (found : layout.shape? id = some shape) :
    (shape.attrs layout.attrs.of).included (layout.attrs.of id) := by
  have counted : id < layout.exprCount :=
    wellNumbered.exists_shape_iff.mp ⟨shape, found⟩
  have inside : id < layout.attrs.size := by
    rw [layout.size_attrs, wellNumbered.size_nodes]
    exact counted
  have present : layout.attrs[id]? = some (layout.attrs.of id) := by
    simp [AttrTable.of, inside]
  have fixed :
      layout.updateAttrs layout.attrs id (layout.attrs.of id) =
        layout.attrs.of id := by
    refine layout.growing_updateAttrs.update_settle 4 ?_ layout.ids ?_
      (by simp [initialAttrs]) (List.mem_range.mpr counted) present
    · intro table index entry _ _
      exact entry.count_le_four
    · simp only [ids, List.length_range]
      omega
  simp only [updateAttrs, found] at fixed
  exact Attrs.union_eq_left_iff.mp fixed

end Layout

end PegAudit
