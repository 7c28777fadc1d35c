import PegAudit.IndexRelation
import PegAudit.IndexSet.Members

namespace PegAudit

/-!
# Members of relations

Which pairs a relation made from rows has, and what passing through a pivot
adds: exactly the pairs that are linked by way of the pivot and have room.
-/

namespace IndexRelation

/-- A relation made from rows has the listed pairs that have room. -/
theorem contains_ofRows
    (size : Nat)
    (related : Nat → List Nat)
    (left right : Nat) :
    (ofRows size related).contains left right =
      (decide (left < size) && decide (right ∈ related left) &&
        decide (right < (IndexSet.empty size).room)) := by
  unfold contains row ofRows
  by_cases present : left < size
  · simp [present, IndexSet.contains_ofList]
  · simp [present]

/-- A relation with no rows to the left relates nothing there. -/
theorem contains_of_size_le
    {relation : IndexRelation}
    {left : Nat}
    (outside : relation.rows.size ≤ left)
    (right : Nat) :
    relation.contains left right = false := by
  simp [contains, row, Array.getElem?_eq_none outside]

/-- What passing through a pivot relates. -/
theorem contains_through
    (relation : IndexRelation)
    (pivot left right : Nat) :
    (relation.through pivot).contains left right =
      (relation.contains left right ||
        (relation.contains left pivot &&
          relation.contains pivot right &&
            decide (right < (relation.row left).room))) := by
  unfold contains row through
  by_cases present : left < relation.rows.size
  · simp only [Array.getElem?_map, Array.getElem?_eq_getElem present,
      Option.map_some, Option.getD_some]
    split
    case isTrue reaches =>
      rw [IndexSet.contains_union]
      simp [row, reaches]
    case isFalse reachesNot =>
      simp [reachesNot]
  · simp [present]

end IndexRelation

end PegAudit
