import PegAudit.Fixpoint.Checked
import PegAudit.IndexRelation.Commands

namespace PegAudit

/-!
# Relations built with checks

Relations are built pair by pair, and closed by uniting rows in place.  Here
every row and every bit that this touches is checked, and a union is refused if
the right row is too short.
-/

/-- The set of the listed indices, refused if one of them has no bit. -/
def IndexSet.ofList?
    (capacity : Nat)
    (members : List Nat) :
    Option IndexSet :=
  members.foldlM insert? (empty capacity)

namespace IndexRelation

/-- The relation of the listed pairs, refused if one has no row or no bit. -/
def ofPairs?
    (size : Nat)
    (pairs : List (Nat × Nat)) :
    Option IndexRelation :=
  (empty size).insertAll? pairs

/-- Equality of indices below `size`, pair by pair. -/
def identity?
    (size : Nat) :
    Option IndexRelation :=
  ofPairs? size ((List.range size).map fun index => (index, index))

/-- The product of two sets below `size`, pair by pair. -/
def product?
    (left right : IndexSet)
    (size : Nat) :
    Option IndexRelation :=
  ofPairs? size
    ((left.toList.filter (· < size)).flatMap fun index =>
      (right.toList.filter (· < size)).map (index, ·))

/-- The pairs below the size that are not related, looked up pair by pair. -/
def complement?
    (relation : IndexRelation) :
    Option IndexRelation := do
  let missing ←
    (List.range relation.size).mapM fun left => do
      let related ← relation.row? left
      return ((List.range relation.size).filter fun right =>
        !related.contains right).map (left, ·)
  ofPairs? relation.size missing.flatten

/-- Unite the pivot's row, in place, with each row that reaches the pivot. -/
def through?
    (relation : IndexRelation)
    (pivot : Nat) :
    Option IndexRelation := do
  let reached ← relation.row? pivot
  let rows ←
    sweep?
      (fun _ _ related =>
        if related.contains pivot then
          related.union? reached
        else
          some related)
      (List.range relation.size) relation.rows
  return { relation with rows := rows }

/-- Transitive closure, pivot by pivot. -/
def closure?
    (relation : IndexRelation) :
    Option IndexRelation :=
  (List.range relation.size).foldlM through? relation

/-- Reflexive and transitive closure. -/
def star?
    (relation : IndexRelation) :
    Option IndexRelation := do
  let closed ← relation.closure?
  let same ← identity? relation.size
  closed.union? same

end IndexRelation

end PegAudit
