import PegAudit.IndexRelation.Checked
import PegAudit.IndexRelation.Operations
import PegAudit.IndexSet.Words

namespace PegAudit

/-!
# Relations pair by pair

The operations of relations as work on pairs, rows and words: a relation is
made by relating one pair after the other, rows are united and intersected in
place as long as both relations have one, and pairs are listed by scanning the
rows.
-/

namespace IndexRelation

/-- Relate two indices by a mask, refused if a row or a word is missing. -/
def insertByMask?
    (relation : IndexRelation)
    (pair : Nat × Nat) :
    Option IndexRelation := do
  let related ← relation.row? pair.1
  let grown ← related.insertByMask? pair.2
  return { relation with rows := relation.rows.setIfInBounds pair.1 grown }

/-- Unite rows word by word as long as there are two. -/
def uniteRows? :
    List IndexSet →
    List IndexSet →
    Option (List IndexSet)
  | [], _ =>
      some []
  | related :: rows, [] =>
      some (related :: rows)
  | related :: rows, other :: others => do
      let (united, _) ← related.uniteWords? other
      let rest ← uniteRows? rows others
      return united :: rest

/-- Intersect rows as long as there are two. -/
def intersectRows :
    List IndexSet →
    List IndexSet →
    List IndexSet
  | [], _ =>
      []
  | related :: rows, [] =>
      related :: rows
  | related :: rows, other :: others =>
      related.intersect other :: intersectRows rows others

/-- The set of the listed indices, bit by bit, refused if one has no bit. -/
def membersByMask?
    (capacity : Nat)
    (indices : List Nat) :
    Option IndexSet :=
  indices.foldlM IndexSet.insertByMask? (IndexSet.empty capacity)

/-- The operations of relations pair by pair. -/
def pairwiseOperations : Operations IndexRelation :=
  { empty := empty
    identity? := identity?
    product? := fun leftCapacity left rightCapacity right size => do
      let leftSet ← membersByMask? leftCapacity left
      let rightSet ← membersByMask? rightCapacity right
      product? leftSet rightSet size
    insert? := insertByMask?
    union? := fun left right => do
      let rows ← uniteRows? left.rows.toList right.rows.toList
      return { left with rows := rows.toArray }
    intersect := fun left right =>
      { left with
        rows := (intersectRows left.rows.toList right.rows.toList).toArray }
    complement? := complement?
    closure? := closure?
    star? := star?
    contains? := fun relation left right =>
      (relation.row? left).map (·.containsByMask right)
    equal := fun left right =>
      left.size == right.size && left.rows == right.rows
    rows := fun relation =>
      relation.rows.toList.map fun related => related.scan.drain
    weight := fun relation =>
      relation.rows.toList.foldl
        (fun counted related => counted + related.countOnes) 0
    pairs := fun relation =>
      relation.rows.toList.zipIdx.flatMap fun (related, left) =>
        related.scan.drain.map (left, ·) }

end IndexRelation

end PegAudit
