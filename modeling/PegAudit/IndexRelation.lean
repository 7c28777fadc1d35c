import PegAudit.IndexSet

namespace PegAudit

/-!
# Relations between small indices

An `IndexRelation` of size `n` relates each of `n` left indices to a set of
right indices.  A row has whole words, so it has room for some right indices
at or beyond `n`; only complementation drops those.  The closure is Warshall's
algorithm, a fold over the pivots `0, …, n - 1`.
-/

/-- One row of related indices for each left index. -/
structure IndexRelation where
  size : Nat
  rows : Array IndexSet
  deriving Repr, DecidableEq, Inhabited

namespace IndexRelation

/-- The relation of `size` rows whose row `i` has the members `related i`. -/
def ofRows
    (size : Nat)
    (related : Nat → List Nat) :
    IndexRelation :=
  { size := size
    rows := Array.ofFn fun (left : Fin size) =>
      IndexSet.ofList size (related left) }

/-- The empty relation. -/
def empty
    (size : Nat) :
    IndexRelation :=
  ofRows size fun _ => []

/-- Equality of indices below `size`. -/
def identity
    (size : Nat) :
    IndexRelation :=
  ofRows size fun index => [index]

/-- Every member of `left` below `size` related to every such member of `right`. -/
def product
    (left right : IndexSet)
    (size : Nat) :
    IndexRelation :=
  let targets := right.toList.filter (· < size)
  ofRows size fun index =>
    if left.contains index then
      targets
    else
      []

/-- The row of a left index, empty where there is none. -/
def row
    (relation : IndexRelation)
    (left : Nat) :
    IndexSet :=
  relation.rows[left]?.getD (IndexSet.empty 0)

/-- The row of a left index, if it exists. -/
def row?
    (relation : IndexRelation)
    (left : Nat) :
    Option IndexSet :=
  relation.rows[left]?

/-- Are the two indices related? -/
def contains
    (relation : IndexRelation)
    (left right : Nat) :
    Bool :=
  (relation.row left).contains right

/-- Are the two indices related?  Refuses a left index without a row. -/
def contains?
    (relation : IndexRelation)
    (left right : Nat) :
    Option Bool :=
  (relation.row? left).map (·.contains right)

/-- Relate two indices, or refuse a missing row or a missing bit. -/
def insert?
    (relation : IndexRelation)
    (left right : Nat) :
    Option IndexRelation := do
  let related ← relation.row? left
  let grown ← related.insert? right
  return { relation with rows := relation.rows.setIfInBounds left grown }

/-- Unite the rows that both relations have; the left size is kept. -/
def union
    (relation other : IndexRelation) :
    IndexRelation :=
  { relation with
    rows := relation.rows.mapIdx fun left related =>
      match other.rows[left]? with
      | some otherRelated => related.union otherRelated
      | none => related }

/-- Union, refused if a row of the right operand is too short for its partner. -/
def union?
    (relation other : IndexRelation) :
    Option IndexRelation :=
  if (relation.rows.zip other.rows).all fun (related, otherRelated) =>
      related.words.size ≤ otherRelated.words.size then
    some (relation.union other)
  else
    none

/-- Intersect the rows that both relations have; the left size is kept. -/
def intersect
    (relation other : IndexRelation) :
    IndexRelation :=
  { relation with
    rows := relation.rows.mapIdx fun left related =>
      match other.rows[left]? with
      | some otherRelated => related.intersect otherRelated
      | none => related }

/-- The pairs below the size that are not related. -/
def complement
    (relation : IndexRelation) :
    IndexRelation :=
  ofRows relation.size fun left =>
    (List.range relation.size).filter fun right =>
      !relation.contains left right

/-- Send every row that reaches `pivot` on to everything the pivot reaches. -/
def through
    (relation : IndexRelation)
    (pivot : Nat) :
    IndexRelation :=
  let reached := relation.row pivot
  { relation with
    rows := relation.rows.map fun related =>
      if related.contains pivot then
        related.union reached
      else
        related }

/-- Transitive closure, by Warshall's algorithm. -/
def closure
    (relation : IndexRelation) :
    IndexRelation :=
  (List.range relation.size).foldl through relation

/-- Reflexive and transitive closure. -/
def star
    (relation : IndexRelation) :
    IndexRelation :=
  relation.closure.union (identity relation.size)

/-- Number of related pairs. -/
def weight
    (relation : IndexRelation) :
    Nat :=
  relation.rows.toList.foldl
    (fun counted related => counted + related.count) 0

/-- The related pairs in row-major order. -/
def pairs
    (relation : IndexRelation) :
    List (Nat × Nat) :=
  relation.rows.toList.zipIdx.flatMap fun (related, left) =>
    related.toList.map (left, ·)

/-- The rows that have members, each after its left index, between braces. -/
def text
    (relation : IndexRelation) :
    String :=
  let entries :=
    relation.rows.toList.zipIdx.filterMap fun (related, left) =>
      if related.isEmpty then
        none
      else
        some (toString left ++ ": " ++ related.text)
  "\x7b" ++ ", ".intercalate entries ++ "\x7d"

/-- A relation made from rows has the requested size. -/
@[simp] theorem size_ofRows
    (size : Nat)
    (related : Nat → List Nat) :
    (ofRows size related).size = size :=
  rfl

/-- A relation made from rows has a row for each index below its size. -/
@[simp] theorem size_rows_ofRows
    (size : Nat)
    (related : Nat → List Nat) :
    (ofRows size related).rows.size = size := by
  simp [ofRows]

/-- Passing through a pivot keeps the size. -/
@[simp] theorem size_through
    (relation : IndexRelation)
    (pivot : Nat) :
    (relation.through pivot).size = relation.size :=
  rfl

/-- Passing through a pivot keeps the number of rows. -/
@[simp] theorem size_rows_through
    (relation : IndexRelation)
    (pivot : Nat) :
    (relation.through pivot).rows.size = relation.rows.size := by
  simp [through]

end IndexRelation

end PegAudit
