import Mathlib.Data.Finset.Sort
import Mathlib.Data.Finset.Prod
import Mathlib.Data.Prod.Lex
import Mathlib.Logic.Relation
import PegAudit.IndexRelation.Operations
import PegAudit.IndexSet.Extension

namespace PegAudit

/-!
# The extension of a relation

Seen from outside, a relation is a finite set of pairs: each left index is below
the size, and each right index is below the size rounded up to a multiple of 64.
Here the operations are stated on such sets of pairs.
-/

namespace IndexRelation

/-- A finite set of pairs, and the size that bounds them. -/
structure Extension where
  size : Nat
  pairs : Finset (Nat × Nat)

namespace Extension

variable (extension left right : Extension)

/-- Right indices are below this bound. -/
def room :
    Nat :=
  64 * ((extension.size + 63) / 64)

/-- All pairs of indices below the size. -/
def square
    (size : Nat) :
    Finset (Nat × Nat) :=
  .range size ×ˢ .range size

/-- No pairs. -/
def empty
    (size : Nat) :
    Extension :=
  { size := size
    pairs := ∅ }

/-- Each index below the size, and itself. -/
def identity
    (size : Nat) :
    Extension :=
  { size := size
    pairs := (Finset.range size).diag }

/-- All pairs of a member of the one set and one of the other, below the size. -/
def product
    (lefts rights : Finset Nat)
    (size : Nat) :
    Extension :=
  { size := size
    pairs := (lefts ×ˢ rights) ∩ square size }

/-- The set of the listed indices, refused if one is beyond the capacity. -/
def members?
    (capacity : Nat)
    (indices : List Nat) :
    Option IndexSet.Extension :=
  indices.foldlM IndexSet.Extension.insert? (.empty capacity)

/-- Add a pair, refused if there is no room for it. -/
def insert?
    (pair : Nat × Nat) :
    Option Extension :=
  if pair.1 < extension.size ∧ pair.2 < extension.room then
    some { extension with pairs := extension.pairs ∪ {pair} }
  else
    none

/-- Add the pairs of the right relation that the left one has room for. -/
def union :
    Extension :=
  { left with
    pairs :=
      left.pairs ∪
        right.pairs.filter fun pair =>
          pair.1 < left.size ∧ pair.2 < left.room }

/-- The union, refused if the right relation has rows and these are shorter. -/
def union? :
    Option Extension :=
  if right.size ≠ 0 ∧ right.room < left.room then
    none
  else
    some (left.union right)

/-- Drop the pairs that the right relation has room for and does not have. -/
def intersect :
    Extension :=
  { left with
    pairs :=
      left.pairs.filter fun pair =>
        pair ∈ right.pairs ∨ right.size ≤ pair.1 ∨ right.room ≤ pair.2 }

/-- The other pairs below the size. -/
def complement :
    Extension :=
  { extension with pairs := square extension.size \ extension.pairs }

open Classical in
/-- The pairs that paths of one or more links join. -/
noncomputable def closure :
    Extension :=
  { extension with
    pairs :=
      (Finset.range extension.size ×ˢ Finset.range extension.room).filter
        fun pair =>
          Relation.TransGen (fun first second => (first, second) ∈ extension.pairs)
            pair.1 pair.2 }

/-- The closure, and each index below the size with itself. -/
noncomputable def star :
    Extension :=
  { extension with
    pairs := extension.closure.pairs ∪ (identity extension.size).pairs }

/-- The right indices that are related to an index on the left. -/
def row
    (index : Nat) :
    Finset Nat :=
  (extension.pairs.filter fun pair => pair.1 = index).image Prod.snd

/-- The pairs by their left index, and by the right one if it is the same. -/
def sorted :
    List (Nat × Nat) :=
  (extension.pairs.image toLex).sort.map ofLex

/-- The operations of sets of pairs. -/
noncomputable def operations : Operations Extension :=
  { empty := empty
    identity? := fun size => some (identity size)
    product? := fun leftCapacity left rightCapacity right size => do
      let lefts ← members? leftCapacity left
      let rights ← members? rightCapacity right
      return product lefts.members rights.members size
    insert? := insert?
    union? := union?
    intersect := intersect
    complement? := fun extension => some extension.complement
    closure? := fun extension => some extension.closure
    star? := fun extension => some extension.star
    contains? := fun extension left right =>
      if left < extension.size then
        some (decide ((left, right) ∈ extension.pairs))
      else
        none
    equal := fun left right =>
      decide (left.size = right.size ∧ left.pairs = right.pairs)
    rows := fun extension =>
      (List.range extension.size).map fun left => (extension.row left).sort
    weight := fun extension => extension.pairs.card
    pairs := sorted }

end Extension

/-- The pairs of a relation as a finite set, and its size. -/
def extension
    (relation : IndexRelation) :
    Extension :=
  { size := relation.size
    pairs := relation.pairs.toFinset }

end IndexRelation

end PegAudit
