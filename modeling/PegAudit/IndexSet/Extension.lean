import Mathlib.Data.Finset.Sort
import PegAudit.IndexSet.Operations

namespace PegAudit

/-!
# The extension of an index set

Seen from outside, an index set is a finite set of numbers with room for those
below 64 times the number of its words.  Here the operations are stated on such
finite sets, with no word in sight.
-/

namespace IndexSet

/-- A finite set of numbers, and the number of words that it has room in. -/
structure Extension where
  wordCount : Nat
  members : Finset Nat

namespace Extension

/-- Numbers below this bound, and no others, can be members. -/
def room
    (extension : Extension) :
    Nat :=
  64 * extension.wordCount

/-- No members, and room for every number below the capacity. -/
def empty
    (capacity : Nat) :
    Extension :=
  { wordCount := (capacity + 63) / 64
    members := ∅ }

/-- Add a number, refused if there is no room for it. -/
def insert?
    (extension : Extension)
    (index : Nat) :
    Option Extension :=
  if index < extension.room then
    some { extension with members := extension.members ∪ {index} }
  else
    none

/-- Add the members of the right set that the left one has room for. -/
def union
    (left right : Extension) :
    Extension :=
  { left with
    members := left.members ∪ right.members.filter (· < left.room) }

/--
The union, with whether it has a member that the left set lacks; refused if the
right set has fewer words.
-/
def union?
    (left right : Extension) :
    Option (Extension × Bool) :=
  if right.wordCount < left.wordCount then
    none
  else
    some
      (left.union right,
        decide (∃ index ∈ (left.union right).members, index ∉ left.members))

/-- Drop the members that the right set has room for and does not have. -/
def intersect
    (left right : Extension) :
    Extension :=
  { left with
    members :=
      left.members.filter fun index =>
        index ∈ right.members ∨ right.room ≤ index }

/-- The operations of finite sets with room. -/
def operations : Operations Extension :=
  { empty := empty
    insert? := insert?
    union? := union?
    intersect := intersect
    contains := fun extension index => decide (index ∈ extension.members)
    intersects := fun left right =>
      decide (∃ index ∈ left.members, index ∈ right.members)
    equal := fun left right =>
      decide (left.wordCount = right.wordCount ∧ left.members = right.members)
    isEmpty := fun extension => decide (extension.members = ∅)
    count := fun extension => extension.members.card
    toList := fun extension => extension.members.sort }

end Extension

/-- The members of an index set as a finite set, and the number of its words. -/
def extension
    (indices : IndexSet) :
    Extension :=
  { wordCount := indices.words.size
    members := indices.toList.toFinset }

end IndexSet

end PegAudit
