namespace PegAudit

/-!
# Sets of small indices

An `IndexSet` holds natural numbers as membership bits in consecutive 64-bit
words.  The number of words is fixed when the set is made and is part of its
identity: two sets with the same members but different word counts differ, an
index beyond the last word has no bit, and a union needs a right operand that
covers every word of the left one.

`contains` is the view through which the other modules reason.  `insert` and
`union` keep only what has a bit; `insert?` and `union?` refuse instead.
-/

/-- A set of natural numbers, one membership bit each, in 64-bit words. -/
structure IndexSet where
  words : Array UInt64
  deriving Repr, DecidableEq, Inhabited

namespace IndexSet

/-- The empty set with a bit for every index below `capacity`, in whole words. -/
def empty
    (capacity : Nat) :
    IndexSet :=
  { words := Array.replicate ((capacity + 63) / 64) 0 }

/-- Indices below this bound, and no others, have a bit. -/
def room
    (indices : IndexSet) :
    Nat :=
  64 * indices.words.size

/-- Membership.  An index without a bit is not a member. -/
def contains
    (indices : IndexSet)
    (index : Nat) :
    Bool :=
  match indices.words[index / 64]? with
  | some word => word.toNat.testBit (index % 64)
  | none => false

/-- The word whose only bit is that of `index`. -/
def bit
    (index : Nat) :
    UInt64 :=
  UInt64.ofNat (1 <<< (index % 64))

/-- Add an index if it has a bit. -/
def insert
    (indices : IndexSet)
    (index : Nat) :
    IndexSet :=
  { words := indices.words.modify (index / 64) (· ||| bit index) }

/-- Add an index, or refuse one without a bit. -/
def insert?
    (indices : IndexSet)
    (index : Nat) :
    Option IndexSet :=
  if index < indices.room then
    some (indices.insert index)
  else
    none

/-- The set of the listed indices that have a bit. -/
def ofList
    (capacity : Nat)
    (members : List Nat) :
    IndexSet :=
  members.foldl insert (empty capacity)

/-- Add the members of `other` that have a bit in `indices`. -/
def union
    (indices other : IndexSet) :
    IndexSet :=
  { words := indices.words.mapIdx fun position word =>
      match other.words[position]? with
      | some otherWord => word ||| otherWord
      | none => word }

/-- Union with a set of at least as many words; one with fewer is refused. -/
def union?
    (indices other : IndexSet) :
    Option IndexSet :=
  if other.words.size < indices.words.size then
    none
  else
    some (indices.union other)

/-- Keep the common members in the words that both sets have. -/
def intersect
    (indices other : IndexSet) :
    IndexSet :=
  { words := indices.words.mapIdx fun position word =>
      match other.words[position]? with
      | some otherWord => word &&& otherWord
      | none => word }

/-- Do the sets have a common member? -/
def intersects
    (indices other : IndexSet) :
    Bool :=
  (indices.words.zip other.words).any fun (word, otherWord) =>
    word &&& otherWord != 0

/-- Positions of the bits of one word, ascending.  A word without bits is skipped. -/
def positions
    (word : UInt64) :
    List Nat :=
  if word = 0 then
    []
  else
    (List.range 64).filter word.toNat.testBit

/-- The members in ascending order. -/
def toList
    (indices : IndexSet) :
    List Nat :=
  indices.words.toList.zipIdx.flatMap fun (word, block) =>
    (positions word).map (64 * block + ·)

/-- Number of members, word by word. -/
def count
    (indices : IndexSet) :
    Nat :=
  indices.words.toList.foldl
    (fun counted word => counted + (positions word).length) 0

/-- Is no bit set? -/
def isEmpty
    (indices : IndexSet) :
    Bool :=
  indices.words.all (· == 0)

/-- The members between braces, as in `1, 64`. -/
def text
    (indices : IndexSet) :
    String :=
  "\x7b" ++ ", ".intercalate (indices.toList.map toString) ++ "\x7d"

/-- Nothing is a member of an empty set. -/
@[simp] theorem contains_empty
    (capacity index : Nat) :
    (empty capacity).contains index = false := by
  simp only [contains, empty]
  split
  case h_1 word found =>
    rw [Array.getElem?_replicate] at found
    split at found
    · cases found
      simp
    · cases found
  case h_2 =>
    rfl

/-- A position is listed exactly when its bit is set. -/
theorem mem_positions_iff
    {word : UInt64}
    {position : Nat} :
    position ∈ positions word ↔
      position < 64 ∧ word.toNat.testBit position = true := by
  unfold positions
  split
  case isTrue noBits =>
    simp [noBits]
  case isFalse =>
    simp

/-- Insertion keeps the room. -/
@[simp] theorem room_insert
    (indices : IndexSet)
    (index : Nat) :
    (indices.insert index).room = indices.room := by
  simp [room, insert]

/-- Union keeps the room of its left operand. -/
@[simp] theorem room_union
    (indices other : IndexSet) :
    (indices.union other).room = indices.room := by
  simp [room, union]

/-- A checked insertion succeeds exactly below the room. -/
theorem insert?_isSome_iff
    (indices : IndexSet)
    (index : Nat) :
    (indices.insert? index).isSome = true ↔ index < indices.room := by
  unfold insert?
  split <;> simp_all

/-- A checked union succeeds exactly when every word has a partner. -/
theorem union?_isSome_iff
    (indices other : IndexSet) :
    (indices.union? other).isSome = true ↔
      indices.words.size ≤ other.words.size := by
  unfold union?
  split <;> simp <;> omega

end IndexSet

end PegAudit
