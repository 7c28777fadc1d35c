import PegAudit.IndexSet.Operations
import PegAudit.IndexSet.Scan

namespace PegAudit

/-!
# Index sets word by word

The operations of index sets as work on words: a bit is tested and set by a
mask, bits are counted in each word, a union goes through the words in place
and is refused where the right operand has none, and members are listed by a
scan.
-/

namespace IndexSet

/-- Is the bit of an index set in its word? -/
def containsByMask
    (indices : IndexSet)
    (index : Nat) :
    Bool :=
  match indices.words[index / 64]? with
  | some word => word &&& bit index != 0
  | none => false

/-- Set the bit of an index in its word, refused if there is no such word. -/
def insertByMask?
    (indices : IndexSet)
    (index : Nat) :
    Option IndexSet := do
  let word ← indices.words[index / 64]?
  return { words := indices.words.setIfInBounds (index / 64) (word ||| bit index) }

/-- Unite one word in place, and report a change besides those reported before. -/
def uniteWord?
    (other : IndexSet)
    (state : IndexSet × Bool)
    (block : Nat) :
    Option (IndexSet × Bool) := do
  let word ← state.1.words[block]?
  let otherWord ← other.words[block]?
  let united := word ||| otherWord
  return ({ words := state.1.words.setIfInBounds block united },
    state.2 || word != united)

/-- Unite word by word, and report whether a word changed. -/
def uniteWords?
    (indices other : IndexSet) :
    Option (IndexSet × Bool) :=
  (List.range indices.words.size).foldlM (uniteWord? other) (indices, false)

/-- The number of bits that are set, word by word. -/
def countOnes
    (indices : IndexSet) :
    Nat :=
  indices.words.toList.foldl
    (fun counted word => counted + word.toBitVec.cpop.toNat) 0

/-- The operations of index sets word by word. -/
def wordOperations : Operations IndexSet :=
  { empty := empty
    insert? := insertByMask?
    union? := uniteWords?
    intersect := intersect
    contains := containsByMask
    intersects := intersects
    equal := fun left right => left.words == right.words
    isEmpty := isEmpty
    count := countOnes
    toList := fun indices => indices.scan.drain }

end IndexSet

end PegAudit
