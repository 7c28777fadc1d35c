import PegAudit.IndexSet

namespace PegAudit

/-!
# Members of index sets

How each operation changes the members.  Insertion and union add only what has
room; intersection tests a member only against words that the right set has.
-/

namespace IndexSet

/-- The only bit of the word fits into it. -/
theorem toNat_bit
    (index : Nat) :
    (bit index).toNat = 1 <<< (index % 64) := by
  have small : index % 64 < 64 :=
    Nat.mod_lt index (by decide)
  have inWord : 1 <<< (index % 64) < 2 ^ 64 := by
    rw [Nat.one_shiftLeft]
    exact Nat.pow_lt_pow_right (by decide) small
  rw [bit, UInt64.toNat_ofNat_of_lt' inWord]

/-- The word of an index has its bit at the index's position only. -/
theorem testBit_bit
    (index position : Nat) :
    (bit index).toNat.testBit position =
      decide (index % 64 = position) := by
  rw [toNat_bit, Nat.one_shiftLeft, Nat.testBit_two_pow]

/-- A word has no bit behind its last position. -/
theorem testBit_of_le
    (word : UInt64)
    {position : Nat}
    (behind : 64 ≤ position) :
    word.toNat.testBit position = false := by
  apply Nat.testBit_lt_two_pow
  exact Nat.lt_of_lt_of_le word.toNat_lt
    (Nat.pow_le_pow_right (by decide) behind)

/-- Membership of an index that is given by its word and its position. -/
theorem contains_of_block
    {indices : IndexSet}
    {block position : Nat}
    (inside : block < indices.words.size)
    (inWord : position < 64) :
    indices.contains (64 * block + position) =
      indices.words[block].toNat.testBit position := by
  have quotient : (64 * block + position) / 64 = block := by omega
  have remainder : (64 * block + position) % 64 = position := by omega
  simp [contains, quotient, remainder, inside]

/-- An index whose word is there is below the room. -/
theorem lt_room_iff
    (indices : IndexSet)
    (index : Nat) :
    index < indices.room ↔ index / 64 < indices.words.size := by
  unfold room
  omega

/-- Members are below the room. -/
theorem lt_room_of_contains
    {indices : IndexSet}
    {index : Nat}
    (member : indices.contains index = true) :
    index < indices.room := by
  rw [lt_room_iff]
  unfold contains at member
  split at member
  case h_1 word found =>
    exact (Array.getElem?_eq_some_iff.mp found).1
  case h_2 =>
    cases member

/-- After an insertion the members are the old ones and, given room, the index. -/
theorem contains_insert
    (indices : IndexSet)
    (inserted index : Nat) :
    (indices.insert inserted).contains index =
      (indices.contains index ||
        (decide (inserted = index) && decide (index < indices.room))) := by
  unfold contains insert
  simp only [Array.getElem?_modify, lt_room_iff]
  by_cases present : index / 64 < indices.words.size
  · simp only [Array.getElem?_eq_getElem present]
    by_cases sameWord : inserted / 64 = index / 64
    · have sameIndex :
          inserted % 64 = index % 64 ↔ inserted = index := by
        omega
      simp [sameWord, testBit_bit, sameIndex, present]
    · have notSame : inserted ≠ index := by
        rintro rfl
        exact sameWord rfl
      simp [sameWord, notSame]
  · simp [present]

/-- The union has the members of the left set and those of the right with room. -/
theorem contains_union
    (indices other : IndexSet)
    (index : Nat) :
    (indices.union other).contains index =
      (indices.contains index ||
        (other.contains index && decide (index < indices.room))) := by
  unfold contains union
  simp only [Array.getElem?_mapIdx, lt_room_iff]
  by_cases present : index / 64 < indices.words.size
  · simp only [Array.getElem?_eq_getElem present, Option.map_some]
    cases other.words[index / 64]? <;> simp [present]
  · simp [present]

/-- The intersection tests an index only if the right set has a bit for it. -/
theorem contains_intersect
    (indices other : IndexSet)
    (index : Nat) :
    (indices.intersect other).contains index =
      (indices.contains index &&
        (other.contains index || decide (other.room ≤ index))) := by
  have outside :
      other.room ≤ index ↔ ¬ index / 64 < other.words.size := by
    rw [← lt_room_iff]
    omega
  unfold contains intersect
  simp only [Array.getElem?_mapIdx, outside]
  cases indices.words[index / 64]? with
  | none =>
      simp
  | some word =>
      by_cases present : index / 64 < other.words.size
      · simp [present]
      · simp [present]

/-- The listed indices are the members. -/
theorem mem_toList_iff
    {indices : IndexSet}
    {index : Nat} :
    index ∈ indices.toList ↔ indices.contains index = true := by
  unfold toList contains
  simp only [List.mem_flatMap, List.mem_map, Prod.exists,
    mem_positions_iff]
  constructor
  · rintro ⟨word, block, inWords, position, ⟨small, set⟩, rfl⟩
    have found := List.mem_zipIdx_iff_getElem?.mp inWords
    have quotient : (64 * block + position) / 64 = block := by omega
    have remainder : (64 * block + position) % 64 = position := by omega
    rw [quotient, remainder]
    simp_all
  · intro member
    split at member
    case h_1 word found =>
      refine ⟨word, index / 64, ?_, index % 64, ⟨?_, member⟩, ?_⟩
      · exact List.mem_zipIdx_iff_getElem?.mpr (by simpa using found)
      · exact Nat.mod_lt index (by decide)
      · exact Nat.div_add_mod index 64
    case h_2 =>
      cases member

/-- Inserting a list adds those of its indices that have room. -/
theorem contains_foldl_insert
    (indices : IndexSet)
    (added : List Nat)
    (index : Nat) :
    (added.foldl insert indices).contains index =
      (indices.contains index ||
        (decide (index ∈ added) && decide (index < indices.room))) := by
  induction added generalizing indices with
  | nil =>
      simp
  | cons first rest inductionHypothesis =>
      rw [List.foldl_cons, inductionHypothesis, contains_insert,
        room_insert]
      grind

/-- The empty set has room for whole words that cover its capacity. -/
theorem le_room_empty
    (capacity : Nat) :
    capacity ≤ (empty capacity).room := by
  simp only [room, empty, Array.size_replicate]
  omega

/-- A set made from a list has those of its indices that have room. -/
theorem contains_ofList
    (capacity : Nat)
    (members : List Nat)
    (index : Nat) :
    (ofList capacity members).contains index =
      (decide (index ∈ members) &&
        decide (index < (empty capacity).room)) := by
  simp [ofList, contains_foldl_insert]

end IndexSet

end PegAudit
