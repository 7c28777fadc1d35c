import Mathlib.Data.List.Sort
import PegAudit.IndexSet.Members

namespace PegAudit

/-!
# The listing of an index set

The members are listed in ascending order, so the listing is the numbers below
the room that are members, and the count is its length.  Pairs made of such
listings are ordered by their left element and then by the right one.  A set of
the same room with more members has a larger count.
-/

/-- Taking the small elements off the front of an ascending list misses none. -/
theorem mem_takeWhile_lt_iff
    {elements : List Nat}
    (ascending : elements.Pairwise (· < ·))
    {bound element : Nat} :
    element ∈ elements.takeWhile (· < bound) ↔
      element ∈ elements ∧ element < bound := by
  induction elements with
  | nil =>
      simp
  | cons first rest inductionHypothesis =>
      obtain ⟨before, restAscending⟩ := List.pairwise_cons.mp ascending
      by_cases small : first < bound
      · rw [List.takeWhile_cons_of_pos (by simpa using small),
          List.mem_cons, List.mem_cons, inductionHypothesis restAscending]
        constructor
        · rintro (rfl | ⟨inRest, within⟩)
          · exact ⟨.inl rfl, small⟩
          · exact ⟨.inr inRest, within⟩
        · rintro ⟨rfl | inRest, within⟩
          · exact .inl rfl
          · exact .inr ⟨inRest, within⟩
      · rw [List.takeWhile_cons_of_neg (by simpa using small)]
        constructor
        · intro impossible
          cases impossible
        · rintro ⟨member, within⟩
          rcases List.mem_cons.mp member with rfl | inRest
          · exact (small within).elim
          · have := before element inRest
            omega

/-- Elements are numbered in ascending order. -/
theorem pairwise_snd_zipIdx
    (elements : List α) :
    elements.zipIdx.Pairwise fun first second => first.2 < second.2 := by
  have numbers : (elements.zipIdx.map Prod.snd).Pairwise (· < ·) := by
    rw [List.zipIdx_map_snd]
    exact List.pairwise_lt_range'
  exact List.pairwise_map.mp numbers

/-- Pairs are listed in order if their left and their right elements are. -/
theorem pairwise_lex_flatMap
    {entries : List α}
    {left : α → Nat}
    {rights : α → List Nat}
    (leftsAscend :
      entries.Pairwise fun first second => left first < left second)
    (rightsAscend : ∀ entry ∈ entries, (rights entry).Pairwise (· < ·)) :
    (entries.flatMap fun entry => (rights entry).map (left entry, ·)).Pairwise
      (Prod.Lex (· < ·) (· < ·)) := by
  refine List.pairwise_flatMap.mpr ⟨?_, ?_⟩
  · intro entry member
    rw [List.pairwise_map]
    exact (rightsAscend entry member).imp fun before => .right _ before
  · refine leftsAscend.imp ?_
    intro entry other before pair ofEntry laterPair ofOther
    obtain ⟨right, _, rfl⟩ := List.mem_map.mp ofEntry
    obtain ⟨later, _, rfl⟩ := List.mem_map.mp ofOther
    exact .left right later before

/-- Counting element by element counts what is listed for the elements. -/
theorem foldl_add_eq_length_flatMap
    {count : α → Nat}
    {listed : α × Nat → List β}
    (length_listed : ∀ entry, (listed entry).length = count entry.1)
    (elements : List α)
    (start counted : Nat) :
    elements.foldl (fun counted element => counted + count element) counted =
      counted + ((elements.zipIdx start).flatMap listed).length := by
  induction elements generalizing start counted with
  | nil =>
      rfl
  | cons element rest inductionHypothesis =>
      rw [List.foldl_cons, inductionHypothesis (start + 1), List.zipIdx_cons,
        List.flatMap_cons, List.length_append, length_listed, Nat.add_assoc]

namespace IndexSet

/-- Members are listed in ascending order. -/
theorem pairwise_toList
    (indices : IndexSet) :
    indices.toList.Pairwise (· < ·) := by
  rw [toList, List.pairwise_flatMap]
  constructor
  · rintro ⟨word, block⟩ _
    rw [List.pairwise_map]
    have positionsAscend : (positions word).Pairwise (· < ·) := by
      unfold positions
      split
      · exact .nil
      · exact List.pairwise_lt_range.filter _
    exact positionsAscend.imp fun lower => by omega
  · apply (pairwise_snd_zipIdx _).imp
    rintro ⟨word, block⟩ ⟨laterWord, laterBlock⟩ earlier
    simp only [List.mem_map, mem_positions_iff] at earlier ⊢
    rintro index ⟨position, ⟨small, _⟩, rfl⟩
      later ⟨laterPosition, ⟨_, _⟩, rfl⟩
    omega

/-- The listing is the numbers with room that are members. -/
theorem toList_eq_filter
    (indices : IndexSet) :
    indices.toList =
      (List.range indices.room).filter indices.contains := by
  apply indices.pairwise_toList.eq_of_mem_iff
    (List.pairwise_lt_range.filter _)
  intro index
  rw [mem_toList_iff, List.mem_filter, List.mem_range]
  constructor
  · intro member
    exact ⟨lt_room_of_contains member, member⟩
  · exact And.right

/-- The count is the length of the listing. -/
theorem count_eq_length_toList
    (indices : IndexSet) :
    indices.count = indices.toList.length := by
  have sameLength
      (entry : UInt64 × Nat) :
      ((positions entry.1).map (64 * entry.2 + ·)).length =
        (positions entry.1).length :=
    List.length_map _
  rw [count, foldl_add_eq_length_flatMap sameLength _ 0, Nat.zero_add]
  rfl

/-- Sets with the same number of words and the same members are equal. -/
theorem eq_of_contains_eq
    {left right : IndexSet}
    (sameRoom : left.room = right.room)
    (sameMembers : left.contains = right.contains) :
    left = right := by
  have sameSize : left.words.size = right.words.size := by
    unfold room at sameRoom
    omega
  suffices sameWords : left.words = right.words by
    cases left
    cases right
    exact congrArg mk sameWords
  apply Array.ext sameSize
  intro block inLeft inRight
  apply UInt64.toNat_inj.mp
  apply Nat.eq_of_testBit_eq
  intro position
  by_cases small : position < 64
  · have sameBit := congrFun sameMembers (64 * block + position)
    rwa [contains_of_block inLeft small, contains_of_block inRight small]
      at sameBit
  · rw [testBit_of_le _ (Nat.le_of_not_lt small),
      testBit_of_le _ (Nat.le_of_not_lt small)]

/-- A different set of the same room that keeps all members has more. -/
theorem count_lt_count
    {smaller larger : IndexSet}
    (sameRoom : smaller.room = larger.room)
    (included :
      ∀ {index},
        smaller.contains index = true →
        larger.contains index = true)
    (different : larger ≠ smaller) :
    smaller.count < larger.count := by
  rw [count_eq_length_toList, count_eq_length_toList,
    toList_eq_filter, toList_eq_filter, sameRoom]
  have sublist :
      ((List.range larger.room).filter smaller.contains).Sublist
        ((List.range larger.room).filter larger.contains) :=
    List.monotone_filter_right _ fun _ member => included member
  apply Nat.lt_of_le_of_ne sublist.length_le
  intro sameLength
  have sameListing := sublist.eq_of_length sameLength
  apply different
  apply eq_of_contains_eq sameRoom.symm
  funext index
  apply Bool.eq_iff_iff.mpr
  constructor
  · intro member
    have listed :
        index ∈ (List.range larger.room).filter larger.contains :=
      List.mem_filter.mpr
        ⟨List.mem_range.mpr (lt_room_of_contains member), member⟩
    rw [← sameListing] at listed
    exact (List.mem_filter.mp listed).2
  · exact included

/-- Members below a bound are at most as many as the bound. -/
theorem count_le
    {indices : IndexSet}
    {bound : Nat}
    (below :
      ∀ {index},
        indices.contains index = true →
        index < bound) :
    indices.count ≤ bound := by
  rw [count_eq_length_toList]
  have distinct : indices.toList.Nodup :=
    indices.pairwise_toList.imp Nat.ne_of_lt
  have listed : indices.toList ⊆ List.range bound := by
    intro index member
    exact List.mem_range.mpr (below (mem_toList_iff.mp member))
  have fewer := (List.subperm_of_subset distinct listed).length_le
  rwa [List.length_range] at fewer

/-- A set made from a list has the room of the empty set. -/
@[simp] theorem room_ofList
    (capacity : Nat)
    (members : List Nat) :
    (ofList capacity members).room = (empty capacity).room := by
  have keepsRoom
      (added : List Nat)
      (indices : IndexSet) :
      (added.foldl insert indices).room = indices.room := by
    induction added generalizing indices with
    | nil =>
        rfl
    | cons first rest inductionHypothesis =>
        rw [List.foldl_cons, inductionHypothesis, room_insert]
  exact keepsRoom members (empty capacity)

/-- Uniting with sets one after the other keeps the room. -/
@[simp] theorem room_foldl_union
    (indices : IndexSet)
    (added : List IndexSet) :
    (added.foldl union indices).room = indices.room := by
  induction added generalizing indices with
  | nil =>
      rfl
  | cons first rest inductionHypothesis =>
      rw [List.foldl_cons, inductionHypothesis, room_union]

/-- Uniting with sets adds those of their members that have room. -/
theorem contains_foldl_union
    (indices : IndexSet)
    (added : List IndexSet)
    (index : Nat) :
    (added.foldl union indices).contains index =
      (indices.contains index ||
        (added.any (·.contains index) &&
          decide (index < indices.room))) := by
  induction added generalizing indices with
  | nil =>
      simp
  | cons first rest inductionHypothesis =>
      rw [List.foldl_cons, inductionHypothesis, contains_union,
        room_union, List.any_cons]
      grind

end IndexSet

end PegAudit
