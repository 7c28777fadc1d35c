import Mathlib.Data.Nat.Bitwise
import PegAudit.IndexSet.Words
import PegAudit.Proofs.IndexSet.Order

namespace PegAudit

/-!
# Work on words gives the operations of index sets

A scan lists the members that it has not passed, in order: the bit that it
takes is the lowest one left.  A union word by word has, after some words, the
union in these and the left operand in the others; the first missing word on
the right refuses it.  So the operations by masks, loops and scans are those of
index sets.
-/

namespace IndexSet

/-- The lowest bit is set, and none between it and the position is. -/
theorem testBit_lowestFrom
    {word : UInt64}
    {position : Nat}
    (inWord : position < 64)
    (there : lowestFrom word position < 64) :
    word.toNat.testBit (lowestFrom word position) = true ∧
      ∀ index,
        position ≤ index →
        index < lowestFrom word position →
        word.toNat.testBit index = false := by
  have left := (lowestFrom_lt_iff word position).mp there
  constructor
  · have found := BitVec.getLsbD_true_ctz_of_ne_zero left
    rw [getLsbD_masked word inWord, Bool.and_eq_true] at found
    exact found.1
  · intro index ahead before
    have absent := BitVec.getLsbD_false_of_lt_ctz before
    rw [getLsbD_masked word inWord] at absent
    simpa [ahead] using absent

/-- Where there is no lowest bit, none is set at or behind the position. -/
theorem testBit_of_le_lowestFrom
    {word : UInt64}
    {position : Nat}
    (inWord : position < 64)
    (nowhere : 64 ≤ lowestFrom word position)
    {index : Nat}
    (ahead : position ≤ index) :
    word.toNat.testBit index = false := by
  have nothing :
      (word &&& ~~~(bit position - 1)).toBitVec = 0#64 := by
    by_contra left
    have there := (lowestFrom_lt_iff word position).mpr left
    omega
  have absent := getLsbD_masked word inWord index
  rw [nothing] at absent
  simpa [ahead] using absent.symm

namespace Scan

/-- The index set that is scanned. -/
def scanned
    (scan : Scan) :
    IndexSet :=
  { words := scan.words }

/-- What comes next is a member. -/
theorem contains_of_next?
    {scan later : Scan}
    {index : Nat}
    (found : scan.next? = some (index, later)) :
    scan.scanned.contains index = true := by
  fun_induction next? scan with
  | case1 scan inside lowest inWord =>
      cases found
      rw [contains_of_block inside inWord.2]
      exact (testBit_lowestFrom inWord.1 inWord.2).1
  | case2 scan inside lowest passed inductionHypothesis =>
      exact inductionHypothesis found
  | case3 =>
      cases found

/-- No member that has not been passed comes before the next. -/
theorem exists_next?_le
    {scan : Scan}
    {member : Nat}
    (isMember : scan.scanned.contains member = true)
    (ahead : scan.point ≤ member) :
    ∃ index later, scan.next? = some (index, later) ∧ index ≤ member := by
  fun_induction next? scan with
  | case1 scan inside lowest inWord =>
      refine ⟨_, _, rfl, ?_⟩
      by_contra! before
      simp only [point] at ahead
      obtain ⟨position, rfl⟩ :=
        Nat.exists_eq_add_of_le
          (Nat.le_trans (Nat.le_add_right _ scan.position) ahead)
      rw [contains_of_block inside (by omega)] at isMember
      have absent :=
        (testBit_lowestFrom inWord.1 inWord.2).2 position (by omega)
          (by omega)
      exact Bool.false_ne_true (absent.symm.trans isMember)
  | case2 scan inside lowest passed inductionHypothesis =>
      apply inductionHypothesis isMember
      by_contra! before
      simp only [point] at ahead before
      obtain ⟨position, rfl⟩ :=
        Nat.exists_eq_add_of_le
          (Nat.le_trans (Nat.le_add_right _ scan.position) ahead)
      rw [contains_of_block inside (by omega)] at isMember
      have inWord : scan.position < 64 := by omega
      have nowhere : 64 ≤ lowest := by omega
      have absent :=
        testBit_of_le_lowestFrom inWord nowhere
          (show scan.position ≤ position by omega)
      exact Bool.false_ne_true (absent.symm.trans isMember)
  | case3 scan outside =>
      have inRoom := lt_room_of_contains isMember
      simp only [room, scanned] at inRoom
      simp only [point] at ahead
      omega

/-- The members that have not been passed, in order. -/
theorem drain_eq_filter
    (scan : Scan) :
    scan.drain = scan.scanned.toList.filter (scan.point ≤ ·) := by
  fun_induction drain scan with
  | case1 scan index later found inductionHypothesis =>
      obtain ⟨ahead, inside, sameWords, behind⟩ := next?_bounds found
      have sameSet : later.scanned = scan.scanned := by
        rw [scanned, sameWords, scanned]
      rw [inductionHypothesis, sameSet, behind]
      have ascending := scan.scanned.pairwise_toList
      -- Both sides ascend, so they are equal if they have the same members.
      symm
      apply (ascending.filter _).eq_of_mem_iff
      · refine List.pairwise_cons.mpr ⟨?_, ascending.filter _⟩
        intro other isLater
        exact of_decide_eq_true (List.mem_filter.mp isLater).2
      · intro other
        simp only [List.mem_cons, List.mem_filter, mem_toList_iff,
          decide_eq_true_eq]
        constructor
        · rintro ⟨isMember, notPassed⟩
          obtain ⟨_, _, alsoFound, first⟩ := exists_next?_le isMember notPassed
          cases found.symm.trans alsoFound
          rcases Nat.eq_or_lt_of_le first with same | behindIt
          · exact .inl same.symm
          · exact .inr ⟨isMember, behindIt⟩
        · rintro (rfl | ⟨isMember, behindIt⟩)
          · exact ⟨contains_of_next? found, ahead⟩
          · exact ⟨isMember, by omega⟩
  | case2 scan nothing =>
      symm
      apply List.filter_eq_nil_iff.mpr
      intro other listed notPassed
      obtain ⟨_, _, found, _⟩ :=
        exists_next?_le (mem_toList_iff.mp listed)
          (of_decide_eq_true notPassed)
      cases nothing.symm.trans found

end Scan

/-- A scan from the start lists the members. -/
theorem drain_scan
    (indices : IndexSet) :
    indices.scan.drain = indices.toList := by
  rw [Scan.drain_eq_filter]
  exact List.filter_eq_self.mpr fun _ _ => by simp [Scan.point, scan]

/-- Masking the word of an index leaves its bit. -/
theorem and_bit_ne_zero
    (word : UInt64)
    (index : Nat) :
    (word &&& bit index != 0) = word.toNat.testBit (index % 64) := by
  have masked :
      (word &&& bit index).toNat =
        (word.toNat.testBit (index % 64)).toNat * 2 ^ (index % 64) := by
    rw [UInt64.toNat_and, toNat_bit, Nat.one_shiftLeft, Nat.and_two_pow]
  rw [Bool.eq_iff_iff, bne_iff_ne, ne_eq, ← UInt64.toNat_inj, masked]
  cases word.toNat.testBit (index % 64) <;> simp

/-- A mask tests membership. -/
theorem containsByMask_eq
    (indices : IndexSet)
    (index : Nat) :
    indices.containsByMask index = indices.contains index := by
  unfold containsByMask contains
  cases indices.words[index / 64]? with
  | none =>
      rfl
  | some word =>
      exact and_bit_ne_zero word index

/-- A mask inserts an index that has a bit. -/
theorem insertByMask?_eq
    (indices : IndexSet)
    (index : Nat) :
    indices.insertByMask? index = indices.insert? index := by
  unfold insertByMask? insert?
  by_cases inside : index / 64 < indices.words.size
  · have sameWords :
        indices.words.setIfInBounds (index / 64)
            (indices.words[index / 64] ||| bit index) =
          indices.words.modify (index / 64) (· ||| bit index) := by
      apply Array.ext_getElem?
      intro block
      rw [Array.getElem?_setIfInBounds, Array.getElem?_modify]
      by_cases same : index / 64 = block
      · subst same
        simp [inside]
      · simp [same]
    rw [if_pos ((lt_room_iff indices index).mpr inside)]
    simp [inside, insert, sameWords]
  · rw [if_neg (mt (lt_room_iff indices index).mp inside)]
    simp [inside]

/-- Counting bits one by one counts the positions where they are set. -/
theorem cpopNatRec_eq_countP
    (word : BitVec 64)
    (count : Nat) :
    word.cpopNatRec count 0 = (List.range count).countP word.getLsbD := by
  induction count with
  | zero =>
      rfl
  | succ count inductionHypothesis =>
      rw [BitVec.cpopNatRec_succ, BitVec.cpopNatRec_add,
        inductionHypothesis, List.range_succ, List.countP_append,
        List.countP_singleton]
      cases word.getLsbD count <;> rfl

/-- A word has as many bits as positions where one is set. -/
theorem toNat_cpop
    (word : UInt64) :
    word.toBitVec.cpop.toNat = (positions word).length := by
  have sameBits : word.toBitVec.getLsbD = word.toNat.testBit := by
    funext position
    rw [← BitVec.testBit_toNat, UInt64.toNat_toBitVec]
  rw [BitVec.toNat_cpop, cpopNatRec_eq_countP, sameBits,
    List.countP_eq_length_filter, positions]
  split
  case isTrue noBits =>
    simp [noBits]
  case isFalse =>
    rfl

/-- Counting bits counts members. -/
theorem countOnes_eq
    (indices : IndexSet) :
    indices.countOnes = indices.count := by
  simp only [countOnes, count, toNat_cpop]

section Union

variable (indices other : IndexSet)

/-- The union in the words before a block, and the left operand from there on. -/
def unitedBefore
    (block : Nat) :
    IndexSet :=
  { words := indices.words.mapIdx fun position word =>
      if position < block then
        word ||| other.words[position]?.getD 0
      else
        word }

/-- Does the union change a word before a block? -/
def changedBefore
    (block : Nat) :
    Bool :=
  decide (indices.unitedBefore other block ≠ indices)

/-- Uniting the words before a block changes nothing if it changes no word there. -/
theorem unitedBefore_eq_iff
    {block : Nat} :
    indices.unitedBefore other block = indices ↔
      ∀ position,
        (inside : position < indices.words.size) →
        position < block →
        indices.words[position] ||| other.words[position]?.getD 0 =
          indices.words[position] := by
  constructor
  · intro same position inside before
    have sameWord :
        (indices.unitedBefore other block).words[position]? =
          indices.words[position]? := by
      rw [same]
    simpa [unitedBefore, inside, before] using sameWord
  · intro unchanged
    suffices sameWords :
        (indices.unitedBefore other block).words = indices.words by
      cases indices
      exact congrArg mk sameWords
    apply Array.ext_getElem?
    intro position
    simp only [unitedBefore, Array.getElem?_mapIdx]
    by_cases inside : position < indices.words.size
    · by_cases before : position < block
      · simp [inside, before, unchanged position inside before]
      · simp [inside, before]
    · simp [inside]

/-- Before the end all words are united. -/
theorem unitedBefore_size :
    indices.unitedBefore other indices.words.size =
      indices.union other := by
  unfold unitedBefore union
  congr 1
  apply Array.ext_getElem?
  intro position
  rw [Array.getElem?_mapIdx, Array.getElem?_mapIdx]
  by_cases inside : position < indices.words.size
  · cases other.words[position]? <;> simp [inside]
  · simp [inside]

variable {indices other}

/-- Uniting the word of a block leads to the next block. -/
theorem uniteWord?_unitedBefore
    {block : Nat}
    (inside : block < indices.words.size)
    (otherInside : block < other.words.size) :
    uniteWord? other
        (indices.unitedBefore other block, indices.changedBefore other block)
        block =
      some
        (indices.unitedBefore other (block + 1),
          indices.changedBefore other (block + 1)) := by
  have here :
      (indices.unitedBefore other block).words[block]? =
        some indices.words[block] := by
    simp [unitedBefore, inside]
  have there : other.words[block]? = some other.words[block] :=
    Array.getElem?_eq_getElem otherInside
  have united :
      (indices.unitedBefore other block).words.setIfInBounds block
          (indices.words[block] ||| other.words[block]) =
        (indices.unitedBefore other (block + 1)).words := by
    apply Array.ext_getElem?
    intro position
    rw [Array.getElem?_setIfInBounds]
    simp only [unitedBefore, Array.getElem?_mapIdx, Array.size_mapIdx]
    by_cases same : block = position
    · subst same
      simp [inside, there]
    · have before : position < block + 1 ↔ position < block := by omega
      simp [same, before]
  have changed :
      indices.changedBefore other (block + 1) =
        (indices.changedBefore other block ||
          indices.words[block] !=
            indices.words[block] ||| other.words[block]) := by
    have unchanged_iff :
        indices.unitedBefore other (block + 1) = indices ↔
          indices.unitedBefore other block = indices ∧
            indices.words[block] =
              indices.words[block] ||| other.words[block] := by
      rw [unitedBefore_eq_iff, unitedBefore_eq_iff]
      constructor
      · intro unchanged
        refine
          ⟨fun position present before =>
            unchanged position present (Nat.lt_succ_of_lt before), ?_⟩
        simpa [there] using
          (unchanged block inside (Nat.lt_succ_self block)).symm
      · rintro ⟨earlier, same⟩ position present before
        rcases Nat.lt_succ_iff_lt_or_eq.mp before with before | rfl
        · exact earlier position present before
        · simpa [there] using same.symm
    rw [changedBefore, changedBefore, Bool.eq_iff_iff]
    simp [unchanged_iff]
  simp only [uniteWord?, here, there, Option.bind_eq_bind, Option.bind_some,
    united, changed]
  rfl

/-- Uniting the words before a block is not refused if both sets have them. -/
theorem foldlM_uniteWord?
    {block : Nat}
    (enough : block ≤ indices.words.size)
    (otherEnough : block ≤ other.words.size) :
    (List.range block).foldlM (uniteWord? other) (indices, false) =
      some
        (indices.unitedBefore other block,
          indices.changedBefore other block) := by
  -- The loop has united the words before the block, and reports whether that
  -- changed any of them.
  induction block with
  | zero =>
      have unchanged : indices.unitedBefore other 0 = indices :=
        (unitedBefore_eq_iff indices other).mpr nofun
      simp [changedBefore, unchanged]
  | succ block inductionHypothesis =>
      rw [List.range_succ, List.foldlM_append,
        inductionHypothesis (Nat.le_of_succ_le enough)
          (Nat.le_of_succ_le otherEnough)]
      simp [uniteWord?_unitedBefore enough otherEnough]

/-- A union is carried out word by word. -/
theorem uniteWords?_eq
    (indices other : IndexSet) :
    indices.uniteWords? other =
      (indices.union? other).map fun grown =>
        (grown, decide (grown ≠ indices)) := by
  unfold uniteWords? union?
  by_cases short : other.words.size < indices.words.size
  · -- The loop goes on up to the first word that the right operand lacks.
    have missing (state : IndexSet × Bool) :
        uniteWord? other state other.words.size = none := by
      simp [uniteWord?]
    obtain ⟨rest, split⟩ :
        ∃ rest,
          List.range indices.words.size =
            List.range other.words.size ++ other.words.size :: rest := by
      obtain ⟨extra, longer⟩ := Nat.exists_eq_add_of_lt short
      rw [longer, Nat.add_assoc, List.range_add, List.range_succ_eq_map]
      exact ⟨_, rfl⟩
    rw [if_pos short, split, List.foldlM_append,
      foldlM_uniteWord? (Nat.le_of_lt short) (Nat.le_refl _)]
    simp [missing]
  · rw [if_neg short,
      foldlM_uniteWord? (Nat.le_refl _) (Nat.le_of_not_lt short),
      unitedBefore_size, changedBefore, unitedBefore_size]
    rfl

end Union

/-- The operations word by word are those of index sets. -/
theorem wordOperations_eq :
    wordOperations = operations := by
  have sameInsert : insertByMask? = insert? :=
    funext fun indices => funext indices.insertByMask?_eq
  have sameUnion : uniteWords? = operations.union? :=
    funext fun indices => funext indices.uniteWords?_eq
  have sameContains : containsByMask = contains :=
    funext fun indices => funext indices.containsByMask_eq
  have sameEqual :
      (fun left right : IndexSet => left.words == right.words) =
        fun left right => decide (left = right) := by
    funext ⟨words⟩ ⟨others⟩
    simp [beq_eq_decide]
  have sameCount : countOnes = count :=
    funext countOnes_eq
  have sameList : (fun indices : IndexSet => indices.scan.drain) = toList :=
    funext drain_scan
  rw [wordOperations, sameInsert, sameUnion, sameContains, sameEqual,
    sameCount, sameList, operations]

end IndexSet

end PegAudit
