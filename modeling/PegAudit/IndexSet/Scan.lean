import PegAudit.IndexSet.Members

namespace PegAudit

/-!
# Listing members by a scan

A scan stands at a position in a word.  It masks the positions before it, takes
the lowest bit that is left, and goes on behind that; where no bit is left, or
behind the last position, it goes on to the next word.  Each member it finds is
at or behind the point where it stood, so it comes to an end.
-/

namespace IndexSet

/-- The lowest set bit of a word at or behind a position, 64 if there is none. -/
def lowestFrom
    (word : UInt64)
    (position : Nat) :
    Nat :=
  (word &&& ~~~(bit position - 1)).toBitVec.ctz.toNat

/-- The mask leaves the bits at and behind a position. -/
theorem getLsbD_masked
    (word : UInt64)
    {position : Nat}
    (inWord : position < 64)
    (index : Nat) :
    (word &&& ~~~(bit position - 1)).toBitVec.getLsbD index =
      (word.toNat.testBit index && decide (position ≤ index)) := by
  have power : (bit position).toNat = 2 ^ position := by
    rw [toNat_bit, Nat.one_shiftLeft, Nat.mod_eq_of_lt inWord]
  have below : (bit position - 1).toNat = 2 ^ position - 1 := by
    have positive : 1 ≤ bit position := by
      rw [UInt64.le_iff_toNat_le, power]
      exact Nat.one_le_two_pow
    rw [UInt64.toNat_sub_of_le _ _ positive, power]
    rfl
  rw [UInt64.toBitVec_and, UInt64.toBitVec_not, BitVec.getLsbD_and,
    BitVec.getLsbD_not, ← BitVec.testBit_toNat, ← BitVec.testBit_toNat,
    UInt64.toNat_toBitVec, UInt64.toNat_toBitVec, below,
    Nat.testBit_two_pow_sub_one]
  by_cases small : index < 64
  · have ahead : decide (position ≤ index) = !decide (index < position) := by
      rw [← decide_not, decide_eq_decide, Nat.not_lt]
    rw [ahead, decide_eq_true small, Bool.true_and]
  · simp [testBit_of_le word (Nat.le_of_not_lt small)]

/-- There is a lowest bit in the word exactly if there is a bit. -/
theorem lowestFrom_lt_iff
    (word : UInt64)
    (position : Nat) :
    lowestFrom word position < 64 ↔
      (word &&& ~~~(bit position - 1)).toBitVec ≠ 0#64 := by
  rw [← BitVec.ctz_lt_iff_ne_zero, BitVec.lt_def]
  rfl

/-- The lowest bit is at or behind the position. -/
theorem le_lowestFrom
    (word : UInt64)
    {position : Nat}
    (inWord : position < 64) :
    position ≤ lowestFrom word position := by
  by_cases there : lowestFrom word position < 64
  · have found :=
      BitVec.getLsbD_true_ctz_of_ne_zero
        ((lowestFrom_lt_iff word position).mp there)
    rw [getLsbD_masked word inWord, Bool.and_eq_true] at found
    exact of_decide_eq_true found.2
  · omega

/-- Where the listing of members stands. -/
structure Scan where
  words : Array UInt64
  /-- The word that is looked at. -/
  block : Nat
  /-- The position in it that is looked at next, 64 being behind the last. -/
  position : Nat
  position_le : position ≤ 64

namespace Scan

/-- The first index that has not been passed. -/
def point
    (scan : Scan) :
    Nat :=
  64 * scan.block + scan.position

/-- The next member, and the scan behind it. -/
def next?
    (scan : Scan) :
    Option (Nat × Scan) :=
  if inside : scan.block < scan.words.size then
    let lowest := lowestFrom scan.words[scan.block] scan.position
    if found : scan.position < 64 ∧ lowest < 64 then
      some (64 * scan.block + lowest,
        { scan with position := lowest + 1, position_le := found.2 })
    else
      next?
        { scan with
          block := scan.block + 1
          position := 0
          position_le := Nat.zero_le 64 }
  else
    none
termination_by scan.words.size - scan.block

/-- The next member is in the words, and the scan goes on right behind it. -/
theorem next?_bounds
    {scan later : Scan}
    {index : Nat}
    (found : scan.next? = some (index, later)) :
    scan.point ≤ index ∧
      index < 64 * scan.words.size ∧
        later.words = scan.words ∧ later.point = index + 1 := by
  fun_induction next? scan with
  | case1 scan inside lowest inWord =>
      cases found
      have ahead : scan.position ≤ lowest := le_lowestFrom _ inWord.1
      exact ⟨Nat.add_le_add_left ahead _, by omega, rfl, rfl⟩
  | case2 scan inside lowest passed inductionHypothesis =>
      obtain ⟨ahead, rest⟩ := inductionHypothesis found
      refine ⟨?_, rest⟩
      have upright := scan.position_le
      simp only [point] at ahead ⊢
      omega
  | case3 =>
      cases found

/-- All members that have not been passed. -/
def drain
    (scan : Scan) :
    List Nat :=
  match _found : scan.next? with
  | some (index, later) => index :: later.drain
  | none => []
termination_by 64 * scan.words.size - scan.point
decreasing_by
  obtain ⟨ahead, inside, sameWords, behind⟩ := next?_bounds _found
  rw [sameWords, behind]
  omega

end Scan

/-- The scan that has not begun. -/
def scan
    (indices : IndexSet) :
    Scan :=
  { words := indices.words
    block := 0
    position := 0
    position_le := Nat.zero_le 64 }

end IndexSet

end PegAudit
