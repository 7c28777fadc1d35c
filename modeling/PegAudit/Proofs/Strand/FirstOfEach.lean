import PegAudit.Strand.Refine

namespace PegAudit

/-!
# The first of each kind

Elements whose key did not occur before are kept in their order: the first of
each kind, one for every kind.
-/

variable
  [DecidableEq κ]
  {key : α → κ}
  {seen : List κ}
  {elements : List α}

/-- The elements that are kept first of their kind stand in the same order. -/
theorem sublist_firstOfEach :
    (firstOfEach key seen elements).Sublist elements := by
  induction elements generalizing seen with
  | nil =>
      exact List.Sublist.refl []
  | cons element rest inductionHypothesis =>
      rw [firstOfEach]
      split
      case isTrue =>
        exact inductionHypothesis.cons element
      case isFalse =>
        exact inductionHypothesis.cons_cons element

/-- What is kept is the first of its kind, and its kind was not seen before. -/
theorem exists_split_of_mem_firstOfEach
    {kept : α}
    (isKept : kept ∈ firstOfEach key seen elements) :
    key kept ∉ seen ∧
      ∃ before after,
        elements = before ++ kept :: after ∧
          ∀ earlier ∈ before, key earlier ≠ key kept := by
  induction elements generalizing seen with
  | nil =>
      cases isKept
  | cons element rest inductionHypothesis =>
      rw [firstOfEach] at isKept
      split at isKept
      case isTrue isSeen =>
        obtain ⟨isNew, before, after, rfl, others⟩ :=
          inductionHypothesis isKept
        refine ⟨isNew, element :: before, after, rfl, ?_⟩
        refine List.forall_mem_cons.mpr ⟨?_, others⟩
        intro same
        rw [same] at isSeen
        exact isNew (by simpa using isSeen)
      case isFalse notSeen =>
        rcases List.mem_cons.mp isKept with rfl | isLater
        · exact
            ⟨by simpa using notSeen, [], rest, rfl,
              List.forall_mem_nil _⟩
        · obtain ⟨isNew, before, after, rfl, others⟩ :=
            inductionHypothesis isLater
          obtain ⟨isOther, notSeenBefore⟩ :=
            not_or.mp (mt List.mem_cons.mpr isNew)
          exact
            ⟨notSeenBefore, element :: before, after, rfl,
              List.forall_mem_cons.mpr ⟨Ne.symm isOther, others⟩⟩

/-- No two of the kept ones are of the same kind. -/
theorem pairwise_firstOfEach :
    (firstOfEach key seen elements).Pairwise fun one other =>
      key one ≠ key other := by
  induction elements generalizing seen with
  | nil =>
      exact .nil
  | cons element rest inductionHypothesis =>
      rw [firstOfEach]
      split
      case isTrue =>
        exact inductionHypothesis
      case isFalse =>
        refine .cons ?_ inductionHypothesis
        intro kept isKept same
        exact
          (exists_split_of_mem_firstOfEach isKept).1
            (same ▸ List.mem_cons_self)

/-- One of each kind that was not seen before is kept. -/
theorem exists_mem_firstOfEach
    {element : α}
    (isElement : element ∈ elements)
    (isNew : key element ∉ seen) :
    ∃ kept ∈ firstOfEach key seen elements, key kept = key element := by
  induction elements generalizing seen with
  | nil =>
      cases isElement
  | cons first rest inductionHypothesis =>
      rw [firstOfEach]
      split
      case isTrue isSeen =>
        rcases List.mem_cons.mp isElement with rfl | isLater
        · exact (isNew (by simpa using isSeen)).elim
        · exact inductionHypothesis isLater isNew
      case isFalse =>
        by_cases same : key first = key element
        · exact ⟨first, List.mem_cons_self, same⟩
        · have isLater : element ∈ rest := by
            rcases List.mem_cons.mp isElement with rfl | isLater
            · exact (same rfl).elim
            · exact isLater
          obtain ⟨kept, isKept, sameKey⟩ :=
            inductionHypothesis isLater
              (mt List.mem_cons.mp (not_or.mpr ⟨Ne.symm same, isNew⟩))
          exact ⟨kept, List.mem_cons_of_mem first isKept, sameKey⟩

end PegAudit
