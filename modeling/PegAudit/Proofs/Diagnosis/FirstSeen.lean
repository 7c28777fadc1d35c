import Mathlib.Data.List.Nodup
import Mathlib.Data.List.Range

namespace PegAudit

/-!
# Findings are listed where they are first seen

Equal findings are reported once.  Erasing the later of two equal elements
keeps every element, and what is kept stands in the order in which it was first
seen.
-/

/-- Wherever the later element stands, the earlier one stands in front of it. -/
def SeenBefore
    (elements : List α)
    (earlier later : α) :
    Prop :=
  ∀ before after : List α,
    elements = before ++ later :: after →
    earlier ∈ before

namespace SeenBefore

/-- The first element is seen before any other. -/
theorem head
    {first later : α}
    (different : later ≠ first)
    (rest : List α) :
    SeenBefore (first :: rest) first later := by
  intro before after split
  rcases List.cons_eq_append_iff.mp split with ⟨_, same⟩ | ⟨others, rfl, _⟩
  · exact (different (List.cons.inj same).1).elim
  · exact List.mem_cons_self

/-- What is seen first among some elements of a list is seen first in the list. -/
theorem of_filter
    {kept : α → Bool}
    {elements : List α}
    {earlier later : α}
    (isKept : kept later = true)
    (seen : SeenBefore (elements.filter kept) earlier later) :
    SeenBefore elements earlier later := by
  rintro before after rfl
  have inFiltered :
      earlier ∈ before.filter kept :=
    seen _ _ (by rw [List.filter_append, List.filter_cons_of_pos isKept])
  exact List.mem_of_mem_filter inFiltered

/-- A new head moves nothing in front of anything else. -/
theorem cons
    {first earlier later : α}
    {rest : List α}
    (different : later ≠ first)
    (seen : SeenBefore rest earlier later) :
    SeenBefore (first :: rest) earlier later := by
  intro before after split
  rcases List.cons_eq_append_iff.mp split with
    ⟨_, same⟩ | ⟨others, rfl, restSplit⟩
  · exact (different (List.cons.inj same).1).elim
  · exact List.mem_cons_of_mem first (seen _ _ restSplit)

/-- No element is seen before itself. -/
theorem ne
    {elements : List α}
    {earlier later : α}
    (seen : SeenBefore elements earlier later)
    (member : later ∈ elements) :
    earlier ≠ later := by
  rintro rfl
  obtain ⟨before, after, split, isNew⟩ := List.eq_append_cons_of_mem member
  exact isNew (seen before after split)

end SeenBefore

variable
  [BEq α]
  [LawfulBEq α]

/-- Erasing duplicates keeps the order in which elements are first seen. -/
theorem pairwise_seenBefore_eraseDups
    (elements : List α) :
    elements.eraseDups.Pairwise (SeenBefore elements) := by
  induction length : elements.length using Nat.strong_induction_on
    generalizing elements with
  | _ bound inductionHypothesis =>
      subst bound
      cases elements with
      | nil =>
          exact .nil
      | cons first rest =>
          rw [List.eraseDups_cons, List.pairwise_cons]
          have shorter :
              (rest.filter fun other => !other == first).length <
                (first :: rest).length :=
            Nat.lt_succ_of_le (List.length_filter_le _ rest)
          let kept : α → Bool := fun other => !other == first
          have ofRest :
              ∀ other ∈ (rest.filter kept).eraseDups,
                kept other = true := by
            intro other member
            exact (List.mem_filter.mp (List.mem_eraseDups.mp member)).2
          have different
              {other : α}
              (isKept : kept other = true) :
              other ≠ first := by
            simpa [kept] using isKept
          constructor
          · intro other member
            exact SeenBefore.head (different (ofRest other member)) rest
          · refine (inductionHypothesis _ shorter _ rfl).imp_of_mem ?_
            intro earlier later _ laterMember seen
            have isKept := ofRest later laterMember
            exact (seen.of_filter isKept).cons (different isKept)

/-- Erasing duplicates leaves none. -/
theorem nodup_eraseDups
    (elements : List α) :
    elements.eraseDups.Nodup :=
  (pairwise_seenBefore_eraseDups elements).imp_of_mem
    fun _ member seen => seen.ne (List.mem_eraseDups.mp member)

/-- Nothing is erased where nothing occurs twice. -/
theorem eraseDups_eq_self
    {elements : List α}
    (distinct : elements.Nodup) :
    elements.eraseDups = elements := by
  induction elements with
  | nil =>
      exact List.eraseDups_nil
  | cons first rest inductionHypothesis =>
      obtain ⟨isNew, restDistinct⟩ := List.nodup_cons.mp distinct
      have allKept :
          (rest.filter fun other => !other == first) = rest := by
        apply List.filter_eq_self.mpr
        rintro other member
        have different : other ≠ first :=
          fun same => isNew (same ▸ member)
        simpa using different
      rw [List.eraseDups_cons, allKept, inductionHypothesis restDistinct]

/-- A list without duplicates is kept behind one that shares nothing with it. -/
theorem eraseDups_append_of_disjoint
    {front back : List α}
    (distinct : back.Nodup)
    (apart : ∀ element ∈ back, element ∉ front) :
    (front ++ back).eraseDups = front.eraseDups ++ back := by
  have nothingRemoved : back.removeAll front = back := by
    apply List.filter_eq_self.mpr
    intro element member
    simpa using apart element member
  rw [List.eraseDups_append, nothingRemoved, eraseDups_eq_self distinct]

/--
Among the findings of consecutive numbers, one that is listed before another
was found at a smaller number or in front of it at the same number, wherever
the other was found.
-/
theorem pairwise_eraseDups_flatMap_range
    (count : Nat)
    (found : Nat → List α) :
    ((List.range count).flatMap found).eraseDups.Pairwise
      fun earlier later =>
        ∀ {number : Nat} {before after : List α},
          number < count →
          found number = before ++ later :: after →
          earlier ∈ before ∨ ∃ smaller < number, earlier ∈ found smaller := by
  apply (pairwise_seenBefore_eraseDups _).imp
  intro earlier later seen number before after counted split
  obtain ⟨more, rfl⟩ := Nat.exists_eq_add_of_lt counted
  have listing :
      (List.range (number + more + 1)).flatMap found =
        ((List.range number).flatMap found ++ before) ++
          later :: (after ++
            ((List.range more).map (number + 1 + ·)).flatMap found) := by
    rw [Nat.add_right_comm, List.range_add, List.range_succ]
    simp [split]
  rcases List.mem_append.mp (seen _ _ listing) with atSmaller | here
  · obtain ⟨smaller, inRange, member⟩ := List.mem_flatMap.mp atSmaller
    exact .inr ⟨smaller, List.mem_range.mp inRange, member⟩
  · exact .inl here

end PegAudit
