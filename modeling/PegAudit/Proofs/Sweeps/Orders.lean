import Mathlib.Logic.Function.Iterate
import PegAudit.Fixpoint.Reported
import PegAudit.Proofs.Sweeps

namespace PegAudit

/-!
# Updates in any fair order

Where entries only ever grow, and not beyond a bound, the order of updates does
not matter for their coming to an end: if every entry is visited again and
again, in rounds of any kind, then from some round on the table stays the same
and every entry is its own update.
-/

/-- If a bounded measure grows with every change then the changes come to an end. -/
theorem exists_forall_eq_of_bounded
    {states : Nat → σ}
    (measure : σ → Nat)
    (bound : Nat)
    (bounded : ∀ count, measure (states count) ≤ bound)
    (grows :
      ∀ count,
        states (count + 1) = states count ∨
          measure (states count) < measure (states (count + 1))) :
    ∃ enough, ∀ count, enough ≤ count → states count = states enough := by
  obtain ⟨enough, most⟩ :
      ∃ enough, ∀ count,
        measure (states count) ≤ measure (states enough) := by
    by_contra always
    push Not at always
    have beyond
        (reached : Nat) :
        ∃ count, reached ≤ measure (states count) := by
      induction reached with
      | zero =>
          exact ⟨0, Nat.zero_le _⟩
      | succ reached inductionHypothesis =>
          obtain ⟨count, atLeast⟩ := inductionHypothesis
          obtain ⟨later, larger⟩ := always count
          exact ⟨later, by omega⟩
    obtain ⟨count, above⟩ := beyond (bound + 1)
    have := bounded count
    omega
  refine ⟨enough, fun count later => ?_⟩
  induction count, later using Nat.le_induction with
  | base =>
      rfl
  | succ count later inductionHypothesis =>
      rcases grows count with unchanged | larger
      · rw [unchanged, inductionHypothesis]
      · have := most (count + 1)
        rw [inductionHypothesis] at larger
        omega

/-- What updating chosen entries together does to one place. -/
@[simp] theorem getElem?_updateTogether
    (update : Array α → Nat → α → α)
    (chosen : Nat → Bool)
    (table : Array α)
    (index : Nat) :
    (updateTogether update chosen table)[index]? =
      (table[index]?).map fun entry =>
        if chosen index then
          update table index entry
        else
          entry := by
  simp [updateTogether]

/-- Updating chosen entries together keeps the number of entries. -/
@[simp] theorem size_updateTogether
    (update : Array α → Nat → α → α)
    (chosen : Nat → Bool)
    (table : Array α) :
    (updateTogether update chosen table).size = table.size := by
  simp [updateTogether]

/-- To update one entry is to choose it alone. -/
theorem updateTogether_eq_updateEntry
    (update : Array α → Nat → α → α)
    (table : Array α)
    (visited : Nat) :
    updateTogether update (· == visited) table =
      updateEntry update table visited := by
  apply Array.ext_getElem?
  intro index
  rw [getElem?_updateTogether]
  unfold updateEntry
  cases present : table[visited]? with
  | none =>
      by_cases same : visited = index
      · subst index
        simp [present]
      · simp [Ne.symm same]
  | some entry =>
      have inside := (Array.getElem?_eq_some_iff.mp present).1
      by_cases same : visited = index
      · subst index
        simp [Array.getElem?_setIfInBounds_self_of_lt inside, present]
      · simp [Array.getElem?_setIfInBounds_ne same, Ne.symm same]

/-- Visiting entries one after the other is going in rounds of one entry each. -/
theorem sweep_visits_eq_afterRounds
    (update : Array α → Nat → α → α)
    (visits : Nat → Nat)
    (table : Array α)
    (count : Nat) :
    sweep update ((List.range count).map visits) table =
      afterRounds update (fun round index => index == visits round)
        table count := by
  induction count with
  | zero =>
      rfl
  | succ count inductionHypothesis =>
      rw [afterRounds, ← inductionHypothesis,
        updateTogether_eq_updateEntry, List.range_succ, List.map_append,
        sweep, List.foldl_append]
      rfl

/-- Rounds that choose every entry are one step made again and again. -/
theorem afterRounds_all
    (update : Array α → Nat → α → α)
    (table : Array α)
    (count : Nat) :
    afterRounds update (fun _ _ => true) table count =
      (updateTogether update fun _ => true)^[count] table := by
  induction count with
  | zero =>
      rfl
  | succ count inductionHypothesis =>
      rw [afterRounds, inductionHypothesis, Function.iterate_succ_apply']

/-- What rounds keep, all of them together keep. -/
theorem afterRounds_preserves
    {update : Array α → Nat → α → α}
    (kept : Array α → Prop)
    (keeps :
      ∀ {table} chosen,
        kept table →
        kept (updateTogether update chosen table))
    (rounds : Nat → Nat → Bool)
    {table : Array α}
    (isKept : kept table)
    (count : Nat) :
    kept (afterRounds update rounds table count) := by
  induction count with
  | zero =>
      exact isKept
  | succ count inductionHypothesis =>
      exact keeps (rounds count) inductionHypothesis

namespace Growing

variable
  {update : Array α → Nat → α → α}
  {kept : Array α → Prop}
  {size : α → Nat}

/-- A round changes nothing or makes the total larger. -/
theorem updateTogether_eq_or_lt
    (growing : Growing update kept size)
    {table : Array α}
    (isKept : kept table)
    {indices : List Nat}
    (listed : ∀ index < table.size, index ∈ indices)
    (chosen : Nat → Bool) :
    updateTogether update chosen table = table ∨
      totalSize size indices table <
        totalSize size indices (updateTogether update chosen table) := by
  by_cases unchanged :
      ∀ index entry,
        table[index]? = some entry →
        chosen index = true →
        update table index entry = entry
  · left
    apply Array.ext_getElem?
    intro index
    rw [getElem?_updateTogether]
    cases present : table[index]? with
    | none =>
        rfl
    | some entry =>
        have same := unchanged index entry present
        split <;> simp_all
  · right
    push Not at unchanged
    obtain ⟨index, entry, present, isChosen, changed⟩ := unchanged
    have inside := (Array.getElem?_eq_some_iff.mp present).1
    refine totalSize_lt ?_ ?_ (listed index inside)
    · intro other
      rw [getElem?_updateTogether]
      cases found : table[other]? with
      | none =>
          exact Nat.le_refl _
      | some current =>
          rw [Option.map_some, Option.elim_some, Option.elim_some]
          split
          · by_cases same : update table other current = current
            · rw [same]
            · exact Nat.le_of_lt (growing.grows isKept found same)
          · exact Nat.le_refl _
    · rw [getElem?_updateTogether, present, Option.map_some,
        Option.elim_some, Option.elim_some, if_pos isChosen]
      exact growing.grows isKept present changed

/--
If every entry is chosen again and again then the rounds come to an end, in a
table whose entries are all their own updates.
-/
theorem exists_afterRounds_settled
    (growing : Growing update kept size)
    (bound : Nat)
    (bounded :
      ∀ {table : Array α} {index : Nat} {entry : α},
        kept table →
        table[index]? = some entry →
        size entry ≤ bound)
    (keepsTogether :
      ∀ {table} chosen,
        kept table →
        kept (updateTogether update chosen table))
    {indices : List Nat}
    (listed :
      ∀ {table : Array α},
        kept table →
        ∀ index < table.size, index ∈ indices)
    {rounds : Nat → Nat → Bool}
    (fair :
      ∀ index ∈ indices,
        ∀ count, ∃ later, count ≤ later ∧ rounds later index = true)
    {table : Array α}
    (isKept : kept table) :
    ∃ enough,
      (∀ count,
        enough ≤ count →
        afterRounds update rounds table count =
          afterRounds update rounds table enough) ∧
        ∀ {index entry},
          (afterRounds update rounds table enough)[index]? = some entry →
          update (afterRounds update rounds table enough) index entry =
            entry := by
  have always := afterRounds_preserves kept keepsTogether rounds isKept
  obtain ⟨enough, same⟩ :=
    exists_forall_eq_of_bounded (totalSize size indices)
      (indices.length * bound)
      (fun count => totalSize_le (bounded (always count)) indices)
      (fun count =>
        growing.updateTogether_eq_or_lt (always count)
          (listed (always count)) (rounds count))
  refine ⟨enough, same, ?_⟩
  intro index entry present
  have inside := (Array.getElem?_eq_some_iff.mp present).1
  -- The round that chooses the entry next leaves it as it is.
  obtain ⟨later, isLater, isChosen⟩ :=
    fair index (listed (always enough) index inside) enough
  have unchanged := same (later + 1) (Nat.le_succ_of_le isLater)
  rw [afterRounds, same later isLater] at unchanged
  have atIndex := congrArg (·[index]?) unchanged
  simpa [present, isChosen] using atIndex

end Growing

end PegAudit
