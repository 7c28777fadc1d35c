import Mathlib.Algebra.GroupWithZero.Nat
import Mathlib.Algebra.Order.BigOperators.Group.List
import Mathlib.Algebra.Order.Group.Nat
import PegAudit.Fixpoint

namespace PegAudit

/-!
# What sweeping ends in

If every update that changes an entry makes it larger, and no entry outgrows a
bound, then sweeping with enough fuel ends in a table whose swept entries all
equal their own updates.  A property that single updates keep is kept to the
end.
-/

/-- The sizes of the listed entries together; a missing entry has none. -/
def totalSize
    (size : α → Nat)
    (indices : List Nat)
    (table : Array α) :
    Nat :=
  (indices.map fun index => (table[index]?).elim 0 size).sum

/-- Entries within a bound have a bounded total. -/
theorem totalSize_le
    {size : α → Nat}
    {bound : Nat}
    {table : Array α}
    (bounded :
      ∀ {index : Nat} {entry : α},
        table[index]? = some entry →
        size entry ≤ bound)
    (indices : List Nat) :
    totalSize size indices table ≤ indices.length * bound := by
  induction indices with
  | nil =>
      exact Nat.zero_le _
  | cons index rest inductionHypothesis =>
      have first : (table[index]?).elim 0 size ≤ bound := by
        cases found : table[index]? with
        | none =>
            exact Nat.zero_le _
        | some entry =>
            exact bounded found
      simp only [totalSize, List.map_cons, List.sum_cons,
        List.length_cons, Nat.succ_mul] at *
      omega

/-- Entries that are nowhere smaller and larger in a listed place have a larger total. -/
theorem totalSize_lt
    {size : α → Nat}
    {table grown : Array α}
    (noLess :
      ∀ index : Nat,
        (table[index]?).elim 0 size ≤ (grown[index]?).elim 0 size)
    {index : Nat}
    (larger :
      (table[index]?).elim 0 size < (grown[index]?).elim 0 size)
    {indices : List Nat}
    (listed : index ∈ indices) :
    totalSize size indices table < totalSize size indices grown :=
  List.sum_lt_sum _ _ (fun other _ => noLess other)
    ⟨index, listed, larger⟩

/-- A larger entry in a listed place makes the total larger. -/
theorem totalSize_setIfInBounds_lt
    {size : α → Nat}
    {table : Array α}
    {index : Nat}
    {entry updated : α}
    (present : table[index]? = some entry)
    (larger : size entry < size updated)
    {indices : List Nat}
    (listed : index ∈ indices) :
    totalSize size indices table <
      totalSize size indices (table.setIfInBounds index updated) := by
  have inside : index < table.size :=
    (Array.getElem?_eq_some_iff.mp present).1
  have atIndex :
      (table[index]?).elim 0 size <
        ((table.setIfInBounds index updated)[index]?).elim 0 size := by
    rw [Array.getElem?_setIfInBounds_self_of_lt inside, present]
    exact larger
  apply totalSize_lt _ atIndex listed
  intro other
  by_cases same : index = other
  · subst other
    exact Nat.le_of_lt atIndex
  · rw [Array.getElem?_setIfInBounds_ne same]

/-- An update leaves a table alone if it leaves the entry alone. -/
theorem updateEntry_eq_self_iff
    {update : Array α → Nat → α → α}
    {table : Array α}
    {index : Nat}
    {entry : α}
    (present : table[index]? = some entry) :
    updateEntry update table index = table ↔
      update table index entry = entry := by
  obtain ⟨inside, atIndex⟩ := Array.getElem?_eq_some_iff.mp present
  simp only [updateEntry, present]
  constructor
  · intro same
    have sameEntry := congrArg (·[index]?) same
    rw [Array.getElem?_setIfInBounds_self_of_lt inside, present] at sameEntry
    exact Option.some.inj sameEntry
  · intro unchanged
    rw [unchanged, ← atIndex]
    simp [Array.setIfInBounds, inside]

/-- A sweep over entries that are their own updates changes nothing. -/
theorem sweep_eq_self
    {update : Array α → Nat → α → α}
    {indices : List Nat}
    {table : Array α}
    (unchanged :
      ∀ index ∈ indices, updateEntry update table index = table) :
    sweep update indices table = table := by
  unfold sweep
  induction indices with
  | nil =>
      rfl
  | cons index rest inductionHypothesis =>
      obtain ⟨first, later⟩ := List.forall_mem_cons.mp unchanged
      rw [List.foldl_cons, first, inductionHypothesis later]

/-- What single updates keep, a sweep keeps. -/
theorem sweep_preserves
    {update : Array α → Nat → α → α}
    (kept : Array α → Prop)
    (keeps :
      ∀ {table} index,
        kept table →
        kept (updateEntry update table index))
    (indices : List Nat)
    {table : Array α}
    (isKept : kept table) :
    kept (sweep update indices table) := by
  unfold sweep
  induction indices generalizing table with
  | nil =>
      exact isKept
  | cons index rest inductionHypothesis =>
      exact inductionHypothesis (keeps index isKept)

/-- What single updates keep, sweeping until nothing changes keeps. -/
theorem settle_sweep_preserves
    [DecidableEq α]
    {update : Array α → Nat → α → α}
    (kept : Array α → Prop)
    (keeps :
      ∀ {table} index,
        kept table →
        kept (updateEntry update table index))
    (indices : List Nat)
    (fuel : Nat)
    {table : Array α}
    (isKept : kept table) :
    kept (settle (sweep update indices) fuel table).state := by
  have sweepKeeps :
      ∀ state, kept state → kept (sweep update indices state) :=
    fun _ => sweep_preserves kept keeps indices
  exact settle_preserves sweepKeeps fuel isKept

/-- Updates keep a property of tables and only ever make entries larger. -/
structure Growing
    (update : Array α → Nat → α → α)
    (kept : Array α → Prop)
    (size : α → Nat) :
    Prop where
  keeps :
    ∀ {table} index,
      kept table →
      kept (updateEntry update table index)
  grows :
    ∀ {table index entry},
      kept table →
      table[index]? = some entry →
      update table index entry ≠ entry →
      size entry < size (update table index entry)

namespace Growing

variable
  {update : Array α → Nat → α → α}
  {kept : Array α → Prop}
  {size : α → Nat}

/-- An update of a listed entry changes nothing or makes the total larger. -/
theorem updateEntry_eq_or_lt
    (growing : Growing update kept size)
    {table : Array α}
    (isKept : kept table)
    {indices : List Nat}
    {index : Nat}
    (listed : index ∈ indices) :
    updateEntry update table index = table ∨
      totalSize size indices table <
        totalSize size indices (updateEntry update table index) := by
  cases present : table[index]? with
  | none =>
      exact .inl (by simp [updateEntry, present])
  | some entry =>
      by_cases unchanged : update table index entry = entry
      · exact .inl ((updateEntry_eq_self_iff present).mpr unchanged)
      · right
        simp only [updateEntry, present]
        exact totalSize_setIfInBounds_lt present
          (growing.grows isKept present unchanged) listed

/--
Sweeping over listed entries changes none of them or makes the total larger.
-/
theorem sweep_eq_or_lt
    (growing : Growing update kept size)
    {indices visited : List Nat}
    (listed : ∀ index ∈ visited, index ∈ indices)
    {table : Array α}
    (isKept : kept table) :
    (sweep update visited table = table ∧
        ∀ index ∈ visited, updateEntry update table index = table) ∨
      totalSize size indices table <
        totalSize size indices (sweep update visited table) := by
  induction visited generalizing table with
  | nil =>
      exact .inl ⟨rfl, by simp⟩
  | cons index rest inductionHypothesis =>
      have restListed : ∀ other ∈ rest, other ∈ indices :=
        fun other inRest => listed other (List.mem_cons_of_mem index inRest)
      have later :=
        inductionHypothesis restListed (growing.keeps index isKept)
      have onward :
          sweep update (index :: rest) table =
            sweep update rest (updateEntry update table index) :=
        rfl
      rw [onward]
      rcases growing.updateEntry_eq_or_lt isKept
          (listed index List.mem_cons_self) with unchanged | larger
      · rw [unchanged] at later ⊢
        rcases later with ⟨same, restUnchanged⟩ | larger
        · refine .inl ⟨same, ?_⟩
          intro other member
          rcases List.mem_cons.mp member with rfl | inRest
          · exact unchanged
          · exact restUnchanged other inRest
        · exact .inr larger
      · rcases later with ⟨same, _⟩ | evenLarger
        · rw [same]
          exact .inr larger
        · exact .inr (Nat.lt_trans larger evenLarger)

/-- A sweep that changes nothing has changed nothing on its way. -/
theorem sweep_cons_eq_self_iff
    (growing : Growing update kept size)
    {index : Nat}
    {rest : List Nat}
    {table : Array α}
    (isKept : kept table) :
    sweep update (index :: rest) table = table ↔
      updateEntry update table index = table ∧
        sweep update rest table = table := by
  have onward :
      sweep update (index :: rest) table =
        sweep update rest (updateEntry update table index) :=
    rfl
  constructor
  · intro same
    have listed : ∀ other ∈ index :: rest, other ∈ index :: rest :=
      fun _ => id
    rcases growing.sweep_eq_or_lt listed isKept with
      ⟨_, unchanged⟩ | larger
    · have first := unchanged index List.mem_cons_self
      rw [onward, first] at same
      exact ⟨first, same⟩
    · rw [same] at larger
      exact (Nat.lt_irrefl _ larger).elim
  · rintro ⟨first, later⟩
    rw [onward, first, later]

/-- With enough fuel, settling ends where every listed entry is its own update. -/
theorem update_settle
    [DecidableEq α]
    (growing : Growing update kept size)
    (bound : Nat)
    (bounded :
      ∀ {table : Array α} {index : Nat} {entry : α},
        kept table →
        table[index]? = some entry →
        size entry ≤ bound)
    (indices : List Nat)
    {fuel : Nat}
    (enough : indices.length * bound < fuel)
    {table : Array α}
    (isKept : kept table)
    {index : Nat}
    (listed : index ∈ indices)
    {entry : α}
    (present :
      (settle (sweep update indices) fuel table).state[index]? =
        some entry) :
    update (settle (sweep update indices) fuel table).state index entry =
      entry := by
  have sweepKeeps :
      ∀ state, kept state → kept (sweep update indices state) :=
    fun _ => sweep_preserves kept growing.keeps indices
  have settled :
      sweep update indices
          (settle (sweep update indices) fuel table).state =
        (settle (sweep update indices) fuel table).state := by
    apply step_settle (totalSize size indices) (indices.length * bound)
      sweepKeeps
    · intro state keptState
      exact totalSize_le (bounded keptState) indices
    · intro state keptState changed
      rcases growing.sweep_eq_or_lt (fun _ member => member) keptState with
        unchanged | larger
      · exact (changed unchanged.1).elim
      · exact larger
    · exact isKept
    · omega
  have keptAtEnd :=
    settle_sweep_preserves kept growing.keeps indices fuel isKept
  rcases growing.sweep_eq_or_lt (fun _ member => member) keptAtEnd with
    ⟨_, unchanged⟩ | larger
  · exact (updateEntry_eq_self_iff present).mp (unchanged index listed)
  · rw [settled] at larger
    exact (Nat.lt_irrefl _ larger).elim

end Growing

/-- Updating an entry of a table leaves an entry behind the table alone. -/
theorem updateEntry_push
    {update other : Array α → Nat → α → α}
    {table : Array α}
    {last : α}
    {index : Nat}
    (inside : index < table.size)
    (same :
      ∀ current,
        other (table.push last) index current = update table index current) :
    updateEntry other (table.push last) index =
      (updateEntry update table index).push last := by
  simp [updateEntry, inside, Nat.lt_succ_of_lt inside, same,
    Array.getElem_push_lt inside, Array.setIfInBounds, Array.set_push]

/--
If updates do not look at the entry behind a table, sweeping with and without it
is the same.
-/
theorem sweep_push
    {update other : Array α → Nat → α → α}
    {size : Nat}
    {last : α}
    (same :
      ∀ {table index} current,
        table.size = size →
        index < size →
        other (table.push last) index current = update table index current)
    {indices : List Nat}
    (inside : ∀ index ∈ indices, index < size)
    {table : Array α}
    (sized : table.size = size) :
    sweep other indices (table.push last) =
      (sweep update indices table).push last := by
  unfold sweep
  induction indices generalizing table with
  | nil =>
      rfl
  | cons index rest inductionHypothesis =>
      obtain ⟨here, later⟩ := List.forall_mem_cons.mp inside
      rw [List.foldl_cons, List.foldl_cons,
        updateEntry_push (sized ▸ here) fun current =>
          same current sized here]
      exact inductionHypothesis later (by rw [size_updateEntry, sized])

/-- Steps that correspond settle in states that correspond, after as many steps. -/
theorem settle_map
    [DecidableEq σ]
    [DecidableEq τ]
    {step : σ → σ}
    {other : τ → τ}
    {kept : σ → Prop}
    (image : σ → τ)
    (injective : ∀ {state later}, image state = image later → state = later)
    (stepKeeps : ∀ state, kept state → kept (step state))
    (commutes :
      ∀ state, kept state → other (image state) = image (step state))
    (fuel : Nat)
    {state : σ}
    (initially : kept state) :
    settle other fuel (image state) =
      { state := image (settle step fuel state).state
        sweeps := (settle step fuel state).sweeps } := by
  induction fuel generalizing state with
  | zero =>
      rfl
  | succ fuel inductionHypothesis =>
      have sameEnd : image (step state) = image state ↔ step state = state :=
        ⟨fun same => injective same, congrArg image⟩
      have later := inductionHypothesis (stepKeeps state initially)
      simp only [settle, commutes state initially, sameEnd]
      split
      · rfl
      · rw [later]

end PegAudit
