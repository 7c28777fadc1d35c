import PegAudit.Fixpoint.Checked
import PegAudit.Proofs.Sweeps

namespace PegAudit

/-!
# Sweeps that are not refused

A sweep goes through if every entry is there and no update is refused, and then
it is the unchecked sweep.  Settling goes through if moreover entries only grow
and cannot grow without end.
-/

variable
  {update : Array α → Nat → α → α}
  {update? : Array α → Nat → α → Option α}
  {kept : Array α → Prop}

/-- The checked update of an entry that is there is the unchecked one. -/
theorem updateAt?_eq_some
    {table : Array α}
    {index : Nat}
    {entry : α}
    (present : table[index]? = some entry)
    (agrees :
      update? table index entry = some (update table index entry)) :
    updateAt? update? table index =
      some (updateEntry update table index) := by
  simp [updateAt?, updateEntry, present, agrees]

/-- A sweep over entries that are there goes through. -/
theorem sweep?_eq_some
    (keeps :
      ∀ {table} index,
        kept table →
        kept (updateEntry update table index))
    {indices : List Nat}
    (placed :
      ∀ {table index},
        kept table →
        index ∈ indices →
        index < table.size)
    (agrees :
      ∀ {table index entry},
        kept table →
        index ∈ indices →
        table[index]? = some entry →
        update? table index entry = some (update table index entry))
    {table : Array α}
    (isKept : kept table) :
    sweep? update? indices table = some (sweep update indices table) := by
  induction indices generalizing table with
  | nil =>
      rfl
  | cons index rest inductionHypothesis =>
      have inside := placed isKept List.mem_cons_self
      have first :
          updateAt? update? table index =
            some (updateEntry update table index) :=
        updateAt?_eq_some (Array.getElem?_eq_getElem inside)
          (agrees isKept List.mem_cons_self
            (Array.getElem?_eq_getElem inside))
      have later :=
        inductionHypothesis
          (fun isKept inRest =>
            placed isKept (List.mem_cons_of_mem index inRest))
          (fun isKept inRest =>
            agrees isKept (List.mem_cons_of_mem index inRest))
          (keeps index isKept)
      rw [sweep?, List.foldlM_cons, first]
      exact later

/-- Settling goes through if a bounded measure grows with every change. -/
theorem settle?_eq_some
    [DecidableEq σ]
    {step : σ → σ}
    {step? : σ → Option σ}
    {kept : σ → Prop}
    (measure : σ → Nat)
    (bound : Nat)
    (stepKeeps : ∀ state, kept state → kept (step state))
    (bounded : ∀ state, kept state → measure state ≤ bound)
    (grows :
      ∀ state,
        kept state →
        step state ≠ state →
        measure state < measure (step state))
    (agrees : ∀ state, kept state → step? state = some (step state))
    (fuel : Nat)
    {state : σ}
    (initially : kept state)
    (enough : bound < measure state + fuel) :
    settle? step? fuel state = some (settle step fuel state) := by
  induction fuel generalizing state with
  | zero =>
      have := bounded state initially
      omega
  | succ fuel inductionHypothesis =>
      simp only [settle?, settle, agrees state initially,
        Option.bind_eq_bind, Option.bind_some]
      split
      case isTrue unchanged =>
        rfl
      case isFalse changed =>
        have larger := grows state initially changed
        have later :=
          inductionHypothesis (stepKeeps state initially) (by omega)
        simp [later]

/-- Sweeping until nothing changes goes through. -/
theorem Growing.settle?_eq_some
    [DecidableEq α]
    {size : α → Nat}
    (growing : Growing update kept size)
    (bound : Nat)
    (bounded :
      ∀ {table : Array α} {index : Nat} {entry : α},
        kept table →
        table[index]? = some entry →
        size entry ≤ bound)
    {indices : List Nat}
    (placed :
      ∀ {table index},
        kept table →
        index ∈ indices →
        index < table.size)
    (agrees :
      ∀ {table index entry},
        kept table →
        index ∈ indices →
        table[index]? = some entry →
        update? table index entry = some (update table index entry))
    {fuel : Nat}
    (enough : indices.length * bound < fuel)
    {table : Array α}
    (isKept : kept table) :
    settle? (sweep? update? indices) fuel table =
      some (settle (sweep update indices) fuel table) := by
  have sweepKeeps :
      ∀ state, kept state → kept (sweep update indices state) :=
    fun _ => sweep_preserves kept growing.keeps indices
  apply PegAudit.settle?_eq_some (totalSize size indices)
    (indices.length * bound) sweepKeeps
  · intro state keptState
    exact totalSize_le (bounded keptState) indices
  · intro state keptState changed
    rcases growing.sweep_eq_or_lt (fun _ member => member) keptState with
      unchanged | larger
    · exact (changed unchanged.1).elim
    · exact larger
  · intro state keptState
    exact sweep?_eq_some growing.keeps placed agrees keptState
  · exact isKept
  · omega

/-- Updating each entry from itself alone goes through the whole table. -/
theorem sweep?_range_eq_some
    {revise : Nat → α → α}
    {table : Array α}
    (agrees :
      ∀ {earlier index entry},
        table[index]? = some entry →
        update? earlier index entry = some (revise index entry)) :
    sweep? update? (List.range table.size) table =
      some (table.mapIdx revise) := by
  -- After some entries the others are still the ones of the table.
  have upTo
      (count : Nat)
      (within : count ≤ table.size) :
      sweep? update? (List.range count) table =
        some (table.mapIdx fun index entry =>
          if index < count then revise index entry else entry) := by
    induction count with
    | zero =>
        have same : table.mapIdx (fun _ entry => entry) = table := by
          apply Array.ext <;> simp
        simp [sweep?, same]
    | succ count inductionHypothesis =>
        have present := Array.getElem?_eq_getElem within
        rw [sweep?, List.range_succ, List.foldlM_append]
        rw [sweep?] at inductionHypothesis
        rw [inductionHypothesis (Nat.le_of_succ_le within)]
        simp only [updateAt?, List.foldlM_cons, List.foldlM_nil,
          Array.getElem?_mapIdx, present, Option.map_some,
          Nat.lt_irrefl, if_false, Option.bind_eq_bind,
          Option.bind_some, agrees present, Option.pure_def,
          Option.some.injEq]
        apply Array.ext
        · simp
        · intro index inside _
          simp only [Array.size_setIfInBounds, Array.size_mapIdx] at inside
          rw [Array.getElem_setIfInBounds (by simpa using inside),
            Array.getElem_mapIdx, Array.getElem_mapIdx]
          rcases Nat.lt_trichotomy index count with before | rfl | after
          · simp [before, Nat.lt_succ_of_lt before, Nat.ne_of_gt before]
          · simp
          · simp [Nat.not_lt.mpr (Nat.le_of_lt after),
              Nat.not_lt.mpr (Nat.succ_le_of_lt after),
              Nat.ne_of_lt after]
  rw [upTo table.size (Nat.le_refl _)]
  congr 1
  apply Array.ext
  · simp
  · intro index inside _
    simp only [Array.size_mapIdx] at inside
    simp [inside]

end PegAudit
