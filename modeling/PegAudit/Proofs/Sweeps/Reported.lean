import PegAudit.Fixpoint.Reported
import PegAudit.Proofs.Sweeps

namespace PegAudit

/-!
# Going by the reports

Where entries only ever grow, a sweep reports a change exactly if it leaves
another table behind.  So the loop that goes by the reports does what settling
does, and each of its sweeps but the last uses up some of the room to grow.
-/

section Reports

variable
  [DecidableEq α]
  {update : Array α → Nat → α → α}

/-- Reporting does not change what an update does. -/
theorem fst_updateReporting
    (state : Array α × Bool)
    (index : Nat) :
    (updateReporting update state index).1 =
      updateEntry update state.1 index := by
  unfold updateReporting updateEntry
  split <;> simp_all

/-- An update adds a report exactly if it changes the table. -/
theorem snd_updateReporting_eq_false_iff
    {state : Array α × Bool}
    {index : Nat} :
    (updateReporting update state index).2 = false ↔
      state.2 = false ∧ updateEntry update state.1 index = state.1 := by
  cases present : state.1[index]? with
  | none =>
      simp [updateReporting, updateEntry, present]
  | some entry =>
      rw [updateEntry_eq_self_iff present]
      simp [updateReporting, present]

/-- Reporting does not change what a sweep does. -/
theorem fst_sweepReporting
    (indices : List Nat)
    (table : Array α) :
    (sweepReporting update indices table).1 =
      sweep update indices table := by
  have fromState
      (state : Array α × Bool) :
      (indices.foldl (updateReporting update) state).1 =
        sweep update indices state.1 := by
    unfold sweep
    induction indices generalizing state with
    | nil =>
        rfl
    | cons index rest inductionHypothesis =>
        rw [List.foldl_cons, List.foldl_cons, inductionHypothesis,
          fst_updateReporting]
  exact fromState (table, false)

end Reports

namespace Growing

variable
  [DecidableEq α]
  {update : Array α → Nat → α → α}
  {kept : Array α → Prop}
  {size : α → Nat}

/-- A sweep reports no change exactly if it leaves the table as it was. -/
theorem snd_sweepReporting_eq_false_iff
    (growing : Growing update kept size)
    (indices : List Nat)
    {table : Array α}
    (isKept : kept table) :
    (sweepReporting update indices table).2 = false ↔
      sweep update indices table = table := by
  have fromState
      (state : Array α × Bool)
      (stateKept : kept state.1) :
      (indices.foldl (updateReporting update) state).2 = false ↔
        state.2 = false ∧ sweep update indices state.1 = state.1 := by
    induction indices generalizing state with
    | nil =>
        simp [sweep]
    | cons index rest inductionHypothesis =>
        have later :=
          inductionHypothesis (updateReporting update state index)
        rw [fst_updateReporting] at later
        rw [List.foldl_cons, later (growing.keeps index stateKept),
          snd_updateReporting_eq_false_iff,
          growing.sweep_cons_eq_self_iff stateKept, and_assoc]
        refine and_congr_right fun _ => and_congr_right fun unchanged => ?_
        rw [unchanged]
  exact (fromState (table, false) isKept).trans (and_iff_right rfl)

end Growing

/--
If a pass reports exactly the changes it makes, and a bounded measure grows with
each, then passes go on to where settling ends, and are no more in number than
the measure can grow.
-/
theorem quiets_settle
    [DecidableEq σ]
    {pass : σ → σ × Bool}
    {step : σ → σ}
    {kept : σ → Prop}
    (measure : σ → Nat)
    (bound : Nat)
    (stepKeeps : ∀ state, kept state → kept (step state))
    (bounded : ∀ state, kept state → measure state ≤ bound)
    (grows :
      ∀ state,
        kept state →
        step state ≠ state →
        measure state < measure (step state))
    (passes : ∀ state, (pass state).1 = step state)
    (reports :
      ∀ state,
        kept state →
        ((pass state).2 = false ↔ step state = state))
    (fuel : Nat)
    {state : σ}
    (initially : kept state)
    (enough : bound < measure state + fuel) :
    Quiets pass state (settle step fuel state).sweeps
        (settle step fuel state).state ∧
      measure state + (settle step fuel state).sweeps ≤ bound + 1 := by
  induction fuel generalizing state with
  | zero =>
      have := bounded state initially
      omega
  | succ fuel inductionHypothesis =>
      have within := bounded state initially
      have report := reports state initially
      unfold settle
      dsimp only
      split
      case isTrue unchanged =>
        refine ⟨.last ?_, by dsimp only; omega⟩
        exact Prod.ext (passes state) (report.mpr unchanged)
      case isFalse changed =>
        have larger := grows state initially changed
        obtain ⟨later, laterWithin⟩ :=
          inductionHypothesis (stepKeeps state initially) (by omega)
        refine ⟨.again ?_ later, by dsimp only; omega⟩
        have reported : (pass state).2 = true :=
          Bool.of_not_eq_false (mt report.mp changed)
        exact Prod.ext (passes state) reported

/--
Sweeping by the reports ends where settling does.  Only entries that can change
need to be counted: each sweep but the last uses up some of their room.
-/
theorem Growing.quiets_settle
    [DecidableEq α]
    {update : Array α → Nat → α → α}
    {kept : Array α → Prop}
    {size : α → Nat}
    (growing : Growing update kept size)
    (bound : Nat)
    (bounded :
      ∀ {table : Array α} {index : Nat} {entry : α},
        kept table →
        table[index]? = some entry →
        size entry ≤ bound)
    {indices counted : List Nat}
    (onlyCounted :
      ∀ {table},
        kept table →
        sweep update indices table = sweep update counted table)
    {fuel : Nat}
    (enough : counted.length * bound < fuel)
    {table : Array α}
    (isKept : kept table) :
    Quiets (sweepReporting update indices) table
        (settle (sweep update indices) fuel table).sweeps
        (settle (sweep update indices) fuel table).state ∧
      (settle (sweep update indices) fuel table).sweeps ≤
        counted.length * bound + 1 := by
  have sweepKeeps :
      ∀ state, kept state → kept (sweep update indices state) :=
    fun _ => sweep_preserves kept growing.keeps indices
  have grows :
      ∀ state,
        kept state →
        sweep update indices state ≠ state →
        totalSize size counted state <
          totalSize size counted (sweep update indices state) := by
    intro state keptState changed
    rw [onlyCounted keptState] at changed ⊢
    rcases growing.sweep_eq_or_lt (fun _ listed => listed) keptState with
      ⟨same, _⟩ | larger
    · exact (changed same).elim
    · exact larger
  obtain ⟨quiets, within⟩ :=
    PegAudit.quiets_settle (totalSize size counted)
      (counted.length * bound) sweepKeeps
      (fun _ keptState => totalSize_le (bounded keptState) counted) grows
      (fst_sweepReporting indices)
      (fun _ keptState =>
        growing.snd_sweepReporting_eq_false_iff indices keptState)
      fuel isKept (by omega)
  exact ⟨quiets, by omega⟩

end PegAudit
