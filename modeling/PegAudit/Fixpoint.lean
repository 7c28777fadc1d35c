namespace PegAudit

/-!
# Sweeps to a fixpoint

A table is improved by sweeps.  One sweep visits the entries in a fixed order,
and every update sees the updates before it.  Sweeping stops at the first sweep
that changes nothing, and that sweep is counted too.
-/

/-- Update one entry from the whole table. -/
def updateEntry
    (update : Array α → Nat → α → α)
    (table : Array α)
    (index : Nat) :
    Array α :=
  match table[index]? with
  | some entry =>
      let updated := update table index entry
      table.setIfInBounds index updated
  | none =>
      table

/-- Update the listed entries one after the other. -/
def sweep
    (update : Array α → Nat → α → α)
    (indices : List Nat)
    (table : Array α) :
    Array α :=
  indices.foldl (updateEntry update) table

/-- The state that sweeping ends in, and the number of sweeps it took. -/
structure Settled (σ : Type) where
  state : σ
  sweeps : Nat
  deriving Repr, DecidableEq

/-- Repeat a step up to and including the first one that changes nothing. -/
def settle
    [DecidableEq σ]
    (step : σ → σ) :
    Nat →
    σ →
    Settled σ
  | 0, state =>
      { state := state, sweeps := 0 }
  | fuel + 1, state =>
      let next := step state
      if next = state then
        { state := next, sweeps := 1 }
      else
        let later := settle step fuel next
        { later with sweeps := later.sweeps + 1 }

/-- An update keeps the number of entries. -/
@[simp] theorem size_updateEntry
    (update : Array α → Nat → α → α)
    (table : Array α)
    (index : Nat) :
    (updateEntry update table index).size = table.size := by
  unfold updateEntry
  split <;> simp

/-- A sweep keeps the number of entries. -/
@[simp] theorem size_sweep
    (update : Array α → Nat → α → α)
    (indices : List Nat)
    (table : Array α) :
    (sweep update indices table).size = table.size := by
  unfold sweep
  induction indices generalizing table with
  | nil =>
      rfl
  | cons index rest inductionHypothesis =>
      simp [inductionHypothesis]

/-- There are never more sweeps than the fuel allows. -/
theorem sweeps_settle_le
    [DecidableEq σ]
    (step : σ → σ)
    (fuel : Nat)
    (state : σ) :
    (settle step fuel state).sweeps ≤ fuel := by
  induction fuel generalizing state with
  | zero =>
      simp [settle]
  | succ fuel inductionHypothesis =>
      unfold settle
      dsimp only
      split
      · simp
      · simpa using inductionHypothesis (step state)

/-- Whatever each step keeps, settling keeps. -/
theorem settle_preserves
    [DecidableEq σ]
    {step : σ → σ}
    {kept : σ → Prop}
    (stepKeeps : ∀ state, kept state → kept (step state))
    (fuel : Nat)
    {state : σ}
    (initially : kept state) :
    kept (settle step fuel state).state := by
  induction fuel generalizing state with
  | zero =>
      exact initially
  | succ fuel inductionHypothesis =>
      unfold settle
      dsimp only
      split
      · exact stepKeeps state initially
      · exact inductionHypothesis (stepKeeps state initially)

/--
If a bounded measure grows with every step that changes something, enough fuel
ends in a state that the step leaves alone.
-/
theorem step_settle
    [DecidableEq σ]
    {step : σ → σ}
    {kept : σ → Prop}
    (measure : σ → Nat)
    (bound : Nat)
    (stepKeeps : ∀ state, kept state → kept (step state))
    (bounded : ∀ state, kept state → measure state ≤ bound)
    (grows :
      ∀ state,
        kept state →
        step state ≠ state →
        measure state < measure (step state))
    (fuel : Nat)
    {state : σ}
    (initially : kept state)
    (enough : bound < measure state + fuel) :
    step (settle step fuel state).state =
      (settle step fuel state).state := by
  induction fuel generalizing state with
  | zero =>
      have := bounded state initially
      omega
  | succ fuel inductionHypothesis =>
      unfold settle
      dsimp only
      split
      case isTrue unchanged =>
        rw [unchanged, unchanged]
      case isFalse changed =>
        have larger := grows state initially changed
        exact inductionHypothesis
          (stepKeeps state initially) (by omega)

end PegAudit
