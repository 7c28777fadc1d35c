import PegAudit.Fixpoint

namespace PegAudit

/-!
# Sweeps that can be refused

An update may look at an entry that is missing, and sweeping may go on without
end.  Here a missing entry refuses the sweep, and settling is refused when the
steps that it was allowed run out before one of them changes nothing.
-/

/-- Update one entry, refused if it is missing or its update is. -/
def updateAt?
    (update? : Array α → Nat → α → Option α)
    (table : Array α)
    (index : Nat) :
    Option (Array α) := do
  let entry ← table[index]?
  let updated ← update? table index entry
  return table.setIfInBounds index updated

/-- Update the listed entries one after the other, refused if one of them is. -/
def sweep?
    (update? : Array α → Nat → α → Option α)
    (indices : List Nat)
    (table : Array α) :
    Option (Array α) :=
  indices.foldlM (updateAt? update?) table

/--
Repeat a step up to and including the first one that changes nothing, refused
if a step is or if there is none among those allowed.
-/
def settle?
    [DecidableEq σ]
    (step? : σ → Option σ) :
    Nat →
    σ →
    Option (Settled σ)
  | 0, _ =>
      none
  | fuel + 1, state => do
      let next ← step? state
      if next = state then
        return { state := next, sweeps := 1 }
      else
        let later ← settle? step? fuel next
        return { later with sweeps := later.sweeps + 1 }

end PegAudit
