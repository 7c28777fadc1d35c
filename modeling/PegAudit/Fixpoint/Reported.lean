import PegAudit.Fixpoint

namespace PegAudit

/-!
# Sweeps that report changes

A sweep can tell by itself whether it changed an entry.  A loop that goes by
the report makes another sweep for as long as the last one reported a change,
and nothing bounds it from outside.

Entries need not be visited in the order of their numbers, or one after the
other: in rounds, each round updates some entries together, all of them from
the table that the round before left.
-/

/-- Update one entry, and report a change besides those reported before. -/
def updateReporting
    [DecidableEq α]
    (update : Array α → Nat → α → α)
    (state : Array α × Bool)
    (index : Nat) :
    Array α × Bool :=
  match state.1[index]? with
  | some entry =>
      let updated := update state.1 index entry
      (state.1.setIfInBounds index updated, state.2 || updated != entry)
  | none =>
      state

/-- Update the listed entries one after the other and report whether any changed. -/
def sweepReporting
    [DecidableEq α]
    (update : Array α → Nat → α → α)
    (indices : List Nat)
    (table : Array α) :
    Array α × Bool :=
  indices.foldl (updateReporting update) (table, false)

/-- Passes made up to and including the first that reports no change. -/
inductive Quiets
    (pass : σ → σ × Bool) :
    σ →
    Nat →
    σ →
    Prop
  /-- A pass that reports no change is the last one. -/
  | last
      {state final : σ}
      (quiet : pass state = (final, false)) :
      Quiets pass state 1 final
  /-- A pass that reports a change is followed by another. -/
  | again
      {state next final : σ}
      {passes : Nat}
      (changed : pass state = (next, true))
      (later : Quiets pass next passes final) :
      Quiets pass state (passes + 1) final

/-- Update the chosen entries together, all from the same table. -/
def updateTogether
    (update : Array α → Nat → α → α)
    (chosen : Nat → Bool)
    (table : Array α) :
    Array α :=
  table.mapIdx fun index entry =>
    if chosen index then
      update table index entry
    else
      entry

/-- The table after some rounds, each of which updates the entries it chooses. -/
def afterRounds
    (update : Array α → Nat → α → α)
    (rounds : Nat → Nat → Bool)
    (table : Array α) :
    Nat →
    Array α
  | 0 =>
      table
  | count + 1 =>
      updateTogether update (rounds count)
        (afterRounds update rounds table count)

end PegAudit
