import PegAudit.Matching

namespace PegAudit

/-!
# Matching has at most one outcome

Choice is ordered and iteration stops only where its body fails, so no two
derivations of one attempt on one input disagree.
-/

namespace Runs

/-- Two runs of an attempt on an input end alike. -/
theorem outcome_unique
    {view : View ι}
    {attempt : Attempt ι}
    {input : List Char}
    {left right : Outcome ι}
    (first : Runs view attempt input left)
    (second : Runs view attempt input right) :
    left = right := by
  induction first generalizing right with
  | terminal shape matched consumed =>
      cases second with
      | terminal otherShape otherMatched otherConsumed =>
          have sameText :=
            consumed.symm.trans otherConsumed
          grind [List.append_cancel_right]
      | _ =>
          grind
  | _ =>
      cases second <;> grind

end Runs

/-- An expression that succeeds on an input does not fail on it. -/
theorem Succeeds.not_fails
    {view : View ι}
    {id : ι}
    {input rest : List Char}
    (succeeds : Succeeds view id input rest) :
    ¬ Fails view id input := by
  intro fails
  obtain ⟨trees, run⟩ := succeeds
  cases run.outcome_unique fails

/-- An expression leaves only one rest of an input. -/
theorem Succeeds.rest_unique
    {view : View ι}
    {id : ι}
    {input rest otherRest : List Char}
    (first : Succeeds view id input rest)
    (second : Succeeds view id input otherRest) :
    rest = otherRest := by
  obtain ⟨trees, run⟩ := first
  obtain ⟨otherTrees, otherRun⟩ := second
  cases run.outcome_unique otherRun
  rfl

end PegAudit
