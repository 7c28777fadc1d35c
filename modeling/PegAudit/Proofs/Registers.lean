import Mathlib.Data.List.Forall2
import Mathlib.Data.Option.Basic
import PegAudit.Registers

namespace PegAudit

/-!
# Two banks of registers in lockstep

Two kinds of values can be kept in registers of the same names, each value in
one bank standing for the value in the other.  If every command is refused in
both banks, or answers the same in both and leaves them so, then a command
sequence has one transcript.
-/

variable
  {α β γ δ σ τ κ ρ : Type}

/-- Computations that go on alike from related values end in related values. -/
theorem rel_bind
    {related : α → β → Prop}
    {laterRelated : γ → δ → Prop}
    {first : Option α}
    {second : Option β}
    {next : α → Option γ}
    {otherNext : β → Option δ}
    (isRelated : Option.Rel related first second)
    (goesOn :
      ∀ {value other},
        related value other →
        Option.Rel laterRelated (next value) (otherNext other)) :
    Option.Rel laterRelated (first >>= next) (second >>= otherNext) := by
  cases isRelated with
  | none =>
      exact .none
  | some rel =>
      exact goesOn rel

/-- A computation is related to its image if each value is related to its view. -/
theorem rel_of_map_eq
    {related : α → β → Prop}
    {view : α → β}
    {first : Option α}
    {second : Option β}
    (viewed : first.map view = second)
    (isRelated :
      ∀ {value}, first = some value → related value (view value)) :
    Option.Rel related first second := by
  subst viewed
  cases first with
  | none =>
      exact .none
  | some value =>
      exact .some (isRelated rfl)

/-- Equal computations are related if what they end in is related to itself. -/
theorem rel_of_eq
    {related : α → α → Prop}
    {first second : Option α}
    (same : first = second)
    (isRelated : ∀ {value}, second = some value → related value value) :
    Option.Rel related first second := by
  subst same
  cases first with
  | none =>
      exact .none
  | some value =>
      exact .some (isRelated rfl)

/-- A computation that goes through is related to a related value. -/
theorem rel_some
    {related : α → β → Prop}
    {first : Option α}
    {value : α}
    {other : β}
    (through : first = some value)
    (isRelated : related value other) :
    Option.Rel related first (some other) := by
  rw [through]
  exact .some isRelated

/-- Folds that go on alike over one list end in related values. -/
theorem rel_foldlM
    {related : α → β → Prop}
    {next : α → κ → Option α}
    {otherNext : β → κ → Option β}
    (goesOn :
      ∀ {value other} element,
        related value other →
        Option.Rel related (next value element) (otherNext other element))
    (elements : List κ)
    {value : α}
    {other : β}
    (isRelated : related value other) :
    Option.Rel related
      (elements.foldlM next value) (elements.foldlM otherNext other) := by
  induction elements generalizing value other with
  | nil =>
      exact .some isRelated
  | cons element rest inductionHypothesis =>
      rw [List.foldlM_cons, List.foldlM_cons]
      exact rel_bind (goesOn element isRelated) inductionHypothesis

/-- Registers of the same names, in the same order, with related values. -/
def Registers.Alike
    (related : α → β → Prop) :
    Registers α →
    Registers β →
    Prop :=
  List.Forall₂ fun entry other =>
    entry.1 = other.1 ∧ related entry.2 other.2

/-- The same reply, and related states that are left. -/
def AnswersAlike
    (related : σ → τ → Prop)
    (outcome : σ × ρ)
    (other : τ × ρ) :
    Prop :=
  related outcome.1 other.1 ∧ outcome.2 = other.2

namespace Registers.Alike

variable
  {related : α → β → Prop}
  {registers : Registers α}
  {others : Registers β}

/-- A register has related values in both banks, or a value in neither. -/
theorem read?
    (alike : registers.Alike related others)
    (name : String) :
    Option.Rel related (registers.read? name) (others.read? name) := by
  unfold Registers.read?
  induction alike with
  | nil =>
      exact .none
  | @cons entry other _ _ same _ inductionHypothesis =>
      obtain ⟨sameName, isRelated⟩ := same
      rw [List.lookup_cons, List.lookup_cons, sameName]
      split
      · exact .some isRelated
      · exact inductionHypothesis

/-- Assigning related values to one register leaves the banks alike. -/
theorem write
    (alike : registers.Alike related others)
    (name : String)
    {value : α}
    {other : β}
    (isRelated : related value other) :
    (registers.write name value).Alike related (others.write name other) :=
  .cons ⟨rfl, isRelated⟩ alike

end Registers.Alike

/-- Steps that answer alike from related states end in related states. -/
theorem rel_stateAfter?
    {related : σ → τ → Prop}
    {step : σ → κ → Option (σ × ρ)}
    {otherStep : τ → κ → Option (τ × ρ)}
    (lockstep :
      ∀ {state other} command,
        related state other →
        Option.Rel (AnswersAlike related)
          (step state command) (otherStep other command))
    (commands : List κ)
    {state : σ}
    {other : τ}
    (isRelated : related state other) :
    Option.Rel related
      (stateAfter? step state commands)
      (stateAfter? otherStep other commands) := by
  refine rel_foldlM (fun command alike => ?_) commands isRelated
  rw [Option.map_eq_bind, Option.map_eq_bind]
  exact rel_bind (lockstep command alike) fun answers => .some answers.1

/-- Steps that answer alike from related states make one transcript. -/
theorem runCommands_eq_of_lockstep
    {related : σ → τ → Prop}
    {step : σ → κ → Option (σ × ρ)}
    {otherStep : τ → κ → Option (τ × ρ)}
    (lockstep :
      ∀ {state other} command,
        related state other →
        Option.Rel (AnswersAlike related)
          (step state command) (otherStep other command))
    (commands : List κ)
    {state : σ}
    {other : τ}
    (isRelated : related state other) :
    runCommands step state commands =
      runCommands otherStep other commands := by
  induction commands generalizing state other with
  | nil =>
      rfl
  | cons command rest inductionHypothesis =>
      have together := lockstep command isRelated
      unfold runCommands
      generalize step state command = outcome at together ⊢
      generalize otherStep other command = otherOutcome at together ⊢
      cases together with
      | none =>
          rfl
      | some alike =>
          simp only [inductionHypothesis alike.1, alike.2]

end PegAudit
