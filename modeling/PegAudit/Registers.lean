namespace PegAudit

/-!
# Named registers and command sequences

A bank of registers keeps one value per name.  A command sequence is run until
its end or until the first command that is refused; the replies up to that
point are kept together with the fact that a refusal happened.
-/

/-- Values by register name, the latest assignment first. -/
abbrev Registers (α : Type) :=
  List (String × α)

namespace Registers

/-- The value of a register, if it was ever assigned. -/
def read?
    (registers : Registers α)
    (name : String) :
    Option α :=
  registers.lookup name

/-- Assign a register. -/
def write
    (registers : Registers α)
    (name : String)
    (value : α) :
    Registers α :=
  (name, value) :: registers

/-- A register that was just assigned holds the assigned value. -/
@[simp] theorem read?_write_same
    (registers : Registers α)
    (name : String)
    (value : α) :
    (registers.write name value).read? name = some value := by
  simp [read?, write]

/-- Assigning one register leaves the others alone. -/
theorem read?_write_of_ne
    (registers : Registers α)
    {name other : String}
    (value : α)
    (distinct : other ≠ name) :
    (registers.write name value).read? other = registers.read? other := by
  have notSame : (other == name) = false := by
    simpa using distinct
  simp [read?, write, List.lookup_cons, notSame]

end Registers

/-- The replies of a command sequence, and whether a command was refused. -/
structure Transcript (ρ : Type) where
  replies : List ρ
  refused : Bool
  deriving Repr, DecidableEq

/-- Run commands in order, up to the first one that `step` refuses. -/
def runCommands
    (step : σ → κ → Option (σ × ρ)) :
    σ →
    List κ →
    Transcript ρ
  | _, [] =>
      { replies := [], refused := false }
  | state, command :: rest =>
      match step state command with
      | none =>
          { replies := [], refused := true }
      | some (next, reply) =>
          let later := runCommands step next rest
          { later with replies := reply :: later.replies }

/-- The state that commands end in, unless `step` refuses one of them. -/
def stateAfter?
    (step : σ → κ → Option (σ × ρ))
    (state : σ)
    (commands : List κ) :
    Option σ :=
  commands.foldlM
    (fun current command => (step current command).map Prod.fst) state

/-- There are never more replies than commands. -/
theorem length_replies_runCommands_le
    (step : σ → κ → Option (σ × ρ))
    (state : σ)
    (commands : List κ) :
    (runCommands step state commands).replies.length ≤
      commands.length := by
  induction commands generalizing state with
  | nil =>
      simp [runCommands]
  | cons command rest inductionHypothesis =>
      unfold runCommands
      split
      · simp
      · simpa using inductionHypothesis _

end PegAudit
