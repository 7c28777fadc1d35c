import PegAudit.IndexSet.Commands

namespace PegAudit

/-!
# Command sequences over anything that serves as an index set

A command sequence needs of its registers only that their values can be made,
changed, compared and questioned.  It can be run on any type of values with
these operations, index sets among them.
-/

/-- Entries between braces, separated by commas. -/
def braced
    (entries : List String) :
    String :=
  "\x7b" ++ ", ".intercalate entries ++ "\x7d"

namespace IndexSet

/-- What commands need of the values in the registers. -/
structure Operations (α : Type) where
  empty : Nat → α
  /-- Refuses an index that the value cannot hold. -/
  insert? : α → Nat → Option α
  /--
  The union, with whether anything was added; refuses a right operand that is
  too small.
  -/
  union? : α → α → Option (α × Bool)
  intersect : α → α → α
  contains : α → Nat → Bool
  intersects : α → α → Bool
  equal : α → α → Bool
  isEmpty : α → Bool
  count : α → Nat
  toList : α → List Nat

namespace Operations

/-- Insert indices one after the other, refusing the first that cannot be held. -/
def insertAll?
    (operations : Operations α)
    (value : α)
    (indices : List Nat) :
    Option α :=
  indices.foldlM operations.insert? value

/-- Assign a register and answer its members. -/
def assign
    (operations : Operations α)
    (registers : Registers α)
    (target : String)
    (value : α) :
    Registers α × Reply :=
  (registers.write target value, .members (operations.toList value))

/-- The members between braces. -/
def text
    (operations : Operations α)
    (value : α) :
    String :=
  braced ((operations.toList value).map toString)

end Operations

/-- Carry out one command by the given operations, or refuse it. -/
def Command.stepOn
    (operations : Operations α)
    (registers : Registers α) :
    Command →
    Option (Registers α × Reply)
  | .new target capacity =>
      some (operations.assign registers target (operations.empty capacity))
  | .copy target source => do
      let value ← registers.read? source
      return operations.assign registers target value
  | .insert target indices => do
      let value ← registers.read? target
      let grown ← operations.insertAll? value indices
      return operations.assign registers target grown
  | .union target source => do
      let left ← registers.read? target
      let right ← registers.read? source
      let (grown, changed) ← operations.union? left right
      return (registers.write target grown,
        .union changed (operations.toList grown))
  | .intersect target source => do
      let left ← registers.read? target
      let right ← registers.read? source
      return operations.assign registers target
        (operations.intersect left right)
  | .contains target index => do
      let value ← registers.read? target
      return (registers, .truth (operations.contains value index))
  | .intersects target source => do
      let left ← registers.read? target
      let right ← registers.read? source
      return (registers, .truth (operations.intersects left right))
  | .equal target source => do
      let left ← registers.read? target
      let right ← registers.read? source
      return (registers, .truth (operations.equal left right))
  | .isEmpty target => do
      let value ← registers.read? target
      return (registers, .truth (operations.isEmpty value))
  | .count target => do
      let value ← registers.read? target
      return (registers, .number (operations.count value))
  | .members target => do
      let value ← registers.read? target
      return (registers, .members (operations.toList value))
  | .text target => do
      let value ← registers.read? target
      return (registers, .text (operations.text value))

/-- Run a command sequence by the given operations from an unassigned bank. -/
def runOn
    (operations : Operations α)
    (commands : List Command) :
    Transcript Reply :=
  runCommands (Command.stepOn operations) [] commands

/-- The operations of index sets. -/
def operations : Operations IndexSet :=
  { empty := empty
    insert? := insert?
    union? := fun left right =>
      (left.union? right).map fun grown => (grown, decide (grown ≠ left))
    intersect := intersect
    contains := contains
    intersects := intersects
    equal := fun left right => decide (left = right)
    isEmpty := isEmpty
    count := count
    toList := toList }

/-- Inserting one after the other is a fold. -/
theorem insertAll?_eq_foldlM
    (indices : IndexSet)
    (added : List Nat) :
    indices.insertAll? added = added.foldlM insert? indices := by
  induction added generalizing indices with
  | nil =>
      rfl
  | cons index rest inductionHypothesis =>
      rw [insertAll?, List.foldlM_cons]
      cases indices.insert? index with
      | none =>
          rfl
      | some grown =>
          exact inductionHypothesis grown

/-- Commands on index sets are carried out by their operations. -/
theorem Command.step_eq_stepOn :
    Command.step = Command.stepOn operations := by
  funext registers command
  cases command with
  | insert target indices =>
      simp only [Command.step, Command.stepOn, insertAll?_eq_foldlM,
        Operations.insertAll?]
      rfl
  | union target source =>
      simp only [Command.step, Command.stepOn, operations]
      cases registers.read? target with
      | none =>
          rfl
      | some left =>
          cases registers.read? source with
          | none =>
              rfl
          | some right =>
              cases found : left.union? right <;> simp [found]
  | _ =>
      rfl

end IndexSet

end PegAudit
