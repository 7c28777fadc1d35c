import PegAudit.IndexRelation.Commands
import PegAudit.IndexSet.Operations

namespace PegAudit

/-!
# Command sequences over anything that serves as a relation

As with index sets, a command sequence can be run on any type of values that
can be made, changed, combined and questioned like relations.
-/

namespace IndexRelation

/-- What commands need of the values in the registers. -/
structure Operations (α : Type) where
  empty : Nat → α
  identity? : Nat → Option α
  /--
  The product, below a size, of two sets that are each given by a capacity and
  a list; refuses an index that a set cannot hold.
  -/
  product? : Nat → List Nat → Nat → List Nat → Nat → Option α
  /-- Refuses a pair that the value cannot hold. -/
  insert? : α → Nat × Nat → Option α
  /-- Refuses a right operand with rows that are too short. -/
  union? : α → α → Option α
  intersect : α → α → α
  complement? : α → Option α
  closure? : α → Option α
  star? : α → Option α
  /-- Refuses a left index without a row. -/
  contains? : α → Nat → Nat → Option Bool
  equal : α → α → Bool
  /-- The right indices of each left index. -/
  rows : α → List (List Nat)
  weight : α → Nat
  pairs : α → List (Nat × Nat)

namespace Operations

/-- Relate pairs one after the other, refusing the first that cannot be held. -/
def insertAll?
    (operations : Operations α)
    (value : α)
    (pairs : List (Nat × Nat)) :
    Option α :=
  pairs.foldlM operations.insert? value

/-- Assign a register and answer its pairs. -/
def assign
    (operations : Operations α)
    (registers : Registers α)
    (target : String)
    (value : α) :
    Registers α × Reply :=
  (registers.write target value, .pairs (operations.pairs value))

/-- The rows that have members, each after its left index, between braces. -/
def text
    (operations : Operations α)
    (value : α) :
    String :=
  braced <|
    (operations.rows value).zipIdx.filterMap fun (members, left) =>
      if members.isEmpty then
        none
      else
        some (toString left ++ ": " ++ braced (members.map toString))

end Operations

/-- Carry out one command by the given operations, or refuse it. -/
def Command.stepOn
    (operations : Operations α)
    (registers : Registers α) :
    Command →
    Option (Registers α × Reply)
  | .new target size =>
      some (operations.assign registers target (operations.empty size))
  | .identity target size => do
      let made ← operations.identity? size
      return operations.assign registers target made
  | .product target leftCapacity left rightCapacity right size => do
      let made ←
        operations.product? leftCapacity left rightCapacity right size
      return operations.assign registers target made
  | .insert target pairs => do
      let value ← registers.read? target
      let grown ← operations.insertAll? value pairs
      return operations.assign registers target grown
  | .union target left right => do
      let leftValue ← registers.read? left
      let rightValue ← registers.read? right
      let united ← operations.union? leftValue rightValue
      return operations.assign registers target united
  | .intersect target left right => do
      let leftValue ← registers.read? left
      let rightValue ← registers.read? right
      return operations.assign registers target
        (operations.intersect leftValue rightValue)
  | .complement target source => do
      let value ← registers.read? source
      let made ← operations.complement? value
      return operations.assign registers target made
  | .closure target source => do
      let value ← registers.read? source
      let made ← operations.closure? value
      return operations.assign registers target made
  | .star target source => do
      let value ← registers.read? source
      let made ← operations.star? value
      return operations.assign registers target made
  | .contains target left right => do
      let value ← registers.read? target
      let answer ← operations.contains? value left right
      return (registers, .truth answer)
  | .equal target source => do
      let leftValue ← registers.read? target
      let rightValue ← registers.read? source
      return (registers, .truth (operations.equal leftValue rightValue))
  | .row target left => do
      let value ← registers.read? target
      let members ← (operations.rows value)[left]?
      return (registers, .members members)
  | .weight target => do
      let value ← registers.read? target
      return (registers, .number (operations.weight value))
  | .text target => do
      let value ← registers.read? target
      return (registers, .text (operations.text value))

/-- Run a command sequence by the given operations from an unassigned bank. -/
def runOn
    (operations : Operations α)
    (commands : List Command) :
    Transcript Reply :=
  runCommands (Command.stepOn operations) [] commands

/-- The operations of relations. -/
def operations : Operations IndexRelation :=
  { empty := empty
    identity? := fun size => some (identity size)
    product? := fun leftCapacity left rightCapacity right size => do
      let leftSet ← members? leftCapacity left
      let rightSet ← members? rightCapacity right
      return product leftSet rightSet size
    insert? := fun relation pair => relation.insert? pair.1 pair.2
    union? := union?
    intersect := intersect
    complement? := fun relation => some relation.complement
    closure? := fun relation => some relation.closure
    star? := fun relation => some relation.star
    contains? := contains?
    equal := fun left right => decide (left = right)
    rows := fun relation => relation.rows.toList.map IndexSet.toList
    weight := weight
    pairs := pairs }

/-- Relating one after the other is a fold. -/
theorem insertAll?_eq_foldlM
    (relation : IndexRelation)
    (added : List (Nat × Nat)) :
    relation.insertAll? added =
      added.foldlM (fun grown pair => grown.insert? pair.1 pair.2)
        relation := by
  induction added generalizing relation with
  | nil =>
      rfl
  | cons pair rest inductionHypothesis =>
      obtain ⟨left, right⟩ := pair
      rw [insertAll?, List.foldlM_cons]
      cases relation.insert? left right with
      | none =>
          rfl
      | some grown =>
          exact inductionHypothesis grown

end IndexRelation

end PegAudit
