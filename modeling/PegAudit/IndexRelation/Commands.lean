import PegAudit.IndexRelation
import PegAudit.Registers

namespace PegAudit

/-!
# Command sequences over registers of relations

The commands make, combine and question relations held in registers.  A
command is refused when a row or a bit is missing, when a union finds a row of
the right operand too short, or when a register was never assigned.
-/

namespace IndexRelation

/-- One command to a bank of relations. -/
inductive Command where
  | new (target : String) (size : Nat)
  | identity (target : String) (size : Nat)
  | product
      (target : String)
      (leftCapacity : Nat)
      (left : List Nat)
      (rightCapacity : Nat)
      (right : List Nat)
      (size : Nat)
  | insert (target : String) (pairs : List (Nat × Nat))
  | union (target left right : String)
  | intersect (target left right : String)
  | complement (target source : String)
  | closure (target source : String)
  | star (target source : String)
  | contains (target : String) (left right : Nat)
  | equal (target source : String)
  | row (target : String) (left : Nat)
  | weight (target : String)
  | text (target : String)
  deriving Repr, DecidableEq

/-- What a command answers. -/
inductive Reply where
  | pairs (related : List (Nat × Nat))
  | members (indices : List Nat)
  | truth (value : Bool)
  | number (value : Nat)
  | text (value : String)
  deriving Repr, DecidableEq

/-- Relate pairs one after the other, refusing the first without a bit. -/
def insertAll? :
    IndexRelation →
    List (Nat × Nat) →
    Option IndexRelation
  | relation, [] =>
      some relation
  | relation, (left, right) :: rest =>
      match relation.insert? left right with
      | some grown => insertAll? grown rest
      | none => none

/-- The set of the listed indices, refused if one of them has no bit. -/
def members?
    (capacity : Nat)
    (indices : List Nat) :
    Option IndexSet :=
  if indices.all (· < (IndexSet.empty capacity).room) then
    some (IndexSet.ofList capacity indices)
  else
    none

/-- Assign a register and answer its pairs. -/
def assign
    (registers : Registers IndexRelation)
    (target : String)
    (value : IndexRelation) :
    Registers IndexRelation × Reply :=
  (registers.write target value, .pairs value.pairs)

/-- Carry out one command, or refuse it. -/
def Command.step
    (registers : Registers IndexRelation) :
    Command →
    Option (Registers IndexRelation × Reply)
  | .new target size =>
      some (assign registers target (empty size))
  | .identity target size =>
      some (assign registers target (IndexRelation.identity size))
  | .product target leftCapacity left rightCapacity right size => do
      let leftSet ← members? leftCapacity left
      let rightSet ← members? rightCapacity right
      return assign registers target
        (IndexRelation.product leftSet rightSet size)
  | .insert target pairs => do
      let value ← registers.read? target
      let grown ← value.insertAll? pairs
      return assign registers target grown
  | .union target left right => do
      let leftValue ← registers.read? left
      let rightValue ← registers.read? right
      let united ← leftValue.union? rightValue
      return assign registers target united
  | .intersect target left right => do
      let leftValue ← registers.read? left
      let rightValue ← registers.read? right
      return assign registers target (leftValue.intersect rightValue)
  | .complement target source => do
      let value ← registers.read? source
      return assign registers target value.complement
  | .closure target source => do
      let value ← registers.read? source
      return assign registers target value.closure
  | .star target source => do
      let value ← registers.read? source
      return assign registers target value.star
  | .contains target left right => do
      let value ← registers.read? target
      let answer ← value.contains? left right
      return (registers, .truth answer)
  | .equal target source => do
      let leftValue ← registers.read? target
      let rightValue ← registers.read? source
      return (registers, .truth (decide (leftValue = rightValue)))
  | .row target left => do
      let value ← registers.read? target
      let related ← value.row? left
      return (registers, .members related.toList)
  | .weight target => do
      let value ← registers.read? target
      return (registers, .number value.weight)
  | .text target => do
      let value ← registers.read? target
      return (registers, .text value.text)

/-- Run a command sequence from an unassigned bank. -/
def run
    (commands : List Command) :
    Transcript Reply :=
  runCommands Command.step [] commands

end IndexRelation

end PegAudit
