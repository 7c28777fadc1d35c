import PegAudit.IndexSet
import PegAudit.Registers

namespace PegAudit

/-!
# Command sequences over registers of index sets

The commands make, copy, change and question index sets held in registers.  A
command is refused when an inserted index has no bit, when the right operand of
a union has too few words, or when a register was never assigned.
-/

namespace IndexSet

/-- One command to a bank of index sets. -/
inductive Command where
  | new (target : String) (capacity : Nat)
  | copy (target source : String)
  | insert (target : String) (indices : List Nat)
  | union (target source : String)
  | intersect (target source : String)
  | contains (target : String) (index : Nat)
  | intersects (target source : String)
  | equal (target source : String)
  | isEmpty (target : String)
  | count (target : String)
  | members (target : String)
  | text (target : String)
  deriving Repr, DecidableEq

/-- What a command answers. -/
inductive Reply where
  | members (indices : List Nat)
  | union (changed : Bool) (indices : List Nat)
  | truth (value : Bool)
  | number (value : Nat)
  | text (value : String)
  deriving Repr, DecidableEq

/-- Insert indices one after the other, refusing the first without a bit. -/
def insertAll? :
    IndexSet →
    List Nat →
    Option IndexSet
  | indices, [] =>
      some indices
  | indices, index :: rest =>
      match indices.insert? index with
      | some grown => insertAll? grown rest
      | none => none

/-- Assign a register and answer its members. -/
def assign
    (registers : Registers IndexSet)
    (target : String)
    (value : IndexSet) :
    Registers IndexSet × Reply :=
  (registers.write target value, .members value.toList)

/-- Carry out one command, or refuse it. -/
def Command.step
    (registers : Registers IndexSet) :
    Command →
    Option (Registers IndexSet × Reply)
  | .new target capacity =>
      some (assign registers target (empty capacity))
  | .copy target source => do
      let value ← registers.read? source
      return assign registers target value
  | .insert target indices => do
      let value ← registers.read? target
      let grown ← value.insertAll? indices
      return assign registers target grown
  | .union target source => do
      let left ← registers.read? target
      let right ← registers.read? source
      let grown ← left.union? right
      return (registers.write target grown,
        .union (decide (grown ≠ left)) grown.toList)
  | .intersect target source => do
      let left ← registers.read? target
      let right ← registers.read? source
      return assign registers target (left.intersect right)
  | .contains target index => do
      let value ← registers.read? target
      return (registers, .truth (value.contains index))
  | .intersects target source => do
      let left ← registers.read? target
      let right ← registers.read? source
      return (registers, .truth (left.intersects right))
  | .equal target source => do
      let left ← registers.read? target
      let right ← registers.read? source
      return (registers, .truth (decide (left = right)))
  | .isEmpty target => do
      let value ← registers.read? target
      return (registers, .truth value.isEmpty)
  | .count target => do
      let value ← registers.read? target
      return (registers, .number value.count)
  | .members target => do
      let value ← registers.read? target
      return (registers, .members value.toList)
  | .text target => do
      let value ← registers.read? target
      return (registers, .text value.text)

/-- Run a command sequence from an unassigned bank. -/
def run
    (commands : List Command) :
    Transcript Reply :=
  runCommands Command.step [] commands

end IndexSet

end PegAudit
