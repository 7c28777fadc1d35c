import PegAudit.Diagnosis
import PegAudit.Relations.Checked

namespace PegAudit

/-!
# Faults and notes with checks

Looking for faults and notes looks at nodes, at rows of the closure, and at the
parts of a group before the last, of which a group without parts has none.
-/

/-- The elements before the last, refused if there is no last one. -/
def beforeLast? :
    List α →
    Option (List α)
  | [] => none
  | elements => some elements.dropLast

namespace Layout

/-- The iterations of a node whose body may consume nothing. -/
def iterationFaults?
    (layout : Layout)
    (table : AttrTable)
    (id : NodeId) :
    Option (List Fault) := do
  layout.inspect? id
  return layout.iterationFaults table id

/-- May the rule call the node next and be reached from it again? -/
def isWitness?
    (relations : Relations)
    (rule id : NodeId) :
    Option Bool := do
  let called ← relations.calls.contains? rule id
  if called then
    relations.callsClosure.contains? id rule
  else
    return false

/-- The left recursion of a rule, if there is one. -/
def recursionFaults?
    (layout : Layout)
    (relations : Relations)
    (rule : NodeId) :
    Option (List Fault) := do
  let again ← relations.callsClosure.contains? rule rule
  if again then
    let witnesses ← layout.ids.filterM (isWitness? relations rule)
    layout.visit? (rule :: witnesses)
    return [.leftRecursion (layout.simple rule)
      (witnesses.map layout.simple)]
  else
    return []

/-- All faults: iterations by node, then left recursion by rule. -/
def faults?
    (layout : Layout)
    (table : AttrTable)
    (relations : Relations) :
    Option (List Fault) := do
  let iterations ←
    layout.compoundIds.mapM (layout.iterationFaults? table)
  let recursions ← layout.rules.mapM (layout.recursionFaults? relations)
  return (iterations.flatten ++ recursions.flatten).eraseDups

/-- Alternatives before the last that never fail. -/
def hidingNotes?
    (layout : Layout)
    (table : AttrTable)
    (id : NodeId) :
    Option (List Note) :=
  match layout.shape? id with
  | some (.group .choice parts) => do
      let before ← beforeLast? parts
      layout.visit? (id :: before)
      return (before.filter fun part =>
        !(table.of part).canFail).map fun part =>
          .hidesAlternatives (layout.simple part) (layout.simple id)
  | _ =>
      some []

/-- Elements before the last that succeed only at the end of the input. -/
def endingNotes?
    (layout : Layout)
    (table : AttrTable)
    (id : NodeId) :
    Option (List Note) :=
  match layout.shape? id with
  | some (.group .sequence parts) => do
      let before ← beforeLast? parts
      layout.visit? (id :: before)
      return (before.filter fun part =>
        (table.of part).endsInput).map fun part =>
          .endsInput (layout.simple part) (layout.source id)
  | _ =>
      some []

/-- Expressions that always fail. -/
def failureNotes?
    (layout : Layout)
    (table : AttrTable)
    (id : NodeId) :
    Option (List Note) := do
  layout.visit? [id]
  return layout.failureNotes table id

/-- Options whose body never fails. -/
def optionNotes?
    (layout : Layout)
    (table : AttrTable)
    (id : NodeId) :
    Option (List Note) := do
  layout.inspect? id
  return layout.optionNotes table id

/-- All notes, kind by kind, each kind by node. -/
def notes?
    (layout : Layout)
    (table : AttrTable) :
    Option (List Note) := do
  let hidden ← layout.ids.mapM (layout.hidingNotes? table)
  let ended ← layout.ids.mapM (layout.endingNotes? table)
  let failed ← layout.ids.mapM (layout.failureNotes? table)
  let optional ← layout.ids.mapM (layout.optionNotes? table)
  return hidden.flatten.eraseDups ++ ended.flatten.eraseDups ++
    failed.flatten.eraseDups ++ optional.flatten.eraseDups

end Layout

end PegAudit
