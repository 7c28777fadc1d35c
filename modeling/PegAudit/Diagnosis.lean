import PegAudit.Relations

namespace PegAudit

/-!
# Faults and notes

A fault makes a grammar unusable for a recursive-descent parser: a rule that
reaches itself without consuming, or an iteration whose body may consume
nothing.  A note is advice about a grammar without faults.  Equal findings are
reported once, where they occur first.
-/

/-- A finding that makes the grammar unusable. -/
inductive Fault where
  | leftRecursion (rule : String) (via : List String)
  | nullableIteration (body iteration : String)
  deriving Repr, DecidableEq, Inhabited

namespace Fault

/-- The nodes through which a rule reaches itself. -/
def witnesses :
    List String →
    String
  | [] =>
      ""
  | via =>
      " via " ++ " and ".intercalate (via.map quoted)

/-- The wording of a fault. -/
def message :
    Fault →
    String
  | .leftRecursion rule via =>
      quoted rule ++ " is left-recursive" ++ witnesses via
  | .nullableIteration body iteration =>
      quoted body ++ " in " ++ quoted iteration ++
        " may consume empty string"

end Fault

/-- An advisory finding. -/
inductive Note where
  | hidesAlternatives (alternative choice : String)
  | endsInput (element sequence : String)
  | alwaysFails (expression : String)
  | redundantOption (body option : String)
  deriving Repr, DecidableEq, Inhabited

namespace Note

/-- The wording of a note. -/
def message :
    Note →
    String
  | .hidesAlternatives alternative choice =>
      quoted alternative ++ " in " ++ quoted choice ++
        " never fails and hides other alternative(s)"
  | .endsInput element sequence =>
      quoted element ++ " in " ++ quoted sequence ++
        " succeeds only on end of input"
  | .alwaysFails expression =>
      quoted expression ++ " always fails"
  | .redundantOption body option =>
      "As " ++ quoted body ++ " in " ++ quoted option ++
        " never fails, the '?' can be dropped"

end Note

namespace Layout

/-- The iterations of a node whose body may consume nothing. -/
def iterationFaults
    (layout : Layout)
    (table : AttrTable)
    (id : NodeId) :
    List Fault :=
  let check (body : NodeId) : List Fault :=
    if (table.of body).nullable then
      [.nullableIteration (layout.simple body) (layout.source id)]
    else
      []
  match layout.shape? id with
  | some (.unary .oneOrMore body) => check body
  | some (.unary .zeroOrMore body) => check body
  | _ => []

/-- The nodes a rule may call next and from which it is reached again. -/
def recursionWitnesses
    (layout : Layout)
    (relations : Relations)
    (rule : NodeId) :
    List NodeId :=
  layout.ids.filter fun id =>
    relations.calls.contains rule id &&
      relations.callsClosure.contains id rule

/-- The left recursion of a rule, if there is one. -/
def recursionFaults
    (layout : Layout)
    (relations : Relations)
    (rule : NodeId) :
    List Fault :=
  if relations.callsClosure.contains rule rule then
    [.leftRecursion (layout.simple rule)
      ((layout.recursionWitnesses relations rule).map layout.simple)]
  else
    []

/-- All faults: iterations by node, then left recursion by rule. -/
def faults
    (layout : Layout)
    (table : AttrTable)
    (relations : Relations) :
    List Fault :=
  (layout.compoundIds.flatMap (layout.iterationFaults table) ++
    layout.rules.flatMap
      (layout.recursionFaults relations)).eraseDups

/-- Alternatives before the last that never fail. -/
def hidingNotes
    (layout : Layout)
    (table : AttrTable)
    (id : NodeId) :
    List Note :=
  match layout.shape? id with
  | some (.group .choice parts) =>
      (parts.dropLast.filter fun part =>
        !(table.of part).canFail).map fun part =>
          .hidesAlternatives (layout.simple part) (layout.simple id)
  | _ =>
      []

/-- Elements before the last that succeed only at the end of the input. -/
def endingNotes
    (layout : Layout)
    (table : AttrTable)
    (id : NodeId) :
    List Note :=
  match layout.shape? id with
  | some (.group .sequence parts) =>
      (parts.dropLast.filter fun part =>
        (table.of part).endsInput).map fun part =>
          .endsInput (layout.simple part) (layout.source id)
  | _ =>
      []

/-- Expressions that always fail. -/
def failureNotes
    (layout : Layout)
    (table : AttrTable)
    (id : NodeId) :
    List Note :=
  if (table.of id).alwaysFails then
    [.alwaysFails (layout.simple id)]
  else
    []

/-- Options whose body never fails. -/
def optionNotes
    (layout : Layout)
    (table : AttrTable)
    (id : NodeId) :
    List Note :=
  match layout.shape? id with
  | some (.unary .optional body) =>
      if (table.of body).canFail then
        []
      else
        [.redundantOption (layout.simple body) (layout.source id)]
  | _ =>
      []

/-- All notes, kind by kind, each kind by node. -/
def notes
    (layout : Layout)
    (table : AttrTable) :
    List Note :=
  (layout.ids.flatMap (layout.hidingNotes table)).eraseDups ++
    (layout.ids.flatMap (layout.endingNotes table)).eraseDups ++
    (layout.ids.flatMap (layout.failureNotes table)).eraseDups ++
    (layout.ids.flatMap (layout.optionNotes table)).eraseDups

end Layout

end PegAudit
