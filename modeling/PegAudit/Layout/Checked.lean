import PegAudit.Layout.Filling

namespace PegAudit

/-!
# Filling slots with checks

The pass that fills slots writes to numbers it was given out and looks back at
slots that it believes filled: to put the text of an expression together from
its parts, and to mark the top of a rule.  Here every such number is checked
and one without a slot refuses the pass.  The pass is made for every grammar
that has rules; only afterwards is it asked whether there were defects.
-/

namespace Slots

/-- Fill a slot, or refuse a number without one. -/
def write?
    (slots : Slots)
    (id : NodeId)
    (node : Node) :
    Option Slots :=
  if id < slots.nodes.size then
    some (slots.write id node)
  else
    none

/-- Look back at slots, or refuse a number without one. -/
def look?
    (slots : Slots)
    (ids : List NodeId) :
    Option Unit :=
  if ids.all fun id => id < slots.nodes.size then
    some ()
  else
    none

end Slots

namespace Expr

mutual

/-- Fill the slots of an expression, looking back at those of its parts. -/
def fill?
    (scope : Scope)
    (site : Site)
    (slots : Slots) :
    Expr →
    Option (NodeId × Slots)
  | .terminal item => do
      let id := slots.cursor.terminal
      let filled ←
        slots.takeTerminal.write? id
          (site.node (.terminal item) (.terminal item))
      return (id, filled)
  | .reference target => do
      let id := slots.cursor.compound
      let rule := (scope.lookup target).getD id
      let filled ←
        slots.takeCompound.write? id
          (site.node (.reference target rule) (.reference target))
      return (id, filled)
  | .unary operator body => do
      let id := slots.cursor.compound
      let (part, inside) ←
        body.fill? scope (site.part 1) slots.takeCompound
      inside.look? [part]
      let filled ←
        inside.write? id
          (site.node (.unary operator part) (.unary operator body))
      return (id, filled)
  | .group grouping parts => do
      let id := slots.cursor.compound
      let (ids, inside) ←
        fillParts? scope site 1 slots.takeCompound parts
      inside.look? ids
      let filled ←
        inside.write? id
          (site.node (.group grouping ids) (.group grouping parts))
      return (id, filled)

/-- Fill the slots of the parts of a group from a position on. -/
def fillParts?
    (scope : Scope)
    (site : Site)
    (position : Nat)
    (slots : Slots) :
    List Expr →
    Option (List NodeId × Slots)
  | [] =>
      some ([], slots)
  | part :: rest => do
      let (id, inside) ← part.fill? scope (site.part position) slots
      let (ids, filled) ←
        fillParts? scope site (position + 1) inside rest
      return (id :: ids, filled)

end

end Expr

namespace Grammar

/-- Fill the slots of consecutive rules, looking back at the top of each. -/
def fillRules?
    (scope : Scope)
    (slots : Slots) :
    List (Rule × NodeId) →
    Option (List NodeId × Slots)
  | [] =>
      some ([], slots)
  | (rule, top) :: rest => do
      let site : Site :=
        { name := rule.name
          isRule := true
          rule := top }
      let (id, inside) ← rule.body.fill? scope site slots
      inside.look? [id]
      let (ids, filled) ← fillRules? scope inside rest
      return (id :: ids, filled)

/-- Fill the slots of a grammar, as many as there are expressions. -/
def fill?
    (grammar : Grammar) :
    Option (List NodeId × Slots) :=
  let last := Expr.skipParts grammar.cursor grammar.bodies
  fillRules? grammar.scope (.empty grammar.cursor last.compound)
    (grammar.rules.zip grammar.topIds)

/-- The numbered nodes from the filled slots of a grammar, or its defects. -/
def toLayout?
    (grammar : Grammar) :
    Option (Except (List Defect) Layout) :=
  if grammar.rules.isEmpty then
    some (.error grammar.defects)
  else do
    let (_, filled) ← grammar.fill?
    let last := Expr.skipParts grammar.cursor grammar.bodies
    match grammar.defects with
    | [] =>
        return .ok
          { nodes := filled.nodes.filterMap id
            terminalCount := last.terminal
            exprCount := last.compound
            rules := grammar.topIds
            unused := grammar.unused }
    | defects =>
        return .error defects

end Grammar

end PegAudit
