import PegAudit.Layout.Build

namespace PegAudit

/-!
# Filling slots

A layout can also be made by one pass that fills a table of empty slots.  The
pass takes the next free number for an expression, fills the slots of its
parts, and then its own.  It asks nothing about the sizes of expressions: the
cursor is carried from one part to the next.  The slots it wrote are recorded
in order.
-/

/-- A table of slots, some of them filled. -/
structure Slots where
  /-- The next free numbers. -/
  cursor : Cursor
  nodes : Array (Option Node)
  /-- The numbers of the slots written so far, a slot written twice being listed twice. -/
  written : List NodeId
  deriving Repr, DecidableEq, Inhabited

namespace Slots

/-- As many empty slots as asked for. -/
def empty
    (cursor : Cursor)
    (count : Nat) :
    Slots :=
  { cursor := cursor
    nodes := Array.replicate count none
    written := [] }

/-- Take the next number of a terminal. -/
def takeTerminal
    (slots : Slots) :
    Slots :=
  { slots with cursor := slots.cursor.skipTerminal }

/-- Take the next number of anything else. -/
def takeCompound
    (slots : Slots) :
    Slots :=
  { slots with cursor := slots.cursor.skipCompound }

/-- Fill a slot. -/
def write
    (slots : Slots)
    (id : NodeId)
    (node : Node) :
    Slots :=
  { slots with
    nodes := slots.nodes.setIfInBounds id (some node)
    written := slots.written ++ [id] }

end Slots

namespace Expr

mutual

/-- Fill the slots of an expression; its number comes with the filled slots. -/
def fill
    (scope : Scope)
    (site : Site)
    (slots : Slots) :
    Expr →
    NodeId × Slots
  | .terminal item =>
      let id := slots.cursor.terminal
      (id,
        slots.takeTerminal.write id
          (site.node (.terminal item) (.terminal item)))
  | .reference target =>
      let id := slots.cursor.compound
      let rule := (scope.lookup target).getD id
      (id,
        slots.takeCompound.write id
          (site.node (.reference target rule) (.reference target)))
  | .unary operator body =>
      let id := slots.cursor.compound
      let filled := body.fill scope (site.part 1) slots.takeCompound
      (id,
        filled.2.write id
          (site.node (.unary operator filled.1) (.unary operator body)))
  | .group grouping parts =>
      let id := slots.cursor.compound
      let filled := fillParts scope site 1 slots.takeCompound parts
      (id,
        filled.2.write id
          (site.node (.group grouping filled.1) (.group grouping parts)))

/-- Fill the slots of the parts of a group from a position on. -/
def fillParts
    (scope : Scope)
    (site : Site)
    (position : Nat)
    (slots : Slots) :
    List Expr →
    List NodeId × Slots
  | [] =>
      ([], slots)
  | part :: rest =>
      let first := part.fill scope (site.part position) slots
      let later := fillParts scope site (position + 1) first.2 rest
      (first.1 :: later.1, later.2)

end

end Expr

namespace Grammar

/-- Fill the slots of consecutive rules, given the top nodes they should get. -/
def fillRules
    (scope : Scope)
    (slots : Slots) :
    List (Rule × NodeId) →
    List NodeId × Slots
  | [] =>
      ([], slots)
  | (rule, top) :: rest =>
      let site : Site :=
        { name := rule.name
          isRule := true
          rule := top }
      let first := rule.body.fill scope site slots
      let later := fillRules scope first.2 rest
      (first.1 :: later.1, later.2)

/--
Fill the slots of a grammar, as many as there are expressions.  The top nodes
are those counted beforehand; the numbers the rules really get come with the
filled slots.
-/
def fill
    (grammar : Grammar) :
    List NodeId × Slots :=
  let last := Expr.skipParts grammar.cursor grammar.bodies
  fillRules grammar.scope (.empty grammar.cursor last.compound)
    (grammar.rules.zip grammar.topIds)

end Grammar

end PegAudit
