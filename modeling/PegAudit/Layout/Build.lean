import PegAudit.Layout

namespace PegAudit

/-!
# Numbering a grammar

The numbers of an expression's nodes follow from two cursors: the next free
terminal number and the next free number of anything else.  The sizes of the
expressions before it determine both, so the number of every rule is known
before any body is visited, and references forward need no second visit.
-/

/-- The next free numbers of the two blocks. -/
structure Cursor where
  terminal : NodeId
  compound : NodeId
  deriving Repr, DecidableEq, Inhabited

namespace Cursor

/-- The cursor after a terminal. -/
def skipTerminal
    (cursor : Cursor) :
    Cursor :=
  { cursor with terminal := cursor.terminal + 1 }

/-- The cursor after a node that is not a terminal. -/
def skipCompound
    (cursor : Cursor) :
    Cursor :=
  { cursor with compound := cursor.compound + 1 }

end Cursor

namespace Expr

mutual

/-- The cursor after all nodes of an expression. -/
def skip
    (cursor : Cursor) :
    Expr →
    Cursor
  | .terminal _ =>
      cursor.skipTerminal
  | .reference _ =>
      cursor.skipCompound
  | .unary _ body =>
      body.skip cursor.skipCompound
  | .group _ parts =>
      skipParts cursor.skipCompound parts

/-- The cursor after all nodes of a list of expressions. -/
def skipParts
    (cursor : Cursor) :
    List Expr →
    Cursor
  | [] =>
      cursor
  | part :: rest =>
      skipParts (part.skip cursor) rest

end

/-- The number an expression gets at a cursor. -/
def topId
    (cursor : Cursor) :
    Expr →
    NodeId
  | .terminal _ => cursor.terminal
  | .reference _ => cursor.compound
  | .unary _ _ => cursor.compound
  | .group _ _ => cursor.compound

/-- The numbers that consecutive expressions get from a cursor on. -/
def topIds
    (cursor : Cursor) :
    List Expr →
    List NodeId
  | [] =>
      []
  | part :: rest =>
      part.topId cursor :: topIds (part.skip cursor) rest

end Expr

/-- The nodes of consecutive expressions, those of each block in order. -/
structure NodeBlocks where
  terminals : List Node
  compounds : List Node
  deriving Repr, DecidableEq, Inhabited

namespace NodeBlocks

/-- No nodes. -/
def empty : NodeBlocks :=
  { terminals := [], compounds := [] }

/-- A single terminal. -/
def ofTerminal
    (node : Node) :
    NodeBlocks :=
  { terminals := [node], compounds := [] }

/-- A node that is not a terminal in front of the nodes of its parts. -/
def under
    (node : Node)
    (parts : NodeBlocks) :
    NodeBlocks :=
  { parts with compounds := node :: parts.compounds }

/-- The nodes of one expression and those of the expressions after it. -/
def append
    (first later : NodeBlocks) :
    NodeBlocks :=
  { terminals := first.terminals ++ later.terminals
    compounds := first.compounds ++ later.compounds }

end NodeBlocks

/-- The top node of each rule by name; an earlier rule wins. -/
abbrev Scope :=
  List (String × NodeId)

/-- Where an expression stands. -/
structure Site where
  name : String
  isRule : Bool
  /-- The top node of the enclosing rule. -/
  rule : NodeId
  deriving Repr, DecidableEq, Inhabited

namespace Site

/-- The part at a 1-based position. -/
def part
    (site : Site)
    (position : Nat) :
    Site :=
  { site with
    name := partName site.name position
    isRule := false }

/-- The node of an expression that stands here. -/
def node
    (site : Site)
    (shape : Shape NodeId)
    (expression : Expr) :
    Node :=
  { shape := shape
    name := site.name
    isRule := site.isRule
    rule := site.rule
    source := expression.source }

end Site

namespace Expr

mutual

/-- The nodes of an expression that stands at a site, numbered from a cursor. -/
def layOut
    (scope : Scope)
    (site : Site)
    (cursor : Cursor) :
    Expr →
    NodeBlocks
  | .terminal item =>
      .ofTerminal (site.node (.terminal item) (.terminal item))
  | .reference target =>
      let rule := (scope.lookup target).getD cursor.compound
      .under (site.node (.reference target rule) (.reference target))
        .empty
  | .unary operator body =>
      let inside := cursor.skipCompound
      .under
        (site.node (.unary operator (body.topId inside))
          (.unary operator body))
        (body.layOut scope (site.part 1) inside)
  | .group grouping parts =>
      let inside := cursor.skipCompound
      .under
        (site.node (.group grouping (topIds inside parts))
          (.group grouping parts))
        (layOutParts scope site 1 inside parts)

/-- The nodes of the parts of a group from a position on. -/
def layOutParts
    (scope : Scope)
    (site : Site)
    (position : Nat)
    (cursor : Cursor) :
    List Expr →
    NodeBlocks
  | [] =>
      .empty
  | part :: rest =>
      (part.layOut scope (site.part position) cursor).append
        (layOutParts scope site (position + 1)
          (part.skip cursor) rest)

end

end Expr

namespace Grammar

/-- The cursor at the first rule: terminals from 0, everything else after them. -/
def cursor
    (grammar : Grammar) :
    Cursor :=
  let terminals := (Expr.skipParts ⟨0, 0⟩ grammar.bodies).terminal
  { terminal := 0, compound := terminals }

/-- The top node of each rule. -/
def topIds
    (grammar : Grammar) :
    List NodeId :=
  Expr.topIds grammar.cursor grammar.bodies

/-- The top node of each rule by name. -/
def scope
    (grammar : Grammar) :
    Scope :=
  grammar.names.zip grammar.topIds

/-- The nodes of consecutive rules, numbered from a cursor. -/
def layOutRules
    (scope : Scope)
    (cursor : Cursor) :
    List Rule →
    NodeBlocks
  | [] =>
      .empty
  | rule :: rest =>
      let site : Site :=
        { name := rule.name
          isRule := true
          rule := rule.body.topId cursor }
      (rule.body.layOut scope site cursor).append
        (layOutRules scope (rule.body.skip cursor) rest)

/-- The numbered nodes of a grammar, whether or not it has defects. -/
def layOut
    (grammar : Grammar) :
    Layout :=
  let blocks := layOutRules grammar.scope grammar.cursor grammar.rules
  let last := Expr.skipParts grammar.cursor grammar.bodies
  { nodes := (blocks.terminals ++ blocks.compounds).toArray
    terminalCount := last.terminal
    exprCount := last.compound
    rules := grammar.topIds
    unused := grammar.unused }

/-- The numbered nodes of a grammar without defects, or its defects. -/
def toLayout
    (grammar : Grammar) :
    Except (List Defect) Layout :=
  match grammar.defects with
  | [] =>
      .ok grammar.layOut
  | defects =>
      .error defects

end Grammar

end PegAudit
