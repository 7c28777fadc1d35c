import PegAudit.Fixpoint
import PegAudit.Layout

namespace PegAudit

/-!
# Attributes of expressions

Four flags describe what a match of an expression can do: succeed without
consuming, succeed and consume, fail, and succeed only at the end of the input.
Those of a terminal are fixed.  Those of any other expression follow from its
parts, and with recursive rules they are the least solution, reached by sweeps
from the assignment that gives nonterminals no flag at all.  Left recursion
does not matter here; it is found later from the result.
-/

/-- What a match of an expression can do. -/
structure Attrs where
  /-- May succeed consuming nothing. -/
  nullable : Bool := false
  /-- May succeed consuming something. -/
  advances : Bool := false
  /-- May fail. -/
  canFail : Bool := false
  /-- Succeeds only where the input ends. -/
  endsInput : Bool := false
  deriving Repr, DecidableEq, Inhabited

namespace Attrs

/-- No flag. -/
def none : Attrs :=
  {}

/-- Every flag. -/
def all : Attrs :=
  { nullable := true
    advances := true
    canFail := true
    endsInput := true }

/-- What follows may start to consume where the match ended. -/
def transparent
    (attrs : Attrs) :
    Bool :=
  attrs.nullable && !attrs.endsInput

/-- Neither succeeds empty nor consumes. -/
def alwaysFails
    (attrs : Attrs) :
    Bool :=
  !attrs.nullable && !attrs.advances

/-- Number of flags that hold. -/
def count
    (attrs : Attrs) :
    Nat :=
  attrs.nullable.toNat + attrs.advances.toNat +
    attrs.canFail.toNat + attrs.endsInput.toNat

/-- The flags of either. -/
def union
    (left right : Attrs) :
    Attrs :=
  { nullable := left.nullable || right.nullable
    advances := left.advances || right.advances
    canFail := left.canFail || right.canFail
    endsInput := left.endsInput || right.endsInput }

/-- Every flag of `left` is one of `right`. -/
def included
    (left right : Attrs) :
    Prop :=
  (left.nullable = true → right.nullable = true) ∧
    (left.advances = true → right.advances = true) ∧
    (left.canFail = true → right.canFail = true) ∧
    (left.endsInput = true → right.endsInput = true)

/-- There are four flags. -/
theorem count_le_four
    (attrs : Attrs) :
    attrs.count ≤ 4 := by
  rcases attrs with ⟨nullable, advances, canFail, endsInput⟩
  cases nullable <;> cases advances <;> cases canFail <;>
    cases endsInput <;> decide

/-- The union includes its left operand. -/
theorem included_union_left
    (left right : Attrs) :
    left.included (left.union right) := by
  simp +contextual [included, union]

end Attrs

/-- The attributes of a terminal. -/
def Terminal.attrs :
    Terminal →
    Attrs
  | .endOfInput =>
      Attrs.all
  | .literal _ =>
      { advances := true, canFail := true }
  | .range _ _ =>
      { advances := true, canFail := true }
  | .charClass _ _ =>
      { advances := true, canFail := true }
  | .anyChar =>
      { advances := true, canFail := true }

/-- The attributes of an operator applied to a body with the given ones. -/
def Operator.attrs
    (body : Attrs) :
    Operator →
    Attrs
  | .andPredicate =>
      { nullable := body.nullable || body.advances
        canFail := body.canFail }
  | .notPredicate =>
      { nullable := body.canFail
        canFail := body.nullable || body.advances }
  | .oneOrMore =>
      body
  | .zeroOrMore =>
      { nullable := body.canFail || body.nullable
        advances := body.advances }
  | .optional =>
      { nullable := body.canFail || body.nullable
        advances := body.advances }

/-- The attributes of a group of parts with the given ones. -/
def Grouping.attrs
    (parts : List Attrs) :
    Grouping →
    Attrs
  | .choice =>
      { nullable := parts.any Attrs.nullable
        advances := parts.any Attrs.advances
        canFail := parts.all Attrs.canFail
        endsInput := parts.all Attrs.endsInput }
  | .sequence =>
      { nullable := parts.all Attrs.nullable
        advances := parts.any Attrs.advances
        canFail := parts.any Attrs.canFail
        endsInput := parts.any Attrs.endsInput }

namespace Shape

/-- The attributes of a shape, given those of its parts and of its rule. -/
def attrs
    (known : ι → Attrs) :
    Shape ι →
    Attrs
  | .terminal item =>
      item.attrs
  | .reference _ rule =>
      known rule
  | .unary operator body =>
      operator.attrs (known body)
  | .group grouping parts =>
      grouping.attrs (parts.map known)
  | .remainingInput =>
      Attrs.all

/-- The attributes a shape has before anything is known of its parts. -/
def initialAttrs :
    Shape ι →
    Attrs
  | .terminal item => item.attrs
  | .reference _ _ => Attrs.none
  | .unary _ _ => Attrs.none
  | .group _ _ => Attrs.none
  | .remainingInput => Attrs.all

end Shape

/-- The attributes of every node by number. -/
abbrev AttrTable :=
  Array Attrs

namespace AttrTable

/-- The attributes of a node; a number without a node has none. -/
def of
    (table : AttrTable)
    (id : NodeId) :
    Attrs :=
  table[id]?.getD Attrs.none

end AttrTable

namespace Layout

/-- The assignment that sweeping starts from. -/
def initialAttrs
    (layout : Layout) :
    AttrTable :=
  layout.nodes.map fun node => node.shape.initialAttrs

/-- Switch on the flags that follow for a node from the table. -/
def updateAttrs
    (layout : Layout)
    (table : AttrTable)
    (id : NodeId)
    (current : Attrs) :
    Attrs :=
  match layout.shape? id with
  | some shape => current.union (shape.attrs table.of)
  | none => current

/-- One sweep over all expressions in the order of their numbers. -/
def sweepAttrs
    (layout : Layout) :
    AttrTable →
    AttrTable :=
  sweep layout.updateAttrs layout.ids

/-- Sweep until nothing changes. -/
def settleAttrs
    (layout : Layout) :
    Settled AttrTable :=
  settle layout.sweepAttrs (4 * layout.exprCount + 1)
    layout.initialAttrs

/-- The attributes of every node. -/
def attrs
    (layout : Layout) :
    AttrTable :=
  layout.settleAttrs.state

end Layout

end PegAudit
