import PegAudit.Terminal

namespace PegAudit

/-!
# Parsing expressions

An expression is a terminal, a reference to a rule by name, an operator
applied to a body, or a choice or sequence of parts.  The builders below keep
a single part from becoming a group, write `!_` as the end of the input, and
merge neighbouring choices.
-/

/-- Operators on one expression. -/
inductive Operator where
  | andPredicate
  | notPredicate
  | oneOrMore
  | zeroOrMore
  | optional
  deriving Repr, DecidableEq, Inhabited

/-- Ways of putting several expressions together. -/
inductive Grouping where
  | choice
  | sequence
  deriving Repr, DecidableEq, Inhabited

/-- A parsing expression whose references are names. -/
inductive Expr where
  | terminal (item : Terminal)
  | reference (target : String)
  | unary (operator : Operator) (body : Expr)
  | group (grouping : Grouping) (parts : List Expr)
  deriving Repr, Inhabited

namespace Expr

mutual

/-- Decide equality of expressions. -/
def decideEq :
    (left right : Expr) →
    Decidable (left = right)
  | .terminal left, .terminal right =>
      if same : left = right then
        isTrue (by rw [same])
      else
        isFalse (by simpa using same)
  | .reference left, .reference right =>
      if same : left = right then
        isTrue (by rw [same])
      else
        isFalse (by simpa using same)
  | .unary leftOperator left, .unary rightOperator right =>
      if sameOperator : leftOperator = rightOperator then
        match decideEq left right with
        | isTrue same => isTrue (by rw [sameOperator, same])
        | isFalse different => isFalse (by simp [different])
      else
        isFalse (by simp [sameOperator])
  | .group leftGrouping left, .group rightGrouping right =>
      if sameGrouping : leftGrouping = rightGrouping then
        match decideEqParts left right with
        | isTrue same => isTrue (by rw [sameGrouping, same])
        | isFalse different => isFalse (by simp [different])
      else
        isFalse (by simp [sameGrouping])
  | .terminal _, .reference _ => isFalse (by simp)
  | .terminal _, .unary _ _ => isFalse (by simp)
  | .terminal _, .group _ _ => isFalse (by simp)
  | .reference _, .terminal _ => isFalse (by simp)
  | .reference _, .unary _ _ => isFalse (by simp)
  | .reference _, .group _ _ => isFalse (by simp)
  | .unary _ _, .terminal _ => isFalse (by simp)
  | .unary _ _, .reference _ => isFalse (by simp)
  | .unary _ _, .group _ _ => isFalse (by simp)
  | .group _ _, .terminal _ => isFalse (by simp)
  | .group _ _, .reference _ => isFalse (by simp)
  | .group _ _, .unary _ _ => isFalse (by simp)

/-- Decide equality of lists of expressions. -/
def decideEqParts :
    (left right : List Expr) →
    Decidable (left = right)
  | [], [] =>
      isTrue rfl
  | left :: lefts, right :: rights =>
      match decideEq left right, decideEqParts lefts rights with
      | isTrue same, isTrue sameRest => isTrue (by rw [same, sameRest])
      | isFalse different, _ => isFalse (by simp [different])
      | _, isFalse different => isFalse (by simp [different])
  | [], _ :: _ =>
      isFalse (by simp)
  | _ :: _, [] =>
      isFalse (by simp)

end

instance : DecidableEq Expr :=
  decideEq

/-- The literal `"text"`. -/
def literal
    (text : String) :
    Expr :=
  .terminal (.literal text)

/-- The character range `[low-high]`. -/
def range
    (low high : Char) :
    Expr :=
  .terminal (.range low high)

/-- The character class `[members]`. -/
def charClass
    (members : String) :
    Expr :=
  .terminal (.charClass members false)

/-- The negated character class `^[members]`. -/
def charsExcept
    (members : String) :
    Expr :=
  .terminal (.charClass members true)

/-- Any character, `_`. -/
def anyChar : Expr :=
  .terminal .anyChar

/-- The end of the input, `!_`. -/
def endOfInput : Expr :=
  .terminal .endOfInput

/-- A group, unless there is exactly one part, which then stands alone. -/
def grouped
    (grouping : Grouping) :
    List Expr →
    Expr
  | [part] =>
      part
  | parts =>
      .group grouping parts

/-- The parts one after the other. -/
def sequence
    (parts : List Expr) :
    Expr :=
  grouped .sequence parts

/-- The first of the parts that succeeds. -/
def choice
    (parts : List Expr) :
    Expr :=
  grouped .choice parts

/-- The predicate `&body`. -/
def followedBy
    (body : Expr) :
    Expr :=
  .unary .andPredicate body

/-- The predicate `!body`; that no character follows is the end of the input. -/
def notFollowedBy :
    Expr →
    Expr
  | .terminal .anyChar =>
      endOfInput
  | body =>
      .unary .notPredicate body

/-- The iteration `body+`. -/
def oneOrMore
    (body : Expr) :
    Expr :=
  .unary .oneOrMore body

/-- The iteration `body*`. -/
def zeroOrMore
    (body : Expr) :
    Expr :=
  .unary .zeroOrMore body

/-- The option `body?`. -/
def optional
    (body : Expr) :
    Expr :=
  .unary .optional body

/-- Repeat `body` until `stop`: `(!stop body)* stop`. -/
def zeroOrMoreUntil
    (body stop : Expr) :
    Expr :=
  sequence
    [zeroOrMore (sequence [notFollowedBy stop, body]), stop]

/-- At least one `body` until `stop`: `(!stop body)+ stop`. -/
def oneOrMoreUntil
    (body stop : Expr) :
    Expr :=
  sequence
    [oneOrMore (sequence [notFollowedBy stop, body]), stop]

/-- The alternatives of a choice; any other expression is its only one. -/
def alternatives :
    Expr →
    List Expr
  | .group .choice parts =>
      parts
  | expression =>
      [expression]

/-- The choice `left / right`, with choices on either side merged into it. -/
def orElse
    (left right : Expr) :
    Expr :=
  .group .choice (left.alternatives ++ right.alternatives)

/-- Merging is associative. -/
theorem orElse_assoc
    (first second third : Expr) :
    (first.orElse second).orElse third =
      first.orElse (second.orElse third) := by
  simp [orElse, alternatives]

end Expr

end PegAudit
