import PegAudit.Terminal

namespace PegAudit

/-!
# Disjoint terminals

Two terminals are disjoint when no input starts with a match of both.  The end
of the input is disjoint with everything, itself included, since it never
decides between two ways of reading a character.
-/

namespace Terminal

/-- Is one of the two texts a beginning of the other? -/
def overlapping
    (left right : List Char) :
    Bool :=
  left.isPrefixOf right || right.isPrefixOf left

/-- Is no first character of the text accepted?  False for the empty text. -/
def rejectsFirst
    (acceptor : Terminal)
    (text : String) :
    Bool :=
  match text.toList with
  | [] =>
      false
  | first :: _ =>
      !acceptor.accepts first

/--
Do all scalar values among the `count` code points from `code` on satisfy the
test?  Stops at the first that does not.
-/
def allScalars
    (test : Char → Bool) :
    Nat →
    Nat →
    Bool
  | 0, _ =>
      true
  | count + 1, code =>
      if code.isValidChar && !test (Char.ofNat code) then
        false
      else
        allScalars test count (code + 1)

/-- Is every scalar value from `low` to `high` one of the members? -/
def coversRange
    (members : List Char)
    (low high : Char) :
    Bool :=
  allScalars members.contains (high.toNat + 1 - low.toNat) low.toNat

/-- Does no scalar value belong to both classes? -/
def disjointClasses
    (left : List Char)
    (leftNegated : Bool)
    (right : List Char)
    (rightNegated : Bool) :
    Bool :=
  match leftNegated, rightNegated with
  | false, false =>
      !right.any left.contains
  | true, false =>
      right.all left.contains
  | false, true =>
      left.all right.contains
  | true, true =>
      false

/-- Does no scalar value belong to both the class and the range? -/
def disjointClassRange
    (members : List Char)
    (negated : Bool)
    (low high : Char) :
    Bool :=
  if negated then
    coversRange members low high
  else
    !members.any fun character => low ≤ character && character ≤ high

/-- Can no input start with a match of both terminals? -/
def disjoint :
    Terminal →
    Terminal →
    Bool
  | .endOfInput, _ =>
      true
  | _, .endOfInput =>
      true
  | .anyChar, _ =>
      false
  | _, .anyChar =>
      false
  | .literal left, .literal right =>
      !overlapping left.toList right.toList
  | .literal text, acceptor =>
      acceptor.rejectsFirst text
  | acceptor, .literal text =>
      acceptor.rejectsFirst text
  | .charClass left leftNegated, .charClass right rightNegated =>
      disjointClasses left.toList leftNegated right.toList rightNegated
  | .charClass members negated, .range low high =>
      disjointClassRange members.toList negated low high
  | .range low high, .charClass members negated =>
      disjointClassRange members.toList negated low high
  | .range low high, .range otherLow otherHigh =>
      high < otherLow || otherHigh < low

end Terminal

end PegAudit
