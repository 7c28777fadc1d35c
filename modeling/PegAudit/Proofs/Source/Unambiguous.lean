import PegAudit.Proofs.Layout.ReadBack
import PegAudit.Proofs.Source.Expressions

namespace PegAudit

/-!
# Source text is unambiguous

Expressions made by the builders, accepted in a grammar and spelled with
letters and digits can be read back from their text, so expressions with the
same text are the same.
-/

namespace Expr

/-- Expressions made by the builders. -/
inductive Built :
    Expr →
    Prop
  | literal
      (text : String) :
      Built (literal text)
  | range
      (low high : Char) :
      Built (range low high)
  | charClass
      (members : String) :
      Built (charClass members)
  | charsExcept
      (members : String) :
      Built (charsExcept members)
  | anyChar :
      Built anyChar
  | endOfInput :
      Built endOfInput
  | reference
      (target : String) :
      Built (.reference target)
  | sequence
      {parts : List Expr}
      (each : ∀ part ∈ parts, Built part) :
      Built (sequence parts)
  | choice
      {parts : List Expr}
      (each : ∀ part ∈ parts, Built part) :
      Built (choice parts)
  | followedBy
      {body : Expr}
      (built : Built body) :
      Built (followedBy body)
  | notFollowedBy
      {body : Expr}
      (built : Built body) :
      Built (notFollowedBy body)
  | oneOrMore
      {body : Expr}
      (built : Built body) :
      Built (oneOrMore body)
  | zeroOrMore
      {body : Expr}
      (built : Built body) :
      Built (zeroOrMore body)
  | optional
      {body : Expr}
      (built : Built body) :
      Built (optional body)
  | zeroOrMoreUntil
      {body stop : Expr}
      (built : Built body)
      (stopBuilt : Built stop) :
      Built (zeroOrMoreUntil body stop)
  | oneOrMoreUntil
      {body stop : Expr}
      (built : Built body)
      (stopBuilt : Built stop) :
      Built (oneOrMoreUntil body stop)
  | orElse
      {left right : Expr}
      (leftBuilt : Built left)
      (rightBuilt : Built right) :
      Built (orElse left right)

/-- An ASCII letter or digit each. -/
def Plain
    (text : List Char) :
    Prop :=
  ∀ character ∈ text, character.isAlphanum = true

end Expr

/-- The characters that a terminal is written with, delimiters apart. -/
def Terminal.spelling :
    Terminal →
    List Char
  | .literal text => text.toList
  | .range low high => [low, high]
  | .charClass members _ => members.toList
  | .anyChar => []
  | .endOfInput => []

namespace Expr

/-- All terminals and names are spelled with letters and digits; names are not empty. -/
inductive Alphanumeric :
    Expr →
    Prop
  | terminal
      {item : Terminal}
      (plain : Plain item.spelling) :
      Alphanumeric (.terminal item)
  | reference
      {target : String}
      (named : target ≠ "")
      (plain : Plain target.toList) :
      Alphanumeric (.reference target)
  | unary
      {operator : Operator}
      {body : Expr}
      (plain : Alphanumeric body) :
      Alphanumeric (.unary operator body)
  | group
      {grouping : Grouping}
      {parts : List Expr}
      (each : ∀ part ∈ parts, Alphanumeric part) :
      Alphanumeric (.group grouping parts)

/-- Nowhere is it written as a predicate that no character follows. -/
inductive Regular :
    Expr →
    Prop
  | terminal
      (item : Terminal) :
      Regular (.terminal item)
  | reference
      (target : String) :
      Regular (.reference target)
  | unary
      {operator : Operator}
      {body : Expr}
      (notEnd :
        operator = .notPredicate → body ≠ .terminal .anyChar)
      (regular : Regular body) :
      Regular (.unary operator body)
  | group
      {grouping : Grouping}
      {parts : List Expr}
      (each : ∀ part ∈ parts, Regular part) :
      Regular (.group grouping parts)

namespace Regular

/-- Regular parts are grouped regularly. -/
theorem grouped
    {parts : List Expr}
    (each : ∀ part ∈ parts, Regular part)
    (grouping : Grouping) :
    Regular (grouped grouping parts) := by
  unfold Expr.grouped
  split
  case h_1 part =>
    exact each part List.mem_cons_self
  case h_2 =>
    exact .group each

/-- That something does not follow is written regularly. -/
theorem notFollowedBy
    {body : Expr}
    (regular : Regular body) :
    Regular (notFollowedBy body) := by
  by_cases isAny : body = .terminal .anyChar
  · subst isAny
    exact .terminal .endOfInput
  · rw [notFollowedBy_of_ne isAny]
    exact .unary (fun _ => isAny) regular

/-- The alternatives of a regular expression are regular. -/
theorem alternatives
    {expression : Expr}
    (regular : Regular expression) :
    ∀ part ∈ expression.alternatives, Regular part := by
  unfold Expr.alternatives
  split
  case h_1 parts =>
    cases regular with
    | group each =>
      exact each
  case h_2 =>
    simpa using regular

/-- Repeating up to another expression is written regularly. -/
theorem repeatedUntil
    {body stop : Expr}
    (regular : Regular body)
    (stopRegular : Regular stop)
    {operator : Operator}
    (notNegated : operator ≠ .notPredicate) :
    Regular
      (sequence
        [.unary operator (sequence [stop.notFollowedBy, body]), stop]) := by
  have round : Regular (sequence [stop.notFollowedBy, body]) :=
    .grouped (by simpa using ⟨stopRegular.notFollowedBy, regular⟩) _
  have rounds :
      Regular
        (.unary operator (sequence [stop.notFollowedBy, body])) :=
    .unary (fun isNot => (notNegated isNot).elim) round
  exact .grouped (by simpa using ⟨rounds, stopRegular⟩) _

end Regular

/-- The builders make regular expressions. -/
theorem Built.regular
    {expression : Expr}
    (built : expression.Built) :
    expression.Regular := by
  induction built with
  | literal text | range low high | charClass members
    | charsExcept members | anyChar | endOfInput =>
      exact .terminal _
  | reference target =>
      exact .reference target
  | sequence each regular | choice each regular =>
      exact .grouped regular _
  | followedBy built regular | oneOrMore built regular
    | zeroOrMore built regular | optional built regular =>
      exact .unary (by simp) regular
  | notFollowedBy built regular =>
      exact regular.notFollowedBy
  | zeroOrMoreUntil built stopBuilt regular stopRegular
    | oneOrMoreUntil built stopBuilt regular stopRegular =>
      exact regular.repeatedUntil stopRegular (by simp)
  | orElse leftBuilt rightBuilt left right =>
      exact
        .group
          (List.forall_mem_append.mpr
            ⟨left.alternatives, right.alternatives⟩)

/-- Letters and digits are no marks. -/
theorem Plain.not_mem
    {text : List Char}
    (plain : Plain text)
    {mark : Char}
    (isMark : mark.isAlphanum = false) :
    mark ∉ text := by
  intro inside
  rw [plain mark inside] at isMark
  cases isMark

end Expr

/-- Terminals spelled with letters and digits are legible. -/
theorem Terminal.legible_of_plain
    {item : Terminal}
    (plain : Expr.Plain item.spelling) :
    item.Legible := by
  cases item with
  | literal text =>
      exact
        ⟨Escape.clear_of_not_mem (plain.not_mem (by decide)),
          plain.not_mem (by decide)⟩
  | charClass members negated =>
      refine
        ⟨Escape.clear_of_not_mem (plain.not_mem (by decide)),
          plain.not_mem (by decide), ?_⟩
      intro _ low high isRange
      have dash : '-' ∉ members.toList := plain.not_mem (by decide)
      simp [isRange] at dash
  | range low high | anyChar | endOfInput =>
      exact trivial

namespace Expr

/-- Names spelled with letters and digits are legible. -/
theorem legibleName_of_plain
    {name : String}
    (named : name ≠ "")
    (plain : Plain name.toList) :
    LegibleName name where
  ne_empty := by
    rwa [Ne, String.toList_eq_nil_iff]
  ne_anyChar := by
    intro isAny
    have noMark : '_' ∉ name.toList := plain.not_mem (by decide)
    simp [isAny] at noMark
  word := by
    intro character inside
    have noMark : punctuation.any Char.isAlphanum = false := by
      decide
    by_contra notWord
    have isMark : character ∈ punctuation := by
      simpa [isWord] using notWord
    have isPlain := plain character inside
    exact List.any_eq_false.mp noMark character isMark isPlain

/-- What the builders make of letters and digits is legible once it is accepted. -/
theorem Regular.legible
    {expression : Expr}
    (regular : expression.Regular)
    {known : List String}
    {name : String}
    (clean : expression.defects known name = [])
    (alphanumeric : expression.Alphanumeric) :
    expression.Legible := by
  induction regular generalizing name with
  | terminal item =>
      cases alphanumeric with
      | terminal plain =>
        exact .terminal (Terminal.legible_of_plain plain)
  | reference target =>
      cases alphanumeric with
      | reference named plain =>
        exact .reference (legibleName_of_plain named plain)
  | unary notEnd _ bodyLegible =>
      cases alphanumeric with
      | unary plain =>
        exact .unary notEnd (bodyLegible clean plain)
  | @group grouping parts _ partsLegible =>
      cases alphanumeric with
      | group eachPlain =>
        simp only [defects, List.append_eq_nil_iff] at clean
        obtain ⟨partsClean, twoParts⟩ := clean
        refine .group ?_ ?_
        · by_contra fewer
          rw [if_pos (Nat.lt_of_not_le fewer)] at twoParts
          cases twoParts
        · intro part isPart
          obtain ⟨before, after, rfl⟩ := List.append_of_mem isPart
          exact
            partsLegible part isPart (defects_part_eq_nil partsClean)
              (eachPlain part isPart)

/-- Legible expressions with the same text are the same. -/
theorem Legible.eq_of_source_eq
    {expression other : Expr}
    (legible : expression.Legible)
    (otherLegible : other.Legible)
    (same : expression.source = other.source) :
    expression = other := by
  have nothingBehind : Reader.BeginsIn behindWhole [] :=
    Reader.beginsIn_iff.mpr (.inl rfl)
  have read :=
    readWithin_source legible
      (Nat.le_add_right (sizeOf expression) (sizeOf other)) []
      nothingBehind
  have otherRead :=
    readWithin_source otherLegible
      (Nat.le_add_left (sizeOf other) (sizeOf expression)) []
      nothingBehind
  rw [same, otherRead] at read
  exact (Prod.mk.inj (Option.some.inj read)).1.symm

end Expr

namespace Grammar

/--
Two expressions made by the builders, each accepted as part of a grammar and
spelled with letters and digits, are the same if they have the same text.
-/
theorem source_unambiguous
    {grammar other : Grammar}
    {layout otherLayout : Layout}
    (laidOut : grammar.toLayout = .ok layout)
    (otherLaidOut : other.toLayout = .ok otherLayout)
    {id otherId : NodeId}
    {expression otherExpression : Expr}
    (read : layout.expr? id = some expression)
    (otherRead : otherLayout.expr? otherId = some otherExpression)
    (built : expression.Built)
    (otherBuilt : otherExpression.Built)
    (alphanumeric : expression.Alphanumeric)
    (otherAlphanumeric : otherExpression.Alphanumeric)
    (same : layout.source id = otherLayout.source otherId) :
    expression = otherExpression := by
  obtain ⟨clean, rfl⟩ := toLayout_eq_ok_iff.mp laidOut
  obtain ⟨otherClean, rfl⟩ := toLayout_eq_ok_iff.mp otherLaidOut
  obtain ⟨site, cursor, places, rfl⟩ := exists_places_of_expr? read
  obtain ⟨otherSite, otherCursor, otherPlaces, rfl⟩ :=
    exists_places_of_expr? otherRead
  apply
    (built.regular.legible (places.defects_eq_nil clean)
      alphanumeric).eq_of_source_eq
      (otherBuilt.regular.legible (otherPlaces.defects_eq_nil otherClean)
        otherAlphanumeric)
  simpa [Layout.source, places.node?, otherPlaces.node?, Site.node]
    using same

/-- Letters up to the end of the input. -/
def lettersUpToEnd : Expr :=
  .oneOrMoreUntil (.orElse (.literal "a") (.range 'x' 'z')) .endOfInput

/-- Letters up to the end of the input, written out. -/
def lettersWrittenOut : Expr :=
  .sequence
    [.oneOrMore
       (.sequence
          [.notFollowedBy .endOfInput,
            .choice [.literal "a", .range 'x' 'z']]),
      .endOfInput]

/-- A rule for these letters. -/
def upToEnd : Grammar :=
  { rules := [{ name := "S", body := lettersUpToEnd }] }

/-- A rule for which these letters are optional. -/
def perhapsUpToEnd : Grammar :=
  { rules := [{ name := "S", body := .optional lettersWrittenOut }] }

/-- The two rules show the same text, and it is that of one expression. -/
theorem source_unambiguous_letters :
    upToEnd.toLayout = .ok upToEnd.layOut ∧
      perhapsUpToEnd.toLayout = .ok perhapsUpToEnd.layOut ∧
      upToEnd.layOut.expr? 4 = some lettersUpToEnd ∧
      perhapsUpToEnd.layOut.expr? 5 = some lettersWrittenOut ∧
      upToEnd.layOut.source 4 = "(!(!_) (\"a\" / [x-z]))+ !_" ∧
      perhapsUpToEnd.layOut.source 5 = "(!(!_) (\"a\" / [x-z]))+ !_" ∧
      lettersUpToEnd = lettersWrittenOut := by
  have laidOut : upToEnd.toLayout = .ok upToEnd.layOut :=
    toLayout_eq_ok_iff.mpr ⟨by decide, rfl⟩
  have otherLaidOut :
      perhapsUpToEnd.toLayout = .ok perhapsUpToEnd.layOut :=
    toLayout_eq_ok_iff.mpr ⟨by decide, rfl⟩
  have read : upToEnd.layOut.expr? 4 = some lettersUpToEnd := by
    decide +kernel
  have otherRead :
      perhapsUpToEnd.layOut.expr? 5 = some lettersWrittenOut := by
    decide +kernel
  have shown :
      upToEnd.layOut.source 4 = "(!(!_) (\"a\" / [x-z]))+ !_" := by
    decide +kernel
  have otherShown :
      perhapsUpToEnd.layOut.source 5 =
        "(!(!_) (\"a\" / [x-z]))+ !_" := by
    decide +kernel
  have both
      {property : Expr → Prop}
      {first second : Expr}
      (ofFirst : property first)
      (ofSecond : property second) :
      ∀ part ∈ [first, second], property part :=
    List.forall_mem_cons.mpr
      ⟨ofFirst, List.forall_mem_singleton.mpr ofSecond⟩
  have built : lettersUpToEnd.Built :=
    .oneOrMoreUntil (.orElse (.literal "a") (.range 'x' 'z')) .endOfInput
  have otherBuilt : lettersWrittenOut.Built := by
    refine .sequence (both (.oneOrMore (.sequence (both ?_ ?_))) ?_)
    · exact .notFollowedBy .endOfInput
    · exact .choice (both (.literal "a") (.range 'x' 'z'))
    · exact .endOfInput
  have alphanumeric : lettersWrittenOut.Alphanumeric := by
    have ending : Expr.endOfInput.Alphanumeric :=
      .terminal (List.forall_mem_nil _)
    have letter : (Expr.literal "a").Alphanumeric :=
      .terminal (List.forall_mem_singleton.mpr (by decide))
    have letters : (Expr.range 'x' 'z').Alphanumeric :=
      .terminal
        (List.forall_mem_cons.mpr
          ⟨by decide, List.forall_mem_singleton.mpr (by decide)⟩)
    refine .group (both (.unary (.group (both ?_ ?_))) ending)
    · exact .unary ending
    · exact .group (both letter letters)
  exact
    ⟨laidOut, otherLaidOut, read, otherRead, shown, otherShown,
      source_unambiguous laidOut otherLaidOut read otherRead built
        otherBuilt alphanumeric alphanumeric
        (shown.trans otherShown.symm)⟩

end Grammar

end PegAudit
