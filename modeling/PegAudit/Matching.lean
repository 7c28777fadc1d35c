import PegAudit.Layout

namespace PegAudit

/-!
# Matching inputs

This module says what expressions mean.  An expression is matched at the start
of an input, the rest of which is a position in a longer one, and either
succeeds, leaving a later rest, or fails.  Choice is ordered, iteration takes
as many rounds as succeed, and predicates consume nothing.

The meaning is given by finite derivations over a view, which unfolds one level
of an expression.  Layouts and grammars both have a view, so numbered nodes and
written expressions share one definition.  A match that would need an endless
derivation has no outcome.
-/

/-- The expressions that took part in a successful match. -/
inductive ParseTree (ι : Type) where
  | leaf (id : ι) (text : List Char)
  | branch (id : ι) (parts : List (ParseTree ι))
  deriving Repr, Inhabited

/-- One level of an expression, or nothing where there is no expression. -/
abbrev View (ι : Type) :=
  ι → Option (Shape ι)

/-- What is to be matched: an expression, or what an expression goes through. -/
inductive Attempt (ι : Type) where
  | node (id : ι)
  | anyOf (alternatives : List ι)
  | inTurn (elements : List ι)
  | rounds (body : ι)
  deriving Repr, DecidableEq

/-- How a match ends. -/
inductive Outcome (ι : Type) where
  | success (trees : List (ParseTree ι)) (rest : List Char)
  | failure
  deriving Repr, Inhabited

/-- An attempt at the start of an input ends in an outcome. -/
inductive Runs (view : View ι) :
    Attempt ι →
    List Char →
    Outcome ι →
    Prop
  /-- A terminal matches some characters. -/
  | terminal
      {id : ι}
      {item : Terminal}
      {text input rest : List Char}
      (shape : view id = some (.terminal item))
      (matched : item.remainder? input = some rest)
      (consumed : input = text ++ rest) :
      Runs view (.node id) input (.success [.leaf id text] rest)
  /-- A terminal finds no match. -/
  | terminalFails
      {id : ι}
      {item : Terminal}
      {input : List Char}
      (shape : view id = some (.terminal item))
      (unmatched : item.remainder? input = none) :
      Runs view (.node id) input .failure
  /-- A reference behaves as its rule. -/
  | reference
      {id rule : ι}
      {target : String}
      {input rest : List Char}
      {trees : List (ParseTree ι)}
      (shape : view id = some (.reference target rule))
      (body : Runs view (.node rule) input (.success trees rest)) :
      Runs view (.node id) input (.success [.branch id trees] rest)
  | referenceFails
      {id rule : ι}
      {target : String}
      {input : List Char}
      (shape : view id = some (.reference target rule))
      (body : Runs view (.node rule) input .failure) :
      Runs view (.node id) input .failure
  /-- `&body` succeeds where its body does and consumes nothing. -/
  | andPredicate
      {id body : ι}
      {input rest : List Char}
      {trees : List (ParseTree ι)}
      (shape : view id = some (.unary .andPredicate body))
      (ahead : Runs view (.node body) input (.success trees rest)) :
      Runs view (.node id) input (.success [.leaf id []] input)
  | andPredicateFails
      {id body : ι}
      {input : List Char}
      (shape : view id = some (.unary .andPredicate body))
      (ahead : Runs view (.node body) input .failure) :
      Runs view (.node id) input .failure
  /-- `!body` succeeds where its body fails and consumes nothing. -/
  | notPredicate
      {id body : ι}
      {input : List Char}
      (shape : view id = some (.unary .notPredicate body))
      (ahead : Runs view (.node body) input .failure) :
      Runs view (.node id) input (.success [.leaf id []] input)
  | notPredicateFails
      {id body : ι}
      {input rest : List Char}
      {trees : List (ParseTree ι)}
      (shape : view id = some (.unary .notPredicate body))
      (ahead : Runs view (.node body) input (.success trees rest)) :
      Runs view (.node id) input .failure
  /-- `body+` is one match of the body and then as many as succeed. -/
  | oneOrMore
      {id body : ι}
      {input middle rest : List Char}
      {trees laterTrees : List (ParseTree ι)}
      (shape : view id = some (.unary .oneOrMore body))
      (once : Runs view (.node body) input (.success trees middle))
      (more : Runs view (.rounds body) middle (.success laterTrees rest)) :
      Runs view (.node id) input
        (.success [.branch id (trees ++ laterTrees)] rest)
  | oneOrMoreFails
      {id body : ι}
      {input : List Char}
      (shape : view id = some (.unary .oneOrMore body))
      (once : Runs view (.node body) input .failure) :
      Runs view (.node id) input .failure
  /-- `body*` is as many matches of the body as succeed. -/
  | zeroOrMore
      {id body : ι}
      {input rest : List Char}
      {trees : List (ParseTree ι)}
      (shape : view id = some (.unary .zeroOrMore body))
      (more : Runs view (.rounds body) input (.success trees rest)) :
      Runs view (.node id) input (.success [.branch id trees] rest)
  /-- `body?` is one match of the body if there is one. -/
  | optional
      {id body : ι}
      {input rest : List Char}
      {trees : List (ParseTree ι)}
      (shape : view id = some (.unary .optional body))
      (once : Runs view (.node body) input (.success trees rest)) :
      Runs view (.node id) input (.success [.branch id trees] rest)
  | optionalSkips
      {id body : ι}
      {input : List Char}
      (shape : view id = some (.unary .optional body))
      (once : Runs view (.node body) input .failure) :
      Runs view (.node id) input (.success [.branch id []] input)
  | choice
      {id : ι}
      {parts : List ι}
      {input rest : List Char}
      {trees : List (ParseTree ι)}
      (shape : view id = some (.group .choice parts))
      (chosen : Runs view (.anyOf parts) input (.success trees rest)) :
      Runs view (.node id) input (.success [.branch id trees] rest)
  | choiceFails
      {id : ι}
      {parts : List ι}
      {input : List Char}
      (shape : view id = some (.group .choice parts))
      (rejected : Runs view (.anyOf parts) input .failure) :
      Runs view (.node id) input .failure
  | sequence
      {id : ι}
      {parts : List ι}
      {input rest : List Char}
      {trees : List (ParseTree ι)}
      (shape : view id = some (.group .sequence parts))
      (all : Runs view (.inTurn parts) input (.success trees rest)) :
      Runs view (.node id) input (.success [.branch id trees] rest)
  | sequenceFails
      {id : ι}
      {parts : List ι}
      {input : List Char}
      (shape : view id = some (.group .sequence parts))
      (stopped : Runs view (.inTurn parts) input .failure) :
      Runs view (.node id) input .failure
  /-- The remaining input is everything there is. -/
  | remainingInput
      {id : ι}
      {input : List Char}
      (shape : view id = some .remainingInput) :
      Runs view (.node id) input (.success [.leaf id input] [])
  /-- Without alternatives nothing can be chosen. -/
  | anyOfNone
      {input : List Char} :
      Runs view (.anyOf []) input .failure
  /-- The first alternative that succeeds is chosen. -/
  | anyOfFirst
      {id : ι}
      {others : List ι}
      {input rest : List Char}
      {trees : List (ParseTree ι)}
      (first : Runs view (.node id) input (.success trees rest)) :
      Runs view (.anyOf (id :: others)) input (.success trees rest)
  /-- Later alternatives are tried only where the first fails. -/
  | anyOfLater
      {id : ι}
      {others : List ι}
      {input : List Char}
      {outcome : Outcome ι}
      (first : Runs view (.node id) input .failure)
      (later : Runs view (.anyOf others) input outcome) :
      Runs view (.anyOf (id :: others)) input outcome
  /-- No elements match nothing. -/
  | inTurnNone
      {input : List Char} :
      Runs view (.inTurn []) input (.success [] input)
  /-- Each element is matched where the one before it ended. -/
  | inTurnAll
      {id : ι}
      {others : List ι}
      {input middle rest : List Char}
      {trees laterTrees : List (ParseTree ι)}
      (first : Runs view (.node id) input (.success trees middle))
      (later : Runs view (.inTurn others) middle (.success laterTrees rest)) :
      Runs view (.inTurn (id :: others)) input
        (.success (trees ++ laterTrees) rest)
  | inTurnFirstFails
      {id : ι}
      {others : List ι}
      {input : List Char}
      (first : Runs view (.node id) input .failure) :
      Runs view (.inTurn (id :: others)) input .failure
  | inTurnLaterFails
      {id : ι}
      {others : List ι}
      {input middle : List Char}
      {trees : List (ParseTree ι)}
      (first : Runs view (.node id) input (.success trees middle))
      (later : Runs view (.inTurn others) middle .failure) :
      Runs view (.inTurn (id :: others)) input .failure
  /-- Rounds stop where the body first fails. -/
  | roundsStop
      {body : ι}
      {input : List Char}
      (last : Runs view (.node body) input .failure) :
      Runs view (.rounds body) input (.success [] input)
  | roundsMore
      {body : ι}
      {input middle rest : List Char}
      {trees laterTrees : List (ParseTree ι)}
      (once : Runs view (.node body) input (.success trees middle))
      (more : Runs view (.rounds body) middle (.success laterTrees rest)) :
      Runs view (.rounds body) input (.success (trees ++ laterTrees) rest)

/-- The expression succeeds on the input and leaves the rest. -/
def Succeeds
    (view : View ι)
    (id : ι)
    (input rest : List Char) :
    Prop :=
  ∃ trees, Runs view (.node id) input (.success trees rest)

/-- The expression fails on the input. -/
def Fails
    (view : View ι)
    (id : ι)
    (input : List Char) :
    Prop :=
  Runs view (.node id) input .failure

/-- The view of a layout: the shapes of its nodes by number. -/
def Layout.view
    (layout : Layout) :
    View NodeId :=
  layout.shape?

/-- The view of a grammar: its expressions, with references to rule bodies. -/
def Grammar.view
    (grammar : Grammar) :
    View Expr
  | .terminal item =>
      some (.terminal item)
  | .reference target =>
      (grammar.body? target).map (.reference target)
  | .unary operator body =>
      some (.unary operator body)
  | .group grouping parts =>
      some (.group grouping parts)

end PegAudit
