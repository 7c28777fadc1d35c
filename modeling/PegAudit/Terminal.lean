import PegAudit.Escape

namespace PegAudit

/-!
# Terminals

A terminal looks at the characters of the input directly.  This module gives
the five kinds, their source text, and what each matches at the start of an
input.
-/

/-- An expression that is matched against characters. -/
inductive Terminal where
  | literal (text : String)
  | range (low high : Char)
  | charClass (members : String) (negated : Bool)
  | anyChar
  | endOfInput
  deriving Repr, DecidableEq, Inhabited

namespace Terminal

/-- The text of a terminal in a grammar. -/
def source :
    Terminal →
    String
  | .literal text =>
      "\"" ++ Escape.text text ++ "\""
  | .range low high =>
      "[" ++ Escape.text (String.singleton low) ++ "-" ++
        Escape.text (String.singleton high) ++ "]"
  | .charClass members negated =>
      (if negated then "^" else "") ++
        "[" ++ Escape.text members ++ "]"
  | .anyChar =>
      "_"
  | .endOfInput =>
      "!_"

/-- Does a terminal that reads one character accept this one? -/
def accepts :
    Terminal →
    Char →
    Bool
  | .range low high, character =>
      low ≤ character && character ≤ high
  | .charClass members negated, character =>
      members.toList.contains character != negated
  | .anyChar, _ =>
      true
  | _, _ =>
      false

/-- What remains of `input` after `expected`, if the input starts with it. -/
def stripFront :
    List Char →
    List Char →
    Option (List Char)
  | [], input =>
      some input
  | _ :: _, [] =>
      none
  | expected :: rest, character :: input =>
      if expected = character then
        stripFront rest input
      else
        none

/-- What remains of the input after a match of the terminal at its start. -/
def remainder? :
    Terminal →
    List Char →
    Option (List Char)
  | .literal text, input =>
      stripFront text.toList input
  | .endOfInput, [] =>
      some []
  | .endOfInput, _ :: _ =>
      none
  | _, [] =>
      none
  | terminal, character :: input =>
      if terminal.accepts character then
        some input
      else
        none

/-- Front stripping undoes appending. -/
theorem stripFront_append
    (expected input : List Char) :
    stripFront expected (expected ++ input) = some input := by
  induction expected with
  | nil =>
      rfl
  | cons first rest inductionHypothesis =>
      simpa [stripFront] using inductionHypothesis

/-- Front stripping succeeds exactly on the inputs that start as expected. -/
theorem stripFront_eq_some_iff
    {expected input rest : List Char} :
    stripFront expected input = some rest ↔
      input = expected ++ rest := by
  constructor
  · intro stripped
    induction expected generalizing input with
    | nil =>
        simpa [stripFront] using stripped
    | cons first later inductionHypothesis =>
        cases input with
        | nil =>
            simp [stripFront] at stripped
        | cons character remaining =>
            simp only [stripFront] at stripped
            split at stripped
            case isTrue same =>
              simp [same, inductionHypothesis stripped]
            case isFalse =>
              cases stripped
  · rintro rfl
    exact stripFront_append expected rest

end Terminal

end PegAudit
