import Mathlib.Data.List.Forall2
import PegAudit.Matching.Deterministic

namespace PegAudit

/-!
# Expressions that match alike

If two expressions have the same form, and so have their parts and the rules
they refer to, then each matches where the other does.  Elements that run in
turn may also be replaced one by one by others that match alike, and a sequence
among them by its parts.
-/

namespace Matching

/-- Shapes of one form with related parts. -/
inductive AlikeShapes
    (related : ι → ι → Prop) :
    Shape ι →
    Shape ι →
    Prop
  | terminal
      (item : Terminal) :
      AlikeShapes related (.terminal item) (.terminal item)
  | reference
      {target : String}
      {rule other : ι}
      (rules : related rule other) :
      AlikeShapes related (.reference target rule) (.reference target other)
  | unary
      {operator : Operator}
      {body other : ι}
      (bodies : related body other) :
      AlikeShapes related (.unary operator body) (.unary operator other)
  | group
      {grouping : Grouping}
      {parts others : List ι}
      (eachAlike : List.Forall₂ related parts others) :
      AlikeShapes related (.group grouping parts) (.group grouping others)

/-- Attempts of one kind at related expressions. -/
inductive AlikeAttempts
    (related : ι → ι → Prop) :
    Attempt ι →
    Attempt ι →
    Prop
  | node
      {id other : ι}
      (nodes : related id other) :
      AlikeAttempts related (.node id) (.node other)
  | anyOf
      {parts others : List ι}
      (eachAlike : List.Forall₂ related parts others) :
      AlikeAttempts related (.anyOf parts) (.anyOf others)
  | inTurn
      {parts others : List ι}
      (eachAlike : List.Forall₂ related parts others) :
      AlikeAttempts related (.inTurn parts) (.inTurn others)
  | rounds
      {body other : ι}
      (bodies : related body other) :
      AlikeAttempts related (.rounds body) (.rounds other)

/-- Both succeed and leave the same rest, or both fail. -/
inductive AlikeOutcomes :
    Outcome ι →
    Outcome ι →
    Prop
  | success
      {trees otherTrees : List (ParseTree ι)}
      {rest : List Char} :
      AlikeOutcomes (.success trees rest) (.success otherTrees rest)
  | failure :
      AlikeOutcomes .failure .failure

/-- Related expressions have alike shapes with related parts. -/
def Simulates
    (view : View ι)
    (related : ι → ι → Prop) :
    Prop :=
  ∀ {id other shape},
    related id other →
    view id = some shape →
    ∃ otherShape,
      view other = some otherShape ∧
        AlikeShapes related shape otherShape

namespace Simulates

variable
  {view : View ι}
  {related : ι → ι → Prop}
  (simulates : Simulates view related)
  {id other : ι}
  (nodes : related id other)

include simulates nodes

/-- A terminal is related to the same terminal. -/
theorem terminal
    {item : Terminal}
    (shape : view id = some (.terminal item)) :
    view other = some (.terminal item) := by
  obtain ⟨_, found, alike⟩ := simulates nodes shape
  cases alike
  exact found

/-- A reference is related to one of a related rule. -/
theorem reference
    {target : String}
    {rule : ι}
    (shape : view id = some (.reference target rule)) :
    ∃ otherRule,
      view other = some (.reference target otherRule) ∧
        AlikeAttempts related (.node rule) (.node otherRule) := by
  obtain ⟨_, found, alike⟩ := simulates nodes shape
  cases alike with
  | reference rules =>
      exact ⟨_, found, .node rules⟩

/-- An operator is related to the same operator on a related body. -/
theorem unary
    {operator : Operator}
    {body : ι}
    (shape : view id = some (.unary operator body)) :
    ∃ otherBody,
      view other = some (.unary operator otherBody) ∧
        related body otherBody := by
  obtain ⟨_, found, alike⟩ := simulates nodes shape
  cases alike with
  | unary bodies =>
      exact ⟨_, found, bodies⟩

/-- A group is related to one of as many related parts. -/
theorem group
    {grouping : Grouping}
    {parts : List ι}
    (shape : view id = some (.group grouping parts)) :
    ∃ others,
      view other = some (.group grouping others) ∧
        List.Forall₂ related parts others := by
  obtain ⟨_, found, alike⟩ := simulates nodes shape
  cases alike with
  | group eachAlike =>
      exact ⟨_, found, eachAlike⟩

end Simulates

/-- Alike attempts have alike outcomes. -/
theorem exists_alike_run
    {view : View ι}
    {related : ι → ι → Prop}
    (simulates : Simulates view related)
    {attempt other : Attempt ι}
    {input : List Char}
    {outcome : Outcome ι}
    (run : Runs view attempt input outcome)
    (alike : AlikeAttempts related attempt other) :
    ∃ otherOutcome,
      Runs view other input otherOutcome ∧
        AlikeOutcomes outcome otherOutcome := by
  induction run generalizing other with
  | terminal shape matched consumed =>
      cases alike with
      | node nodes =>
          exact
            ⟨_, .terminal (simulates.terminal nodes shape) matched consumed,
              .success⟩
  | terminalFails shape unmatched =>
      cases alike with
      | node nodes =>
          exact
            ⟨_, .terminalFails (simulates.terminal nodes shape) unmatched,
              .failure⟩
  | reference shape body bodyRuns =>
      cases alike with
      | node nodes =>
          obtain ⟨_, found, rules⟩ := simulates.reference nodes shape
          obtain ⟨_, bodyRun, ⟨⟩⟩ := bodyRuns rules
          exact ⟨_, .reference found bodyRun, .success⟩
  | referenceFails shape body bodyRuns =>
      cases alike with
      | node nodes =>
          obtain ⟨_, found, rules⟩ := simulates.reference nodes shape
          obtain ⟨_, bodyRun, ⟨⟩⟩ := bodyRuns rules
          exact ⟨_, .referenceFails found bodyRun, .failure⟩
  | andPredicate shape ahead bodyRuns =>
      cases alike with
      | node nodes =>
          obtain ⟨_, found, bodies⟩ := simulates.unary nodes shape
          obtain ⟨_, bodyRun, ⟨⟩⟩ := bodyRuns (.node bodies)
          exact ⟨_, .andPredicate found bodyRun, .success⟩
  | andPredicateFails shape ahead bodyRuns =>
      cases alike with
      | node nodes =>
          obtain ⟨_, found, bodies⟩ := simulates.unary nodes shape
          obtain ⟨_, bodyRun, ⟨⟩⟩ := bodyRuns (.node bodies)
          exact ⟨_, .andPredicateFails found bodyRun, .failure⟩
  | notPredicate shape ahead bodyRuns =>
      cases alike with
      | node nodes =>
          obtain ⟨_, found, bodies⟩ := simulates.unary nodes shape
          obtain ⟨_, bodyRun, ⟨⟩⟩ := bodyRuns (.node bodies)
          exact ⟨_, .notPredicate found bodyRun, .success⟩
  | notPredicateFails shape ahead bodyRuns =>
      cases alike with
      | node nodes =>
          obtain ⟨_, found, bodies⟩ := simulates.unary nodes shape
          obtain ⟨_, bodyRun, ⟨⟩⟩ := bodyRuns (.node bodies)
          exact ⟨_, .notPredicateFails found bodyRun, .failure⟩
  | oneOrMore shape once more bodyRuns roundsRun =>
      cases alike with
      | node nodes =>
          obtain ⟨_, found, bodies⟩ := simulates.unary nodes shape
          obtain ⟨_, bodyRun, ⟨⟩⟩ := bodyRuns (.node bodies)
          obtain ⟨_, laterRun, ⟨⟩⟩ := roundsRun (.rounds bodies)
          exact ⟨_, .oneOrMore found bodyRun laterRun, .success⟩
  | oneOrMoreFails shape once bodyRuns =>
      cases alike with
      | node nodes =>
          obtain ⟨_, found, bodies⟩ := simulates.unary nodes shape
          obtain ⟨_, bodyRun, ⟨⟩⟩ := bodyRuns (.node bodies)
          exact ⟨_, .oneOrMoreFails found bodyRun, .failure⟩
  | zeroOrMore shape more roundsRun =>
      cases alike with
      | node nodes =>
          obtain ⟨_, found, bodies⟩ := simulates.unary nodes shape
          obtain ⟨_, laterRun, ⟨⟩⟩ := roundsRun (.rounds bodies)
          exact ⟨_, .zeroOrMore found laterRun, .success⟩
  | optional shape once bodyRuns =>
      cases alike with
      | node nodes =>
          obtain ⟨_, found, bodies⟩ := simulates.unary nodes shape
          obtain ⟨_, bodyRun, ⟨⟩⟩ := bodyRuns (.node bodies)
          exact ⟨_, .optional found bodyRun, .success⟩
  | optionalSkips shape once bodyRuns =>
      cases alike with
      | node nodes =>
          obtain ⟨_, found, bodies⟩ := simulates.unary nodes shape
          obtain ⟨_, bodyRun, ⟨⟩⟩ := bodyRuns (.node bodies)
          exact ⟨_, .optionalSkips found bodyRun, .success⟩
  | choice shape chosen partsRun =>
      cases alike with
      | node nodes =>
          obtain ⟨_, found, parts⟩ := simulates.group nodes shape
          obtain ⟨_, otherRun, ⟨⟩⟩ := partsRun (.anyOf parts)
          exact ⟨_, .choice found otherRun, .success⟩
  | choiceFails shape rejected partsRun =>
      cases alike with
      | node nodes =>
          obtain ⟨_, found, parts⟩ := simulates.group nodes shape
          obtain ⟨_, otherRun, ⟨⟩⟩ := partsRun (.anyOf parts)
          exact ⟨_, .choiceFails found otherRun, .failure⟩
  | sequence shape all partsRun =>
      cases alike with
      | node nodes =>
          obtain ⟨_, found, parts⟩ := simulates.group nodes shape
          obtain ⟨_, otherRun, ⟨⟩⟩ := partsRun (.inTurn parts)
          exact ⟨_, .sequence found otherRun, .success⟩
  | sequenceFails shape stopped partsRun =>
      cases alike with
      | node nodes =>
          obtain ⟨_, found, parts⟩ := simulates.group nodes shape
          obtain ⟨_, otherRun, ⟨⟩⟩ := partsRun (.inTurn parts)
          exact ⟨_, .sequenceFails found otherRun, .failure⟩
  | remainingInput shape =>
      cases alike with
      | node nodes =>
          obtain ⟨_, _, ⟨⟩⟩ := simulates nodes shape
  | anyOfNone =>
      cases alike with
      | anyOf eachAlike =>
          cases eachAlike
          exact ⟨_, .anyOfNone, .failure⟩
  | anyOfFirst _ firstRuns =>
      cases alike with
      | anyOf eachAlike =>
          cases eachAlike with
          | cons first others =>
              obtain ⟨_, firstRun, ⟨⟩⟩ := firstRuns (.node first)
              exact ⟨_, .anyOfFirst firstRun, .success⟩
  | anyOfLater _ _ firstRuns laterRuns =>
      cases alike with
      | anyOf eachAlike =>
          cases eachAlike with
          | cons first others =>
              obtain ⟨_, firstRun, ⟨⟩⟩ := firstRuns (.node first)
              obtain ⟨_, laterRun, sameEnd⟩ := laterRuns (.anyOf others)
              exact ⟨_, .anyOfLater firstRun laterRun, sameEnd⟩
  | inTurnNone =>
      cases alike with
      | inTurn eachAlike =>
          cases eachAlike
          exact ⟨_, .inTurnNone, .success⟩
  | inTurnAll _ _ firstRuns laterRuns =>
      cases alike with
      | inTurn eachAlike =>
          cases eachAlike with
          | cons first others =>
              obtain ⟨_, firstRun, ⟨⟩⟩ := firstRuns (.node first)
              obtain ⟨_, laterRun, ⟨⟩⟩ := laterRuns (.inTurn others)
              exact ⟨_, .inTurnAll firstRun laterRun, .success⟩
  | inTurnFirstFails _ firstRuns =>
      cases alike with
      | inTurn eachAlike =>
          cases eachAlike with
          | cons first others =>
              obtain ⟨_, firstRun, ⟨⟩⟩ := firstRuns (.node first)
              exact ⟨_, .inTurnFirstFails firstRun, .failure⟩
  | inTurnLaterFails _ _ firstRuns laterRuns =>
      cases alike with
      | inTurn eachAlike =>
          cases eachAlike with
          | cons first others =>
              obtain ⟨_, firstRun, ⟨⟩⟩ := firstRuns (.node first)
              obtain ⟨_, laterRun, ⟨⟩⟩ := laterRuns (.inTurn others)
              exact ⟨_, .inTurnLaterFails firstRun laterRun, .failure⟩
  | roundsStop _ lastRuns =>
      cases alike with
      | rounds bodies =>
          obtain ⟨_, lastRun, ⟨⟩⟩ := lastRuns (.node bodies)
          exact ⟨_, .roundsStop lastRun, .success⟩
  | roundsMore _ _ onceRuns moreRuns =>
      cases alike with
      | rounds bodies =>
          obtain ⟨_, onceRun, ⟨⟩⟩ := onceRuns (.node bodies)
          obtain ⟨_, moreRun, ⟨⟩⟩ := moreRuns (.rounds bodies)
          exact ⟨_, .roundsMore onceRun moreRun, .success⟩

section InTurn

variable
  {view : View ι}
  {id other : ι}
  {elements others later : List ι}
  {input rest : List Char}

/-- The elements succeed one after the other. -/
def Passes
    (view : View ι)
    (elements : List ι)
    (input rest : List Char) :
    Prop :=
  ∃ trees, Runs view (.inTurn elements) input (.success trees rest)

/-- One of the elements fails where the ones before it end. -/
def Stops
    (view : View ι)
    (elements : List ι)
    (input : List Char) :
    Prop :=
  Runs view (.inTurn elements) input .failure

/-- No elements pass without consuming. -/
theorem passes_nil_iff :
    Passes view [] input rest ↔ rest = input := by
  constructor
  · rintro ⟨_, run⟩
    cases run
    rfl
  · rintro rfl
    exact ⟨_, .inTurnNone⟩

/-- Without elements nothing stops. -/
theorem not_stops_nil :
    ¬ Stops view [] input := by
  intro run
  cases run

/-- The first element succeeds, and the others do behind it. -/
theorem passes_cons_iff :
    Passes view (id :: elements) input rest ↔
      ∃ middle,
        Succeeds view id input middle ∧
          Passes view elements middle rest := by
  constructor
  · rintro ⟨_, run⟩
    cases run with
    | inTurnAll first later =>
        exact ⟨_, ⟨_, first⟩, _, later⟩
  · rintro ⟨middle, ⟨_, first⟩, _, later⟩
    exact ⟨_, .inTurnAll first later⟩

/-- The first element fails, or another one behind it. -/
theorem stops_cons_iff :
    Stops view (id :: elements) input ↔
      Fails view id input ∨
        ∃ middle,
          Succeeds view id input middle ∧
            Stops view elements middle := by
  constructor
  · intro run
    cases run with
    | inTurnFirstFails first =>
        exact .inl first
    | inTurnLaterFails first later =>
        exact .inr ⟨_, ⟨_, first⟩, later⟩
  · rintro (first | ⟨middle, ⟨_, first⟩, later⟩)
    · exact .inTurnFirstFails first
    · exact .inTurnLaterFails first later

/-- Elements pass if some of them do and the others do behind them. -/
theorem passes_append_iff :
    Passes view (elements ++ later) input rest ↔
      ∃ middle,
        Passes view elements input middle ∧
          Passes view later middle rest := by
  induction elements generalizing input with
  | nil =>
      simp [passes_nil_iff]
  | cons first elements inductionHypothesis =>
      simp only [List.cons_append, passes_cons_iff, inductionHypothesis]
      constructor
      · rintro ⟨middle, firstSucceeds, last, elementsPass, laterPass⟩
        exact ⟨last, ⟨middle, firstSucceeds, elementsPass⟩, laterPass⟩
      · rintro ⟨last, ⟨middle, firstSucceeds, elementsPass⟩, laterPass⟩
        exact ⟨middle, firstSucceeds, last, elementsPass, laterPass⟩

/-- Elements stop if some of them do or the others do behind them. -/
theorem stops_append_iff :
    Stops view (elements ++ later) input ↔
      Stops view elements input ∨
        ∃ middle,
          Passes view elements input middle ∧
            Stops view later middle := by
  induction elements generalizing input with
  | nil =>
      simp [passes_nil_iff, not_stops_nil]
  | cons first elements inductionHypothesis =>
      simp only [List.cons_append, stops_cons_iff, passes_cons_iff,
        inductionHypothesis]
      constructor
      · rintro
          (fails | ⟨middle, succeeds, stop | ⟨last, pass, stop⟩⟩)
        · exact .inl (.inl fails)
        · exact .inl (.inr ⟨middle, succeeds, stop⟩)
        · exact .inr ⟨last, ⟨middle, succeeds, pass⟩, stop⟩
      · rintro
          ((fails | ⟨middle, succeeds, stop⟩) |
            ⟨last, ⟨middle, succeeds, pass⟩, stop⟩)
        · exact .inl fails
        · exact .inr ⟨middle, succeeds, .inl stop⟩
        · exact .inr ⟨middle, succeeds, .inr ⟨last, pass, stop⟩⟩

/-- A sequence succeeds if its parts pass. -/
theorem succeeds_sequence_iff
    {parts : List ι}
    (shape : view id = some (.group .sequence parts)) :
    Succeeds view id input rest ↔ Passes view parts input rest := by
  constructor
  · rintro ⟨_, run⟩
    cases run with
    | sequence here all =>
        cases shape.symm.trans here
        exact ⟨_, all⟩
    | _ =>
        simp_all
  · rintro ⟨_, run⟩
    exact ⟨_, .sequence shape run⟩

/-- A sequence fails if its parts stop. -/
theorem fails_sequence_iff
    {parts : List ι}
    (shape : view id = some (.group .sequence parts)) :
    Fails view id input ↔ Stops view parts input := by
  constructor
  · intro run
    cases run with
    | sequenceFails here stopped =>
        cases shape.symm.trans here
        exact stopped
    | _ =>
        simp_all
  · exact .sequenceFails shape

/-- Two expressions succeed and fail on the same inputs, leaving the same rest. -/
structure MatchAlike
    (view : View ι)
    (id other : ι) :
    Prop where
  succeeds_iff :
    ∀ {input rest},
      Succeeds view id input rest ↔ Succeeds view other input rest
  fails_iff :
    ∀ {input}, Fails view id input ↔ Fails view other input

/-- Elements in turn pass and stop on the same inputs, leaving the same rest. -/
structure ContinueAlike
    (view : View ι)
    (elements others : List ι) :
    Prop where
  passes_iff :
    ∀ {input rest},
      Passes view elements input rest ↔ Passes view others input rest
  stops_iff :
    ∀ {input}, Stops view elements input ↔ Stops view others input

namespace ContinueAlike

/-- Elements continue as they do. -/
theorem refl
    (elements : List ι) :
    ContinueAlike view elements elements where
  passes_iff := Iff.rfl
  stops_iff := Iff.rfl

/-- What is continued alike can be swapped. -/
theorem symm
    (alike : ContinueAlike view elements others) :
    ContinueAlike view others elements where
  passes_iff := alike.passes_iff.symm
  stops_iff := alike.stops_iff.symm

/-- Continuing alike carries over. -/
theorem trans
    (first : ContinueAlike view elements others)
    (second : ContinueAlike view others later) :
    ContinueAlike view elements later where
  passes_iff := first.passes_iff.trans second.passes_iff
  stops_iff := first.stops_iff.trans second.stops_iff

/-- The first element may be replaced by one that matches alike. -/
theorem cons
    (first : MatchAlike view id other)
    (alike : ContinueAlike view elements others) :
    ContinueAlike view (id :: elements) (other :: others) where
  passes_iff := by
    simp only [passes_cons_iff, first.succeeds_iff, alike.passes_iff,
      implies_true]
  stops_iff := by
    simp only [stops_cons_iff, first.succeeds_iff, first.fails_iff,
      alike.stops_iff, implies_true]

/-- What is behind some elements may be replaced. -/
theorem append_left
    (elements : List ι)
    (alike : ContinueAlike view others later) :
    ContinueAlike view (elements ++ others) (elements ++ later) where
  passes_iff := by
    simp only [passes_append_iff, alike.passes_iff, implies_true]
  stops_iff := by
    simp only [stops_append_iff, alike.stops_iff, implies_true]

/-- Elements may be replaced one by one. -/
theorem of_forall₂
    (each : List.Forall₂ (MatchAlike view) elements others) :
    ContinueAlike view elements others := by
  induction each with
  | nil =>
      exact refl []
  | cons first _ inductionHypothesis =>
      exact inductionHypothesis.cons first

/-- A sequence may be replaced by its parts. -/
theorem sequence
    {parts : List ι}
    (shape : view id = some (.group .sequence parts))
    (elements : List ι) :
    ContinueAlike view (id :: elements) (parts ++ elements) where
  passes_iff := by
    simp only [passes_cons_iff, passes_append_iff,
      succeeds_sequence_iff shape, implies_true]
  stops_iff := by
    simp only [stops_cons_iff, stops_append_iff,
      succeeds_sequence_iff shape, fails_sequence_iff shape, implies_true]

end ContinueAlike

end InTurn

section AnyInput

variable
  {view : View ι}
  {id other body : ι}

/-- The expression succeeds on every input and takes all of it. -/
structure TakesAll
    (view : View ι)
    (id : ι) :
    Prop where
  succeeds_iff :
    ∀ {input rest}, Succeeds view id input rest ↔ rest = []
  not_fails :
    ∀ {input}, ¬ Fails view id input

/-- Expressions that take all there is match alike. -/
theorem TakesAll.matchAlike
    (first : TakesAll view id)
    (second : TakesAll view other) :
    MatchAlike view id other where
  succeeds_iff := first.succeeds_iff.trans second.succeeds_iff.symm
  fails_iff := iff_of_false first.not_fails second.not_fails

/-- The remaining input is all there is. -/
theorem takesAll_of_remainingInput
    (shape : view id = some .remainingInput) :
    TakesAll view id where
  succeeds_iff := by
    intro input rest
    constructor
    · rintro ⟨_, run⟩
      cases run with
      | remainingInput here =>
          rfl
      | _ =>
          simp_all
    · rintro rfl
      exact ⟨_, .remainingInput shape⟩
  not_fails := by
    intro input run
    cases run <;> simp_all

/-- Rounds of any character go on to the end. -/
theorem rounds_anyChar_iff
    (shape : view body = some (.terminal .anyChar))
    {input rest : List Char} :
    (∃ trees, Runs view (.rounds body) input (.success trees rest)) ↔
      rest = [] := by
  induction input with
  | nil =>
      have fails : Runs view (.node body) [] .failure :=
        .terminalFails shape rfl
      constructor
      · rintro ⟨_, run⟩
        cases run with
        | roundsStop last =>
            rfl
        | roundsMore once more =>
            cases once.outcome_unique fails
      · rintro rfl
        exact ⟨_, .roundsStop fails⟩
  | cons first input inductionHypothesis =>
      have succeeds :
          Runs view (.node body) (first :: input)
            (.success [.leaf body [first]] input) :=
        .terminal shape rfl rfl
      rw [← inductionHypothesis]
      constructor
      · rintro ⟨_, run⟩
        cases run with
        | roundsStop last =>
            cases last.outcome_unique succeeds
        | roundsMore once more =>
            cases once.outcome_unique succeeds
            exact ⟨_, more⟩
      · rintro ⟨_, more⟩
        exact ⟨_, .roundsMore succeeds more⟩

/-- Any number of characters is all there is. -/
theorem takesAll_of_anyChars
    (shape : view id = some (.unary .zeroOrMore body))
    (bodyShape : view body = some (.terminal .anyChar)) :
    TakesAll view id where
  succeeds_iff := by
    intro input rest
    rw [← rounds_anyChar_iff bodyShape]
    constructor
    · rintro ⟨_, run⟩
      cases run with
      | zeroOrMore here more =>
          cases shape.symm.trans here
          exact ⟨_, more⟩
      | _ =>
          simp_all
    · rintro ⟨_, more⟩
      exact ⟨_, .zeroOrMore shape more⟩
  not_fails := by
    intro input run
    cases run <;> simp_all

end AnyInput

/-- Expressions related in both directions match alike. -/
theorem matchAlike_of_simulates
    {view : View ι}
    {related : ι → ι → Prop}
    (simulates : Simulates view related)
    (swaps : ∀ {id other}, related id other → related other id)
    {id other : ι}
    (nodes : related id other) :
    MatchAlike view id other := by
  have succeeds
      {id other : ι}
      (nodes : related id other)
      {input rest : List Char}
      (succeeds : Succeeds view id input rest) :
      Succeeds view other input rest := by
    obtain ⟨_, run⟩ := succeeds
    obtain ⟨_, otherRun, ⟨⟩⟩ :=
      exists_alike_run simulates run (.node nodes)
    exact ⟨_, otherRun⟩
  have fails
      {id other : ι}
      (nodes : related id other)
      {input : List Char}
      (fails : Fails view id input) :
      Fails view other input := by
    obtain ⟨_, otherRun, ⟨⟩⟩ :=
      exists_alike_run simulates fails (.node nodes)
    exact otherRun
  exact
    { succeeds_iff := ⟨succeeds nodes, succeeds (swaps nodes)⟩
      fails_iff := ⟨fails nodes, fails (swaps nodes)⟩ }

end Matching

end PegAudit
