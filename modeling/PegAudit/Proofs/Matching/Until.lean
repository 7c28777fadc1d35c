import PegAudit.Proofs.Analysis.ReadBack

namespace PegAudit

/-!
# Repeating until

`(!stop body)* stop` is a number of rounds of `body`, each begun where `stop`
fails, and then `stop`.  The loop by itself also ends where `body` fails, but
then `stop` fails there too and the whole does not succeed.  The form
`(!stop body)+ stop` wants at least one round.  A guard `!_` is written as the
end of the input, which is where `_` fails.
-/

namespace Matching

section Guard

variable
  {view : View ι}
  {guard stop other : ι}

/-- The guard stands, consuming nothing, where `stop` fails, and fails where it succeeds. -/
structure Forbids
    (view : View ι)
    (guard stop : ι) :
    Prop where
  succeeds_iff :
    ∀ {input rest},
      Succeeds view guard input rest ↔
        rest = input ∧ Fails view stop input
  fails_iff :
    ∀ {input},
      Fails view guard input ↔ ∃ rest, Succeeds view stop input rest

namespace Forbids

/-- A negative predicate forbids its body. -/
theorem notPredicate
    (shape : view guard = some (.unary .notPredicate stop)) :
    Forbids view guard stop where
  succeeds_iff := by
    intro input rest
    constructor
    · rintro ⟨_, run⟩
      cases run with
      | notPredicate here ahead =>
          cases shape.symm.trans here
          exact ⟨rfl, ahead⟩
      | _ =>
          simp_all
    · rintro ⟨rfl, ahead⟩
      exact ⟨_, .notPredicate shape ahead⟩
  fails_iff := by
    intro input
    constructor
    · intro run
      cases run with
      | notPredicateFails here ahead =>
          cases shape.symm.trans here
          exact ⟨_, _, ahead⟩
      | _ =>
          simp_all
    · rintro ⟨_, _, ahead⟩
      exact .notPredicateFails shape ahead

/-- The end of the input forbids any character. -/
theorem endOfInput
    (shape : view guard = some (.terminal .endOfInput))
    (stopShape : view stop = some (.terminal .anyChar)) :
    Forbids view guard stop := by
  have atEnd :
      Runs view (.node guard) [] (.success [.leaf guard []] []) :=
    .terminal shape rfl rfl
  have nothingLeft : Fails view stop [] :=
    .terminalFails stopShape rfl
  have before
      (first : Char)
      (input : List Char) :
      Fails view guard (first :: input) :=
    .terminalFails shape rfl
  have character
      (first : Char)
      (input : List Char) :
      Succeeds view stop (first :: input) input :=
    ⟨[.leaf stop [first]], .terminal stopShape rfl rfl⟩
  refine
    { succeeds_iff := ?_
      fails_iff := ?_ }
  · rintro (_ | ⟨first, input⟩) rest
    · constructor
      · rintro ⟨_, run⟩
        cases run.outcome_unique atEnd
        exact ⟨rfl, nothingLeft⟩
      · rintro ⟨rfl, _⟩
        exact ⟨_, atEnd⟩
    · constructor
      · intro succeeds
        exact (succeeds.not_fails (before first input)).elim
      · rintro ⟨_, fails⟩
        exact ((character first input).not_fails fails).elim
  · rintro (_ | ⟨first, input⟩)
    · constructor
      · intro fails
        exact (Succeeds.not_fails ⟨_, atEnd⟩ fails).elim
      · rintro ⟨_, succeeds⟩
        exact (succeeds.not_fails nothingLeft).elim
    · exact iff_of_true (before first input) ⟨_, character first input⟩

/-- What forbids an expression forbids all that match alike. -/
theorem congr
    (forbids : Forbids view guard stop)
    (alike : MatchAlike view stop other) :
    Forbids view guard other where
  succeeds_iff := by
    simp only [forbids.succeeds_iff, alike.fails_iff, implies_true]
  fails_iff := by
    simp only [forbids.fails_iff, alike.succeeds_iff, implies_true]

end Forbids

end Guard

section Rounds

variable
  {view : View ι}
  {id body : ι}
  {input rest : List Char}

/-- Rounds of an expression, up to where it first fails, leave the rest. -/
def Cycles
    (view : View ι)
    (body : ι)
    (input rest : List Char) :
    Prop :=
  ∃ trees, Runs view (.rounds body) input (.success trees rest)

/-- Rounds go back over the input from where they stop. -/
theorem Cycles.induction
    {motive : List Char → Prop}
    (cycles : Cycles view body input rest)
    (last : Fails view body rest → motive rest)
    (more :
      ∀ {input middle},
        Succeeds view body input middle →
        motive middle →
        motive input) :
    motive input := by
  obtain ⟨trees, run⟩ := cycles
  generalize isRounds : Attempt.rounds body = attempt at run
  generalize isSuccess : Outcome.success trees rest = outcome at run
  induction run generalizing trees with
  | roundsStop fails =>
      cases isRounds
      cases isSuccess
      exact last fails
  | roundsMore once _ _ inductionHypothesis =>
      cases isRounds
      cases isSuccess
      exact more ⟨_, once⟩ (inductionHypothesis _ rfl rfl)
  | _ =>
      cases isRounds

/-- An iteration `body*` succeeds with its rounds. -/
theorem succeeds_zeroOrMore_iff
    (shape : view id = some (.unary .zeroOrMore body)) :
    Succeeds view id input rest ↔ Cycles view body input rest := by
  constructor
  · rintro ⟨_, run⟩
    cases run with
    | zeroOrMore here more =>
        cases shape.symm.trans here
        exact ⟨_, more⟩
    | _ =>
        simp_all
  · rintro ⟨_, more⟩
    exact ⟨_, .zeroOrMore shape more⟩

/-- An iteration `body+` succeeds with one match of its body and the rounds behind it. -/
theorem succeeds_oneOrMore_iff
    (shape : view id = some (.unary .oneOrMore body)) :
    Succeeds view id input rest ↔
      ∃ middle,
        Succeeds view body input middle ∧
          Cycles view body middle rest := by
  constructor
  · rintro ⟨_, run⟩
    cases run with
    | oneOrMore here once more =>
        cases shape.symm.trans here
        exact ⟨_, ⟨_, once⟩, _, more⟩
    | _ =>
        simp_all
  · rintro ⟨_, ⟨_, once⟩, _, more⟩
    exact ⟨_, .oneOrMore shape once more⟩

end Rounds

section Until

variable
  {view : View ι}
  {id body stop turn guard : ι}
  {input rest : List Char}
  {count : Nat}

/--
There are positions from the input on, `count` rounds apart: at each but the last
`stop` fails and `body` leads to the next, and from the last `stop` leads to the
rest.
-/
def RepeatsUntil
    (view : View ι)
    (body stop : ι)
    (count : Nat)
    (input rest : List Char) :
    Prop :=
  ∃ position : Nat → List Char,
    position 0 = input ∧
      (∀ round < count,
        Fails view stop (position round) ∧
          Succeeds view body (position round) (position (round + 1))) ∧
      Succeeds view stop (position count) rest

/-- Without rounds `stop` succeeds at once. -/
theorem repeatsUntil_zero_iff :
    RepeatsUntil view body stop 0 input rest ↔
      Succeeds view stop input rest := by
  constructor
  · rintro ⟨position, rfl, _, stops⟩
    exact stops
  · intro stops
    exact ⟨fun _ => input, rfl, by simp, stops⟩

/-- The first round begins where `stop` fails, and the others follow behind it. -/
theorem repeatsUntil_succ_iff :
    RepeatsUntil view body stop (count + 1) input rest ↔
      Fails view stop input ∧
        ∃ middle,
          Succeeds view body input middle ∧
            RepeatsUntil view body stop count middle rest := by
  constructor
  · rintro ⟨position, rfl, rounds, stops⟩
    obtain ⟨notYet, once⟩ := rounds 0 (Nat.succ_pos count)
    refine ⟨notYet, position 1, once, fun round => position (round + 1), rfl, ?_, stops⟩
    intro round early
    exact rounds (round + 1) (Nat.succ_lt_succ early)
  · rintro ⟨notYet, middle, once, position, rfl, rounds, stops⟩
    refine
      ⟨fun round => round.casesOn input position, rfl, ?_, stops⟩
    rintro (_ | round) early
    · exact ⟨notYet, once⟩
    · exact rounds round (Nat.lt_of_succ_lt_succ early)

/-- Only what matches matters for repeating until. -/
theorem repeatsUntil_congr
    {otherBody otherStop : ι}
    (bodies : MatchAlike view body otherBody)
    (stops : MatchAlike view stop otherStop) :
    RepeatsUntil view body stop count input rest ↔
      RepeatsUntil view otherBody otherStop count input rest := by
  simp only [RepeatsUntil, bodies.succeeds_iff, stops.succeeds_iff,
    stops.fails_iff]

variable
  (turnShape : view turn = some (.group .sequence [guard, body]))
  (forbids : Forbids view guard stop)

include turnShape forbids

/-- One turn of the loop is a match of `body` where `stop` fails. -/
theorem succeeds_turn_iff :
    Succeeds view turn input rest ↔
      Fails view stop input ∧ Succeeds view body input rest := by
  rw [succeeds_sequence_iff turnShape, passes_cons_iff]
  simp only [passes_cons_iff, passes_nil_iff, forbids.succeeds_iff]
  constructor
  · rintro ⟨_, ⟨rfl, notYet⟩, _, once, rfl⟩
    exact ⟨notYet, once⟩
  · rintro ⟨notYet, once⟩
    exact ⟨input, ⟨rfl, notYet⟩, rest, once, rfl⟩

/-- The loop does not go on where `stop` succeeds. -/
theorem fails_turn
    (stops : Succeeds view stop input rest) :
    Fails view turn input :=
  (fails_sequence_iff turnShape).mpr
    (stops_cons_iff.mpr (.inl (forbids.fails_iff.mpr ⟨rest, stops⟩)))

/-- The loop and then `stop`: so many rounds until `stop`. -/
theorem cycles_then_stop_iff :
    (∃ middle,
        Cycles view turn input middle ∧ Succeeds view stop middle rest) ↔
      ∃ count, RepeatsUntil view body stop count input rest := by
  constructor
  · rintro ⟨middle, cycles, stops⟩
    apply cycles.induction
    case last =>
      intro _
      exact ⟨0, repeatsUntil_zero_iff.mpr stops⟩
    case more =>
      rintro input between turnOnce ⟨count, repeats⟩
      obtain ⟨notYet, once⟩ :=
        (succeeds_turn_iff turnShape forbids).mp turnOnce
      exact
        ⟨count + 1, repeatsUntil_succ_iff.mpr ⟨notYet, _, once, repeats⟩⟩
  · rintro ⟨count, repeats⟩
    induction count generalizing input with
    | zero =>
        have stops := repeatsUntil_zero_iff.mp repeats
        exact
          ⟨input, ⟨_, .roundsStop (fails_turn turnShape forbids stops)⟩,
            stops⟩
    | succ count inductionHypothesis =>
        obtain ⟨notYet, middle, once, later⟩ :=
          repeatsUntil_succ_iff.mp repeats
        obtain ⟨last, ⟨_, cycles⟩, stops⟩ := inductionHypothesis later
        obtain ⟨_, turnOnce⟩ :=
          (succeeds_turn_iff turnShape forbids).mpr ⟨notYet, once⟩
        exact ⟨last, ⟨_, .roundsMore turnOnce cycles⟩, stops⟩

end Until

section Written

variable
  {view : View ι}
  {reads : ι → Expr → Prop}
  {body stop : Expr}
  {id guard bodyId stopId : ι}
  {input rest : List Char}

/-- Two elements pass if the first succeeds and the second does behind it. -/
theorem passes_pair_iff
    {other : ι} :
    Passes view [id, other] input rest ↔
      ∃ middle,
        Succeeds view id input middle ∧ Succeeds view other middle rest := by
  simp only [passes_cons_iff, passes_nil_iff, exists_eq_right']

/--
What is read as a written expression has its form, its parts are read as the parts
of that expression, and whatever else is read as it matches alike.
-/
structure ReadsAs
    (view : View ι)
    (reads : ι → Expr → Prop) :
    Prop where
  terminal :
    ∀ {id item},
      reads id (.terminal item) →
      view id = some (.terminal item)
  unary :
    ∀ {id operator body},
      reads id (.unary operator body) →
      ∃ inner,
        view id = some (.unary operator inner) ∧ reads inner body
  group :
    ∀ {id grouping parts},
      reads id (.group grouping parts) →
      ∃ ids,
        view id = some (.group grouping ids) ∧
          List.Forall₂ reads ids parts
  alike :
    ∀ {id other expression},
      reads id expression →
      reads other expression →
      MatchAlike view id other

namespace ReadsAs

variable (readsAs : ReadsAs view reads)

include readsAs

/-- What is read as `!stop` forbids what is read as `stop`, also where it is written `!_`. -/
theorem forbids
    (guardRead : reads guard (.notFollowedBy stop))
    (stopRead : reads stopId stop) :
    Forbids view guard stopId := by
  unfold Expr.notFollowedBy at guardRead
  split at guardRead
  case h_1 =>
    exact
      .endOfInput (readsAs.terminal guardRead) (readsAs.terminal stopRead)
  case h_2 =>
    obtain ⟨inner, shape, innerRead⟩ := readsAs.unary guardRead
    exact (Forbids.notPredicate shape).congr
      (readsAs.alike innerRead stopRead)

/-- The loop of an until form, its turn, and the `stop` behind it. -/
theorem exists_loop
    {operator : Operator}
    (read :
      reads id
        (.sequence
          [.unary operator (.sequence [.notFollowedBy stop, body]), stop]))
    (bodyRead : reads bodyId body)
    (stopRead : reads stopId stop) :
    ∃ loop turn guard inner,
      (∀ {input rest},
        Succeeds view id input rest ↔
          ∃ middle,
            Succeeds view loop input middle ∧
              Succeeds view stopId middle rest) ∧
        view loop = some (.unary operator turn) ∧
        view turn = some (.group .sequence [guard, inner]) ∧
        Forbids view guard stopId ∧
        MatchAlike view inner bodyId := by
  obtain ⟨_, shape, each⟩ := readsAs.group read
  cases each with
  | @cons loop _ _ _ loopRead each =>
  cases each with
  | @cons final _ _ _ finalRead each =>
  cases each
  obtain ⟨turn, loopShape, turnRead⟩ := readsAs.unary loopRead
  obtain ⟨_, turnShape, each⟩ := readsAs.group turnRead
  cases each with
  | @cons guard _ _ _ guardRead each =>
  cases each with
  | @cons inner _ _ _ innerRead each =>
  cases each
  refine
    ⟨loop, turn, guard, inner, ?_, loopShape, turnShape,
      readsAs.forbids guardRead stopRead,
      readsAs.alike innerRead bodyRead⟩
  intro input rest
  rw [succeeds_sequence_iff shape, passes_pair_iff]
  simp only [(readsAs.alike finalRead stopRead).succeeds_iff]

/-- `(!stop body)* stop` repeats `body` any number of times until `stop`. -/
theorem succeeds_zeroOrMoreUntil_iff
    (read : reads id (.zeroOrMoreUntil body stop))
    (bodyRead : reads bodyId body)
    (stopRead : reads stopId stop) :
    Succeeds view id input rest ↔
      ∃ count, RepeatsUntil view bodyId stopId count input rest := by
  obtain
    ⟨loop, turn, guard, inner, succeeds, loopShape, turnShape, forbids,
      bodies⟩ :=
    readsAs.exists_loop read bodyRead stopRead
  have stops : MatchAlike view stopId stopId :=
    readsAs.alike stopRead stopRead
  rw [succeeds]
  simp only [succeeds_zeroOrMore_iff loopShape,
    cycles_then_stop_iff turnShape forbids, repeatsUntil_congr bodies stops]

/-- `(!stop body)+ stop` repeats `body` at least once until `stop`. -/
theorem succeeds_oneOrMoreUntil_iff
    (read : reads id (.oneOrMoreUntil body stop))
    (bodyRead : reads bodyId body)
    (stopRead : reads stopId stop) :
    Succeeds view id input rest ↔
      ∃ count,
        1 ≤ count ∧
          RepeatsUntil view bodyId stopId count input rest := by
  obtain
    ⟨loop, turn, guard, inner, succeeds, loopShape, turnShape, forbids,
      bodies⟩ :=
    readsAs.exists_loop read bodyRead stopRead
  have stops : MatchAlike view stopId stopId :=
    readsAs.alike stopRead stopRead
  rw [succeeds]
  simp only [succeeds_oneOrMore_iff loopShape]
  constructor
  · rintro ⟨middle, ⟨first, turnOnce, cycles⟩, stopsHere⟩
    obtain ⟨notYet, once⟩ :=
      (succeeds_turn_iff turnShape forbids).mp turnOnce
    obtain ⟨count, repeats⟩ :=
      (cycles_then_stop_iff turnShape forbids).mp
        ⟨middle, cycles, stopsHere⟩
    exact
      ⟨count + 1, Nat.succ_pos count,
        (repeatsUntil_congr bodies stops).mp
          (repeatsUntil_succ_iff.mpr ⟨notYet, first, once, repeats⟩)⟩
  · rintro ⟨_ | count, atLeastOne, repeats⟩
    · cases atLeastOne
    · obtain ⟨notYet, first, once, later⟩ :=
        repeatsUntil_succ_iff.mp
          ((repeatsUntil_congr bodies stops).mpr repeats)
      obtain ⟨middle, cycles, stopsHere⟩ :=
        (cycles_then_stop_iff turnShape forbids).mpr ⟨count, later⟩
      exact
        ⟨middle,
          ⟨first, (succeeds_turn_iff turnShape forbids).mpr ⟨notYet, once⟩,
            cycles⟩,
          stopsHere⟩

end ReadsAs

end Written

end Matching

namespace Grammar

/-- In a grammar's view an expression is read as itself. -/
theorem readsAs_view
    (grammar : Grammar) :
    Matching.ReadsAs grammar.view (· = ·) where
  terminal := by
    rintro _ _ rfl
    rfl
  unary := by
    rintro _ _ _ rfl
    exact ⟨_, rfl, rfl⟩
  group := by
    rintro _ _ parts rfl
    exact ⟨parts, rfl, List.forall₂_same.mpr fun _ _ => rfl⟩
  alike := by
    rintro _ _ _ rfl rfl
    exact ⟨Iff.rfl, Iff.rfl⟩

/-- In the layout of a grammar without defects a node is read back as its expression. -/
theorem readsAs_layOut
    {grammar : Grammar}
    (clean : grammar.defects = []) :
    Matching.ReadsAs grammar.layOut.view fun id expression =>
      grammar.layOut.expr? id = some expression where
  terminal := by
    intro id item read
    obtain ⟨_, _, places, rfl⟩ := exists_places_of_expr? read
    exact places.shape?
  unary := by
    intro id operator body read
    obtain ⟨_, _, places, rfl⟩ := exists_places_of_expr? read
    exact ⟨_, places.shape?, places.body.expr?_eq⟩
  group := by
    intro id grouping parts read
    obtain ⟨_, _, places, rfl⟩ := exists_places_of_expr? read
    exact
      ⟨_, places.shape?,
        places.forall₂_topIds fun partPlaces => partPlaces.expr?_eq⟩
  alike := by
    intro id other expression read otherRead
    exact SameExpr.matchAlike clean ⟨expression, read, otherRead⟩

/--
The until forms mean what they say: from a position to another there are rounds of
`body`, each begun where `stop` fails, and then `stop`; in the second form there is
at least one round.  This holds of written expressions, whatever grammar their
references are looked up in, and of the nodes of a layout.
-/
theorem succeeds_until_iff
    (grammar : Grammar)
    (body stop : Expr) :
    (∀ input rest : List Char,
        (Succeeds grammar.view (.zeroOrMoreUntil body stop) input rest ↔
          ∃ count,
            Matching.RepeatsUntil grammar.view body stop count input
              rest) ∧
        (Succeeds grammar.view (.oneOrMoreUntil body stop) input rest ↔
          ∃ count,
            1 ≤ count ∧
              Matching.RepeatsUntil grammar.view body stop count input
                rest)) ∧
      ∀ {layout : Layout}
        {bodyId stopId : NodeId},
        grammar.toLayout = .ok layout →
        layout.expr? bodyId = some body →
        layout.expr? stopId = some stop →
        ∀ (id : NodeId)
          (input rest : List Char),
          (layout.expr? id = some (.zeroOrMoreUntil body stop) →
            (Succeeds layout.view id input rest ↔
              ∃ count,
                Matching.RepeatsUntil layout.view bodyId stopId count
                  input rest)) ∧
          (layout.expr? id = some (.oneOrMoreUntil body stop) →
            (Succeeds layout.view id input rest ↔
              ∃ count,
                1 ≤ count ∧
                  Matching.RepeatsUntil layout.view bodyId stopId count
                    input rest)) := by
  refine ⟨fun input rest => ⟨?_, ?_⟩, ?_⟩
  · exact grammar.readsAs_view.succeeds_zeroOrMoreUntil_iff rfl rfl rfl
  · exact grammar.readsAs_view.succeeds_oneOrMoreUntil_iff rfl rfl rfl
  · intro layout bodyId stopId laidOut bodyRead stopRead id input rest
    obtain ⟨clean, rfl⟩ := toLayout_eq_ok_iff.mp laidOut
    have readsAs := readsAs_layOut clean
    exact
      ⟨fun read =>
          readsAs.succeeds_zeroOrMoreUntil_iff read bodyRead stopRead,
        fun read =>
          readsAs.succeeds_oneOrMoreUntil_iff read bodyRead stopRead⟩

/-- A line up to a semicolon, and then digits until any character. -/
def untilForms : Grammar :=
  { rules :=
      [{ name := "line"
         body :=
           .sequence
             [.oneOrMoreUntil .anyChar (.literal ";"),
              .zeroOrMoreUntil (.range '0' '9') .anyChar] }] }

/--
Two characters are taken before the semicolon; digits until any character are one
character.
-/
theorem succeeds_until_iff_untilForms :
    untilForms.toLayout = .ok untilForms.layOut ∧
      untilForms.layOut.expr? 1 = some .anyChar ∧
      untilForms.layOut.expr? 2 = some (.literal ";") ∧
      untilForms.layOut.expr? 4 = some (.range '0' '9') ∧
      untilForms.layOut.expr? 7 =
        some (.oneOrMoreUntil .anyChar (.literal ";")) ∧
      untilForms.layOut.expr? 11 =
        some (.zeroOrMoreUntil (.range '0' '9') .anyChar) ∧
      Succeeds untilForms.layOut.view 7 ['a', 'b', ';', '1'] ['1'] ∧
      Succeeds untilForms.layOut.view 11 ['1'] [] := by
  have laidOut : untilForms.toLayout = .ok untilForms.layOut :=
    toLayout_eq_ok_iff.mpr ⟨by decide, rfl⟩
  have anyRead : untilForms.layOut.expr? 1 = some .anyChar := by
    decide
  have semicolonRead :
      untilForms.layOut.expr? 2 = some (.literal ";") := by
    decide
  have digitRead :
      untilForms.layOut.expr? 4 = some (.range '0' '9') := by
    decide
  have lineRead :
      untilForms.layOut.expr? 7 =
        some (.oneOrMoreUntil .anyChar (.literal ";")) := by
    decide
  have digitsRead :
      untilForms.layOut.expr? 11 =
        some (.zeroOrMoreUntil (.range '0' '9') .anyChar) := by
    decide
  have isAny :
      untilForms.layOut.view 1 = some (.terminal .anyChar) := by
    decide
  have isSemicolon :
      untilForms.layOut.view 2 = some (.terminal (.literal ";")) := by
    decide
  refine
    ⟨laidOut, anyRead, semicolonRead, digitRead, lineRead, digitsRead,
      ?_, ?_⟩
  · refine
      (((untilForms.succeeds_until_iff _ _).2 laidOut anyRead semicolonRead
        7 _ _).2 lineRead).mpr ⟨2, by decide, ?_⟩
    refine
      ⟨fun round => ['a', 'b', ';', '1'].drop round, rfl, ?_,
        [.leaf 2 [';']], .terminal isSemicolon rfl rfl⟩
    rintro (_ | _ | _) early
    · exact
        ⟨.terminalFails isSemicolon rfl,
          [.leaf 1 ['a']], .terminal isAny rfl rfl⟩
    · exact
        ⟨.terminalFails isSemicolon rfl,
          [.leaf 1 ['b']], .terminal isAny rfl rfl⟩
    · lia
  · refine
      (((untilForms.succeeds_until_iff _ _).2 laidOut digitRead anyRead
        11 _ _).1 digitsRead).mpr ⟨0, ?_⟩
    exact
      Matching.repeatsUntil_zero_iff.mpr
        ⟨[.leaf 1 ['1']], .terminal isAny rfl rfl⟩

end Grammar

end PegAudit
