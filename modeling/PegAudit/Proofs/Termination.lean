import PegAudit.Proofs.Analysis.View
import PegAudit.Proofs.Attrs.Soundness
import PegAudit.Proofs.Relations.Calls

namespace PegAudit

/-!
# Matching ends

In a grammar without faults, and without an element that ends the input before
the end of its sequence, every match has an outcome.  What is matched next is
either called, and then has a lower rank, or starts later in the input.  The
induction is on the length of the input and, for inputs of one length, on the
rank.
-/

/-- Some derivation gives the attempt an outcome on the input. -/
def HasOutcome
    (view : View ι)
    (attempt : Attempt ι)
    (input : List Char) :
    Prop :=
  ∃ outcome, Runs view attempt input outcome

/-- A terminal that leaves a rest matched what stands before it. -/
theorem Terminal.remainder?_suffix
    {item : Terminal}
    {input rest : List Char}
    (matched : item.remainder? input = some rest) :
    ∃ text, input = text ++ rest := by
  cases item with
  | literal text =>
      exact ⟨text.toList, stripFront_eq_some_iff.mp matched⟩
  | endOfInput =>
      obtain ⟨rfl, rfl⟩ := remainder?_endOfInput matched
      exact ⟨[], rfl⟩
  | _ =>
      cases input with
      | nil =>
          cases matched
      | cons character others =>
          simp only [remainder?] at matched
          split at matched
          · cases matched
            exact ⟨[character], rfl⟩
          · cases matched

namespace HasOutcome

/-- A choice has an outcome if its alternatives do. -/
theorem anyOf
    {view : View ι}
    {alternatives : List ι}
    {input : List Char}
    (each : ∀ id ∈ alternatives, HasOutcome view (.node id) input) :
    HasOutcome view (.anyOf alternatives) input := by
  induction alternatives with
  | nil =>
      exact ⟨.failure, .anyOfNone⟩
  | cons id others inductionHypothesis =>
      obtain ⟨first, firstRun⟩ := each id List.mem_cons_self
      cases first with
      | success trees rest =>
          exact ⟨.success trees rest, .anyOfFirst firstRun⟩
      | failure =>
          obtain ⟨outcome, laterRun⟩ :=
            inductionHypothesis (List.forall_mem_cons.mp each).2
          exact ⟨outcome, .anyOfLater firstRun laterRun⟩

/-- Elements in turn have an outcome if each has one wherever the input goes on. -/
theorem inTurn
    {view : View ι}
    {elements : List ι}
    {input : List Char}
    (each :
      ∀ id ∈ elements,
        ∀ middle,
          middle.length ≤ input.length →
          HasOutcome view (.node id) middle) :
    HasOutcome view (.inTurn elements) input := by
  induction elements generalizing input with
  | nil =>
      exact ⟨.success [] input, .inTurnNone⟩
  | cons id others inductionHypothesis =>
      obtain ⟨first, firstRun⟩ :=
        each id List.mem_cons_self input (Nat.le_refl _)
      cases first with
      | failure =>
          exact ⟨.failure, .inTurnFirstFails firstRun⟩
      | success trees middle =>
          have shorter := firstRun.rest_suffix.length_le
          obtain ⟨later, laterRun⟩ :=
            inductionHypothesis fun other member last within =>
              each other (List.mem_cons_of_mem id member) last
                (Nat.le_trans within shorter)
          cases later with
          | failure =>
              exact ⟨.failure, .inTurnLaterFails firstRun laterRun⟩
          | success laterTrees rest =>
              exact ⟨.success _ rest, .inTurnAll firstRun laterRun⟩

/-- Rounds of a body that consumes succeed if the body has an outcome each time. -/
theorem rounds
    {view : View ι}
    {body : ι}
    (consumes :
      ∀ {input rest},
        Succeeds view body input rest →
        rest.length < input.length)
    {input : List Char}
    (here : HasOutcome view (.node body) input)
    (later :
      ∀ middle,
        middle.length < input.length →
        HasOutcome view (.node body) middle) :
    ∃ trees rest, Runs view (.rounds body) input (.success trees rest) := by
  induction length : input.length using Nat.strong_induction_on
    generalizing input with
  | _ bound inductionHypothesis =>
      subst bound
      obtain ⟨once, onceRun⟩ := here
      cases once with
      | failure =>
          exact ⟨[], input, .roundsStop onceRun⟩
      | success trees middle =>
          have shorter := consumes ⟨trees, onceRun⟩
          obtain ⟨laterTrees, rest, moreRun⟩ :=
            inductionHypothesis middle.length shorter
              (later middle shorter)
              (fun last within => later last (Nat.lt_trans within shorter))
              rfl
          exact ⟨_, rest, .roundsMore onceRun moreRun⟩

end HasOutcome

/-- What the checks of a layout guarantee when they find nothing. -/
structure Layout.Terminating (layout : Layout) : Prop where
  wellNumbered :
    layout.WellNumbered
  iteration_consumes :
    ∀ {id body operator},
      layout.shape? id = some (.unary operator body) →
      operator = .oneOrMore ∨ operator = .zeroOrMore →
      (layout.attrs.of body).nullable = false
  acyclic :
    ∀ id, ¬ Relation.TransGen layout.Calls id id
  ends_last :
    ∀ {id parts part},
      layout.shape? id = some (.group .sequence parts) →
      part ∈ parts.dropLast →
      (layout.attrs.of part).endsInput = false

namespace Layout

/-- A body that is not nullable consumes. -/
theorem WellNumbered.length_lt
    {layout : Layout}
    (wellNumbered : layout.WellNumbered)
    {id : NodeId}
    (notNullable : (layout.attrs.of id).nullable = false)
    {input rest : List Char}
    (succeeds : Succeeds layout.view id input rest) :
    rest.length < input.length := by
  obtain ⟨trees, run⟩ := succeeds
  apply run.length_lt
  intro same
  have nullable := (wellNumbered.permitted run).1 same
  exact Bool.false_ne_true (notNullable.symm.trans nullable)

/--
A sequence has an outcome if the elements that may be reached without consuming
have one here and all elements have one later in the input.
-/
theorem WellNumbered.inTurn_hasOutcome
    {layout : Layout}
    (wellNumbered : layout.WellNumbered)
    {elements : List NodeId}
    (endsLast :
      ∀ part ∈ elements.dropLast,
        (layout.attrs.of part).endsInput = false)
    {input : List Char}
    (here :
      ∀ part ∈ layout.attrs.reachable elements,
        HasOutcome layout.view (.node part) input)
    (later :
      ∀ part ∈ elements,
        ∀ middle,
          middle.length < input.length →
          HasOutcome layout.view (.node part) middle) :
    HasOutcome layout.view (.inTurn elements) input := by
  induction elements with
  | nil =>
      exact ⟨.success [] input, .inTurnNone⟩
  | cons id others inductionHypothesis =>
      obtain ⟨first, firstRun⟩ :=
        here id AttrTable.mem_reachable_cons_self
      cases first with
      | failure =>
          exact ⟨.failure, .inTurnFirstFails firstRun⟩
      | success trees middle =>
          have othersRun :
              HasOutcome layout.view (.inTurn others) middle := by
            by_cases moved : middle = input
            · -- Nothing was consumed, so the element is transparent or the last.
              subst middle
              have nullable :=
                (wellNumbered.permitted firstRun).1 rfl
              cases others with
              | nil =>
                  exact ⟨.success [] input, .inTurnNone⟩
              | cons next rest =>
                  have transparent :
                      (layout.attrs.of id).transparent = true := by
                    have open' := endsLast id List.mem_cons_self
                    simp only [Attempt.attrs] at nullable
                    simp [Attrs.transparent, nullable, open']
                  apply inductionHypothesis
                  · intro part member
                    exact endsLast part (List.mem_cons_of_mem id member)
                  · intro part reached
                    exact here part
                      (AttrTable.mem_reachable_cons_of_transparent
                        transparent reached)
                  · intro part member
                    exact later part (List.mem_cons_of_mem id member)
            · have shorter := firstRun.length_lt moved
              apply HasOutcome.inTurn
              intro part member last within
              exact later part (List.mem_cons_of_mem id member) last
                (Nat.lt_of_le_of_lt within shorter)
          obtain ⟨outcome, laterRun⟩ := othersRun
          cases outcome with
          | failure =>
              exact ⟨.failure, .inTurnLaterFails firstRun laterRun⟩
          | success laterTrees rest =>
              exact ⟨.success _ rest, .inTurnAll firstRun laterRun⟩

namespace Terminating

/--
A node has an outcome if the nodes it calls have one here and all expressions
have one later in the input.
-/
theorem node_hasOutcome
    {layout : Layout}
    (terminating : layout.Terminating)
    {id : NodeId}
    (counted : id < layout.exprCount)
    {input : List Char}
    (here :
      ∀ other,
        layout.Calls id other →
        HasOutcome layout.view (.node other) input)
    (later :
      ∀ other,
        other < layout.exprCount →
        ∀ middle,
          middle.length < input.length →
          HasOutcome layout.view (.node other) middle) :
    HasOutcome layout.view (.node id) input := by
  have wellNumbered := terminating.wellNumbered
  obtain ⟨shape, found⟩ := wellNumbered.exists_shape_iff.mpr counted
  have called
      (other : NodeId)
      (member : other ∈ shape.callees layout.attrs) :
      HasOutcome layout.view (.node other) input :=
    here other ⟨shape, found, member⟩
  have mentionedLater
      (other : NodeId)
      (member : other ∈ shape.mentioned) :
      ∀ middle,
        middle.length < input.length →
        HasOutcome layout.view (.node other) middle :=
    later other (wellNumbered.mentioned_lt found member)
  cases shape with
  | terminal item =>
      cases matched : item.remainder? input with
      | none =>
          exact ⟨.failure, .terminalFails found matched⟩
      | some rest =>
          obtain ⟨text, consumed⟩ := Terminal.remainder?_suffix matched
          exact ⟨.success _ rest, .terminal found matched consumed⟩
  | reference target rule =>
      obtain ⟨outcome, run⟩ := called rule List.mem_cons_self
      cases outcome with
      | success trees rest =>
          exact ⟨.success _ rest, .reference found run⟩
      | failure =>
          exact ⟨.failure, .referenceFails found run⟩
  | unary operator body =>
      have bodyHere := called body List.mem_cons_self
      have bodyLater := mentionedLater body List.mem_cons_self
      obtain ⟨outcome, run⟩ := bodyHere
      cases operator with
      | andPredicate =>
          cases outcome with
          | success trees rest =>
              exact ⟨.success _ input, .andPredicate found run⟩
          | failure =>
              exact ⟨.failure, .andPredicateFails found run⟩
      | notPredicate =>
          cases outcome with
          | success trees rest =>
              exact ⟨.failure, .notPredicateFails found run⟩
          | failure =>
              exact ⟨.success _ input, .notPredicate found run⟩
      | optional =>
          cases outcome with
          | success trees rest =>
              exact ⟨.success _ rest, .optional found run⟩
          | failure =>
              exact ⟨.success _ input, .optionalSkips found run⟩
      | oneOrMore =>
          have consumes :=
            terminating.iteration_consumes found (.inl rfl)
          cases outcome with
          | failure =>
              exact ⟨.failure, .oneOrMoreFails found run⟩
          | success trees middle =>
              have shorter :=
                wellNumbered.length_lt consumes ⟨trees, run⟩
              obtain ⟨laterTrees, rest, more⟩ :=
                HasOutcome.rounds (wellNumbered.length_lt consumes)
                  (bodyLater middle shorter)
                  fun last within =>
                    bodyLater last (Nat.lt_trans within shorter)
              exact ⟨.success _ rest, .oneOrMore found run more⟩
      | zeroOrMore =>
          have consumes :=
            terminating.iteration_consumes found (.inr rfl)
          obtain ⟨trees, rest, rounds⟩ :=
            HasOutcome.rounds (wellNumbered.length_lt consumes)
              ⟨outcome, run⟩ bodyLater
          exact ⟨.success _ rest, .zeroOrMore found rounds⟩
  | group grouping parts =>
      cases grouping with
      | choice =>
          obtain ⟨outcome, run⟩ := HasOutcome.anyOf called
          cases outcome with
          | success trees rest =>
              exact ⟨.success _ rest, .choice found run⟩
          | failure =>
              exact ⟨.failure, .choiceFails found run⟩
      | sequence =>
          obtain ⟨outcome, run⟩ :=
            wellNumbered.inTurn_hasOutcome
              (fun part => terminating.ends_last found) called
              mentionedLater
          cases outcome with
          | success trees rest =>
              exact ⟨.success _ rest, .sequence found run⟩
          | failure =>
              exact ⟨.failure, .sequenceFails found run⟩
  | remainingInput =>
      exact (wellNumbered.isWritten id found).elim

/-- Every expression has an outcome on every input. -/
theorem hasOutcome
    {layout : Layout}
    (terminating : layout.Terminating)
    {id : NodeId}
    (counted : id < layout.exprCount)
    (input : List Char) :
    HasOutcome layout.view (.node id) input := by
  have wellNumbered := terminating.wellNumbered
  obtain ⟨rank, falls⟩ :=
    wellNumbered.exists_rank terminating.acyclic
  induction length : input.length using Nat.strong_induction_on
    generalizing id input with
  | _ bound shorterHave =>
      subst bound
      induction height : rank id using Nat.strong_induction_on
        generalizing id with
      | _ top lowerHave =>
          subst top
          apply terminating.node_hasOutcome counted
          · intro other call
            exact lowerHave (rank other) (falls call)
              (wellNumbered.calls_lt call).2 rfl
          · intro other otherCounted middle shorter
            exact shorterHave middle.length shorter otherCounted middle rfl

end Terminating

/-- Erasing duplicates leaves nothing of nothing only. -/
theorem eq_nil_of_eraseDups
    [BEq α]
    [LawfulBEq α]
    {elements : List α}
    (nothing : elements.eraseDups = []) :
    elements = [] := by
  apply List.eq_nil_iff_forall_not_mem.mpr
  intro element member
  have kept := List.mem_eraseDups.mpr member
  rw [nothing] at kept
  cases kept

/-- An element that ends the input before the end of its sequence is noted. -/
theorem WellNumbered.endsInput_mem_notes
    {layout : Layout}
    (wellNumbered : layout.WellNumbered)
    {id part : NodeId}
    {parts : List NodeId}
    (found : layout.shape? id = some (.group .sequence parts))
    (early : part ∈ parts.dropLast)
    (ends : (layout.attrs.of part).endsInput = true) :
    Note.endsInput (layout.simple part) (layout.source id) ∈
      layout.notes layout.attrs := by
  have counted := wellNumbered.exists_shape_iff.mp ⟨_, found⟩
  have isNote :
      Note.endsInput (layout.simple part) (layout.source id) ∈
        layout.endingNotes layout.attrs id := by
    simp only [endingNotes, found]
    exact List.mem_map.mpr
      ⟨part, List.mem_filter.mpr ⟨early, ends⟩, rfl⟩
  have isCollected :
      Note.endsInput (layout.simple part) (layout.source id) ∈
        layout.ids.flatMap (layout.endingNotes layout.attrs) :=
    List.mem_flatMap.mpr ⟨id, List.mem_range.mpr counted, isNote⟩
  have isKept := List.mem_eraseDups.mpr isCollected
  simp [notes, isKept]

/-- A layout without faults and without early ends of the input is terminating. -/
theorem WellNumbered.terminating
    {layout : Layout}
    (wellNumbered : layout.WellNumbered)
    (noFaults :
      layout.faults layout.attrs (layout.relations layout.attrs) = [])
    (noEarlyEnds :
      ∀ element sequence,
        Note.endsInput element sequence ∉ layout.notes layout.attrs) :
    layout.Terminating := by
  have noFault := eq_nil_of_eraseDups noFaults
  simp only [List.append_eq_nil_iff, List.flatMap_eq_nil_iff] at noFault
  obtain ⟨noNullable, noRecursion⟩ := noFault
  refine
    { wellNumbered := wellNumbered
      iteration_consumes := ?_
      acyclic := ?_
      ends_last := ?_ }
  · intro id body operator found isIteration
    have nothing :=
      noNullable id (wellNumbered.mem_compoundIds found rfl)
    rcases isIteration with rfl | rfl <;>
      simpa [iterationFaults, found] using nothing
  · apply wellNumbered.calls_acyclic
    intro rule isRule cycle
    rw [← relates_calls wellNumbered] at cycle
    have onDiagonal :
        (layout.relations layout.attrs).callsClosure.contains rule rule =
          true :=
      IndexRelation.relates_closure_of_transGen
        (layout.uniform_relate _) cycle
    have nothing := noRecursion rule isRule
    rw [recursionFaults, if_pos onDiagonal] at nothing
    cases nothing
  · intro id parts part found early
    apply Bool.eq_false_of_not_eq_true
    intro ends
    exact noEarlyEnds _ _
      (wellNumbered.endsInput_mem_notes found early ends)

end Layout

namespace Grammar

/--
If the analysis finds no fault, and no element that ends the input before the
end of its sequence, then every expression succeeds or fails on every input.
-/
theorem exists_outcome_of_wellFormed
    {grammar : Grammar}
    {analysis : Analysis}
    (analyzed : grammar.analyze {} = .ok analysis)
    (wellFormed : analysis.wellFormed = true)
    (noEarlyEnds :
      ∀ element sequence,
        Note.endsInput element sequence ∉ analysis.notes)
    {id : NodeId}
    (isExpression : id ∈ analysis.layout.ids)
    (input : List Char) :
    (∃ rest, Succeeds analysis.layout.view id input rest) ∨
      Fails analysis.layout.view id input := by
  obtain ⟨clean, rfl⟩ := analyze_eq_ok_iff.mp analyzed
  have wellNumbered := wellNumbered_layOut clean
  have counted : id < grammar.layOut.exprCount := by
    simpa [Layout.ids] using isExpression
  have noFaults := Layout.faults_eq_nil_of_wellFormed wellFormed
  rw [Layout.analyze_eq_of_faults_eq_nil noFaults] at noEarlyEnds
  obtain ⟨outcome, run⟩ :=
    (wellNumbered.terminating noFaults noEarlyEnds).hasOutcome
      counted input
  cases outcome with
  | success trees rest =>
      left
      exact
        ⟨rest, trees,
          (Layout.runs_analyze_iff wellNumbered counted).mpr run⟩
  | failure =>
      right
      exact (Layout.runs_analyze_iff wellNumbered counted).mpr run

/-- The start rule of the letters has an outcome on digits. -/
theorem exists_outcome_letters :
    letters.analyze {} = .ok (letters.layOut.analyze {}) ∧
      (letters.layOut.analyze {}).wellFormed = true ∧
      ((∃ rest,
          Succeeds (letters.layOut.analyze {}).layout.view 3
            ['1', '2'] rest) ∨
        Fails (letters.layOut.analyze {}).layout.view 3 ['1', '2']) := by
  obtain ⟨analyzed, wellFormed⟩ := analyze_letters
  have noNotes : (letters.layOut.analyze {}).notes = [] := by
    decide +kernel
  refine ⟨analyzed, wellFormed, ?_⟩
  apply exists_outcome_of_wellFormed analyzed wellFormed
  · simp [noNotes]
  · decide +kernel

end Grammar

end PegAudit
