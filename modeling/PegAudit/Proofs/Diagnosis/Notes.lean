import PegAudit.Proofs.Analysis.Describes
import PegAudit.Proofs.Analysis.View
import PegAudit.Proofs.Attrs.Soundness
import PegAudit.Proofs.Diagnosis.Occasions

namespace PegAudit

/-!
# Notes are true

A note advises to delete something from a grammar.  Following it changes no
match: a hidden alternative is never tried, an option whose body never fails is
its body, an expression that always fails never succeeds, and nothing is left
to match behind an element that ends the input.  All this rests on the
soundness of the attributes.
-/

/-- The expression fails on no input. -/
def NeverFails
    (view : View ι)
    (id : ι) :
    Prop :=
  ∀ input, ¬ Fails view id input

/-- The expression succeeds on no input. -/
def NeverSucceeds
    (view : View ι)
    (id : ι) :
    Prop :=
  ∀ input rest, ¬ Succeeds view id input rest

/-- The outcome for an expression whose only part ended so. -/
def Outcome.under
    (id : ι) :
    Outcome ι →
    Outcome ι
  | .success trees rest => .success [.branch id trees] rest
  | .failure => .failure

section Matching

variable
  {view : View ι}
  {id : ι}
  {input : List Char}
  {outcome : Outcome ι}

/-- The first alternative decides, or the others do if it fails. -/
theorem runs_anyOf_cons_iff
    {first : ι}
    {others : List ι} :
    Runs view (.anyOf (first :: others)) input outcome ↔
      (∃ trees rest,
        outcome = .success trees rest ∧
          Runs view (.node first) input outcome) ∨
        Fails view first input ∧
          Runs view (.anyOf others) input outcome := by
  constructor
  · intro run
    cases run with
    | anyOfFirst succeeds =>
        exact .inl ⟨_, _, rfl, succeeds⟩
    | anyOfLater fails later =>
        exact .inr ⟨fails, later⟩
  · rintro (⟨trees, rest, rfl, succeeds⟩ | ⟨fails, later⟩)
    · exact .anyOfFirst succeeds
    · exact .anyOfLater fails later

/-- Behind an alternative that never fails nothing is tried. -/
theorem runs_anyOf_iff_of_neverFails
    {earlier later : List ι}
    {part : ι}
    (neverFails : NeverFails view part) :
    Runs view (.anyOf (earlier ++ part :: later)) input outcome ↔
      Runs view (.anyOf (earlier ++ [part])) input outcome := by
  induction earlier with
  | nil =>
      simp [runs_anyOf_cons_iff, neverFails input]
  | cons first others inductionHypothesis =>
      simp only [List.cons_append, runs_anyOf_cons_iff,
        inductionHypothesis]

/-- A choice ends as its alternatives do. -/
theorem runs_choice_iff
    {parts : List ι}
    (shape : view id = some (.group .choice parts)) :
    Runs view (.node id) input outcome ↔
      ∃ inner,
        Runs view (.anyOf parts) input inner ∧ outcome = inner.under id := by
  constructor
  · intro run
    cases run with
    | choice here chosen =>
        cases shape.symm.trans here
        exact ⟨_, chosen, rfl⟩
    | choiceFails here rejected =>
        cases shape.symm.trans here
        exact ⟨_, rejected, rfl⟩
    | _ =>
        simp_all
  · rintro ⟨inner, run, rfl⟩
    cases inner with
    | success trees rest =>
        exact .choice shape run
    | failure =>
        exact .choiceFails shape run

/-- An option ends as its body does if the body never fails. -/
theorem runs_option_iff_of_neverFails
    {body : ι}
    (shape : view id = some (.unary .optional body))
    (neverFails : NeverFails view body) :
    Runs view (.node id) input outcome ↔
      ∃ inner,
        Runs view (.node body) input inner ∧ outcome = inner.under id := by
  constructor
  · intro run
    cases run with
    | optional here once =>
        cases shape.symm.trans here
        exact ⟨_, once, rfl⟩
    | optionalSkips here once =>
        cases shape.symm.trans here
        exact (neverFails _ once).elim
    | _ =>
        simp_all
  · rintro ⟨inner, run, rfl⟩
    cases inner with
    | success trees rest =>
        exact .optional shape run
    | failure =>
        exact (neverFails _ run).elim

end Matching

namespace Layout

/-- Expressions are the same nodes in an analysis and in its layout. -/
theorem WellNumbered.node?_analyze
    {layout : Layout}
    (wellNumbered : layout.WellNumbered)
    (options : Options)
    {id : NodeId}
    (counted : id < layout.exprCount) :
    (layout.analyze options).layout.node? id = layout.node? id := by
  rcases layout.layout_analyze options with same | extended
  · rw [same]
  · rw [extended, node?_withRemainder_of_lt]
    rwa [wellNumbered.size_nodes]

end Layout

namespace Analysis

variable
  (analysis : Analysis)

/--
What the notes of an analysis are worth.  Every place that calls for a note has
it, and what the note says of that place is true of every match.
-/
structure NotesHold :
    Prop where
  mem_iff :
    ∀ note,
      note ∈ analysis.notes ↔
        ∃ id position,
          analysis.layout.Warrants analysis.chart.attrs note id position
  nodup : analysis.notes.Nodup
  ordered :
    analysis.notes.Pairwise
      (analysis.layout.NotedBefore analysis.chart.attrs)
  /-- The choice is the one cut off behind the alternative. -/
  hides :
    ∀ {id earlier part later},
      analysis.layout.HidesAt analysis.chart.attrs id earlier part later →
      NeverFails analysis.layout.view part ∧
        ∀ input outcome,
          Runs analysis.layout.view (.node id) input outcome ↔
            ∃ inner,
              Runs analysis.layout.view (.anyOf (earlier ++ [part])) input
                inner ∧
                outcome = inner.under id
  /-- Behind the element nothing is left of the input. -/
  ends :
    ∀ {id earlier part later},
      analysis.layout.EndsAt analysis.chart.attrs id earlier part later →
      EndsInput analysis.layout.view part
  fails :
    ∀ {id},
      analysis.layout.FailsAt analysis.chart.attrs id →
      NeverSucceeds analysis.layout.view id
  /-- The option is its body. -/
  redundant :
    ∀ {id body},
      analysis.layout.RedundantAt analysis.chart.attrs id body →
      NeverFails analysis.layout.view body ∧
        ∀ input outcome,
          Runs analysis.layout.view (.node id) input outcome ↔
            ∃ inner,
              Runs analysis.layout.view (.node body) input inner ∧
                outcome = inner.under id

end Analysis

namespace Layout

section Truth

variable
  {layout : Layout}
  {options : Options}

/-- The attributes of expressions are the computed ones. -/
theorem WellNumbered.attrs_analyze
    (wellNumbered : layout.WellNumbered)
    (wellFormed : (layout.analyze options).wellFormed = true)
    {id : NodeId}
    (counted : id < layout.exprCount) :
    (layout.analyze options).chart.attrs.of id = layout.attrs.of id := by
  have noFaults := faults_eq_nil_of_wellFormed wellFormed
  rw [analyze_eq_of_faults_eq_nil noFaults]
  exact (wellNumbered.describes_openChart options).attrsOf_eq counted

/-- The notes of an analysis are those of its layout. -/
theorem WellNumbered.notes_analyze
    (wellNumbered : layout.WellNumbered)
    (wellFormed : (layout.analyze options).wellFormed = true)
    (styleNotes : options.styleNotes = true) :
    (layout.analyze options).notes =
      (layout.analyze options).layout.notes
        (layout.analyze options).chart.attrs := by
  have noFaults := faults_eq_nil_of_wellFormed wellFormed
  calc
    (layout.analyze options).notes =
        layout.notes layout.attrs := by
      rw [analyze_eq_of_faults_eq_nil noFaults]
      exact if_pos styleNotes
    _ = (layout.analyze options).layout.notes
          (layout.analyze options).chart.attrs := by
      refine (wellNumbered.notes_congr exprCount_analyze ?_ ?_).symm
      · exact wellNumbered.node?_analyze options
      · exact wellNumbered.attrs_analyze wellFormed

/-- Expressions that cannot fail by their attributes never fail. -/
theorem WellNumbered.neverFails
    (wellNumbered : layout.WellNumbered)
    (wellFormed : (layout.analyze options).wellFormed = true)
    {id : NodeId}
    (counted : id < layout.exprCount)
    (flagged :
      ((layout.analyze options).chart.attrs.of id).canFail = false) :
    NeverFails (layout.analyze options).layout.view id := by
  intro input fails
  have run := (runs_analyze_iff wellNumbered counted).mp fails
  rw [wellNumbered.attrs_analyze wellFormed counted] at flagged
  exact Bool.false_ne_true
    (flagged.symm.trans (wellNumbered.permitted run))

/-- Expressions that always fail by their attributes never succeed. -/
theorem WellNumbered.neverSucceeds
    (wellNumbered : layout.WellNumbered)
    (wellFormed : (layout.analyze options).wellFormed = true)
    {id : NodeId}
    (counted : id < layout.exprCount)
    (flagged :
      ((layout.analyze options).chart.attrs.of id).alwaysFails = true) :
    NeverSucceeds (layout.analyze options).layout.view id := by
  rintro input rest ⟨trees, succeeds⟩
  have run := (runs_analyze_iff wellNumbered counted).mp succeeds
  have permitted := wellNumbered.permitted run
  rw [wellNumbered.attrs_analyze wellFormed counted] at flagged
  simp only [Attrs.alwaysFails, Bool.and_eq_true, Bool.not_eq_true']
    at flagged
  by_cases same : rest = input
  · exact Bool.false_ne_true (flagged.1.symm.trans (permitted.1 same))
  · exact Bool.false_ne_true (flagged.2.symm.trans (permitted.2 same))

/-- Expressions flagged for it succeed only where the input ends. -/
theorem WellNumbered.endsInput
    (wellNumbered : layout.WellNumbered)
    (wellFormed : (layout.analyze options).wellFormed = true)
    {id : NodeId}
    (counted : id < layout.exprCount)
    (flagged :
      ((layout.analyze options).chart.attrs.of id).endsInput = true) :
    EndsInput (layout.analyze options).layout.view id := by
  rintro input rest ⟨trees, succeeds⟩
  have run := (runs_analyze_iff wellNumbered counted).mp succeeds
  rw [wellNumbered.attrs_analyze wellFormed counted] at flagged
  exact layout.endsSoundly_attrs id flagged ⟨trees, run⟩

/-- The parts of an analyzed expression are expressions of the layout. -/
theorem WellNumbered.part_lt
    (wellNumbered : layout.WellNumbered)
    {id part : NodeId}
    (counted : id ∈ (layout.analyze options).layout.ids)
    {shape : Shape NodeId}
    (found : (layout.analyze options).layout.shape? id = some shape)
    (mentioned : part ∈ shape.mentioned) :
    part < layout.exprCount := by
  have isExpression : id < layout.exprCount := by
    rw [← @exprCount_analyze layout options]
    exact List.mem_range.mp counted
  rw [shape?_analyze wellNumbered isExpression] at found
  exact wellNumbered.mentioned_lt found mentioned

/-- The notes of a well-formed layout hold. -/
theorem WellNumbered.notesHold
    (wellNumbered : layout.WellNumbered)
    (wellFormed : (layout.analyze options).wellFormed = true)
    (styleNotes : options.styleNotes = true) :
    (layout.analyze options).NotesHold := by
  have noted := wellNumbered.notes_analyze wellFormed styleNotes
  refine
    { mem_iff := ?_
      nodup := ?_
      ordered := ?_
      hides := ?_
      ends := ?_
      fails := ?_
      redundant := ?_ }
  · rw [noted]
    exact mem_notes_iff _ _
  · rw [noted]
    exact nodup_notes _ _
  · rw [noted]
    exact notes_ordered _ _
  · intro id earlier part later occasion
    have partCounted : part < layout.exprCount :=
      wellNumbered.part_lt occasion.counted occasion.shape
        (List.mem_append_right earlier List.mem_cons_self)
    have neverFails :=
      wellNumbered.neverFails wellFormed partCounted
        (by simpa using occasion.flagged)
    have shape :
        (layout.analyze options).layout.view id =
          some (.group .choice (earlier ++ part :: later)) :=
      occasion.shape
    refine ⟨neverFails, ?_⟩
    intro input outcome
    simp only [runs_choice_iff shape,
      runs_anyOf_iff_of_neverFails neverFails]
  · intro id earlier part later occasion
    have partCounted : part < layout.exprCount :=
      wellNumbered.part_lt occasion.counted occasion.shape
        (List.mem_append_right earlier List.mem_cons_self)
    exact wellNumbered.endsInput wellFormed partCounted occasion.flagged
  · intro id occasion
    have counted : id < layout.exprCount := by
      rw [← @exprCount_analyze layout options]
      exact List.mem_range.mp occasion.counted
    exact wellNumbered.neverSucceeds wellFormed counted occasion.flagged
  · intro id body occasion
    have bodyCounted : body < layout.exprCount :=
      wellNumbered.part_lt occasion.counted occasion.shape
        List.mem_cons_self
    have neverFails :=
      wellNumbered.neverFails wellFormed bodyCounted occasion.flagged
    refine ⟨neverFails, ?_⟩
    intro input outcome
    exact runs_option_iff_of_neverFails occasion.shape neverFails

end Truth

end Layout

namespace Grammar

/--
Every note of a well-formed grammar is true of all matches, and every place
that calls for a note has one.
-/
theorem notes_hold
    {grammar : Grammar}
    {options : Options}
    {analysis : Analysis}
    (analyzed : grammar.analyze options = .ok analysis)
    (wellFormed : analysis.wellFormed = true)
    (styleNotes : options.styleNotes = true) :
    analysis.NotesHold := by
  obtain ⟨clean, rfl⟩ := analyze_eq_ok_iff.mp analyzed
  exact (wellNumbered_layOut clean).notesHold wellFormed styleNotes

/-- A grammar that gives rise to a note of each kind. -/
def advised : Grammar :=
  { rules :=
      [{ name := "advised"
         body :=
           .group .choice
             [.unary .optional (.unary .zeroOrMore (.literal "a")),
              .group .sequence
                [.terminal .endOfInput,
                 .unary .notPredicate
                   (.unary .zeroOrMore (.literal "b"))]] }] }

/-- Each kind of note holds of the grammar made for it. -/
theorem notes_hold_advised :
    ∃ analysis,
      advised.analyze {} = .ok analysis ∧
        analysis.wellFormed = true ∧
        analysis.notes.map Note.group = [0, 1, 2, 3] ∧
        analysis.NotesHold := by
  have analyzed :
      advised.analyze {} = .ok (advised.layOut.analyze {}) :=
    analyze_eq_ok_iff.mpr ⟨by decide, rfl⟩
  have wellFormed : (advised.layOut.analyze {}).wellFormed = true := by
    decide +kernel
  exact
    ⟨advised.layOut.analyze {}, analyzed, wellFormed, by decide +kernel,
      notes_hold analyzed wellFormed rfl⟩

end Grammar

end PegAudit
