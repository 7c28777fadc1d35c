import PegAudit.Proofs.Analysis.CallSites
import PegAudit.Proofs.Strand.FirstOfEach

namespace PegAudit

/-!
# Where strands stop

In the tail of an expression a strand goes on unless one of its elements ends
the input.  Expansion puts the elements of another strand behind those of the
first and takes over whether that one goes on, so this stays true, with one
exception: a part that ends the input has no tail to go on with, and a strand
that is called from such a part is cut off there.
-/

section Shown

variable
  {stops : α → Bool}
  {elements before after : List α}
  {element : α}

/-- Where nothing stops, everything is reached. -/
theorem upTo_eq_self
    (noneStops : ∀ passed ∈ elements, stops passed = false) :
    upTo stops elements = elements := by
  induction elements with
  | nil =>
      rfl
  | cons first rest inductionHypothesis =>
      obtain ⟨firstPassed, restPassed⟩ := List.forall_mem_cons.mp noneStops
      simp [upTo, firstPassed, inductionHypothesis restPassed]

/-- The first that stops is the last that is reached. -/
theorem upTo_append_cons
    (noneStops : ∀ passed ∈ before, stops passed = false)
    (stopsHere : stops element = true) :
    upTo stops (before ++ element :: after) = before ++ [element] := by
  induction before with
  | nil =>
      simp [upTo, stopsHere]
  | cons first rest inductionHypothesis =>
      obtain ⟨firstPassed, restPassed⟩ := List.forall_mem_cons.mp noneStops
      simp [upTo, firstPassed, inductionHypothesis restPassed]

/-- If some element stops, there is a first one. -/
theorem exists_first_of_any
    (someStops : elements.any stops = true) :
    ∃ before element after,
      elements = before ++ element :: after ∧
        (∀ passed ∈ before, stops passed = false) ∧
          stops element = true := by
  induction elements with
  | nil =>
      cases someStops
  | cons first rest inductionHypothesis =>
      cases stopsHere : stops first with
      | true =>
          exact ⟨[], first, rest, rfl, by simp, stopsHere⟩
      | false =>
          have restStops : rest.any stops = true := by
            simpa [stopsHere] using someStops
          obtain ⟨before, element, after, rfl, passed, here⟩ :=
            inductionHypothesis restStops
          exact
            ⟨first :: before, element, after, rfl,
              List.forall_mem_cons.mpr ⟨stopsHere, passed⟩, here⟩

end Shown

namespace Strand

/-- Does an element of the strand end the input? -/
theorem ends_eq_true_iff
    {chart : Chart}
    {strand : Strand} :
    strand.ends chart = true ↔
      ∃ element ∈ strand.elements,
        (chart.attrsOf element).endsInput = true :=
  List.any_eq_true

/-- The calling node is a part of a rule that ends the input. -/
def CutOff
    (chart : Chart)
    (strand : Strand) :
    Prop :=
  chart.layout.isRule strand.outer = false ∧
    (chart.attrsOf strand.outer).endsInput = true

/-- How a strand is shown if it goes on, and if an element ends the input. -/
structure Shows
    (chart : Chart)
    (strand : Strand) :
    Prop where
  of_hasTail :
    strand.hasTail = true →
    strand.text chart =
      " ".intercalate
        (strand.elements.map (elementText chart) ++
          ["Tail(" ++ chart.layout.name strand.outer ++ ")"])
  /-- Nothing is shown behind the first element that ends the input. -/
  of_endsInput :
    (∃ element ∈ strand.elements,
      (chart.attrsOf element).endsInput = true) →
    ∃ before element after,
      strand.elements = before ++ element :: after ∧
        (∀ passed ∈ before, (chart.attrsOf passed).endsInput = false) ∧
        (chart.attrsOf element).endsInput = true ∧
        strand.text chart =
          " ".intercalate
            ((before ++ [element]).map (elementText chart))

/--
What is true of a strand in a tail and of all strands refined from it: only an
element that ends the input, or being cut off, stops it.
-/
structure Stops
    (chart : Chart)
    (strand : Strand) :
    Prop where
  called_goesOn : (chart.attrsOf strand.called).endsInput = false
  outer_lt : strand.outer < chart.layout.exprCount
  of_hasTail : strand.hasTail = true → strand.ends chart = false
  of_no_tail :
    strand.hasTail = false →
    strand.ends chart = true ∨ strand.CutOff chart

variable
  {chart : Chart}
  {strand : Strand}

/-- A strand that stops only so is shown up to there. -/
theorem Stops.shows
    (stops : strand.Stops chart) :
    strand.Shows chart where
  of_hasTail := by
    intro hasTail
    have noneEnds := stops.of_hasTail hasTail
    have allShown : strand.shown chart = strand.elements :=
      upTo_eq_self (by simpa [ends] using noneEnds)
    simp [text, stops.called_goesOn, words, noneEnds, allShown, tailText]
  of_endsInput := by
    intro someEnds
    have ends := ends_eq_true_iff.mpr someEnds
    obtain ⟨before, element, after, split, passed, here⟩ :=
      exists_first_of_any ends
    have partShown : strand.shown chart = before ++ [element] := by
      rw [shown, split]
      exact upTo_append_cons passed here
    refine ⟨before, element, after, split, passed, here, ?_⟩
    simp [text, stops.called_goesOn, words, ends, partShown]

end Strand

/-- Strands in a tail, and those refined from it, stop where the input ends. -/
structure Chart.StopsWhereInputEnds
    (chart : Chart)
    (id : NodeId) :
    Prop where
  hasTail_iff :
    ∀ strand ∈ chart.tailOf id,
      strand.hasTail = false ↔
        ∃ element ∈ strand.elements,
          (chart.attrsOf element).endsInput = true
  shows : ∀ strand ∈ chart.tailOf id, strand.Shows chart
  /-- A refined strand has no tail either where a part of a rule ends the input. -/
  hasTail_refined_iff :
    ∀ refined,
      refined ∈ chart.expandedTail id ∨ refined ∈ chart.uniqueTail id →
      (refined.strand.hasTail = false ↔
        (∃ element ∈ refined.strand.elements,
          (chart.attrsOf element).endsInput = true) ∨
          refined.strand.CutOff chart)
  shows_refined :
    ∀ refined,
      refined ∈ chart.expandedTail id ∨ refined ∈ chart.uniqueTail id →
      refined.strand.Shows chart

/-- Tails go on as their elements say, and all parts that can be followed have one. -/
structure Chart.GoesOn
    (chart : Chart) :
    Prop where
  called_goesOn :
    ∀ {id strand},
      strand ∈ chart.tailOf id →
      (chart.attrsOf strand.called).endsInput = false
  outer_lt :
    ∀ {id strand},
      strand ∈ chart.tailOf id →
      strand.outer < chart.layout.exprCount
  hasTail_eq :
    ∀ {id strand},
      strand ∈ chart.tailOf id →
      strand.hasTail = !strand.ends chart
  tailOf_ne_nil :
    ∀ {id},
      id < chart.layout.exprCount →
      chart.layout.isRule id = false →
      (chart.attrsOf id).endsInput = false →
      chart.tailOf id ≠ []

namespace Strand

variable
  {chart : Chart}
  {strand expanded : Strand}

/-- In a tail only elements stop a strand. -/
theorem stops_of_mem_tailOf
    (goesOn : chart.GoesOn)
    {id : NodeId}
    (inTail : strand ∈ chart.tailOf id) :
    strand.Stops chart := by
  have sameEnds := goesOn.hasTail_eq inTail
  refine
    { called_goesOn := goesOn.called_goesOn inTail
      outer_lt := goesOn.outer_lt inTail
      of_hasTail := ?_
      of_no_tail := ?_ }
  · intro hasTail
    simpa [hasTail] using sameEnds
  · intro noTail
    exact .inl (by simpa [noTail] using sameEnds)

/--
Expansion of a strand below the top of a rule: another strand takes its place,
or there is none because the calling part ends the input.
-/
theorem Stops.of_mem_expand
    (stops : strand.Stops chart)
    (goesOn : chart.GoesOn)
    (expandable : strand.expandable chart = true)
    (isExpanded : expanded ∈ strand.expand chart) :
    expanded.Stops chart := by
  obtain ⟨hasTail, below⟩ := Bool.and_eq_true_iff.mp expandable
  have notRule : chart.layout.isRule strand.outer = false := by
    simpa using below
  unfold expand at isExpanded
  dsimp only at isExpanded
  split at isExpanded
  case isTrue noTail =>
    rw [List.mem_singleton.mp isExpanded]
    have nothingFollows : chart.tailOf strand.outer = [] := by
      simpa [hasTail] using noTail
    have outerEnds : (chart.attrsOf strand.outer).endsInput = true := by
      by_contra outerGoesOn
      exact
        goesOn.tailOf_ne_nil stops.outer_lt notRule
          (Bool.eq_false_of_not_eq_true outerGoesOn) nothingFollows
    exact
      { called_goesOn := stops.called_goesOn
        outer_lt := stops.outer_lt
        of_hasTail := fun closedHasTail => nomatch closedHasTail
        of_no_tail := fun _ => .inr ⟨notRule, outerEnds⟩ }
  case isFalse =>
    obtain ⟨next, inTail, rfl⟩ := List.mem_map.mp isExpanded
    have nextStops := stops_of_mem_tailOf goesOn inTail
    have endsWithNext :
        (strand.continueWith next).ends chart = next.ends chart := by
      have noneEnds := stops.of_hasTail hasTail
      unfold ends at noneEnds ⊢
      rw [continueWith, List.any_append, noneEnds, Bool.false_or]
    refine
      { called_goesOn := stops.called_goesOn
        outer_lt := nextStops.outer_lt
        of_hasTail := ?_
        of_no_tail := ?_ }
    · intro nextHasTail
      rw [endsWithNext]
      exact nextStops.of_hasTail nextHasTail
    · intro nextNoTail
      rw [endsWithNext]
      exact nextStops.of_no_tail nextNoTail

end Strand

namespace TracedStrand

variable
  {chart : Chart}
  {traced next refined : TracedStrand}

/-- A step keeps what can stop a strand. -/
theorem stops_of_step
    (goesOn : chart.GoesOn)
    (stops : traced.strand.Stops chart)
    (step : Step chart traced next) :
    next.strand.Stops chart := by
  obtain ⟨expandable, isNext⟩ := step
  obtain ⟨expanded, isExpanded, rfl⟩ := List.mem_map.mp isNext
  exact stops.of_mem_expand goesOn expandable isExpanded

/-- Any number of steps keeps what can stop a strand. -/
theorem stops_of_steps
    (goesOn : chart.GoesOn)
    (stops : traced.strand.Stops chart)
    (steps : Relation.ReflTransGen (Step chart) traced refined) :
    refined.strand.Stops chart := by
  induction steps with
  | refl =>
      exact stops
  | tail _ step inductionHypothesis =>
      exact stops_of_step goesOn inductionHypothesis step

/-- The strands refined from a tail stop as the strands of the tail do. -/
theorem stops_of_mem_expandedTail
    (goesOn : chart.GoesOn)
    {id : NodeId}
    (isRefined : refined ∈ chart.expandedTail id) :
    refined.strand.Stops chart := by
  obtain ⟨strand, inTail, fromStrand⟩ := List.mem_flatMap.mp isRefined
  rw [← refine_ofStrand, refine_eq_refineWithin] at fromStrand
  exact
    stops_of_steps goesOn (Strand.stops_of_mem_tailOf goesOn inTail)
      (steps_of_mem_refineWithin fromStrand)

/-- The strands refined from a tail have no tail, or go on behind a rule. -/
theorem settled_of_mem_expandedTail
    (navigable : chart.Navigable)
    {id : NodeId}
    (isRefined : refined ∈ chart.expandedTail id) :
    refined.strand.hasTail = false ∨
      chart.layout.isRule refined.strand.outer = true := by
  obtain ⟨strand, inTail, fromStrand⟩ := List.mem_flatMap.mp isRefined
  have within := navigable.furnished.within_tailOf inTail
  rw [← refine_ofStrand, refine_eq_refineWithin] at fromStrand
  have settled :=
    not_expandable_of_mem_refineWithin navigable.descends
      (fun _ =>
        Nat.le_succ_of_le (navigable.furnished.rounds_le within.outer_lt))
      fromStrand
  simpa only [Strand.expandable, Bool.and_eq_false_iff,
    Bool.not_eq_false'] using settled

/-- Of the refined strands exactly those have no tail that end or are cut off. -/
theorem hasTail_eq_false_iff_of_mem_expandedTail
    (goesOn : chart.GoesOn)
    (navigable : chart.Navigable)
    {id : NodeId}
    (isRefined : refined ∈ chart.expandedTail id) :
    refined.strand.hasTail = false ↔
      refined.strand.ends chart = true ∨ refined.strand.CutOff chart := by
  have stops := stops_of_mem_expandedTail goesOn isRefined
  refine ⟨stops.of_no_tail, ?_⟩
  rintro (ends | ⟨notRule, _⟩)
  · apply Bool.eq_false_of_not_eq_true
    intro hasTail
    rw [stops.of_hasTail hasTail] at ends
    cases ends
  · refine (settled_of_mem_expandedTail navigable isRefined).resolve_right ?_
    rw [notRule]
    exact Bool.false_ne_true

end TracedStrand

namespace Layout.WellNumbered

variable {layout : Layout}

/-- Whatever is a part of a node is called by it. -/
theorem exists_callsWith_of_mem_children
    {id owner : NodeId}
    (isPart : id ∈ layout.children owner) :
    ∃ afterwards,
      layout.CallsWith id owner afterwards ∧ afterwards ≠ [] := by
  unfold children at isPart
  cases found : layout.shape? owner with
  | none =>
      simp [found] at isPart
  | some shape =>
      rw [found, Option.elim_some] at isPart
      cases shape with
      | terminal item | reference target rule | remainingInput =>
          cases isPart
      | unary operator body =>
          cases List.mem_singleton.mp isPart
          cases operator with
          | andPredicate | notPredicate | optional =>
              exact ⟨_, .once found (by simp), by simp⟩
          | oneOrMore | zeroOrMore =>
              exact ⟨_, .repeated found (by simp), by simp⟩
      | group grouping parts =>
          cases grouping with
          | choice =>
              exact ⟨_, .choice found isPart, by simp⟩
          | sequence =>
              obtain ⟨before, after, rfl⟩ := List.append_of_mem isPart
              exact ⟨_, .sequence found, by simp⟩

/-- What a strand of a tail goes on behind is an expression. -/
theorem outer_lt_of_mem_tailOf
    (wellNumbered : layout.WellNumbered)
    {options : Options}
    {id : NodeId}
    {strand : Strand}
    (inTail : strand ∈ (layout.openChart options).tailOf id) :
    strand.outer < layout.exprCount := by
  rw [wellNumbered.tailOf_openChart] at inTail
  rcases List.mem_append.mp inTail with isCall | isRemainder
  · exact (wellNumbered.strand_lt (List.mem_of_mem_filter isCall)).2.1
  · unfold remainderStrands at isRemainder
    split at isRemainder
    case isFalse =>
      cases isRemainder
    case isTrue =>
      split at isRemainder
      case isFalse =>
        cases isRemainder
      case isTrue =>
        rw [List.mem_singleton.mp isRemainder]
        exact wellNumbered.start_lt

/-- An expression that is called and does not end the input has a tail. -/
theorem tailOf_ne_nil_of_callsWith
    (wellNumbered : layout.WellNumbered)
    (distinct : ∀ outer, (layout.children outer).Nodup)
    (options : Options)
    {called outer : NodeId}
    {afterwards : List (List NodeId)}
    (goesOn : (layout.attrs.of called).endsInput = false)
    (calls : layout.CallsWith called outer afterwards)
    (someCall : afterwards ≠ []) :
    (layout.openChart options).tailOf called ≠ [] := by
  intro noTail
  have listed := wellNumbered.tailOf_eq_calls options goesOn
  rw [noTail, List.map_nil, eq_comm, List.append_eq_nil_iff] at listed
  have noCall :=
    List.flatMap_eq_nil_iff.mp listed.1 _
      ((wellNumbered.mem_callsTo_iff distinct).mpr calls)
  exact someCall (List.map_eq_nil_iff.mp noCall)

end Layout.WellNumbered

namespace Grammar

/-- In a well-formed analysis tails go on as their elements say. -/
theorem goesOn_openChart
    {grammar : Grammar}
    (clean : grammar.defects = [])
    (options : Options) :
    (grammar.layOut.openChart options).fillFollow.GoesOn := by
  have wellNumbered := wellNumbered_layOut clean
  have describes := wellNumbered.describes_openChart options
  refine
    { called_goesOn := ?_
      outer_lt := ?_
      hasTail_eq := fun inTail => wellNumbered.hasTail_of_mem_tailOf inTail
      tailOf_ne_nil := ?_ }
  · intro id strand inTail
    obtain ⟨rfl, counted⟩ := wellNumbered.called_eq_of_mem_tailOf inTail
    apply Bool.eq_false_of_not_eq_true
    intro ends
    have noTail :=
      wellNumbered.tailOf_eq_nil options
        ((describes.attrsOf_eq counted).symm ▸ ends)
    have inTail :
        strand ∈ (grammar.layOut.openChart options).tailOf strand.called :=
      inTail
    rw [noTail] at inTail
    cases inTail
  · intro id strand inTail
    rw [Chart.layout_fillFollow, describes.exprCount_eq]
    exact wellNumbered.outer_lt_of_mem_tailOf inTail
  · intro id isExpression notRule goesOn
    rw [Chart.layout_fillFollow, describes.exprCount_eq] at isExpression
    have goesOn : (grammar.layOut.attrs.of id).endsInput = false := by
      rw [← describes.attrsOf_eq isExpression]
      exact goesOn
    have notTop : id ∉ grammar.layOut.rules := by
      rw [← isRule_layOut_iff, Bool.not_eq_true, ← notRule,
        Chart.layout_fillFollow, Layout.isRule, Layout.isRule,
        Layout.node?_openChart]
      rwa [wellNumbered.size_nodes]
    obtain ⟨owner, isPart⟩ :=
      (mem_rules_or_exists_owner isExpression).resolve_left notTop
    obtain ⟨afterwards, calls, someCall⟩ :=
      Layout.WellNumbered.exists_callsWith_of_mem_children isPart
    exact
      wellNumbered.tailOf_ne_nil_of_callsWith (nodup_children clean) options
        goesOn calls someCall

/--
In a well-formed analysis a strand has no tail exactly if one of its elements
ends the input or, once it has been refined, it is cut off; and it is shown with
the tail of its calling node if it goes on, and up to the first element that
ends the input if there is one.
-/
theorem strands_stop_where_input_ends
    {grammar : Grammar}
    {options : Options}
    {analysis : Analysis}
    (analyzed : grammar.analyze options = .ok analysis)
    (wellFormed : analysis.wellFormed = true)
    (id : NodeId) :
    analysis.chart.StopsWhereInputEnds id := by
  obtain ⟨clean, rfl⟩ := analyze_eq_ok_iff.mp analyzed
  have navigable :=
    (wellNumbered_layOut clean).navigable_analyze isRule_layOut_iff options
  have goesOn := goesOn_openChart clean options
  rw [← Layout.chart_analyze wellFormed] at goesOn
  have isRefined
      {refined : TracedStrand}
      (isListed :
        refined ∈ (grammar.layOut.analyze options).chart.expandedTail id ∨
          refined ∈ (grammar.layOut.analyze options).chart.uniqueTail id) :
      refined ∈ (grammar.layOut.analyze options).chart.expandedTail id :=
    isListed.elim (fun inExpanded => inExpanded) fun inUnique =>
      sublist_firstOfEach.mem inUnique
  refine
    { hasTail_iff := ?_
      shows := ?_
      hasTail_refined_iff := ?_
      shows_refined := ?_ }
  · intro strand inTail
    rw [goesOn.hasTail_eq inTail, Bool.not_eq_false',
      Strand.ends_eq_true_iff]
  · intro strand inTail
    exact (Strand.stops_of_mem_tailOf goesOn inTail).shows
  · intro refined isListed
    rw [← Strand.ends_eq_true_iff]
    exact
      TracedStrand.hasTail_eq_false_iff_of_mem_expandedTail goesOn navigable
        (isRefined isListed)
  · intro refined isListed
    exact
      (TracedStrand.stops_of_mem_expandedTail goesOn
        (isRefined isListed)).shows

/-- A letter behind the end of the input, or another letter. -/
def letterBehindEnd : Grammar :=
  { rules :=
      [{ name := "S"
         body :=
          .choice
            [.sequence [.endOfInput, .literal "a"], .literal "b"] }] }

/-- The letter behind the end of the input is cut off. -/
theorem strands_stop_letterBehindEnd :
    letterBehindEnd.analyze {} =
        .ok (letterBehindEnd.layOut.analyze {}) ∧
      (letterBehindEnd.layOut.analyze {}).wellFormed = true ∧
      (letterBehindEnd.layOut.analyze {}).chart.StopsWhereInputEnds 1 := by
  have analyzed :
      letterBehindEnd.analyze {} =
        .ok (letterBehindEnd.layOut.analyze {}) :=
    analyze_eq_ok_iff.mpr ⟨by decide +kernel, rfl⟩
  have wellFormed :
      (letterBehindEnd.layOut.analyze {}).wellFormed = true := by
    decide +kernel
  exact
    ⟨analyzed, wellFormed,
      strands_stop_where_input_ends analyzed wellFormed 1⟩

/--
No element of the strand refined from the tail of the letter behind the end of
the input ends the input, yet the strand has no tail, and it is shown as if it
had one.
-/
theorem cutOff_letterBehindEnd :
    ∃ analysis,
      letterBehindEnd.analyze {} = .ok analysis ∧
        analysis.wellFormed = true ∧
        1 ∈ analysis.layout.ids ∧
        ∃ refined,
          refined ∈ analysis.chart.expandedTail 1 ∧
            refined ∈ analysis.chart.uniqueTail 1 ∧
            refined.strand.hasTail = false ∧
            refined.strand.elements = [] ∧
            refined.strand.text analysis.chart = "Tail(S.1)" := by
  refine ⟨letterBehindEnd.layOut.analyze {}, ?_, ?_, ?_, ?_⟩
  · exact analyze_eq_ok_iff.mpr ⟨by decide +kernel, rfl⟩
  · decide +kernel
  · decide +kernel
  · let called : Strand :=
      { called := 1, outer := 4, elements := [], hasTail := true }
    exact
      ⟨{ strand := called.closed, origins := [called] },
        by decide +kernel⟩

end Grammar

end PegAudit
