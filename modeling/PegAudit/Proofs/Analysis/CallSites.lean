import PegAudit.Proofs.Strand.Refinement

namespace PegAudit

/-!
# Tails record every call

What runs after an expression is decided where it is called.  The tail of an
expression lists the calls of it by the number of the calling node, each once:
nothing runs after an alternative, an option, the body of a predicate or a
rule, the later elements run after an element of a sequence, and after the body
of an iteration there is another round, or nothing.  An expression that ends the
input has no tail, since nothing can follow it.
-/

namespace Layout

/--
One expression calls another: what runs after the called one, for each time it
is called.
-/
inductive CallsWith
    (layout : Layout)
    (called outer : NodeId) :
    List (List NodeId) →
    Prop
  | reference
      {target : String}
      (found : layout.shape? outer = some (.reference target called)) :
      CallsWith layout called outer [[]]
  | once
      {operator : Operator}
      (found : layout.shape? outer = some (.unary operator called))
      (callsOnce :
        operator = .andPredicate ∨ operator = .notPredicate ∨
          operator = .optional) :
      CallsWith layout called outer [[]]
  | repeated
      {operator : Operator}
      (found : layout.shape? outer = some (.unary operator called))
      (repeats : operator = .oneOrMore ∨ operator = .zeroOrMore) :
      CallsWith layout called outer [[outer], []]
  | choice
      {parts : List NodeId}
      (found : layout.shape? outer = some (.group .choice parts))
      (isPart : called ∈ parts) :
      CallsWith layout called outer [[]]
  | sequence
      {before after : List NodeId}
      (found :
        layout.shape? outer =
          some (.group .sequence (before ++ called :: after))) :
      CallsWith layout called outer [after]

end Layout

/-- The tail of an expression records the calls of it. -/
structure Chart.RecordsCalls
    (chart : Chart)
    (options : Options)
    (called : NodeId) :
    Prop where
  of_endsInput :
    (chart.attrsOf called).endsInput = true →
    chart.tailOf called = [] ∧
      chart.followOf called = chart.noTerminals
  /-- Every call is listed once, by calling node; the remaining input comes last. -/
  of_goesOn :
    (chart.attrsOf called).endsInput = false →
    ∃ calls : List (NodeId × List (List NodeId)),
      (calls.map Prod.fst).Pairwise (· < ·) ∧
        (∀ outer afterwards,
          (outer, afterwards) ∈ calls ↔
            chart.layout.CallsWith called outer afterwards) ∧
        (chart.tailOf called).map
            (fun strand => (strand.outer, strand.elements)) =
          (calls.flatMap fun call => call.2.map fun after =>
              (call.1, after)) ++
            if called = chart.layout.start ∧
                options.remainingInputTail = true then
              [(chart.layout.start, [chart.layout.exprCount])]
            else
              []
  /-- The element of the last strand of the start rule is the remaining input. -/
  remaining :
    (chart.attrsOf chart.layout.start).endsInput = false →
    options.remainingInputTail = true →
    chart.layout.shape? chart.layout.exprCount = some .remainingInput
  called_eq :
    ∀ strand ∈ chart.tailOf called, strand.called = called
  hasTail_iff :
    ∀ strand ∈ chart.tailOf called,
      strand.hasTail = false ↔
        ∃ element ∈ strand.elements,
          (chart.attrsOf element).endsInput = true
  /-- Whatever is refined from a strand of the tail goes back to it and no further. -/
  oldest :
    ∀ strand ∈ chart.tailOf called,
      ∀ refined ∈ strand.refine chart,
        refined.lineage.getLast? = some strand

/-- What runs after a node for each time a shape with the given number calls it. -/
def Shape.afterwards
    (called outer : NodeId)
    (shape : Shape NodeId) :
    List (List NodeId) :=
  ((shape.sites outer).filter fun site => site.1 == called).map Prod.snd

section Sites

/-- An element that does not occur is followed by nothing. -/
theorem filter_withRest_of_not_mem
    {elements : List NodeId}
    {called : NodeId}
    (absent : called ∉ elements) :
    (withRest elements).filter (fun site => site.1 == called) = [] := by
  apply List.filter_eq_nil_iff.mpr
  intro site listed isCalled
  have isElement := (mem_of_mem_withRest listed).1
  rw [eq_of_beq isCalled] at isElement
  exact absent isElement

/-- The one occurrence of an element comes with the elements after it. -/
theorem filter_withRest_of_split
    {before after : List NodeId}
    {called : NodeId}
    (distinct : (before ++ called :: after).Nodup) :
    (withRest (before ++ called :: after)).filter
        (fun site => site.1 == called) =
      [(called, after)] := by
  induction before with
  | nil =>
      have absent := (List.nodup_cons.mp distinct).1
      simp [withRest, filter_withRest_of_not_mem absent]
  | cons first others inductionHypothesis =>
      obtain ⟨notLater, othersDistinct⟩ := List.nodup_cons.mp distinct
      have notCalled : first ≠ called := by
        rintro rfl
        exact notLater (by simp)
      simpa [withRest, notCalled] using
        inductionHypothesis othersDistinct

variable {called outer : NodeId}

/-- An alternative is called once. -/
theorem Shape.afterwards_choice
    {parts : List NodeId}
    (distinct : parts.Nodup)
    (isPart : called ∈ parts) :
    (Shape.group .choice parts).afterwards called outer = [[]] := by
  have once : parts.filter (· == called) = [called] := by
    rw [List.filter_beq, distinct.count, if_pos isPart]
    rfl
  have composed :
      ((fun site : NodeId × List NodeId => site.1 == called) ∘
          fun part => (part, [])) =
        (· == called) :=
    rfl
  rw [afterwards, sites, List.filter_map, composed, once]
  rfl

/-- An element of a sequence is called once, with the elements after it. -/
theorem Shape.afterwards_sequence
    {before after : List NodeId}
    (distinct : (before ++ called :: after).Nodup) :
    (Shape.group .sequence (before ++ called :: after)).afterwards called
        outer =
      [after] := by
  rw [afterwards, sites, filter_withRest_of_split distinct]
  rfl

end Sites

namespace Layout

variable {layout : Layout}

/-- One expression calls another exactly if its shape has sites for it. -/
theorem callsWith_iff
    {called outer : NodeId}
    {afterwards : List (List NodeId)}
    (distinct : (layout.children outer).Nodup) :
    layout.CallsWith called outer afterwards ↔
      afterwards ≠ [] ∧
        ∃ shape,
          layout.shape? outer = some shape ∧
            shape.afterwards called outer = afterwards := by
  have distinctParts
      {shape : Shape NodeId}
      (found : layout.shape? outer = some shape) :
      shape.children.Nodup := by
    rwa [children, found] at distinct
  constructor
  · intro calls
    cases calls with
    | reference found =>
        exact ⟨by simp, _, found, by simp [Shape.afterwards, Shape.sites]⟩
    | once found callsOnce =>
        rcases callsOnce with rfl | rfl | rfl <;>
          exact
            ⟨by simp, _, found, by simp [Shape.afterwards, Shape.sites]⟩
    | repeated found repeats =>
        rcases repeats with rfl | rfl <;>
          exact
            ⟨by simp, _, found, by simp [Shape.afterwards, Shape.sites]⟩
    | choice found isPart =>
        exact
          ⟨by simp, _, found,
            Shape.afterwards_choice (distinctParts found) isPart⟩
    | sequence found =>
        exact
          ⟨by simp, _, found,
            Shape.afterwards_sequence (distinctParts found)⟩
  · rintro ⟨isCalled, shape, found, rfl⟩
    have mentioned : called ∈ shape.mentioned := by
      obtain ⟨after, isAfter⟩ := List.exists_mem_of_ne_nil _ isCalled
      obtain ⟨site, isSite, _⟩ := List.mem_map.mp isAfter
      obtain ⟨inShape, ofCalled⟩ := List.mem_filter.mp isSite
      rw [← eq_of_beq ofCalled]
      exact (Shape.mentioned_of_mem_sites inShape).1
    cases shape with
    | terminal item =>
        cases mentioned
    | reference target rule =>
        cases List.mem_singleton.mp mentioned
        simpa [Shape.afterwards, Shape.sites] using CallsWith.reference found
    | unary operator body =>
        cases List.mem_singleton.mp mentioned
        cases operator with
        | andPredicate | notPredicate | optional =>
            simpa [Shape.afterwards, Shape.sites] using
              CallsWith.once found (by simp)
        | oneOrMore | zeroOrMore =>
            simpa [Shape.afterwards, Shape.sites] using
              CallsWith.repeated found (by simp)
    | group grouping parts =>
        have partsDistinct : parts.Nodup := distinctParts found
        cases grouping with
        | choice =>
            rw [Shape.afterwards_choice partsDistinct mentioned]
            exact .choice found mentioned
        | sequence =>
            obtain ⟨before, after, rfl⟩ := List.append_of_mem mentioned
            rw [Shape.afterwards_sequence partsDistinct]
            exact .sequence found
    | remainingInput =>
        cases mentioned

/-- What is called depends only on the shape of the calling node. -/
theorem CallsWith.of_agree
    {other : Layout}
    {afterwards : List (List NodeId)}
    (calls : layout.CallsWith called outer afterwards)
    (agree :
      ∀ {shape},
        layout.shape? outer = some shape →
        shape ≠ .remainingInput →
        other.shape? outer = some shape) :
    other.CallsWith called outer afterwards := by
  cases calls with
  | reference found =>
      exact .reference (agree found (by simp))
  | once found callsOnce =>
      exact .once (agree found (by simp)) callsOnce
  | repeated found repeats =>
      exact .repeated (agree found (by simp)) repeats
  | choice found isPart =>
      exact .choice (agree found (by simp)) isPart
  | sequence found =>
      exact .sequence (agree found (by simp))

/-- What runs after an expression for each time a node calls it. -/
def afterwards
    (layout : Layout)
    (called outer : NodeId) :
    List (List NodeId) :=
  (layout.shape? outer).elim [] (Shape.afterwards called outer)

/-- The calls of an expression, by calling node. -/
def callsTo
    (layout : Layout)
    (called : NodeId) :
    List (NodeId × List (List NodeId)) :=
  (layout.compoundIds.filter fun outer =>
      !(layout.afterwards called outer).isEmpty).map
    fun outer => (outer, layout.afterwards called outer)

/-- Calls are listed by ascending number of the calling node. -/
theorem pairwise_callsTo
    (layout : Layout)
    (called : NodeId) :
    ((layout.callsTo called).map Prod.fst).Pairwise (· < ·) := by
  have callers :
      (layout.callsTo called).map Prod.fst =
        layout.compoundIds.filter fun outer =>
          !(layout.afterwards called outer).isEmpty := by
    rw [callsTo, List.map_map]
    exact List.map_id _
  rw [callers]
  have ascending : layout.compoundIds.Pairwise (· < ·) :=
    List.pairwise_lt_range'
  exact ascending.filter _

/-- The listed calls are all there are. -/
theorem WellNumbered.mem_callsTo_iff
    (wellNumbered : layout.WellNumbered)
    (distinct : ∀ outer, (layout.children outer).Nodup)
    {called outer : NodeId}
    {afterwards : List (List NodeId)} :
    (outer, afterwards) ∈ layout.callsTo called ↔
      layout.CallsWith called outer afterwards := by
  rw [callsWith_iff (distinct outer), callsTo]
  constructor
  · intro listed
    obtain ⟨other, isCaller, same⟩ := List.mem_map.mp listed
    obtain ⟨rfl, rfl⟩ := Prod.mk.inj same
    have someCall := (List.mem_filter.mp isCaller).2
    cases found : layout.shape? other with
    | none =>
        simp [Layout.afterwards, found] at someCall
    | some shape =>
        simp only [Layout.afterwards, found, Option.elim_some] at someCall ⊢
        exact ⟨by simpa using someCall, shape, rfl, rfl⟩
  · rintro ⟨someCall, shape, found, rfl⟩
    have isCompound : shape.isTerminal = false := by
      cases shape with
      | terminal item | remainingInput =>
          exact (someCall rfl).elim
      | _ =>
          rfl
    have here :
        layout.afterwards called outer = shape.afterwards called outer := by
      rw [Layout.afterwards, found, Option.elim_some]
    refine List.mem_map.mpr ⟨outer, List.mem_filter.mpr ⟨?_, ?_⟩, ?_⟩
    · exact wellNumbered.mem_compoundIds found isCompound
    · rw [here]
      simpa using someCall
    · rw [here]

/-- The strands from one calling node to an expression are its calls of it. -/
theorem filter_strandsFrom
    (goesOn : (layout.attrs.of called).endsInput = false) :
    (layout.strandsFrom layout.attrs outer).filter (·.called == called) =
      (layout.afterwards called outer).map
        (Strand.ofCall layout.attrs outer called) := by
  cases found : layout.shape? outer with
  | none =>
      simp [strandsFrom, afterwards, found]
  | some shape =>
      have sameSites :
          ((shape.sites outer).filter fun site =>
              !(layout.attrs.of site.1).endsInput).filter
              (fun site => site.1 == called) =
            (shape.sites outer).filter fun site => site.1 == called := by
        rw [List.filter_filter]
        apply List.filter_congr
        rintro ⟨other, after⟩ _
        by_cases same : other = called
        · simp [same, goesOn]
        · simp [same]
      simp only [strandsFrom, afterwards, found, Option.elim_some,
        Shape.afterwards, List.map_map, ← sameSites]
      rw [List.filter_map]
      apply List.map_congr_left
      rintro ⟨other, after⟩ isSite
      have isCalled := eq_of_beq (List.mem_filter.mp isSite).2
      rw [Function.comp_apply, ← isCalled]
      rfl

/-- The strands to an expression are the calls of it, in their order. -/
theorem filter_strands
    (goesOn : (layout.attrs.of called).endsInput = false) :
    (layout.strands layout.attrs).filter (·.called == called) =
      (layout.callsTo called).flatMap fun call =>
        call.2.map (Strand.ofCall layout.attrs call.1 called) := by
  rw [strands, List.filter_flatMap, callsTo, List.flatMap_map,
    flatMap_filter_eq]
  apply List.flatMap_congr
  intro outer _
  rw [filter_strandsFrom goesOn]
  split
  case isTrue =>
    rfl
  case isFalse noCall =>
    have none : layout.afterwards called outer = [] := by
      simpa using noCall
    rw [none, List.map_nil]

/-- No strand calls an expression that ends the input. -/
theorem goesOn_of_mem_strands
    {strand : Strand}
    (isStrand : strand ∈ layout.strands layout.attrs) :
    (layout.attrs.of strand.called).endsInput = false := by
  obtain ⟨outer, _, fromOuter⟩ := List.mem_flatMap.mp isStrand
  unfold strandsFrom at fromOuter
  split at fromOuter
  case h_1 shape found =>
    obtain ⟨site, isSite, rfl⟩ := List.mem_map.mp fromOuter
    simpa [Strand.ofCall] using (List.mem_filter.mp isSite).2
  case h_2 =>
    cases fromOuter

namespace WellNumbered

/-- Of the strands in a tail those have a tail whose elements do not end the input. -/
theorem hasTail_of_mem_tailOf
    (wellNumbered : layout.WellNumbered)
    {options : Options}
    {strand : Strand}
    (inTail : strand ∈ (layout.openChart options).tailOf called) :
    strand.hasTail = !strand.ends (layout.openChart options) := by
  have describes := wellNumbered.describes_openChart options
  rw [wellNumbered.tailOf_openChart] at inTail
  rcases List.mem_append.mp inTail with isCall | isRemainder
  · have isStrand := List.mem_of_mem_filter isCall
    have goesOn := goesOn_of_mem_strands isStrand
    obtain ⟨other, _, fromOther⟩ := List.mem_flatMap.mp isStrand
    unfold strandsFrom at fromOther
    split at fromOther
    case h_2 =>
      cases fromOther
    case h_1 shape found =>
      obtain ⟨site, isSite, rfl⟩ := List.mem_map.mp fromOther
      have counted :=
        (wellNumbered.sites_lt found (List.mem_filter.mp isSite).1).2
      have sameEnds :
          (site.2.any fun element =>
              (layout.attrs.of element).endsInput) =
            site.2.any fun element =>
              ((layout.openChart options).attrsOf element).endsInput := by
        apply Bool.eq_iff_iff.mpr
        simp only [List.any_eq_true]
        refine exists_congr fun element => and_congr_right fun member => ?_
        rw [describes.attrsOf_eq (counted element member)]
      simp only [Strand.ofCall] at goesOn
      simp [Strand.ofCall, Strand.ends, goesOn, sameEnds]
  · split at isRemainder
    case isFalse =>
      cases isRemainder
    case isTrue =>
      have behind :=
        (wellNumbered.openChart_of_le options (Nat.le_refl _)).1
      unfold remainderStrands at isRemainder behind
      split at isRemainder
      case isFalse =>
        cases isRemainder
      case isTrue wanted =>
        rw [if_pos wanted, if_pos ⟨rfl, rfl⟩] at behind
        cases List.mem_singleton.mp isRemainder
        simp [Strand.toRemainder, Strand.ends, wellNumbered.size_nodes,
          behind, Attrs.all]

/-- The tail of an expression that does not end the input: calls, then the rest. -/
theorem tailOf_eq_calls
    (wellNumbered : layout.WellNumbered)
    (options : Options)
    (goesOn : (layout.attrs.of called).endsInput = false) :
    ((layout.openChart options).tailOf called).map
        (fun strand => (strand.outer, strand.elements)) =
      ((layout.callsTo called).flatMap fun call => call.2.map fun after =>
          (call.1, after)) ++
        if called = layout.start ∧ options.remainingInputTail = true then
          [(layout.start, [layout.exprCount])]
        else
          [] := by
  rw [wellNumbered.tailOf_openChart, filter_strands goesOn, List.map_append,
    List.map_flatMap]
  congr 1
  · apply List.flatMap_congr
    intro call _
    rw [List.map_map]
    rfl
  · by_cases isStart : called = layout.start
    · subst isStart
      simp only [remainderStrands, goesOn, and_true, if_true, true_and]
      split
      · simp [Strand.toRemainder, wellNumbered.size_nodes]
      · rfl
    · simp [isStart]

/-- An expression that ends the input has no tail. -/
theorem tailOf_eq_nil
    (wellNumbered : layout.WellNumbered)
    (options : Options)
    (ends : (layout.attrs.of called).endsInput = true) :
    (layout.openChart options).tailOf called = [] := by
  have noCall :
      (layout.strands layout.attrs).filter (·.called == called) = [] := by
    apply List.filter_eq_nil_iff.mpr
    intro strand isStrand isCalled
    have goesOn := goesOn_of_mem_strands isStrand
    rw [eq_of_beq isCalled, ends] at goesOn
    cases goesOn
  rw [wellNumbered.tailOf_openChart, noCall, List.nil_append]
  split
  case isTrue isStart =>
    rw [remainderStrands, if_neg]
    rw [← isStart, ends]
    simp
  case isFalse =>
    rfl

/-- Nothing comes first after an expression that ends the input. -/
theorem followOf_of_endsInput
    (wellNumbered : layout.WellNumbered)
    (options : Options)
    (ends : (layout.attrs.of called).endsInput = true) :
    (layout.openChart options).fillFollow.followOf called =
      (layout.openChart options).fillFollow.noTerminals := by
  have exact := wellNumbered.exact_fillFollow options
  have noTail :
      (layout.openChart options).fillFollow.tailOf called = [] :=
    wellNumbered.tailOf_eq_nil options ends
  have sameTerms :=
    Chart.eq_firstTermsOf (exact.room_followOf called)
      exact.contains_followOf
  rw [noTail] at sameTerms
  exact sameTerms

/-- The last strand of a start rule that goes on leads to the remaining input. -/
theorem shape?_remainder
    (wellNumbered : layout.WellNumbered)
    {options : Options}
    (goesOn : (layout.attrs.of layout.start).endsInput = false)
    (wanted : options.remainingInputTail = true) :
    (layout.openChart options).layout.shape? layout.exprCount =
      some .remainingInput := by
  rw [← wellNumbered.size_nodes]
  simp [openChart, wanted, Chart.withRemainder, goesOn, Chart.attrsOf,
    Chart.fillTails, Chart.fillFirst, Chart.ofAttrs, shape?, node?,
    withRemainder, remainderNode]

end WellNumbered

/-- Calls are the same in an analysis and in its layout. -/
theorem callsWith_analyze_iff
    (wellNumbered : layout.WellNumbered)
    {options : Options}
    {afterwards : List (List NodeId)} :
    (layout.analyze options).layout.CallsWith called outer afterwards ↔
      layout.CallsWith called outer afterwards := by
  constructor
  · intro calls
    exact calls.of_agree shape?_of_shape?_analyze
  · intro calls
    refine calls.of_agree fun found _ => ?_
    have counted := wellNumbered.exists_shape_iff.mp ⟨_, found⟩
    rwa [shape?_analyze wellNumbered counted]

end Layout

namespace Grammar

/--
In a well-formed analysis the tail of every expression lists each call of it
exactly once, by ascending number of the calling node, with what runs after it.
-/
theorem tails_record_calls
    {grammar : Grammar}
    {options : Options}
    {analysis : Analysis}
    (analyzed : grammar.analyze options = .ok analysis)
    (wellFormed : analysis.wellFormed = true)
    {called : NodeId}
    (isExpression : called ∈ analysis.layout.ids) :
    analysis.chart.RecordsCalls options called := by
  obtain ⟨clean, rfl⟩ := analyze_eq_ok_iff.mp analyzed
  have wellNumbered := wellNumbered_layOut clean
  have describes := wellNumbered.describes_openChart options
  have sameLayout :
      ∀ {outer afterwards},
        (grammar.layOut.analyze options).chart.layout.CallsWith called outer
            afterwards ↔
          grammar.layOut.CallsWith called outer afterwards :=
    Layout.callsWith_analyze_iff wellNumbered
  have isFilled := Layout.chart_analyze wellFormed
  have counted : called < grammar.layOut.exprCount := by
    rw [Layout.ids, List.mem_range, Layout.exprCount_analyze] at isExpression
    exact isExpression
  rw [isFilled] at sameLayout ⊢
  have sameStart :
      (grammar.layOut.openChart options).fillFollow.layout.start =
        grammar.layOut.start := by
    rw [← isFilled]
    exact Layout.start_analyze
  have sameTail :
      (grammar.layOut.openChart options).fillFollow.tailOf called =
        (grammar.layOut.openChart options).tailOf called :=
    rfl
  refine
    { of_endsInput := ?_
      of_goesOn := ?_
      remaining := ?_
      called_eq := ?_
      hasTail_iff := ?_
      oldest := ?_ }
  · intro ends
    have isEnd : (grammar.layOut.attrs.of called).endsInput = true :=
      (describes.attrsOf_eq counted).symm ▸ ends
    exact
      ⟨wellNumbered.tailOf_eq_nil options isEnd,
        wellNumbered.followOf_of_endsInput options isEnd⟩
  · intro goesOn
    refine
      ⟨grammar.layOut.callsTo called,
        grammar.layOut.pairwise_callsTo called, ?_, ?_⟩
    · intro outer afterwards
      rw [sameLayout]
      exact wellNumbered.mem_callsTo_iff (nodup_children clean)
    · rw [sameStart, sameTail, Chart.layout_fillFollow,
        describes.exprCount_eq]
      exact
        wellNumbered.tailOf_eq_calls options
          ((describes.attrsOf_eq counted).symm ▸ goesOn)
  · intro goesOn wanted
    rw [sameStart] at goesOn
    rw [Chart.layout_fillFollow, describes.exprCount_eq]
    exact
      wellNumbered.shape?_remainder
        ((describes.attrsOf_eq wellNumbered.start_lt).symm ▸ goesOn) wanted
  · intro strand inTail
    exact (wellNumbered.called_eq_of_mem_tailOf inTail).1
  · intro strand inTail
    rw [wellNumbered.hasTail_of_mem_tailOf inTail, Bool.not_eq_false',
      Strand.ends, List.any_eq_true]
    exact Iff.rfl
  · intro strand inTail refined isRefined
    exact TracedStrand.getLast?_lineage_of_mem_refine isRefined

/-- Brackets are called once, inside themselves, and may leave input over. -/
theorem tails_record_calls_brackets :
    brackets.analyze {} = .ok (brackets.layOut.analyze {}) ∧
      (brackets.layOut.analyze {}).wellFormed = true ∧
      3 ∈ (brackets.layOut.analyze {}).layout.ids ∧
      ((brackets.layOut.analyze {}).chart.tailOf 3).map
          (fun strand => (strand.outer, strand.elements)) =
        [(5, []), (3, [7])] ∧
      (brackets.layOut.analyze {}).chart.RecordsCalls {} 3 := by
  have analyzed :
      brackets.analyze {} = .ok (brackets.layOut.analyze {}) :=
    analyze_eq_ok_iff.mpr ⟨defects_brackets, rfl⟩
  have wellFormed : (brackets.layOut.analyze {}).wellFormed = true := by
    decide +kernel
  have isExpression : 3 ∈ (brackets.layOut.analyze {}).layout.ids := by
    decide +kernel
  exact
    ⟨analyzed, wellFormed, isExpression, by decide +kernel,
      tails_record_calls analyzed wellFormed isExpression⟩

end Grammar

end PegAudit
