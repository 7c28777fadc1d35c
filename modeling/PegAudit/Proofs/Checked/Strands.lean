import PegAudit.Proofs.Checked.Chart
import PegAudit.Strand.Stepwise

namespace PegAudit

/-!
# Strands are not refused

The strands of a tail, and those that come out of them, mention only nodes of
the chart, so showing them, expanding them and reading off their first
terminals is not refused.  Refinement ends: the owner of a part has a smaller
number than the part, unless the part is a terminal, and no round goes on
beyond the tail of a rule.
-/

namespace Strand

variable
  {layout : Layout}
  {chart : Chart}

/-- A strand that goes on with another mentions what both do. -/
theorem Within.continueWith
    {strand next : Strand}
    (within : strand.Within layout)
    (nextWithin : next.Within layout) :
    (strand.continueWith next).Within layout where
  called_lt := within.called_lt
  outer_lt := nextWithin.outer_lt
  elements_lt :=
    List.forall_mem_append.mpr ⟨within.elements_lt, nextWithin.elements_lt⟩

/-- A strand inside the layout is shown. -/
theorem Within.text?_eq_some
    {strand : Strand}
    (within : strand.Within chart.layout) :
    strand.text? chart = some (strand.text chart) := by
  have called := within.called_lt
  have outer := within.outer_lt
  have shownInside :
      ∀ element ∈ strand.shown chart, element < chart.layout.nodes.size :=
    fun element isShown =>
      within.elements_lt element (mem_of_mem_upTo isShown)
  apply if_pos
  simp only [List.all_eq_true, Layout.has, decide_eq_true_eq, shownNodes]
  split
  · simpa using called
  · split
    · exact List.forall_mem_cons.mpr ⟨called, shownInside⟩
    · rw [List.forall_mem_append, List.forall_mem_cons]
      exact ⟨⟨called, shownInside⟩, by simpa using outer⟩

/-- A strand inside the layout is expanded. -/
theorem Within.expand?_eq_some
    {strand : Strand}
    (within : strand.Within chart.layout) :
    strand.expand? chart = some (strand.expand chart) :=
  if_pos (by simpa [Layout.has] using within.outer_lt)

/-- The expansions of a strand stay inside the layout. -/
theorem Within.of_mem_expand
    {strand expanded : Strand}
    (within : strand.Within chart.layout)
    (furnished : chart.Furnished)
    (isExpanded : expanded ∈ strand.expand chart) :
    expanded.Within chart.layout := by
  unfold expand at isExpanded
  dsimp only at isExpanded
  split at isExpanded
  case isTrue =>
    rw [List.mem_singleton.mp isExpanded]
    exact { within with }
  case isFalse =>
    obtain ⟨next, inTail, rfl⟩ := List.mem_map.mp isExpanded
    exact within.continueWith (furnished.within_tailOf inTail)

end Strand

/-- A strand and the ones that it was expanded from mention nodes of the layout. -/
def TracedStrand.Within
    (layout : Layout)
    (traced : TracedStrand) :
    Prop :=
  ∀ strand ∈ traced.lineage, strand.Within layout

namespace TracedStrand

variable {chart : Chart}

/-- What one round makes of a strand inside the layout is inside. -/
theorem strand_within_of_mem_refineOnce
    {traced refined : TracedStrand}
    (within : traced.strand.Within chart.layout)
    (furnished : chart.Furnished)
    (isRefined : refined ∈ traced.refineOnce chart) :
    refined.strand.Within chart.layout := by
  unfold refineOnce at isRefined
  split at isRefined
  case isTrue =>
    obtain ⟨expanded, isExpanded, rfl⟩ := List.mem_map.mp isRefined
    exact within.of_mem_expand furnished isExpanded
  case isFalse =>
    rw [List.mem_singleton.mp isRefined]
    exact within

/-- One round of refinement stays inside the layout. -/
theorem Within.of_mem_refineOnce
    {traced refined : TracedStrand}
    (within : traced.Within chart.layout)
    (furnished : chart.Furnished)
    (isRefined : refined ∈ traced.refineOnce chart) :
    refined.Within chart.layout := by
  have refinedWithin :=
    strand_within_of_mem_refineOnce
      (within traced.strand List.mem_cons_self) furnished isRefined
  unfold refineOnce at isRefined
  split at isRefined
  case isTrue =>
    obtain ⟨expanded, _, rfl⟩ := List.mem_map.mp isRefined
    exact List.forall_mem_cons.mpr ⟨refinedWithin, within⟩
  case isFalse =>
    rw [List.mem_singleton.mp isRefined]
    exact within

/-- All rounds of refinement stay inside the layout. -/
theorem within_of_mem_refineRounds
    (furnished : chart.Furnished)
    {fuel : Nat}
    {pending : List TracedStrand}
    (within : ∀ traced ∈ pending, traced.Within chart.layout)
    {refined : TracedStrand}
    (isRefined : refined ∈ refineRounds chart fuel pending) :
    refined.Within chart.layout := by
  induction fuel generalizing pending with
  | zero =>
      exact within refined isRefined
  | succ fuel inductionHypothesis =>
      rw [refineRounds] at isRefined
      split at isRefined
      case isTrue =>
        apply inductionHypothesis _ isRefined
        intro next isNext
        obtain ⟨traced, isPending, fromTraced⟩ := List.mem_flatMap.mp isNext
        exact
          (within traced isPending).of_mem_refineOnce furnished fromTraced
      case isFalse =>
        exact within refined isRefined

end TracedStrand

/--
How many rounds of refinement can go on from the tail of a node: a part is
reached only from nodes with smaller numbers, a terminal from any other node.
-/
def Layout.rounds
    (layout : Layout)
    (id : NodeId) :
    Nat :=
  if id < layout.terminalCount then
    layout.exprCount - layout.terminalCount + 1
  else
    id - layout.terminalCount + 1

/-- A tail can be looked at in at least one round. -/
theorem Layout.rounds_pos
    (layout : Layout)
    (id : NodeId) :
    0 < layout.rounds id := by
  unfold rounds
  split <;> exact Nat.succ_pos _

/-- No more rounds of refinement can go on than there are nodes. -/
theorem Chart.Furnished.rounds_le
    {chart : Chart}
    (furnished : chart.Furnished)
    {id : NodeId}
    (inside : id < chart.layout.nodes.size) :
    chart.layout.rounds id ≤ chart.layout.nodes.size := by
  have counted := furnished.exprCount_le
  unfold Layout.rounds
  split <;> lia

/-- From a node below the top of a rule, tails lead on to nodes with fewer rounds. -/
def Chart.Descends
    (chart : Chart) :
    Prop :=
  ∀ {id strand},
    strand ∈ chart.tailOf id →
    chart.layout.isRule id = false →
    chart.layout.rounds strand.outer < chart.layout.rounds id

/-- A chart whose strands can be followed without refusal and without end. -/
structure Chart.Navigable
    (chart : Chart) :
    Prop where
  furnished : chart.Furnished
  holds : chart.HoldsTerminals chart.follow
  descends : chart.Descends

namespace TracedStrand

variable {chart : Chart}

/-- An expansion that can be expanded again has fewer rounds ahead. -/
theorem rounds_lt_of_mem_refineOnce
    (descends : chart.Descends)
    {traced next : TracedStrand}
    (expandable : traced.strand.expandable chart = true)
    (isNext : next ∈ traced.refineOnce chart)
    (nextExpandable : next.strand.expandable chart = true) :
    chart.layout.rounds next.strand.outer <
      chart.layout.rounds traced.strand.outer := by
  have notRule : chart.layout.isRule traced.strand.outer = false := by
    simpa using (Bool.and_eq_true_iff.mp expandable).2
  rw [refineOnce, if_pos expandable] at isNext
  obtain ⟨expanded, isExpanded, rfl⟩ := List.mem_map.mp isNext
  unfold Strand.expand at isExpanded
  dsimp only at isExpanded
  split at isExpanded
  case isTrue =>
    -- A strand without a tail is not expanded again.
    rw [List.mem_singleton.mp isExpanded] at nextExpandable
    simp [Strand.expandable, Strand.closed] at nextExpandable
  case isFalse =>
    obtain ⟨later, inTail, rfl⟩ := List.mem_map.mp isExpanded
    have fewer := descends inTail notRule
    exact fewer

/-- With fuel for all rounds ahead, refinement ends. -/
theorem refineRounds?_eq_some
    (furnished : chart.Furnished)
    (descends : chart.Descends)
    {fuel : Nat}
    {pending : List TracedStrand}
    (within : ∀ traced ∈ pending, traced.strand.Within chart.layout)
    (positive : 0 < fuel)
    (enough :
      ∀ traced ∈ pending,
        traced.strand.expandable chart = true →
        chart.layout.rounds traced.strand.outer < fuel) :
    refineRounds? chart fuel pending =
      some (refineRounds chart fuel pending) := by
  induction fuel generalizing pending with
  | zero =>
      cases positive
  | succ fuel inductionHypothesis =>
      have visited :
          chart.layout.visit?
              ((pending.filter fun traced => traced.strand.hasTail).map
                fun traced => traced.strand.outer) =
            some () := by
        apply Layout.visit?_eq_some
        intro id isOuter
        obtain ⟨traced, isPending, rfl⟩ := List.mem_map.mp isOuter
        exact (within traced (List.mem_of_mem_filter isPending)).outer_lt
      simp only [refineRounds?, refineRounds, visited,
        Option.bind_eq_bind, Option.bind_some]
      split
      case isFalse =>
        rfl
      case isTrue someExpandable =>
        obtain ⟨traced, isPending, expandable⟩ :=
          List.any_eq_true.mp someExpandable
        have ahead := enough traced isPending expandable
        apply inductionHypothesis
        · intro next isNext
          obtain ⟨source, isPending, ofSource⟩ := List.mem_flatMap.mp isNext
          exact
            strand_within_of_mem_refineOnce (within source isPending)
              furnished ofSource
        · have positive := chart.layout.rounds_pos traced.strand.outer
          lia
        · intro next isNext nextExpandable
          obtain ⟨source, isPending, ofSource⟩ := List.mem_flatMap.mp isNext
          by_cases expandable : source.strand.expandable chart = true
          · have fewer :=
              rounds_lt_of_mem_refineOnce descends expandable ofSource
                nextExpandable
            exact
              Nat.lt_of_lt_of_le fewer
                (Nat.lt_succ_iff.mp (enough source isPending expandable))
          · rw [refineOnce, if_neg expandable] at ofSource
            rw [List.mem_singleton.mp ofSource] at nextExpandable
            exact (expandable nextExpandable).elim

end TracedStrand

/-- The first of each kind are found with the kinds computed beforehand. -/
theorem map_fst_firstOfEach_zip
    [DecidableEq κ]
    (key : α → κ)
    (seen : List κ)
    (elements : List α) :
    (firstOfEach Prod.snd seen
        (elements.zip (elements.map key))).map Prod.fst =
      firstOfEach key seen elements := by
  induction elements generalizing seen with
  | nil =>
      rfl
  | cons element rest inductionHypothesis =>
      simp only [List.map_cons, List.zip_cons_cons, firstOfEach]
      split
      · exact inductionHypothesis seen
      · rw [List.map_cons, inductionHypothesis]

namespace Chart

/-- The strands that lead on from the tails of a chart. -/
inductive Reaches
    (chart : Chart) :
    Strand →
    Prop
  | tail
      {id : NodeId}
      {strand : Strand}
      (inTail : strand ∈ chart.tailOf id) :
      Reaches chart strand
  | expanded
      {strand next : Strand}
      (before : Reaches chart strand)
      (isExpanded : next ∈ strand.expand chart) :
      Reaches chart next
  | refined
      {strand next : Strand}
      {traced : TracedStrand}
      (before : Reaches chart strand)
      (isRefined : traced ∈ strand.refine chart)
      (inLineage : next ∈ traced.lineage) :
      Reaches chart next

/-- Whatever is asked of a strand is answered. -/
structure Answers
    (chart : Chart)
    (strand : Strand) :
    Prop where
  text? :
    strand.text? chart = some (strand.text chart)
  expand? :
    strand.expand? chart = some (strand.expand chart)
  refined? :
    strand.refined? chart = some (strand.refine chart)
  gathered? :
    strand.gathered? chart = some (strand.firstTerms chart)

/-- Whatever is asked of the tail of a node is answered. -/
structure AnswersTail
    (chart : Chart)
    (id : NodeId) :
    Prop where
  tailLines? :
    chart.tailLines? id = some (tailLines chart (chart.tailOf id))
  expandedTail? :
    chart.expandedTail? id = some (chart.expandedTail id)
  uniqueTail? :
    chart.uniqueTail? id = some (chart.uniqueTail id)

namespace Navigable

variable {chart : Chart}

/-- Refining a strand inside the layout ends and stays inside. -/
theorem refined?_eq_some
    (navigable : chart.Navigable)
    {strand : Strand}
    (within : strand.Within chart.layout) :
    strand.refined? chart = some (strand.refine chart) ∧
      ∀ traced ∈ strand.refine chart, traced.Within chart.layout := by
  have single :
      ∀ traced ∈ [TracedStrand.ofStrand strand],
        traced.Within chart.layout := by
    intro traced isSingle
    rw [List.mem_singleton.mp isSingle]
    exact List.forall_mem_singleton.mpr within
  constructor
  · apply TracedStrand.refineRounds?_eq_some navigable.furnished
      navigable.descends _ (Nat.succ_pos _)
    · intro traced isSingle _
      rw [List.mem_singleton.mp isSingle]
      exact
        Nat.lt_succ_of_le (navigable.furnished.rounds_le within.outer_lt)
    · intro traced isSingle
      exact single traced isSingle traced.strand List.mem_cons_self
  · intro traced isRefined
    exact
      TracedStrand.within_of_mem_refineRounds navigable.furnished single
        isRefined

/-- The strands that are reached stay inside the layout. -/
theorem within_of_reaches
    (navigable : chart.Navigable)
    {strand : Strand}
    (reached : chart.Reaches strand) :
    strand.Within chart.layout := by
  induction reached with
  | tail inTail =>
      exact navigable.furnished.within_tailOf inTail
  | expanded before isExpanded inductionHypothesis =>
      exact inductionHypothesis.of_mem_expand navigable.furnished isExpanded
  | refined before isRefined inLineage inductionHypothesis =>
      exact
        (navigable.refined?_eq_some inductionHypothesis).2 _ isRefined _
          inLineage

/-- Whatever is asked of a strand that is reached is answered. -/
theorem answers
    (navigable : chart.Navigable)
    {strand : Strand}
    (reached : chart.Reaches strand) :
    chart.Answers strand := by
  have within := navigable.within_of_reaches reached
  exact
    { text? := within.text?_eq_some
      expand? := within.expand?_eq_some
      refined? := (navigable.refined?_eq_some within).1
      gathered? :=
        navigable.furnished.gathered?_eq_some navigable.holds within }

/-- Whatever is asked of a tail is answered. -/
theorem answersTail
    (navigable : chart.Navigable)
    (id : NodeId) :
    chart.AnswersTail id := by
  have within
      {strand : Strand}
      (inTail : strand ∈ chart.tailOf id) :
      strand.Within chart.layout :=
    navigable.furnished.within_tailOf inTail
  have lines :
      (chart.tailOf id).mapM (Strand.text? chart) =
        some ((chart.tailOf id).map (Strand.text chart)) :=
    mapM_eq_some fun strand inTail => (within inTail).text?_eq_some
  have expanded : chart.expandedTail? id = some (chart.expandedTail id) := by
    have refined :
        (chart.tailOf id).mapM (Strand.refined? chart) =
          some ((chart.tailOf id).map (Strand.refine chart)) :=
      mapM_eq_some fun strand inTail =>
        (navigable.refined?_eq_some (within inTail)).1
    rw [expandedTail?, refined, expandedTail, List.flatMap_def]
    rfl
  have texts :
      ((chart.expandedTail id).mapM fun traced =>
          traced.strand.text? chart) =
        some
          ((chart.expandedTail id).map fun traced =>
            traced.strand.text chart) := by
    apply mapM_eq_some
    intro traced isExpanded
    obtain ⟨strand, inTail, isRefined⟩ := List.mem_flatMap.mp isExpanded
    have tracedWithin :=
      (navigable.refined?_eq_some (within inTail)).2 traced isRefined
    exact
      (tracedWithin traced.strand List.mem_cons_self).text?_eq_some
  refine
    { tailLines? := ?_
      expandedTail? := expanded
      uniqueTail? := ?_ }
  · rw [tailLines?, lines]
    rfl
  · have unique :=
      map_fst_firstOfEach_zip
        (fun traced : TracedStrand => traced.strand.text chart) []
        (chart.expandedTail id)
    rw [uniqueTail?, expanded, uniqueTail, ← unique]
    simp only [Option.bind_eq_bind, Option.bind_some, texts]
    rfl

end Navigable

end Chart

end PegAudit
