import Mathlib.Data.List.Chain
import PegAudit.Proofs.Checked.Analysis

namespace PegAudit

/-!
# Refinement is recursive expansion

Refinement works on all pending strands at once, round by round.  Expanding one
strand after the other, each to its end, gives the same strands in the same
order.  The loop ends because the tail of a node below the top of a rule leads
to the node that owns it, and every strand that comes out keeps what it started
with.
-/

namespace Chart

/--
The worklist: while some pending strand can be expanded, all such strands are.
The calling nodes of the pending strands with a tail are looked at each time.
-/
inductive Loops
    (chart : Chart) :
    List TracedStrand →
    List TracedStrand →
    Prop
  | done
      {pending : List TracedStrand}
      (visited :
        ∀ traced ∈ pending,
          traced.strand.hasTail = true →
          chart.layout.has traced.strand.outer = true)
      (settled :
        ∀ traced ∈ pending, traced.strand.expandable chart = false) :
      Loops chart pending pending
  | round
      {pending result : List TracedStrand}
      (visited :
        ∀ traced ∈ pending,
          traced.strand.hasTail = true →
          chart.layout.has traced.strand.outer = true)
      (unsettled :
        ∃ traced ∈ pending, traced.strand.expandable chart = true)
      (rest :
        Loops chart
          (pending.flatMap (TracedStrand.refineOnce chart)) result) :
      Loops chart pending result

/-- What expanding an older strand of a lineage to a newer one keeps and changes. -/
structure ExpandsTo
    (chart : Chart)
    (older newer : Strand) :
    Prop where
  hasTail : older.hasTail = true
  notRule : chart.layout.isRule older.outer = false
  called_eq : newer.called = older.called
  elements_prefix : older.elements <+: newer.elements
  /-- The newer strand goes on from the one node that owns the older one's. -/
  owner :
    chart.tailOf older.outer ≠ [] →
    ∀ other,
      older.outer ∈ chart.layout.children other ↔ other = newer.outer

end Chart

namespace TracedStrand

/-- Along the lineage older elements are a beginning of newer ones. -/
def Grows
    (traced : TracedStrand) :
    Prop :=
  traced.lineage.Pairwise fun newer older =>
    older.elements <+: newer.elements

/-- A strand is written by hand, or remembers the one it was expanded from. -/
inductive Made :
    TracedStrand →
    Prop
  | byHand
      (strand : Strand) :
      Made (.ofStrand strand)
  | expanded
      {chart : Chart}
      {traced next : TracedStrand}
      (made : Made traced)
      (isExpanded : next ∈ traced.expand chart) :
      Made next

/-- Expand a strand that may have been expanded from others, until none can be. -/
def refine
    (chart : Chart)
    (traced : TracedStrand) :
    List TracedStrand :=
  refineRounds chart (chart.layout.nodes.size + 1) [traced]

/-- What has been refined from a strand that is written by hand. -/
theorem refine_ofStrand
    (chart : Chart)
    (strand : Strand) :
    (ofStrand strand).refine chart = strand.refine chart :=
  rfl

/-- What comes out of the refinement of a strand. -/
structure RefinesTo
    (chart : Chart)
    (traced refined : TracedStrand) :
    Prop where
  settled :
    refined.strand.hasTail = false ∨
      chart.layout.isRule refined.strand.outer = true
  called_eq : refined.strand.called = traced.strand.called
  elements_prefix : traced.strand.elements <+: refined.strand.elements
  /-- Above the lineage of the strand stand its expansions, the latest first. -/
  lineage :
    ∃ above : List Strand,
      refined.lineage = above ++ traced.lineage ∧
        (above ++ [traced.strand]).IsChain fun newer older =>
          chart.ExpandsTo older newer
  grows : traced.Grows → refined.Grows
  made : traced.Made → refined.Made

/-- What refining a strand is. -/
structure RefinesExactly
    (chart : Chart)
    (traced : TracedStrand) :
    Prop where
  loops : chart.Loops [traced] (traced.refine chart)
  of_settled :
    traced.strand.expandable chart = false →
    traced.refine chart = [traced]
  of_expandable :
    traced.strand.expandable chart = true →
    traced.refine chart = (traced.expand chart).flatMap (refine chart)
  /-- No other function inside the layout is defined by these two equations. -/
  unique :
    ∀ defined : TracedStrand → List TracedStrand,
      (∀ other,
        other.strand.Within chart.layout →
        defined other =
          if other.strand.expandable chart then
            (other.expand chart).flatMap defined
          else
            [other]) →
      defined traced = traced.refine chart
  refines_to :
    ∀ refined ∈ traced.refine chart, traced.RefinesTo chart refined
  /-- However the strand came about, its own lineage grows. -/
  own_grows : traced.Made → traced.Grows

variable {chart : Chart}

/-- Rounds that end are those of the worklist. -/
theorem loops_of_refineRounds?
    {fuel : Nat}
    {pending result : List TracedStrand}
    (ends : refineRounds? chart fuel pending = some result) :
    chart.Loops pending result := by
  induction fuel generalizing pending with
  | zero =>
      cases ends
  | succ fuel inductionHypothesis =>
      obtain ⟨_, looked, onward⟩ := Option.bind_eq_some_iff.mp ends
      have visited :
          ∀ traced ∈ pending,
            traced.strand.hasTail = true →
            chart.layout.has traced.strand.outer = true := by
        intro traced isPending hasTail
        unfold Layout.visit? at looked
        split at looked
        case isTrue allThere =>
          exact
            List.all_eq_true.mp allThere _
              (List.mem_map_of_mem
                (List.mem_filter.mpr ⟨isPending, hasTail⟩))
        case isFalse =>
          cases looked
      split at onward
      case isTrue someExpandable =>
        exact
          .round visited (List.any_eq_true.mp someExpandable)
            (inductionHypothesis onward)
      case isFalse noneExpandable =>
        cases onward
        refine .done visited ?_
        intro traced isPending
        apply Bool.eq_false_of_not_eq_true
        intro expandable
        exact
          noneExpandable
            (List.any_eq_true.mpr ⟨traced, isPending, expandable⟩)

/-- An expansion that can be expanded again has fewer rounds ahead. -/
theorem rounds_lt_of_mem_expand
    (descends : chart.Descends)
    {traced next : TracedStrand}
    (expandable : traced.strand.expandable chart = true)
    (isNext : next ∈ traced.expand chart)
    (nextExpandable : next.strand.expandable chart = true) :
    chart.layout.rounds next.strand.outer <
      chart.layout.rounds traced.strand.outer := by
  apply rounds_lt_of_mem_refineOnce descends expandable _ nextExpandable
  rwa [refineOnce, if_pos expandable]

/--
What holds of strands that cannot be expanded, and of a strand if it holds of
its expansions, holds of every strand.
-/
theorem expansion_induction
    (descends : chart.Descends)
    {motive : TracedStrand → Prop}
    (settled :
      ∀ traced,
        traced.strand.expandable chart = false →
        motive traced)
    (expanded :
      ∀ traced,
        traced.strand.expandable chart = true →
        (∀ next ∈ traced.expand chart, motive next) →
        motive traced)
    (traced : TracedStrand) :
    motive traced := by
  induction measured : chart.layout.rounds traced.strand.outer using
    Nat.strong_induction_on generalizing traced with
  | _ rounds inductionHypothesis =>
      subst measured
      cases expandable : traced.strand.expandable chart with
      | false =>
          exact settled traced expandable
      | true =>
          refine expanded traced expandable fun next isNext => ?_
          cases nextExpandable : next.strand.expandable chart with
          | false =>
              exact settled next nextExpandable
          | true =>
              exact
                inductionHypothesis _
                  (rounds_lt_of_mem_expand descends expandable isNext
                    nextExpandable)
                  next rfl

section Depth

/-- Expand one strand after the other, each to a limited depth. -/
def refineWithin
    (chart : Chart) :
    Nat →
    TracedStrand →
    List TracedStrand
  | 0, traced =>
      [traced]
  | depth + 1, traced =>
      (traced.refineOnce chart).flatMap (refineWithin chart depth)

/-- A strand that cannot be expanded is left at any depth. -/
theorem refineWithin_of_not_expandable
    {traced : TracedStrand}
    (settled : traced.strand.expandable chart = false)
    (depth : Nat) :
    traced.refineWithin chart depth = [traced] := by
  induction depth with
  | zero =>
      rfl
  | succ depth inductionHypothesis =>
      rw [refineWithin, refineOnce, settled]
      simpa using inductionHypothesis

/-- Rounds over all pending strands expand each of them to the same depth. -/
theorem refineRounds_eq_flatMap
    (chart : Chart)
    (fuel : Nat)
    (pending : List TracedStrand) :
    refineRounds chart fuel pending =
      pending.flatMap (refineWithin chart fuel) := by
  induction fuel generalizing pending with
  | zero =>
      simp [refineRounds, refineWithin]
  | succ fuel inductionHypothesis =>
      rw [refineRounds]
      split
      case isTrue =>
        rw [inductionHypothesis, List.flatMap_assoc]
        rfl
      case isFalse noneExpandable =>
        have left :
            ∀ traced ∈ pending,
              traced.refineWithin chart (fuel + 1) = [traced] := by
          intro traced isPending
          apply refineWithin_of_not_expandable
          apply Bool.eq_false_of_not_eq_true
          intro expandable
          exact
            noneExpandable
              (List.any_eq_true.mpr ⟨traced, isPending, expandable⟩)
        rw [List.flatMap_congr left]
        simp

/-- Refinement expands to the depth of all nodes. -/
theorem refine_eq_refineWithin
    (chart : Chart)
    (traced : TracedStrand) :
    traced.refine chart =
      traced.refineWithin chart (chart.layout.nodes.size + 1) := by
  rw [refine, refineRounds_eq_flatMap, List.flatMap_singleton]

/-- Of the rounds ahead an expansion leaves one less. -/
theorem enough_of_mem_expand
    (descends : chart.Descends)
    {depth : Nat}
    {traced next : TracedStrand}
    (expandable : traced.strand.expandable chart = true)
    (enough : chart.layout.rounds traced.strand.outer ≤ depth + 1)
    (isNext : next ∈ traced.expand chart)
    (nextExpandable : next.strand.expandable chart = true) :
    chart.layout.rounds next.strand.outer ≤ depth :=
  Nat.le_of_lt_succ
    (Nat.lt_of_lt_of_le
      (rounds_lt_of_mem_expand descends expandable isNext nextExpandable)
      enough)

/-- Deeper than the rounds that can go on nothing is expanded. -/
theorem refineWithin_succ_eq
    (descends : chart.Descends)
    {depth : Nat}
    {traced : TracedStrand}
    (enough :
      traced.strand.expandable chart = true →
      chart.layout.rounds traced.strand.outer ≤ depth) :
    traced.refineWithin chart (depth + 1) =
      traced.refineWithin chart depth := by
  induction traced using expansion_induction descends generalizing depth with
  | settled traced settled =>
      simp only [refineWithin_of_not_expandable settled]
  | expanded traced expandable inductionHypothesis =>
      cases depth with
      | zero =>
          have positive := chart.layout.rounds_pos traced.strand.outer
          exact (Nat.not_le.mpr positive (enough expandable)).elim
      | succ depth =>
          rw [refineWithin, refineWithin, refineOnce, if_pos expandable]
          apply List.flatMap_congr
          intro next isNext
          exact
            inductionHypothesis next isNext
              (enough_of_mem_expand descends expandable (enough expandable)
                isNext)

/-- What has been expanded as often as rounds can go on cannot be expanded. -/
theorem not_expandable_of_mem_refineWithin
    (descends : chart.Descends)
    {depth : Nat}
    {traced refined : TracedStrand}
    (enough :
      traced.strand.expandable chart = true →
      chart.layout.rounds traced.strand.outer ≤ depth)
    (isRefined : refined ∈ traced.refineWithin chart depth) :
    refined.strand.expandable chart = false := by
  induction traced using expansion_induction descends generalizing depth with
  | settled traced settled =>
      rw [refineWithin_of_not_expandable settled] at isRefined
      rw [List.mem_singleton.mp isRefined, settled]
  | expanded traced expandable inductionHypothesis =>
      cases depth with
      | zero =>
          have positive := chart.layout.rounds_pos traced.strand.outer
          exact (Nat.not_le.mpr positive (enough expandable)).elim
      | succ depth =>
          rw [refineWithin, refineOnce, if_pos expandable] at isRefined
          obtain ⟨next, isNext, ofNext⟩ := List.mem_flatMap.mp isRefined
          exact
            inductionHypothesis next isNext
              (enough_of_mem_expand descends expandable (enough expandable)
                isNext)
              ofNext

end Depth

section Recursion

variable
  (navigable : chart.Navigable)
  {traced : TracedStrand}
  (within : traced.strand.Within chart.layout)

/-- A strand that cannot be expanded is its refinement. -/
theorem refine_of_not_expandable
    (settled : traced.strand.expandable chart = false) :
    traced.refine chart = [traced] := by
  rw [refine_eq_refineWithin, refineWithin_of_not_expandable settled]

/-- The expansions of a strand inside the layout are inside. -/
theorem strand_within_of_mem_expand
    (furnished : chart.Furnished)
    (within : traced.strand.Within chart.layout)
    {next : TracedStrand}
    (isNext : next ∈ traced.expand chart) :
    next.strand.Within chart.layout := by
  obtain ⟨expanded, isExpanded, rfl⟩ := List.mem_map.mp isNext
  exact within.of_mem_expand furnished isExpanded

include navigable within

/-- The worklist comes to an end with the refinements. -/
theorem loops_refine :
    chart.Loops [traced] (traced.refine chart) := by
  have enough :=
    Nat.lt_succ_of_le (navigable.furnished.rounds_le within.outer_lt)
  apply loops_of_refineRounds?
  apply refineRounds?_eq_some navigable.furnished navigable.descends _
    (Nat.succ_pos chart.layout.nodes.size)
  · intro other isSingle _
    rwa [List.mem_singleton.mp isSingle]
  · intro other isSingle
    rwa [List.mem_singleton.mp isSingle]

/-- Refining a strand is refining its expansions one after the other. -/
theorem refine_of_expandable
    (expandable : traced.strand.expandable chart = true) :
    traced.refine chart = (traced.expand chart).flatMap (refine chart) := by
  rw [refine_eq_refineWithin, refineWithin, refineOnce, if_pos expandable]
  apply List.flatMap_congr
  intro next isNext
  have nextWithin :=
    strand_within_of_mem_expand navigable.furnished within isNext
  rw [refine_eq_refineWithin]
  exact
    (refineWithin_succ_eq navigable.descends fun _ =>
      navigable.furnished.rounds_le nextWithin.outer_lt).symm

/-- A function that expands in the same way is refinement. -/
theorem eq_refine
    {defined : TracedStrand → List TracedStrand}
    (equation :
      ∀ other,
        other.strand.Within chart.layout →
        defined other =
          if other.strand.expandable chart then
            (other.expand chart).flatMap defined
          else
            [other]) :
    defined traced = traced.refine chart := by
  induction traced using expansion_induction navigable.descends with
  | settled traced settled =>
      rw [equation traced within, refine_of_not_expandable settled]
      simp [settled]
  | expanded traced expandable inductionHypothesis =>
      rw [equation traced within, if_pos expandable,
        refine_of_expandable navigable within expandable]
      apply List.flatMap_congr
      intro next isNext
      exact
        inductionHypothesis next isNext
          (strand_within_of_mem_expand navigable.furnished within isNext)

end Recursion

section Steps

/-- One expansion of a strand that can be expanded. -/
def Step
    (chart : Chart)
    (traced next : TracedStrand) :
    Prop :=
  traced.strand.expandable chart = true ∧ next ∈ traced.expand chart

/-- Some steps lead from a strand to what comes out of it. -/
theorem steps_of_mem_refineWithin
    {depth : Nat}
    {traced refined : TracedStrand}
    (isRefined : refined ∈ traced.refineWithin chart depth) :
    Relation.ReflTransGen (Step chart) traced refined := by
  induction depth generalizing traced with
  | zero =>
      rw [List.mem_singleton.mp isRefined]
  | succ depth inductionHypothesis =>
      obtain ⟨next, isNext, ofNext⟩ := List.mem_flatMap.mp isRefined
      have onward := inductionHypothesis ofNext
      unfold refineOnce at isNext
      split at isNext
      case isTrue expandable =>
        exact .head ⟨expandable, isNext⟩ onward
      case isFalse =>
        rwa [List.mem_singleton.mp isNext] at onward

variable {traced next refined : TracedStrand}

/-- An expansion remembers the strand and all it came from. -/
theorem lineage_of_mem_expand
    (isNext : next ∈ traced.expand chart) :
    next.lineage = next.strand :: traced.lineage := by
  obtain ⟨_, _, rfl⟩ := List.mem_map.mp isNext
  rfl

/-- An expansion calls the same node and adds elements behind. -/
theorem keeps_of_mem_expand
    (isNext : next ∈ traced.expand chart) :
    next.strand.called = traced.strand.called ∧
      traced.strand.elements <+: next.strand.elements := by
  obtain ⟨expanded, isExpanded, rfl⟩ := List.mem_map.mp isNext
  unfold Strand.expand at isExpanded
  dsimp only at isExpanded
  split at isExpanded
  case isTrue =>
    rw [List.mem_singleton.mp isExpanded]
    exact ⟨rfl, List.prefix_rfl⟩
  case isFalse =>
    obtain ⟨later, _, rfl⟩ := List.mem_map.mp isExpanded
    exact ⟨rfl, List.prefix_append _ _⟩

/-- If the lineage of a strand grows, so does that of its expansions. -/
theorem Grows.of_mem_expand
    (grows : traced.Grows)
    (isNext : next ∈ traced.expand chart) :
    next.Grows := by
  have longer := (keeps_of_mem_expand isNext).2
  rw [Grows, lineage_of_mem_expand isNext]
  refine List.pairwise_cons.mpr ⟨?_, grows⟩
  intro older inLineage
  rcases List.mem_cons.mp inLineage with rfl | isOrigin
  · exact longer
  · exact ((List.pairwise_cons.mp grows).1 older isOrigin).trans longer

/-- However a strand came about, its lineage grows. -/
theorem Made.grows
    (made : traced.Made) :
    traced.Grows := by
  induction made with
  | byHand strand =>
      exact List.pairwise_singleton _ strand
  | expanded made isExpanded inductionHypothesis =>
      exact inductionHypothesis.of_mem_expand isExpanded

/-- Steps keep the called node, and the elements at the beginning. -/
theorem keeps_of_steps
    (steps : Relation.ReflTransGen (Step chart) traced refined) :
    refined.strand.called = traced.strand.called ∧
      traced.strand.elements <+: refined.strand.elements := by
  induction steps with
  | refl =>
      exact ⟨rfl, List.prefix_rfl⟩
  | tail _ step inductionHypothesis =>
      obtain ⟨sameCalled, longer⟩ := keeps_of_mem_expand step.2
      exact
        ⟨sameCalled.trans inductionHypothesis.1,
          inductionHypothesis.2.trans longer⟩

/-- Along some steps lineages keep growing. -/
theorem Grows.of_steps
    (grows : traced.Grows)
    (steps : Relation.ReflTransGen (Step chart) traced refined) :
    refined.Grows := by
  induction steps with
  | refl =>
      exact grows
  | tail _ step inductionHypothesis =>
      exact inductionHypothesis.of_mem_expand step.2

/-- Strands that come out of some steps remember what they came from. -/
theorem Made.of_steps
    (made : traced.Made)
    (steps : Relation.ReflTransGen (Step chart) traced refined) :
    refined.Made := by
  induction steps with
  | refl =>
      exact made
  | tail _ step inductionHypothesis =>
      exact inductionHypothesis.expanded step.2

/-- Steps keep the strand that a lineage goes back to. -/
theorem getLast?_lineage_of_steps
    (steps : Relation.ReflTransGen (Step chart) traced refined) :
    refined.lineage.getLast? = traced.lineage.getLast? := by
  induction steps with
  | refl =>
      rfl
  | tail _ step inductionHypothesis =>
      rw [lineage_of_mem_expand step.2, ← inductionHypothesis]
      exact List.getLast?_cons_cons

/-- Whatever is refined from a strand without origins goes back to that strand. -/
theorem getLast?_lineage_of_mem_refine
    {strand : Strand}
    (isRefined : refined ∈ strand.refine chart) :
    refined.lineage.getLast? = some strand := by
  rw [← refine_ofStrand, refine_eq_refineWithin] at isRefined
  exact getLast?_lineage_of_steps (steps_of_mem_refineWithin isRefined)

end Steps

end TracedStrand

/-- Below the top of a rule, tails lead on from the one node that owns a node. -/
def Chart.LeadsToOwner
    (chart : Chart) :
    Prop :=
  ∀ {id strand},
    strand ∈ chart.tailOf id →
    chart.layout.isRule id = false →
    ∀ other,
      id ∈ chart.layout.children other ↔ other = strand.outer

namespace TracedStrand

variable
  {chart : Chart}
  {traced next refined : TracedStrand}

/-- A step leads on from the node that owns the calling node. -/
theorem Step.expandsTo
    (leadsToOwner : chart.LeadsToOwner)
    (step : Step chart traced next) :
    chart.ExpandsTo traced.strand next.strand := by
  obtain ⟨expandable, isNext⟩ := step
  obtain ⟨sameCalled, longer⟩ := keeps_of_mem_expand isNext
  obtain ⟨hasTail, below⟩ := Bool.and_eq_true_iff.mp expandable
  have notRule : chart.layout.isRule traced.strand.outer = false := by
    simpa using below
  refine
    { hasTail := hasTail
      notRule := notRule
      called_eq := sameCalled
      elements_prefix := longer
      owner := ?_ }
  intro hasStrands
  obtain ⟨expanded, isExpanded, rfl⟩ := List.mem_map.mp isNext
  unfold Strand.expand at isExpanded
  dsimp only at isExpanded
  rw [if_neg (by simp [hasTail, hasStrands])] at isExpanded
  obtain ⟨later, inTail, rfl⟩ := List.mem_map.mp isExpanded
  have owner := leadsToOwner inTail notRule
  exact owner

/-- Steps put their strands above the lineage, the latest first. -/
theorem exists_above_of_steps
    (leadsToOwner : chart.LeadsToOwner)
    (steps : Relation.ReflTransGen (Step chart) traced refined) :
    ∃ above : List Strand,
      refined.lineage = above ++ traced.lineage ∧
        (above ++ [traced.strand]).IsChain fun newer older =>
          chart.ExpandsTo older newer := by
  induction steps using Relation.ReflTransGen.head_induction_on with
  | refl =>
      exact ⟨[], rfl, List.isChain_singleton _⟩
  | @head traced next step _ inductionHypothesis =>
      obtain ⟨above, sameLineage, chain⟩ := inductionHypothesis
      refine ⟨above ++ [next.strand], ?_, ?_⟩
      · rw [sameLineage, lineage_of_mem_expand step.2, List.append_assoc]
        rfl
      · rw [List.append_assoc]
        exact
          List.isChain_append_cons_cons.mpr
            ⟨chain, step.expandsTo leadsToOwner, List.isChain_singleton _⟩

/-- Refinement is recursive expansion, and what comes out keeps what went in. -/
theorem refinesExactly
    (navigable : chart.Navigable)
    (leadsToOwner : chart.LeadsToOwner)
    (within : traced.strand.Within chart.layout) :
    traced.RefinesExactly chart where
  loops := loops_refine navigable within
  of_settled := refine_of_not_expandable
  of_expandable := refine_of_expandable navigable within
  unique _ equation := eq_refine navigable within equation
  own_grows := Made.grows
  refines_to := by
    intro refined isRefined
    rw [refine_eq_refineWithin] at isRefined
    have steps := steps_of_mem_refineWithin isRefined
    have settled :=
      not_expandable_of_mem_refineWithin navigable.descends
        (fun _ =>
          Nat.le_succ_of_le
            (navigable.furnished.rounds_le within.outer_lt))
        isRefined
    have ended :
        refined.strand.hasTail = false ∨
          chart.layout.isRule refined.strand.outer = true := by
      simpa only [Strand.expandable, Bool.and_eq_false_iff,
        Bool.not_eq_false'] using settled
    obtain ⟨sameCalled, longer⟩ := keeps_of_steps steps
    exact
      { settled := ended
        called_eq := sameCalled
        elements_prefix := longer
        lineage := exists_above_of_steps leadsToOwner steps
        grows := fun grows => grows.of_steps steps
        made := fun made => made.of_steps steps }

end TracedStrand

namespace Layout

variable
  {layout : Layout}
  {options : Options}

/-- The nodes of an analysis have the parts they have in its layout. -/
theorem children_analyze :
    (layout.analyze options).layout.children = layout.children := by
  rcases layout.layout_analyze options with same | extended
  · rw [same]
  · rw [extended]
    funext id
    by_cases last : id = layout.nodes.size
    · subst id
      simp [children, shape?, node?, withRemainder, remainderNode,
        Shape.children]
    · simp [children, shape?, node?, withRemainder, Array.getElem?_push,
        last]

end Layout

namespace Grammar

/-- In every analysis the tails below a rule lead on from owners. -/
theorem leadsToOwner_analyze
    {grammar : Grammar}
    (clean : grammar.defects = [])
    (options : Options) :
    (grammar.layOut.analyze options).chart.LeadsToOwner := by
  have wellNumbered := wellNumbered_layOut clean
  intro id strand inTail notRule other
  have sameChildren :
      (grammar.layOut.analyze options).chart.layout.children =
        grammar.layOut.children :=
    Layout.children_analyze
  rw [sameChildren]
  have owned : id ∈ grammar.layOut.children strand.outer := by
    unfold Layout.analyze at inTail notRule
    dsimp only at inTail notRule
    split at inTail
    case isTrue noFaults =>
      rw [if_pos noFaults] at notRule
      obtain ⟨rfl, isStrand, notTop⟩ :=
        wellNumbered.mem_strands_of_mem_tailOf isRule_layOut_iff inTail
          notRule
      exact (wellNumbered.mem_children_of_mem_strands isStrand notTop).2
    case isFalse =>
      rw [Layout.tailOf_ofAttrs] at inTail
      cases inTail
  constructor
  · exact fun shared => owner_eq clean shared owned
  · rintro rfl
    exact owned

/-- Behind a letter another round or the end of the input follows. -/
def afterLetter : TracedStrand :=
  .ofStrand { called := 0, outer := 5, elements := [], hasTail := true }

end Grammar

end PegAudit
