import PegAudit.Proofs.Analysis.Tails
import PegAudit.Proofs.Analysis.View

namespace PegAudit

/-!
# Refining a strand keeps its first terminals

The computed first terminals of tails are exact: a terminal is in the entry of
a node exactly if some strand of the node's tail contributes it.  So replacing
the tail of a strand's calling node by the strands of that tail neither loses
nor adds a first terminal, and neither do the rounds of refinement.
-/

namespace Strand

variable {chart : Chart}

/-- First terminals along a strand have the room of all terminals. -/
theorem room_firstTermsIn
    (follow : Array IndexSet)
    (strand : Strand) :
    (strand.firstTermsIn chart follow).room = chart.noTerminals.room := by
  unfold firstTermsIn
  dsimp only
  split <;> simp

/-- A larger table of first terminals of tails gives no less along a strand. -/
theorem contains_firstTermsIn_mono
    {smaller larger : Array IndexSet}
    (included :
      ∀ {id terminal : NodeId},
        (smaller[id]?.getD chart.noTerminals).contains terminal = true →
        (larger[id]?.getD chart.noTerminals).contains terminal = true)
    {strand : Strand}
    {terminal : NodeId}
    (member :
      (strand.firstTermsIn chart smaller).contains terminal = true) :
    (strand.firstTermsIn chart larger).contains terminal = true := by
  rw [contains_firstTermsIn] at member ⊢
  obtain ⟨inRoom, opens | ⟨passes, follows⟩⟩ := member
  · exact ⟨inRoom, .inl opens⟩
  · exact ⟨inRoom, .inr ⟨passes, included follows⟩⟩

/-- A strand that goes on with another contributes what both do in turn. -/
theorem contains_firstTerms_continueWith
    {strand next : Strand}
    {terminal : NodeId} :
    ((strand.continueWith next).firstTerms chart).contains terminal =
        true ↔
      (terminal < chart.noTerminals.room ∧
          ∃ element ∈ strand.opening chart.attrs,
            (chart.firstOf element).contains terminal = true) ∨
        ((∀ element ∈ strand.elements,
            (chart.attrs.of element).transparent = true) ∧
          (next.firstTerms chart).contains terminal = true) := by
  rw [firstTerms, firstTerms, contains_firstTermsIn, contains_firstTermsIn]
  simp only [opening, passesThrough, continueWith,
    AttrTable.mem_reachable_append, List.all_append, Bool.and_eq_true,
    List.all_eq_true]
  grind

end Strand

namespace Chart

variable {chart : Chart}

/-- Every member of an entry is contributed by a strand of the node's tail. -/
def Supported
    (chart : Chart)
    (follow : Array IndexSet) :
    Prop :=
  ∀ {id terminal : NodeId},
    (follow[id]?.getD chart.noTerminals).contains terminal = true →
    ∃ strand ∈ chart.tailOf id,
      (strand.firstTermsIn chart follow).contains terminal = true

/-- An update adds only what a strand contributes, and takes nothing away. -/
theorem Supported.updateEntry
    {follow : Array IndexSet}
    (supported : chart.Supported follow)
    (index : NodeId) :
    chart.Supported (updateEntry chart.updateFollow follow index) := by
  intro id terminal member
  have contributed :
      ∃ strand ∈ chart.tailOf id,
        (strand.firstTermsIn chart follow).contains terminal = true := by
    rcases contains_or_of_contains_updateEntry member with wasThere | added
    · exact supported wasThere
    · exact added
  obtain ⟨strand, inTail, contributes⟩ := contributed
  exact
    ⟨strand, inTail,
      Strand.contains_firstTermsIn_mono contains_updateEntry_of_contains
        contributes⟩

/-- The first terminals of a tail are what the strands of the tail contribute. -/
structure Exact
    (chart : Chart) :
    Prop where
  room_followOf :
    ∀ id, (chart.followOf id).room = chart.noTerminals.room
  contains_followOf :
    ∀ {id terminal},
      (chart.followOf id).contains terminal = true ↔
        ∃ strand ∈ chart.tailOf id,
          (strand.firstTerms chart).contains terminal = true

/-- Terminals that may start what follows along one of the strands. -/
def firstTermsOf
    (chart : Chart)
    (strands : List Strand) :
    IndexSet :=
  (strands.map (Strand.firstTerms chart)).foldl IndexSet.union
    chart.noTerminals

/-- The members of a union of first terminals are those of the strands. -/
theorem contains_firstTermsOf
    {strands : List Strand}
    {terminal : NodeId} :
    (chart.firstTermsOf strands).contains terminal = true ↔
      ∃ strand ∈ strands,
        (strand.firstTerms chart).contains terminal = true := by
  have nothing : chart.noTerminals.contains terminal = false :=
    IndexSet.contains_empty _ _
  rw [firstTermsOf, IndexSet.contains_foldl_union, nothing]
  simp only [Bool.false_or, Bool.and_eq_true, List.any_map,
    List.any_eq_true, decide_eq_true_eq, Function.comp_apply]
  constructor
  · exact And.left
  · rintro ⟨strand, member, contributes⟩
    exact
      ⟨⟨strand, member, contributes⟩,
        (Strand.contains_firstTermsIn.mp contributes).1⟩

/-- A set with room for all terminals is a union if it has its members. -/
theorem eq_firstTermsOf
    {terms : IndexSet}
    (sameRoom : terms.room = chart.noTerminals.room)
    {strands : List Strand}
    (sameMembers :
      ∀ {terminal},
        terms.contains terminal = true ↔
          ∃ strand ∈ strands,
            (strand.firstTerms chart).contains terminal = true) :
    terms = chart.firstTermsOf strands := by
  apply IndexSet.eq_of_contains_eq
  · rw [sameRoom, firstTermsOf, IndexSet.room_foldl_union]
  · funext terminal
    apply Bool.eq_iff_iff.mpr
    rw [sameMembers, contains_firstTermsOf]

namespace Exact

/-- One of the expansions contributes exactly what the strand does. -/
theorem contains_firstTerms_iff_expand
    (exact : chart.Exact)
    {strand : Strand}
    {terminal : NodeId} :
    (strand.firstTerms chart).contains terminal = true ↔
      ∃ expanded ∈ strand.expand chart,
        (expanded.firstTerms chart).contains terminal = true := by
  have passedOn :
      ((chart.follow[strand.outer]?).getD chart.noTerminals).contains
          terminal = true ↔
        ∃ next ∈ chart.tailOf strand.outer,
          (next.firstTerms chart).contains terminal = true :=
    exact.contains_followOf
  unfold Strand.expand
  dsimp only
  split
  case isTrue stops =>
    -- Closing the strand matters only where its tail has a first terminal.
    simp only [List.mem_singleton, exists_eq_left, Strand.firstTerms,
      Strand.contains_firstTermsIn]
    have noneFollow :
        ¬ (strand.passesThrough chart.attrs = true ∧
            ((chart.follow[strand.outer]?).getD
              chart.noTerminals).contains terminal = true) := by
      rw [passedOn]
      rintro ⟨passes, next, inTail, _⟩
      have hasTail := (Bool.and_eq_true_iff.mp passes).1
      rw [hasTail, Bool.not_true, Bool.false_or,
        List.isEmpty_iff] at stops
      rw [stops] at inTail
      cases inTail
    have closedStops :
        strand.closed.passesThrough chart.attrs = false :=
      Bool.false_and _
    simp only [noneFollow, closedStops, Bool.false_eq_true, false_and,
      or_false]
    rfl
  case isFalse goesOn =>
    simp only [Bool.or_eq_true, Bool.not_eq_true', not_or,
      Bool.not_eq_false, List.isEmpty_iff] at goesOn
    obtain ⟨hasTail, nonempty⟩ := goesOn
    obtain ⟨some, isSome⟩ := List.exists_mem_of_ne_nil _ nonempty
    simp only [List.mem_map, exists_exists_and_eq_and,
      Strand.contains_firstTerms_continueWith]
    rw [Strand.firstTerms, Strand.contains_firstTermsIn, passedOn]
    simp only [Strand.passesThrough, hasTail, Bool.true_and,
      List.all_eq_true]
    constructor
    · rintro ⟨inRoom, opens | ⟨passed, next, inTail, contributes⟩⟩
      · exact ⟨some, isSome, .inl ⟨inRoom, opens⟩⟩
      · exact ⟨next, inTail, .inr ⟨passed, contributes⟩⟩
    · rintro ⟨next, inTail, ⟨inRoom, opens⟩ | ⟨passed, contributes⟩⟩
      · exact ⟨inRoom, .inl opens⟩
      · exact
          ⟨(Strand.contains_firstTermsIn.mp contributes).1,
            .inr ⟨passed, next, inTail, contributes⟩⟩

/-- One round of refinement of a strand keeps what it contributes. -/
theorem contains_firstTerms_iff_refineOnce
    (exact : chart.Exact)
    {traced : TracedStrand}
    {terminal : NodeId} :
    (∃ refined ∈ traced.refineOnce chart,
        (refined.strand.firstTerms chart).contains terminal = true) ↔
      (traced.strand.firstTerms chart).contains terminal = true := by
  unfold TracedStrand.refineOnce
  split
  case isTrue =>
    rw [exact.contains_firstTerms_iff_expand]
    simp [TracedStrand.expand]
  case isFalse =>
    simp

/-- The rounds of refinement keep what the pending strands contribute. -/
theorem contains_firstTerms_iff_refineRounds
    (exact : chart.Exact)
    {terminal : NodeId}
    (fuel : Nat)
    (pending : List TracedStrand) :
    (∃ traced ∈ TracedStrand.refineRounds chart fuel pending,
        (traced.strand.firstTerms chart).contains terminal = true) ↔
      ∃ traced ∈ pending,
        (traced.strand.firstTerms chart).contains terminal = true := by
  induction fuel generalizing pending with
  | zero =>
      rfl
  | succ fuel inductionHypothesis =>
      rw [TracedStrand.refineRounds]
      split
      case isFalse =>
        rfl
      case isTrue =>
        rw [inductionHypothesis]
        constructor
        · rintro ⟨refined, member, contributes⟩
          obtain ⟨traced, isPending, fromTraced⟩ :=
            List.mem_flatMap.mp member
          exact
            ⟨traced, isPending,
              exact.contains_firstTerms_iff_refineOnce.mp
                ⟨refined, fromTraced, contributes⟩⟩
        · rintro ⟨traced, isPending, contributes⟩
          obtain ⟨refined, fromTraced, contributes⟩ :=
            exact.contains_firstTerms_iff_refineOnce.mpr contributes
          exact
            ⟨refined, List.mem_flatMap.mpr ⟨traced, isPending, fromTraced⟩,
              contributes⟩

/-- One of the refinements contributes exactly what the strand does. -/
theorem contains_firstTerms_iff_refine
    (exact : chart.Exact)
    {strand : Strand}
    {terminal : NodeId} :
    (strand.firstTerms chart).contains terminal = true ↔
      ∃ refined ∈ (strand.refine chart).map TracedStrand.strand,
        (refined.firstTerms chart).contains terminal = true := by
  simp only [List.mem_map, exists_exists_and_eq_and, Strand.refine,
    exact.contains_firstTerms_iff_refineRounds, List.mem_singleton,
    exists_eq_left, TracedStrand.ofStrand]

end Exact

/-- A chart of which only the attributes are known has empty tails. -/
theorem exact_ofAttrs
    (layout : Layout)
    (table : AttrTable) :
    (ofAttrs layout table).Exact where
  room_followOf := by
    intro id
    by_cases present : id < layout.nodes.size <;>
      simp [followOf, ofAttrs, noTerminals, present]
  contains_followOf := by
    intro id terminal
    by_cases present : id < layout.nodes.size <;>
      simp [followOf, tailOf, ofAttrs, noTerminals, present]

end Chart

namespace Layout

variable {layout : Layout}

/-- The table that sweeping starts from needs no support: it is empty. -/
theorem supported_follow_openChart
    (layout : Layout)
    (options : Options) :
    (layout.openChart options).Supported
      (layout.openChart options).follow := by
  intro id terminal member
  rw [layout.follow_openChart, Chart.contains_emptyFollow] at member
  cases member

/-- Sweeping to the end makes the chart of an analysis exact. -/
theorem WellNumbered.exact_fillFollow
    (wellNumbered : layout.WellNumbered)
    (options : Options) :
    (layout.openChart options).fillFollow.Exact where
  room_followOf := by
    intro id
    have atEnd := (wellNumbered.prepared_openChart options).holds_fillFollow
    cases present : (layout.openChart options).fillFollow.follow[id]? with
    | none =>
        simp [Chart.followOf, present]
    | some entry =>
        rw [Chart.followOf, present]
        exact atEnd.room_eq present
  contains_followOf := by
    intro id terminal
    constructor
    · intro member
      have supported :
          (layout.openChart options).Supported
            (layout.openChart options).fillFollow.follow :=
        settle_sweep_preserves (layout.openChart options).Supported
          (fun index before => before.updateEntry index) _ _
          (layout.supported_follow_openChart options)
      exact supported member
    · rintro ⟨strand, inTail, contributes⟩
      obtain ⟨rfl, counted⟩ := wellNumbered.called_eq_of_mem_tailOf inTail
      rw [← (wellNumbered.describes_openChart options).exprCount_eq]
        at counted
      exact
        (wellNumbered.prepared_openChart options).contains_followOf
          counted inTail contributes

/-- The chart of every analysis is exact. -/
theorem WellNumbered.exact_analyze
    (wellNumbered : layout.WellNumbered)
    (options : Options) :
    (layout.analyze options).chart.Exact := by
  unfold analyze
  dsimp only
  split
  · exact wellNumbered.exact_fillFollow options
  · exact Chart.exact_ofAttrs layout layout.attrs

end Layout

namespace Grammar

/--
Expanding or refining a strand keeps its first terminals, whatever the strand,
and the first terminals of a tail are those of the tail's refinements.
-/
theorem firstTermsOf_refinements
    {grammar : Grammar}
    {options : Options}
    {analysis : Analysis}
    (analyzed : grammar.analyze options = .ok analysis) :
    (∀ strand : Strand,
        analysis.chart.firstTermsOf (strand.expand analysis.chart) =
            strand.firstTerms analysis.chart ∧
          analysis.chart.firstTermsOf
              ((strand.refine analysis.chart).map TracedStrand.strand) =
            strand.firstTerms analysis.chart) ∧
      ∀ id ∈ analysis.layout.ids,
        analysis.chart.followOf id =
          analysis.chart.firstTermsOf
            ((analysis.chart.expandedTail id).map
              TracedStrand.strand) := by
  obtain ⟨clean, rfl⟩ := analyze_eq_ok_iff.mp analyzed
  have exact := (wellNumbered_layOut clean).exact_analyze options
  refine ⟨fun strand => ⟨?_, ?_⟩, fun id _ => ?_⟩
  · symm
    apply Chart.eq_firstTermsOf (strand.room_firstTermsIn _)
    exact exact.contains_firstTerms_iff_expand
  · symm
    apply Chart.eq_firstTermsOf (strand.room_firstTermsIn _)
    exact exact.contains_firstTerms_iff_refine
  · apply Chart.eq_firstTermsOf (exact.room_followOf id)
    intro terminal
    rw [exact.contains_followOf, Chart.expandedTail, List.map_flatMap]
    constructor
    · rintro ⟨strand, inTail, contributes⟩
      obtain ⟨refined, fromStrand, contributes⟩ :=
        exact.contains_firstTerms_iff_refine.mp contributes
      exact
        ⟨refined, List.mem_flatMap.mpr ⟨strand, inTail, fromStrand⟩,
          contributes⟩
    · rintro ⟨refined, member, contributes⟩
      obtain ⟨strand, inTail, fromStrand⟩ := List.mem_flatMap.mp member
      exact
        ⟨strand, inTail,
          exact.contains_firstTerms_iff_refine.mpr
            ⟨refined, fromStrand, contributes⟩⟩

/-- A strand made by hand. -/
def beforeReference : Strand :=
  { called := 1
    outer := 5
    elements := []
    hasTail := true }

/--
Behind a reference to the brackets stands a closing bracket: refining the
strand made by hand finds it, and so does the tail of the digit.
-/
theorem firstTermsOf_refinements_brackets :
    brackets.analyze {} = .ok (brackets.layOut.analyze {}) ∧
      (brackets.layOut.analyze {}).chart.firstTermsOf
          ((beforeReference.refine
            (brackets.layOut.analyze {}).chart).map
              TracedStrand.strand) =
        IndexSet.ofList 3 [1] ∧
      (brackets.layOut.analyze {}).chart.firstTermsOf
          (((brackets.layOut.analyze {}).chart.expandedTail 2).map
            TracedStrand.strand) =
        IndexSet.ofList 3 [1] := by
  have analyzed :
      brackets.analyze {} = .ok (brackets.layOut.analyze {}) :=
    analyze_eq_ok_iff.mpr ⟨defects_brackets, rfl⟩
  have isExpression : 2 ∈ (brackets.layOut.analyze {}).layout.ids := by
    decide +kernel
  obtain ⟨ofStrand, ofTail⟩ := firstTermsOf_refinements analyzed
  refine ⟨analyzed, ?_, ?_⟩
  · rw [(ofStrand beforeReference).2]
    decide +kernel
  · rw [← ofTail 2 isExpression]
    decide +kernel

end Grammar

end PegAudit
