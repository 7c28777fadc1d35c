import PegAudit.Proofs.Checked.Analysis
import PegAudit.Proofs.Conflicts.Places
import PegAudit.Proofs.Relations.Disjointness

namespace PegAudit

/-!
# Exactly the conflicts are listed

A conflict is reported wherever a decision lets some pair of terminals collide,
with all colliding pairs, and nowhere else.
-/

/-- The decision that a conflict is about. -/
def Conflict.decision
    (conflict : Conflict) :
    Decision :=
  { first := conflict.first
    second := conflict.second
    owner := conflict.owner }

namespace Analysis

variable
  (analysis : Analysis)

/--
Two terminals lead the two ways of a decision and are not disjoint.  The tail is
seen from the second way if there is no second alternative or it is transparent.
-/
def Collides
    (decision : Decision)
    (left right : NodeId) :
    Prop :=
  (analysis.chart.firstOf decision.first).contains left = true ∧
    ((∃ second ∈ decision.second,
        (analysis.chart.firstOf second).contains right = true) ∨
      ((∀ second ∈ decision.second,
          (analysis.chart.attrsOf second).transparent = true) ∧
        (analysis.chart.followOf decision.owner).contains right = true)) ∧
      ¬ analysis.relations.disjoint.Relates left right

/-- The conflict is that of a place, with the colliding pairs in order. -/
structure ReportedAt
    (place : Place)
    (conflict : Conflict) :
    Prop where
  decides : analysis.layout.DecidesAt place conflict.decision
  nonempty : conflict.pairs ≠ []
  /-- By the left terminal, then by the right one, each pair once. -/
  ascending : conflict.pairs.Pairwise (Prod.Lex (· < ·) (· < ·))
  mem_iff :
    ∀ left right,
      (left, right) ∈ conflict.pairs ↔
        analysis.Collides conflict.decision left right

/-- The conflicts are those of the places where something collides, in order. -/
structure ConflictsExact :
    Prop where
  /-- Intersecting products with the relation finds these conflicts. -/
  conflicts?_eq :
    analysis.chart.conflicts? analysis.relations = some analysis.conflicts
  listed :
    ∃ places : List Place,
      List.Forall₂ analysis.ReportedAt places analysis.conflicts ∧
        (∀ place,
          place ∈ places ↔
            ∃ decision left right,
              analysis.layout.DecidesAt place decision ∧
                analysis.Collides decision left right) ∧
          places.Pairwise fun earlier later =>
            analysis.layout.name earlier.owner <
                analysis.layout.name later.owner ∨
              analysis.layout.name earlier.owner =
                  analysis.layout.name later.owner ∧
                earlier.Before later

end Analysis

namespace Analysis

section Listing

variable
  {analysis : Analysis}
  (terminated : analysis.chart.Terminated)
  (uniform :
    analysis.relations.nonDisjoint.Uniform analysis.chart.noTerminals.room)
  (nonDisjoint_iff :
    ∀ left right,
      analysis.relations.nonDisjoint.Relates left right ↔
        left < analysis.layout.terminalCount ∧
          right < analysis.layout.terminalCount ∧
            ¬ analysis.relations.disjoint.Relates left right)
  (compound :
    ∀ {place decision},
      analysis.layout.DecidesAt place decision →
      place.owner ∈ analysis.layout.compoundIds)

include terminated uniform nonDisjoint_iff in
/-- The pairs that are listed for a decision are those that collide. -/
theorem mem_collisions_iff_collides
    (decision : Decision)
    (left right : NodeId) :
    (left, right) ∈ analysis.chart.collisions analysis.relations decision ↔
      analysis.Collides decision left right := by
  rw [terminated.mem_collisions_iff uniform, nonDisjoint_iff]
  unfold Collides
  rw [← terminated.contains_secondTerms_iff]
  constructor
  · rintro ⟨leadsFirst, leadsSecond, _, _, apart⟩
    exact ⟨leadsFirst, leadsSecond, apart⟩
  · rintro ⟨leadsFirst, leadsSecond, apart⟩
    exact
      ⟨leadsFirst, leadsSecond, terminated.firstOf_lt leadsFirst,
        terminated.secondTerms_lt leadsSecond, apart⟩

include compound in
/-- A conflict is listed at the place of the decision it comes from. -/
theorem mem_listedConflicts_iff
    {place : Place}
    {conflict : Conflict} :
    (place, conflict) ∈
        analysis.chart.listedConflicts analysis.relations ↔
      ∃ decision,
        analysis.layout.DecidesAt place decision ∧
          analysis.chart.conflict? analysis.relations decision =
            some conflict := by
  rw [Chart.listedConflicts, List.mem_mergeSort,
    Chart.mem_placedConflicts_iff]
  simp only [Chart.mem_placedDecisions_iff]
  refine exists_congr fun decision => and_congr_left fun _ => ?_
  exact and_iff_right_of_imp compound

include terminated uniform nonDisjoint_iff compound in
/-- A chart whose relation of colliding terminals is right lists all conflicts. -/
theorem conflictsExact
    (conflicts_eq :
      analysis.conflicts = analysis.chart.conflicts analysis.relations)
    (conflicts?_eq :
      analysis.chart.conflicts? analysis.relations =
        some (analysis.chart.conflicts analysis.relations)) :
    analysis.ConflictsExact := by
  have mem_collisions :=
    mem_collisions_iff_collides terminated uniform nonDisjoint_iff
  refine
    { conflicts?_eq := by rw [conflicts_eq, conflicts?_eq]
      listed :=
        ⟨(analysis.chart.listedConflicts analysis.relations).map Prod.fst,
          ?_, ?_, ?_⟩ }
  · rw [conflicts_eq, ← Chart.map_snd_listedConflicts,
      List.forall₂_map_left_iff, List.forall₂_map_right_iff,
      List.forall₂_same]
    rintro ⟨place, conflict⟩ listed
    obtain ⟨decision, decides, isConflict⟩ :=
      (mem_listedConflicts_iff compound).mp listed
    obtain ⟨nonempty, rfl⟩ := Chart.conflict?_eq_some_iff.mp isConflict
    exact
      { decides := decides
        nonempty := nonempty
        ascending := Chart.pairwise_collisions _ _ decision
        mem_iff := mem_collisions decision }
  · intro place
    rw [List.mem_map]
    constructor
    · rintro ⟨⟨_, conflict⟩, listed, rfl⟩
      obtain ⟨decision, decides, isConflict⟩ :=
        (mem_listedConflicts_iff compound).mp listed
      obtain ⟨nonempty, _⟩ := Chart.conflict?_eq_some_iff.mp isConflict
      obtain ⟨⟨left, right⟩, collides⟩ :=
        List.exists_mem_of_ne_nil _ nonempty
      exact
        ⟨decision, left, right, decides,
          (mem_collisions decision left right).mp collides⟩
    · rintro ⟨decision, left, right, decides, collides⟩
      have nonempty :=
        List.ne_nil_of_mem ((mem_collisions decision left right).mpr collides)
      exact
        ⟨(place, _),
          (mem_listedConflicts_iff compound).mpr
            ⟨decision, decides,
              Chart.conflict?_eq_some_iff.mpr ⟨nonempty, rfl⟩⟩,
          rfl⟩
  · rw [List.pairwise_map]
    exact Chart.pairwise_listedConflicts _ _

end Listing

end Analysis

namespace Layout

variable
  {layout : Layout}
  {options : Options}

/-- Decisions are made at nodes that are not terminals. -/
theorem WellNumbered.mem_compoundIds_of_decidesAt
    (wellNumbered : layout.WellNumbered)
    {place : Place}
    {decision : Decision}
    (decides :
      (layout.analyze options).layout.DecidesAt place decision) :
    place.owner ∈ layout.compoundIds := by
  cases decides with
  | alternatives shape =>
      exact
        wellNumbered.mem_compoundIds (shape?_of_shape?_analyze shape nofun) rfl
  | repetition shape =>
      exact
        wellNumbered.mem_compoundIds (shape?_of_shape?_analyze shape nofun) rfl

/-- Well-formed analyses list exactly their conflicts if these are asked for. -/
theorem WellNumbered.conflictsExact
    (wellNumbered : layout.WellNumbered)
    (wellFormed : (layout.analyze options).wellFormed = true)
    (reported : options.conflicts = true) :
    (layout.analyze options).ConflictsExact := by
  have noFaults := faults_eq_nil_of_wellFormed wellFormed
  have sameChart :
      (layout.analyze options).chart =
        (layout.openChart options).fillFollow := by
    rw [analyze_eq_of_faults_eq_nil noFaults]
  have sameConflicts :
      (layout.analyze options).conflicts =
        (layout.openChart options).fillFollow.conflicts
          (layout.relations layout.attrs) := by
    rw [analyze_eq_of_faults_eq_nil noFaults]
    exact if_pos reported
  have sameCompounds :
      (layout.analyze options).layout.compoundIds = layout.compoundIds := by
    simp only [compoundIds, terminalCount_analyze, exprCount_analyze]
  apply Analysis.conflictsExact
  · rw [sameChart]
    exact wellNumbered.terminated_fillFollow options
  · rw [sameChart, relations_analyze]
    exact wellNumbered.uniform_nonDisjoint_openChart options
  · intro left right
    rw [disjoint_analyze, nonDisjoint_analyze, terminalCount_analyze]
    exact relates_complement_disjointTerminals_iff
  · intro place decision decides
    rw [sameCompounds]
    exact wellNumbered.mem_compoundIds_of_decidesAt decides
  · rw [sameChart, relations_analyze]
    exact sameConflicts
  · rw [sameChart, relations_analyze]
    exact wellNumbered.conflicts?_eq_some options

end Layout

namespace Grammar

/--
The conflicts of a well-formed grammar are exactly those of the places where
some pair of terminals collides, by name and then by place.
-/
theorem conflicts_exact
    {grammar : Grammar}
    {options : Options}
    {analysis : Analysis}
    (analyzed : grammar.analyze options = .ok analysis)
    (wellFormed : analysis.wellFormed = true)
    (reported : options.conflicts = true) :
    analysis.ConflictsExact := by
  obtain ⟨clean, rfl⟩ := analyze_eq_ok_iff.mp analyzed
  exact (wellNumbered_layOut clean).conflictsExact wellFormed reported

/-- A repetition before a choice, in rules that are not declared by name. -/
def undecided : Grammar :=
  { rules :=
      [{ name := "line"
         body :=
           .group .sequence
             [.unary .zeroOrMore (.literal "a"), .reference "end"] },
       { name := "end"
         body :=
           .group .choice [.literal "a", .literal "ab", .range 'a' 'z'] }] }

/-- The conflicts found in the undecided rules are listed exactly. -/
theorem conflicts_exact_undecided :
    ∃ analysis,
      undecided.analyze {} = .ok analysis ∧
        analysis.wellFormed = true ∧
        ((analysis.chart.foundConflicts analysis.relations).map
            fun conflict =>
              (analysis.layout.name conflict.owner, conflict.pairs)) =
          [("line.1", [(0, 1), (0, 2), (0, 3)]), ("end", [(1, 2)]),
           ("end", [(1, 3)]), ("end", [(2, 3)])] ∧
        analysis.ConflictsExact := by
  have analyzed :
      undecided.analyze {} = .ok (undecided.layOut.analyze {}) :=
    analyze_eq_ok_iff.mpr ⟨by decide, rfl⟩
  have wellFormed : (undecided.layOut.analyze {}).wellFormed = true := by
    decide +kernel
  exact
    ⟨_, analyzed, wellFormed, by decide +kernel,
      conflicts_exact analyzed wellFormed rfl⟩

end Grammar

end PegAudit
