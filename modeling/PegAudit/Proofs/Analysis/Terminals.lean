import PegAudit.Proofs.Conflicts
import PegAudit.Proofs.Follow.Exact

namespace PegAudit

/-!
# The sets of terminals in a chart

All sets of terminals in the chart of an analysis have room for all terminals
and hold nothing else.  So the colliding pairs of a decision are the terminals
that lead its two ways and are not disjoint, and no others.
-/

namespace Chart

variable
  {chart : Chart}
  {relations : Relations}

/-- The sets of terminals of a chart hold terminals, and have room for all. -/
structure Terminated
    (chart : Chart) :
    Prop where
  room_firstOf :
    ∀ id, (chart.firstOf id).room = chart.noTerminals.room
  room_followOf :
    ∀ id, (chart.followOf id).room = chart.noTerminals.room
  firstOf_lt :
    ∀ {id terminal},
      (chart.firstOf id).contains terminal = true →
      terminal < chart.layout.terminalCount
  followOf_lt :
    ∀ {id terminal},
      (chart.followOf id).contains terminal = true →
      terminal < chart.layout.terminalCount

namespace Terminated

/-- The terminals of a second way have room for all terminals. -/
theorem room_secondTerms
    (terminated : chart.Terminated)
    (decision : Decision) :
    (chart.secondTerms decision).room = chart.noTerminals.room := by
  unfold secondTerms
  split
  · split
    · rw [IndexSet.room_union, terminated.room_firstOf]
    · exact terminated.room_firstOf _
  · exact terminated.room_followOf _

/-- What leads to a second way: its first terminals and, if it is open, the tail's. -/
theorem contains_secondTerms_iff
    (terminated : chart.Terminated)
    {decision : Decision}
    {terminal : NodeId} :
    (chart.secondTerms decision).contains terminal = true ↔
      (∃ second ∈ decision.second,
          (chart.firstOf second).contains terminal = true) ∨
        ((∀ second ∈ decision.second,
            (chart.attrsOf second).transparent = true) ∧
          (chart.followOf decision.owner).contains terminal = true) := by
  have inRoom
      (second : NodeId)
      (follows :
        (chart.followOf decision.owner).contains terminal = true) :
      terminal < (chart.firstOf second).room := by
    have below := IndexSet.lt_room_of_contains follows
    rwa [terminated.room_followOf, ← terminated.room_firstOf second]
      at below
  cases isSecond : decision.second with
  | none =>
      simp [secondTerms, isSecond]
  | some second =>
      have united := inRoom second
      simp only [secondTerms, isSecond, Option.mem_some_iff,
        exists_eq_left', forall_eq']
      split
      case isTrue passed =>
        rw [IndexSet.contains_union, Bool.or_eq_true, Bool.and_eq_true,
          decide_eq_true_eq]
        tauto
      case isFalse stopped =>
        simp [stopped]

/-- Only terminals lead to a second way. -/
theorem secondTerms_lt
    (terminated : chart.Terminated)
    {decision : Decision}
    {terminal : NodeId}
    (member : (chart.secondTerms decision).contains terminal = true) :
    terminal < chart.layout.terminalCount := by
  rcases terminated.contains_secondTerms_iff.mp member with
    ⟨second, _, inFirst⟩ | ⟨_, inFollow⟩
  · exact terminated.firstOf_lt inFirst
  · exact terminated.followOf_lt inFollow

/-- The colliding pairs lead both ways and are not disjoint. -/
theorem mem_collisions_iff
    (terminated : chart.Terminated)
    (uniform :
      relations.nonDisjoint.Uniform chart.noTerminals.room)
    {decision : Decision}
    {left right : NodeId} :
    (left, right) ∈ chart.collisions relations decision ↔
      (chart.firstOf decision.first).contains left = true ∧
        (chart.secondTerms decision).contains right = true ∧
        relations.nonDisjoint.Relates left right := by
  constructor
  · intro collides
    obtain ⟨first, isFirst, ofFirst⟩ := List.mem_flatMap.mp collides
    obtain ⟨second, inBoth, same⟩ := List.mem_map.mp ofFirst
    cases same
    rw [IndexSet.mem_toList_iff] at isFirst inBoth
    rw [IndexSet.contains_intersect, terminated.room_secondTerms,
      Bool.and_eq_true, Bool.or_eq_true, decide_eq_true_eq] at inBoth
    obtain ⟨related, inSecond | outside⟩ := inBoth
    · exact ⟨isFirst, inSecond, related⟩
    · have inRoom : right < chart.noTerminals.room :=
        uniform.right_lt related
      exact (Nat.not_lt.mpr outside inRoom).elim
  · rintro ⟨leadsFirst, leadsSecond, related⟩
    exact mem_collisions leadsFirst leadsSecond related

end Terminated

/-- A conflict has the nodes of its decision, and the colliding pairs. -/
theorem eq_of_conflict?_eq_some
    {decision : Decision}
    {conflict : Conflict}
    (isConflict : chart.conflict? relations decision = some conflict) :
    conflict =
      { first := decision.first
        second := decision.second
        owner := decision.owner
        pairs := chart.collisions relations decision } := by
  unfold conflict? at isConflict
  split at isConflict
  case h_1 =>
    cases isConflict
  case h_2 =>
    exact (Option.some.inj isConflict).symm

/-- A reported conflict is that of a decision. -/
theorem exists_decision
    {conflict : Conflict}
    (reported : conflict ∈ chart.conflicts relations) :
    ∃ decision ∈ chart.decisions,
      chart.conflict? relations decision = some conflict :=
  List.mem_filterMap.mp (List.mem_mergeSort.mp reported)

end Chart

namespace Layout

variable {layout : Layout}

/-- The sets of first terminals in an opened chart have room for all terminals. -/
theorem room_firstOf_openChart
    (layout : Layout)
    (options : Options)
    (id : NodeId) :
    ((layout.openChart options).firstOf id).room =
      (layout.openChart options).noTerminals.room := by
  let chart :=
    ((Chart.ofAttrs layout layout.attrs).fillFirst
      (layout.relations layout.attrs)).fillTails
  have base :
      (chart.firstOf id).room = chart.noTerminals.room := by
    by_cases present : id < layout.nodes.size
    · simp [chart, Chart.firstOf, Chart.fillTails, Chart.fillFirst,
        Chart.ofAttrs, Chart.noTerminals, Relations.firstTerms,
        IndexSet.room_ofList, present]
    · simp [chart, Chart.firstOf, Chart.fillTails, Chart.fillFirst,
        Chart.ofAttrs, Chart.noTerminals, present]
  unfold openChart
  dsimp only
  split
  case isFalse =>
    exact base
  case isTrue =>
    unfold Chart.withRemainder
    dsimp only
    split
    · exact base
    · simp only [Chart.firstOf, Array.getElem?_push]
      split
      · rfl
      · exact base

/-- Being disjoint or not relates exactly the terminals. -/
theorem uniform_nonDisjoint
    (layout : Layout)
    (table : AttrTable) :
    (layout.relations table).nonDisjoint.Uniform
      (IndexSet.empty layout.terminalCount).room :=
  layout.disjointTerminals.uniform_complement

namespace WellNumbered

/-- Sweeping to the end leaves sets of terminals with room for all terminals. -/
theorem terminated_fillFollow
    (wellNumbered : layout.WellNumbered)
    (options : Options) :
    (layout.openChart options).fillFollow.Terminated where
  room_firstOf :=
    layout.room_firstOf_openChart options
  room_followOf :=
    (wellNumbered.exact_fillFollow options).room_followOf
  firstOf_lt :=
    (wellNumbered.prepared_openChart options).firstOf_lt
  followOf_lt :=
    (wellNumbered.prepared_openChart options).followOf_lt

/-- The terminals of an opened chart are related with room for all of them. -/
theorem uniform_nonDisjoint_openChart
    (wellNumbered : layout.WellNumbered)
    (options : Options) :
    (layout.relations layout.attrs).nonDisjoint.Uniform
      (layout.openChart options).noTerminals.room := by
  rw [Chart.noTerminals,
    (wellNumbered.describes_openChart options).terminalCount_eq]
  exact layout.uniform_nonDisjoint layout.attrs

/-- The numbers of an opened chart that are not terminals are the layout's. -/
theorem compoundIds_openChart
    (wellNumbered : layout.WellNumbered)
    (options : Options) :
    (layout.openChart options).layout.compoundIds = layout.compoundIds := by
  have describes := wellNumbered.describes_openChart options
  rw [compoundIds, compoundIds, describes.terminalCount_eq,
    describes.exprCount_eq]

/-- The decisions of an opened chart are those of the layout. -/
theorem decisions_openChart
    (wellNumbered : layout.WellNumbered)
    (options : Options) :
    (layout.openChart options).decisions =
      layout.compoundIds.flatMap fun id =>
        (layout.shape? id).elim [] (Shape.decisions id) := by
  have describes := wellNumbered.describes_openChart options
  rw [Chart.decisions, wellNumbered.compoundIds_openChart]
  apply List.flatMap_congr
  intro id compound
  rw [describes.shape?_eq (wellNumbered.lt_of_mem_compoundIds compound)]
  cases layout.shape? id <;> rfl

end WellNumbered

end Layout

end PegAudit
