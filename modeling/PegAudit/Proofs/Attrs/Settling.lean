import PegAudit.Proofs.Attrs.Least
import PegAudit.Proofs.Sweeps.Reported

namespace PegAudit

/-!
# How the attributes are reached

Sweeping goes by the reports of the sweeps and stops after the first that
switches nothing on.  Terminals have their attributes from the start, so only
the flags of the other nodes are left to switch on, four for each, and every
sweep but the last does so with one at least.  Nothing hangs on the order: the
updates of nodes lead to the same table whenever each node has its turn again
and again.
-/

namespace Layout

variable {layout : Layout}

/-- One sweep over all expressions, with a report of changes. -/
def sweepAttrsReporting
    (layout : Layout) :
    AttrTable →
    AttrTable × Bool :=
  sweepReporting layout.updateAttrs layout.ids

/-- A table of all nodes in which no flag known from the start is off. -/
structure Begun
    (layout : Layout)
    (table : AttrTable) :
    Prop where
  size_eq :
    table.size = layout.nodes.size
  initially :
    ∀ id, (layout.initialAttrs.of id).included (table.of id)

/-- The table that sweeping starts from is begun. -/
theorem begun_initialAttrs
    (layout : Layout) :
    layout.Begun layout.initialAttrs where
  size_eq := by simp [initialAttrs]
  initially := fun _ => Attrs.included_refl _

/-- Updates keep a table begun and only switch flags on. -/
theorem growing_begun
    (layout : Layout) :
    Growing layout.updateAttrs layout.Begun Attrs.count where
  keeps := by
    intro table visited begun
    have improves := layout.improves_updateEntry table visited
    exact
      { size_eq := by simpa using begun.size_eq
        initially := fun id =>
          (begun.initially id).trans (improves.included id) }
  grows := fun begun => layout.growing_updateAttrs.grows begun.size_eq

/-- Every flag of a terminal is known from the start. -/
theorem WellNumbered.updateEntry_terminal
    (wellNumbered : layout.WellNumbered)
    {table : AttrTable}
    (begun : layout.Begun table)
    {id : NodeId}
    (isTerminal : id ∈ layout.terminalIds) :
    updateEntry layout.updateAttrs table id = table := by
  have below : id < layout.terminalCount := List.mem_range.mp isTerminal
  have counted : id < layout.exprCount :=
    Nat.lt_of_lt_of_le below wellNumbered.terminalCount_le
  obtain ⟨shape, found⟩ := wellNumbered.exists_shape_iff.mpr counted
  have inside : id < table.size := by
    rwa [begun.size_eq, wellNumbered.size_nodes]
  have present : table[id]? = some (table.of id) := by
    simp [AttrTable.of, inside]
  have known := begun.initially id
  rw [of_initialAttrs, found, Option.elim_some,
    ← Shape.attrs_of_isTerminal
      ((wellNumbered.isTerminal_iff found).mpr below) table.of] at known
  rw [updateEntry_eq_self_iff present, updateAttrs, found]
  exact Attrs.union_eq_left_iff.mpr known

/-- The numbers of the terminals come before those of all other expressions. -/
theorem WellNumbered.ids_eq_append
    (wellNumbered : layout.WellNumbered) :
    layout.ids = layout.terminalIds ++ layout.compoundIds := by
  have split := Nat.add_sub_cancel' wellNumbered.terminalCount_le
  rw [ids, terminalIds, compoundIds, ← split, List.range_add,
    List.range'_eq_map_range, Nat.add_sub_cancel_left]

/-- A sweep does what it does among the nodes that are not terminals. -/
theorem WellNumbered.sweep_ids
    (wellNumbered : layout.WellNumbered)
    {table : AttrTable}
    (begun : layout.Begun table) :
    sweep layout.updateAttrs layout.ids table =
      sweep layout.updateAttrs layout.compoundIds table := by
  have terminals :
      sweep layout.updateAttrs layout.terminalIds table = table :=
    sweep_eq_self fun _ => wellNumbered.updateEntry_terminal begun
  rw [wellNumbered.ids_eq_append, sweep, List.foldl_append]
  exact congrArg (sweep layout.updateAttrs layout.compoundIds) terminals

/-- Sweeping by the reports stops in time, with the attributes. -/
theorem WellNumbered.quiets_attrs
    (wellNumbered : layout.WellNumbered) :
    Quiets layout.sweepAttrsReporting layout.initialAttrs
        layout.settleAttrs.sweeps layout.attrs ∧
      layout.settleAttrs.sweeps ≤
        4 * (layout.exprCount - layout.terminalCount) + 1 := by
  have length :
      layout.compoundIds.length =
        layout.exprCount - layout.terminalCount :=
    List.length_range'
  have enough :
      layout.compoundIds.length * 4 < 4 * layout.exprCount + 1 := by
    omega
  obtain ⟨quiets, within⟩ :=
    layout.growing_begun.quiets_settle 4
      (fun _ _ => Attrs.count_le_four _) wellNumbered.sweep_ids enough
      layout.begun_initialAttrs
  rw [length, Nat.mul_comm (layout.exprCount - layout.terminalCount)]
    at within
  exact ⟨quiets, within⟩

/-- A table below the attributes that no update changes is the attributes. -/
theorem WellNumbered.eq_attrs
    (wellNumbered : layout.WellNumbered)
    {table : AttrTable}
    (sameSize : table.size = layout.nodes.size)
    (isBelow : ∀ id, (table.of id).included (layout.attrs.of id))
    (unchanged :
      ∀ {id current},
        table[id]? = some current →
        layout.updateAttrs table id current = current) :
    table = layout.attrs := by
  apply AttrTable.eq_of_of_eq (sameSize.trans layout.size_attrs.symm)
  intro id
  apply Attrs.included_antisymm (isBelow id)
  apply layout.attrs_least
  intro other shape found
  have inside : other < table.size := by
    rw [sameSize, wellNumbered.size_nodes]
    exact wellNumbered.exists_shape_iff.mp ⟨shape, found⟩
  have present : table[other]? = some (table.of other) := by
    simp [AttrTable.of, inside]
  have fixed := unchanged present
  rw [updateAttrs, found] at fixed
  exact Attrs.union_eq_left_iff.mp fixed

/-- Rounds that choose every node again and again lead to the attributes. -/
theorem WellNumbered.exists_afterRounds_eq_attrs
    (wellNumbered : layout.WellNumbered)
    {rounds : Nat → NodeId → Bool}
    (fair :
      ∀ id ∈ layout.ids,
        ∀ count, ∃ later, count ≤ later ∧ rounds later id = true) :
    ∃ enough, ∀ count,
      enough ≤ count →
      afterRounds layout.updateAttrs rounds layout.initialAttrs count =
        layout.attrs := by
  obtain ⟨enough, same, unchanged⟩ :=
    layout.growing_updateAttrs.exists_afterRounds_settled 4
      (fun _ _ => Attrs.count_le_four _)
      (fun chosen sameSize => by simpa using sameSize)
      (fun sameSize id inside => by
        rw [sameSize, wellNumbered.size_nodes] at inside
        exact List.mem_range.mpr inside)
      fair layout.begun_initialAttrs.size_eq
  let reached :=
    afterRounds layout.updateAttrs rounds layout.initialAttrs enough
  have sameSize : reached.size = layout.nodes.size :=
    afterRounds_preserves (·.size = layout.nodes.size)
      (fun chosen sameSize => by simpa using sameSize) rounds
      layout.begun_initialAttrs.size_eq enough
  have isBelow :
      ∀ id, (AttrTable.of reached id).included (layout.attrs.of id) :=
    afterRounds_preserves
      (fun table =>
        ∀ id, (AttrTable.of table id).included (layout.attrs.of id))
      (fun chosen isBelow =>
        (layout.improves_updateTogether chosen _).below
          (attrs_closed wellNumbered) isBelow)
      rounds (layout.initialAttrs_below (attrs_closed wellNumbered)) enough
  refine ⟨enough, fun count later => ?_⟩
  rw [same count later]
  exact wellNumbered.eq_attrs sameSize isBelow unchanged

/-- The attributes solve the equations of a layout, and how they are reached. -/
structure SolvedByAttrs
    (layout : Layout) :
    Prop where
  /-- A sweep only ever switches flags on, whatever table it starts from. -/
  grows :
    ∀ (table : AttrTable) (id : NodeId),
      (table.of id).included
        (AttrTable.of (layout.sweepAttrsReporting table).1 id)
  /-- Sweeping by the reports stops, and stops with the attributes. -/
  stops :
    Quiets layout.sweepAttrsReporting layout.initialAttrs
      layout.settleAttrs.sweeps layout.attrs
  sweeps_le :
    layout.settleAttrs.sweeps ≤
      4 * (layout.exprCount - layout.terminalCount) + 1
  /-- The attributes of every expression are those that its parts give it. -/
  solves :
    ∀ id ∈ layout.ids,
      ∃ shape,
        layout.shape? id = some shape ∧
          layout.attrs.of id = shape.attrs layout.attrs.of
  /-- Every assignment that has what the parts give has all the attributes. -/
  least :
    ∀ known : NodeId → Attrs,
      (∀ id shape,
        layout.shape? id = some shape →
        (shape.attrs known).included (known id)) →
      ∀ id, (layout.attrs.of id).included (known id)
  /-- Updating all nodes together, time after time, leads to the attributes. -/
  together :
    ∃ enough, ∀ count,
      enough ≤ count →
      (updateTogether layout.updateAttrs fun _ => true)^[count]
          layout.initialAttrs =
        layout.attrs
  /-- So does updating nodes one by one if each has its turn again and again. -/
  oneByOne :
    ∀ visits : Nat → NodeId,
      (∀ id ∈ layout.ids,
        ∀ count, ∃ later, count ≤ later ∧ visits later = id) →
      ∃ enough, ∀ count,
        enough ≤ count →
        sweep layout.updateAttrs ((List.range count).map visits)
            layout.initialAttrs =
          layout.attrs

end Layout

namespace Grammar

/-- The attributes of an accepted grammar are the least solution of its equations. -/
theorem solvedByAttrs
    {grammar : Grammar}
    {layout : Layout}
    (laidOut : grammar.toLayout = .ok layout) :
    layout.SolvedByAttrs := by
  obtain ⟨clean, rfl⟩ := toLayout_eq_ok_iff.mp laidOut
  have wellNumbered := wellNumbered_layOut clean
  obtain ⟨stops, within⟩ := wellNumbered.quiets_attrs
  refine
    { grows := ?_
      stops := stops
      sweeps_le := within
      solves := ?_
      least := ?_
      together := ?_
      oneByOne := ?_ }
  · intro table id
    rw [Layout.sweepAttrsReporting, fst_sweepReporting]
    exact
      sweep_preserves
        (fun later => (table.of id).included (AttrTable.of later id))
        (fun visited included =>
          included.trans
            ((grammar.layOut.improves_updateEntry _ visited).included id))
        grammar.layOut.ids (Attrs.included_refl _)
  · intro id isExpression
    obtain ⟨shape, found⟩ :=
      wellNumbered.exists_shape_iff.mpr (List.mem_range.mp isExpression)
    exact ⟨shape, found, wellNumbered.attrs_of_shape found⟩
  · intro known closed id
    exact grammar.layOut.attrs_least known (closed _ _) id
  · have fair :
        ∀ id ∈ grammar.layOut.ids,
          ∀ count : Nat, ∃ later, count ≤ later ∧ true = true :=
      fun _ _ count => ⟨count, Nat.le_refl _, rfl⟩
    obtain ⟨enough, reached⟩ :=
      wellNumbered.exists_afterRounds_eq_attrs fair
    refine ⟨enough, fun count later => ?_⟩
    rw [← afterRounds_all]
    exact reached count later
  · intro visits fair
    have chosenFairly :
        ∀ id ∈ grammar.layOut.ids,
          ∀ count,
            ∃ later, count ≤ later ∧ (id == visits later) = true := by
      intro id isExpression count
      obtain ⟨later, isLater, isVisited⟩ := fair id isExpression count
      exact ⟨later, isLater, by simp [isVisited]⟩
    obtain ⟨enough, reached⟩ :=
      wellNumbered.exists_afterRounds_eq_attrs chosenFairly
    refine ⟨enough, fun count later => ?_⟩
    rw [sweep_visits_eq_afterRounds]
    exact reached count later

/-- Left recursion does not keep the sweeps from stopping. -/
theorem solvedByAttrs_leftRecursive :
    leftRecursive.toLayout = .ok leftRecursive.layOut ∧
      leftRecursive.layOut.SolvedByAttrs ∧
      leftRecursive.layOut.settleAttrs.sweeps ≤ 17 ∧
      (leftRecursive.layOut.attrs.of 4).nullable = true := by
  have laidOut : leftRecursive.toLayout = .ok leftRecursive.layOut :=
    toLayout_eq_ok_iff.mpr ⟨defects_leftRecursive, rfl⟩
  have solved := solvedByAttrs laidOut
  exact ⟨laidOut, solved, solved.sweeps_le, by decide +kernel⟩

end Grammar

end PegAudit
