import PegAudit.Proofs.Analysis.Terminals
import PegAudit.Proofs.Renumbering.Relations

namespace PegAudit

/-!
# Charts under other numbers

The strands of corresponding nodes correspond, in some order.  First terminals
of tails are the least solution of equations that correspond, so they do not
depend on the order in which the sweeps solve them.
-/

/-- A strand between nodes with other numbers. -/
def Strand.renumbered
    (renumber : NodeId → NodeId)
    (strand : Strand) :
    Strand :=
  { called := renumber strand.called
    outer := renumber strand.outer
    elements := strand.elements.map renumber
    hasTail := strand.hasTail }

/-- The elements of a renumbered list, each with the elements after it. -/
theorem withRest_map
    (renumber : α → β)
    (elements : List α) :
    withRest (elements.map renumber) =
      (withRest elements).map (Prod.map renumber (List.map renumber)) := by
  induction elements with
  | nil =>
      rfl
  | cons element rest inductionHypothesis =>
      rw [List.map_cons, withRest, inductionHypothesis]
      rfl

/-- Corresponding shapes have corresponding call sites. -/
theorem Shape.sites_renumbered
    (renumber : NodeId → NodeId)
    (id : NodeId)
    (shape : Shape NodeId) :
    (shape.renumbered renumber).sites (renumber id) =
      (shape.sites id).map (Prod.map renumber (List.map renumber)) := by
  cases shape with
  | unary operator body =>
      cases operator <;> rfl
  | group grouping parts =>
      cases grouping with
      | choice =>
          simp [renumbered, sites, Function.comp_def]
      | sequence =>
          exact withRest_map renumber parts
  | _ =>
      rfl

/-- The other chart says the same of every node under another number. -/
structure Chart.Renumbers
    (renumber : NodeId → NodeId)
    (chart other : Chart) :
    Prop where
  attrsOf_eq :
    ∀ id, other.attrsOf (renumber id) = chart.attrsOf id
  firstOf :
    ∀ id,
      (chart.firstOf id).Renumbers renumber (other.firstOf (renumber id))
  tailOf_perm :
    ∀ id,
      (other.tailOf (renumber id)).Perm
        ((chart.tailOf id).map (Strand.renumbered renumber))
  followOf :
    ∀ id,
      (chart.followOf id).Renumbers renumber
        (other.followOf (renumber id))

namespace Layout.Renumbers

variable
  {renumber : Equiv.Perm NodeId}
  {layout other : Layout}
  (renumbers : layout.Renumbers renumber other)
  (wellNumbered : layout.WellNumbered)
  (otherNumbered : other.WellNumbered)

include renumbers wellNumbered otherNumbered

/-- Corresponding nodes have corresponding strands. -/
theorem strandsFrom_eq
    (outer : NodeId) :
    other.strandsFrom other.attrs (renumber outer) =
      (layout.strandsFrom layout.attrs outer).map
        (Strand.renumbered renumber) := by
  have sameAttrs := renumbers.attrs_eq wellNumbered otherNumbered
  unfold strandsFrom
  rw [renumbers.shape?_eq]
  cases layout.shape? outer with
  | none =>
      rfl
  | some shape =>
      simp [Shape.sites_renumbered, List.filter_map, Function.comp_def,
        Strand.ofCall, Strand.renumbered, sameAttrs]

/-- All strands correspond, in some order. -/
theorem strands_perm :
    (other.strands other.attrs).Perm
      ((layout.strands layout.attrs).map (Strand.renumbered renumber)) := by
  have compound := renumbers.compoundIds_perm wellNumbered otherNumbered
  unfold strands
  refine (compound.flatMap_right _).trans (.of_eq ?_)
  rw [List.flatMap_map, List.map_flatMap]
  simp only [renumbers.strandsFrom_eq wellNumbered otherNumbered]

/-- The strand to the remaining input corresponds to itself. -/
theorem remainderStrands_eq
    (options : Options) :
    other.remainderStrands options =
      (layout.remainderStrands options).map
        (Strand.renumbered renumber) := by
  have sameAttrs := renumbers.attrs_eq wellNumbered otherNumbered
  have behind : renumber layout.exprCount = layout.exprCount :=
    renumbers.fixed (Nat.le_refl _)
  unfold remainderStrands
  rw [renumbers.start_eq, sameAttrs, otherNumbered.size_nodes,
    renumbers.exprCount_eq, wellNumbered.size_nodes]
  split
  · simp [Strand.toRemainder, Strand.renumbered, behind]
  · rfl

/-- The tails of corresponding nodes correspond. -/
theorem tailOf_perm
    (options : Options)
    (id : NodeId) :
    ((other.openChart options).tailOf (renumber id)).Perm
      (((layout.openChart options).tailOf id).map
        (Strand.renumbered renumber)) := by
  have called :
      (fun strand : Strand => strand.called == renumber id) ∘
          Strand.renumbered renumber =
        fun strand => strand.called == id := by
    funext strand
    simp [Strand.renumbered]
  rw [otherNumbered.tailOf_openChart, wellNumbered.tailOf_openChart,
    List.map_append, renumbers.start_eq,
    renumbers.remainderStrands_eq wellNumbered otherNumbered]
  simp only [renumber.injective.eq_iff]
  apply List.Perm.append
  · have sites :=
      (renumbers.strands_perm wellNumbered otherNumbered).filter
        fun strand => strand.called == renumber id
    rwa [List.filter_map, called] at sites
  · split <;> exact .refl _

end Layout.Renumbers

namespace Layout.Renumbers

variable
  {renumber : Equiv.Perm NodeId}
  {layout other : Layout}
  (renumbers : layout.Renumbers renumber other)
  (wellNumbered : layout.WellNumbered)
  (otherNumbered : other.WellNumbered)

include renumbers wellNumbered otherNumbered

/-- Opened charts give corresponding nodes the same attributes. -/
theorem attrsOf_openChart
    (options : Options)
    (id : NodeId) :
    (other.openChart options).attrsOf (renumber id) =
      (layout.openChart options).attrsOf id := by
  by_cases counted : id < layout.exprCount
  · have otherCounted : renumber id < other.exprCount := by
      rwa [renumbers.exprCount_eq, renumbers.lt_exprCount_iff]
    rw [(wellNumbered.describes_openChart options).attrsOf_eq counted,
      (otherNumbered.describes_openChart options).attrsOf_eq otherCounted,
      renumbers.attrs_eq wellNumbered otherNumbered]
  · have behind := Nat.le_of_not_lt counted
    rw [renumbers.fixed behind,
      (wellNumbered.openChart_of_le options behind).1,
      (otherNumbered.openChart_of_le options
        (by rwa [renumbers.exprCount_eq])).1,
      renumbers.remainderStrands_eq wellNumbered otherNumbered,
      renumbers.exprCount_eq, List.isEmpty_map]

/-- Opened charts give corresponding nodes corresponding first terminals. -/
theorem firstOf_openChart
    (options : Options)
    (id : NodeId) :
    ((layout.openChart options).firstOf id).Renumbers renumber
      ((other.openChart options).firstOf (renumber id)) := by
  by_cases counted : id < layout.exprCount
  · have otherCounted : renumber id < other.exprCount := by
      rwa [renumbers.exprCount_eq, renumbers.lt_exprCount_iff]
    rw [(wellNumbered.describes_openChart options).firstOf_eq counted,
      (otherNumbered.describes_openChart options).firstOf_eq otherCounted]
    exact renumbers.firstTerms wellNumbered otherNumbered id
  · have behind := Nat.le_of_not_lt counted
    rw [renumbers.fixed behind,
      (wellNumbered.openChart_of_le options behind).2,
      (otherNumbered.openChart_of_le options
        (by rwa [renumbers.exprCount_eq])).2,
      renumbers.terminalCount_eq]
    exact { room_eq := rfl, contains_eq := fun _ => by simp }

/-- All sets of terminals have the same room in both charts. -/
theorem room_noTerminals
    (options : Options) :
    (other.openChart options).noTerminals =
      (layout.openChart options).noTerminals := by
  rw [Chart.noTerminals, Chart.noTerminals,
    (wellNumbered.describes_openChart options).terminalCount_eq,
    (otherNumbered.describes_openChart options).terminalCount_eq,
    renumbers.terminalCount_eq]

/--
What a strand contributes there, where tails have no more than here, it
contributes here.
-/
theorem contains_firstTerms_of_renumbered
    (options : Options)
    {table : Array IndexSet}
    (below :
      ∀ id terminal,
        ((table[renumber id]?).getD
            (other.openChart options).noTerminals).contains
              (renumber terminal) = true →
        ((layout.openChart options).fillFollow.followOf id).contains
          terminal = true)
    {strand : Strand}
    {terminal : NodeId}
    (contributes :
      ((strand.renumbered renumber).firstTermsIn
        (other.openChart options) table).contains
          (renumber terminal) = true) :
    (strand.firstTerms (layout.openChart options).fillFollow).contains
      terminal = true := by
  have terminated := wellNumbered.terminated_fillFollow options
  have sameAttrs :
      ∀ id,
        (other.openChart options).attrs.of (renumber id) =
          (layout.openChart options).fillFollow.attrs.of id :=
    renumbers.attrsOf_openChart wellNumbered otherNumbered options
  have opening :
      (strand.renumbered renumber).opening
          (other.openChart options).attrs =
        (strand.opening
          (layout.openChart options).fillFollow.attrs).map renumber :=
    reachable_map sameAttrs strand.elements
  have passes :
      (strand.renumbered renumber).passesThrough
          (other.openChart options).attrs =
        strand.passesThrough
          (layout.openChart options).fillFollow.attrs := by
    simp [Strand.passesThrough, Strand.renumbered, Function.comp_def,
      sameAttrs]
  rw [Strand.contains_firstTermsIn, opening, passes] at contributes
  rw [Strand.firstTerms, Strand.contains_firstTermsIn]
  rcases contributes.2 with ⟨_, inOpening, opens⟩ | ⟨passed, follows⟩
  · obtain ⟨element, isOpening, rfl⟩ := List.mem_map.mp inOpening
    rw [(renumbers.firstOf_openChart wellNumbered otherNumbered options
      element).contains_eq] at opens
    have inRoom := IndexSet.lt_room_of_contains opens
    have sameRoom := terminated.room_firstOf element
    exact ⟨sameRoom ▸ inRoom, .inl ⟨element, isOpening, opens⟩⟩
  · have followsHere := below strand.outer terminal follows
    have inRoom := IndexSet.lt_room_of_contains followsHere
    rw [terminated.room_followOf] at inRoom
    exact ⟨inRoom, .inr ⟨passed, followsHere⟩⟩

/-- No more terminals follow a node there than follow it here. -/
theorem contains_followOf
    (options : Options)
    (id terminal : NodeId) :
    ((other.openChart options).fillFollow.followOf
        (renumber id)).contains (renumber terminal) = true →
      ((layout.openChart options).fillFollow.followOf id).contains
        terminal = true := by
  have exact := wellNumbered.exact_fillFollow options
  revert id terminal
  apply settle_sweep_preserves
    (fun table =>
      ∀ id terminal,
        ((table[renumber id]?).getD
            (other.openChart options).noTerminals).contains
              (renumber terminal) = true →
        ((layout.openChart options).fillFollow.followOf id).contains
          terminal = true)
  · intro table index below id terminal member
    rcases Chart.contains_or_of_contains_updateEntry member with
      before | ⟨strand, inTail, contributes⟩
    · exact below id terminal before
    · have corresponds :=
        (renumbers.tailOf_perm wellNumbered otherNumbered options
          id).mem_iff.mp inTail
      obtain ⟨here, inTailHere, rfl⟩ := List.mem_map.mp corresponds
      exact
        exact.contains_followOf.mpr
          ⟨here, inTailHere,
            renumbers.contains_firstTerms_of_renumbered wellNumbered
              otherNumbered options below contributes⟩
  · intro id terminal member
    rw [other.follow_openChart, Chart.contains_emptyFollow] at member
    cases member

/-- The charts of analyses without faults correspond. -/
theorem fillFollow
    (options : Options) :
    (layout.openChart options).fillFollow.Renumbers renumber
      (other.openChart options).fillFollow where
  attrsOf_eq :=
    renumbers.attrsOf_openChart wellNumbered otherNumbered options
  firstOf :=
    renumbers.firstOf_openChart wellNumbered otherNumbered options
  tailOf_perm :=
    renumbers.tailOf_perm wellNumbered otherNumbered options
  followOf := by
    intro id
    refine { room_eq := ?_, contains_eq := ?_ }
    · rw [(wellNumbered.terminated_fillFollow options).room_followOf,
        (otherNumbered.terminated_fillFollow options).room_followOf]
      exact
        congrArg IndexSet.room
          (renumbers.room_noTerminals wellNumbered otherNumbered options)
    · intro terminal
      rw [Bool.eq_iff_iff]
      refine
        ⟨renumbers.contains_followOf wellNumbered otherNumbered options id
          terminal, ?_⟩
      have back :=
        renumbers.symm.contains_followOf otherNumbered wellNumbered options
          (renumber id) (renumber terminal)
      rwa [Equiv.symm_apply_apply, Equiv.symm_apply_apply] at back

/-- Charts of which only the attributes are known correspond. -/
theorem ofAttrs :
    (Chart.ofAttrs layout layout.attrs).Renumbers renumber
      (Chart.ofAttrs other other.attrs) := by
  have nothing
      (some : Layout)
      (id : NodeId) :
      (Chart.ofAttrs some some.attrs).firstOf id =
          IndexSet.empty some.terminalCount ∧
        (Chart.ofAttrs some some.attrs).followOf id =
          IndexSet.empty some.terminalCount ∧
        (Chart.ofAttrs some some.attrs).tailOf id = [] := by
    by_cases present : id < some.nodes.size <;>
      simp [Chart.firstOf, Chart.followOf, Chart.tailOf, Chart.ofAttrs,
        Chart.noTerminals, present]
  have empty :
      (IndexSet.empty layout.terminalCount).Renumbers renumber
        (IndexSet.empty other.terminalCount) := by
    rw [renumbers.terminalCount_eq]
    exact { room_eq := rfl, contains_eq := fun _ => by simp }
  refine
    { attrsOf_eq := renumbers.attrs_eq wellNumbered otherNumbered
      firstOf := ?_
      tailOf_perm := ?_
      followOf := ?_ }
  · intro id
    rw [(nothing layout id).1, (nothing other (renumber id)).1]
    exact empty
  · intro id
    rw [(nothing layout id).2.2, (nothing other (renumber id)).2.2]
    exact .nil
  · intro id
    rw [(nothing layout id).2.1, (nothing other (renumber id)).2.1]
    exact empty

end Layout.Renumbers

end PegAudit
