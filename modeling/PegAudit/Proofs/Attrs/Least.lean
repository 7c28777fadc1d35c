import PegAudit.Fixpoint.Reported
import PegAudit.Proofs.Attrs.Closed
import PegAudit.Proofs.Sweeps.Orders

namespace PegAudit

/-!
# The attributes are the least solution

The attributes of a shape only gain flags when those of its parts do.  So no
update leads beyond an assignment to which no node can add, and every flag that
was switched on still follows from the parts: the sweeps end in the least
solution of the equations between nodes and their parts.
-/

namespace Attrs

/-- Every flag of an assignment is one of the same assignment. -/
theorem included_refl
    (attrs : Attrs) :
    attrs.included attrs :=
  ⟨id, id, id, id⟩

/-- What is included in an included assignment is included. -/
theorem included.trans
    {first second third : Attrs}
    (here : first.included second)
    (there : second.included third) :
    first.included third :=
  ⟨there.1 ∘ here.1, there.2.1 ∘ here.2.1, there.2.2.1 ∘ here.2.2.1,
    there.2.2.2 ∘ here.2.2.2⟩

/-- Assignments with the same flags are the same. -/
theorem included_antisymm
    {left right : Attrs}
    (there : left.included right)
    (back : right.included left) :
    left = right := by
  rcases left with ⟨nullable, advances, canFail, endsInput⟩
  rcases right with ⟨otherNullable, otherAdvances, otherFail, otherEnds⟩
  simp only [included] at there back
  rw [Attrs.mk.injEq]
  exact
    ⟨Bool.eq_iff_iff.mpr ⟨there.1, back.1⟩,
      Bool.eq_iff_iff.mpr ⟨there.2.1, back.2.1⟩,
      Bool.eq_iff_iff.mpr ⟨there.2.2.1, back.2.2.1⟩,
      Bool.eq_iff_iff.mpr ⟨there.2.2.2, back.2.2.2⟩⟩

/-- No flag is one of any assignment. -/
theorem none_included
    (attrs : Attrs) :
    none.included attrs := by
  simp [included, none]

/-- A union has no flag beyond those of a bound of both operands. -/
theorem union_included
    {left right bound : Attrs}
    (leftIncluded : left.included bound)
    (rightIncluded : right.included bound) :
    (left.union right).included bound := by
  simp only [included, union, Bool.or_eq_true] at *
  exact
    ⟨Or.rec leftIncluded.1 rightIncluded.1,
      Or.rec leftIncluded.2.1 rightIncluded.2.1,
      Or.rec leftIncluded.2.2.1 rightIncluded.2.2.1,
      Or.rec leftIncluded.2.2.2 rightIncluded.2.2.2⟩

end Attrs

/-- What is known before any part follows from the parts. -/
theorem Shape.initialAttrs_included
    (shape : Shape ι)
    (known : ι → Attrs) :
    shape.initialAttrs.included (shape.attrs known) := by
  cases shape with
  | terminal item => exact Attrs.included_refl _
  | remainingInput => exact Attrs.included_refl _
  | _ => exact Attrs.none_included _

/-- More flags of the parts give no fewer flags of the whole. -/
theorem Shape.attrs_mono
    {known more : ι → Attrs}
    (included : ∀ id, (known id).included (more id))
    (shape : Shape ι) :
    (shape.attrs known).included (shape.attrs more) := by
  have anyMono
      {flag : Attrs → Bool}
      (keeps : ∀ id, flag (known id) = true → flag (more id) = true)
      (parts : List ι) :
      (parts.map known).any flag = true →
        (parts.map more).any flag = true := by
    simp only [List.any_map, List.any_eq_true, Function.comp_apply]
    exact fun ⟨part, member, holds⟩ => ⟨part, member, keeps part holds⟩
  have allMono
      {flag : Attrs → Bool}
      (keeps : ∀ id, flag (known id) = true → flag (more id) = true)
      (parts : List ι) :
      (parts.map known).all flag = true →
        (parts.map more).all flag = true := by
    simp only [List.all_map, List.all_eq_true, Function.comp_apply]
    exact fun holds part member => keeps part (holds part member)
  have nullable := fun id => (included id).1
  have advances := fun id => (included id).2.1
  have canFail := fun id => (included id).2.2.1
  have endsInput := fun id => (included id).2.2.2
  cases shape with
  | terminal item =>
      exact Attrs.included_refl _
  | reference target rule =>
      exact included rule
  | unary operator body =>
      have nullableBody := nullable body
      have advancesBody := advances body
      have canFailBody := canFail body
      have endsInputBody := endsInput body
      cases operator <;>
        simp only [attrs, Operator.attrs, Attrs.included,
          Bool.or_eq_true] <;>
        grind
  | group grouping parts =>
      cases grouping with
      | choice =>
          exact
            ⟨anyMono nullable parts, anyMono advances parts,
              allMono canFail parts, allMono endsInput parts⟩
      | sequence =>
          exact
            ⟨allMono nullable parts, anyMono advances parts,
              anyMono canFail parts, anyMono endsInput parts⟩
  | remainingInput =>
      exact Attrs.included_refl _

/-- What is known before any part is all there is to know of a terminal. -/
theorem Shape.attrs_of_isTerminal
    {shape : Shape ι}
    (isTerminal : shape.isTerminal = true)
    (known : ι → Attrs) :
    shape.attrs known = shape.initialAttrs := by
  cases shape with
  | terminal item => rfl
  | remainingInput => rfl
  | _ => cases isTerminal

/-- Tables of one size with the same attributes of every node are the same. -/
theorem AttrTable.eq_of_of_eq
    {table other : AttrTable}
    (sameSize : table.size = other.size)
    (sameAttrs : ∀ id, table.of id = other.of id) :
    table = other := by
  apply Array.ext sameSize
  intro id inside otherInside
  simpa [AttrTable.of, inside, otherInside] using sameAttrs id

namespace Layout

variable {layout : Layout}

/-- Each node keeps its attributes or has those that its parts add switched on. -/
def Improves
    (layout : Layout)
    (table next : AttrTable) :
    Prop :=
  ∀ id,
    next.of id = table.of id ∨
      next.of id = layout.updateAttrs table id (table.of id)

/-- Updating chosen nodes together improves a table. -/
theorem improves_updateTogether
    (layout : Layout)
    (chosen : NodeId → Bool)
    (table : AttrTable) :
    layout.Improves table
      (updateTogether layout.updateAttrs chosen table) := by
  intro id
  cases present : table[id]? with
  | none =>
      exact .inl (by simp [AttrTable.of, present])
  | some current =>
      by_cases isChosen : chosen id = true
      · exact .inr (by simp [AttrTable.of, present, isChosen])
      · exact .inl (by simp [AttrTable.of, present, isChosen])

/-- Updating one node improves a table. -/
theorem improves_updateEntry
    (layout : Layout)
    (table : AttrTable)
    (visited : NodeId) :
    layout.Improves table
      (updateEntry layout.updateAttrs table visited) := by
  rw [← updateTogether_eq_updateEntry]
  exact layout.improves_updateTogether _ table

/-- Every flag that is on follows from the parts of the node. -/
def Supported
    (layout : Layout)
    (table : AttrTable) :
    Prop :=
  ∀ {id shape},
    layout.shape? id = some shape →
    (table.of id).included (shape.attrs table.of)

namespace Improves

variable {table next : AttrTable}

/-- No flag is switched off. -/
theorem included
    (improves : layout.Improves table next)
    (id : NodeId) :
    (table.of id).included (next.of id) := by
  rcases improves id with same | updated
  · rw [same]
    exact Attrs.included_refl _
  · rw [updated, updateAttrs]
    split
    · exact Attrs.included_union_left _ _
    · exact Attrs.included_refl _

/-- What no node can add to, no update leads beyond. -/
theorem below
    (improves : layout.Improves table next)
    {known : NodeId → Attrs}
    (closed :
      ∀ {id shape},
        layout.shape? id = some shape →
        (shape.attrs known).included (known id))
    (isBelow : ∀ id, (table.of id).included (known id))
    (id : NodeId) :
    (next.of id).included (known id) := by
  rcases improves id with same | updated
  · rw [same]
    exact isBelow id
  · rw [updated, updateAttrs]
    split
    case h_1 shape found =>
      exact
        Attrs.union_included (isBelow id)
          ((shape.attrs_mono isBelow).trans (closed found))
    case h_2 =>
      exact isBelow id

/-- Flags that followed from the parts before still do. -/
theorem supported
    (improves : layout.Improves table next)
    (isSupported : layout.Supported table) :
    layout.Supported next := by
  intro id shape found
  have fromParts :
      (shape.attrs table.of).included (shape.attrs next.of) :=
    shape.attrs_mono improves.included
  have before := isSupported found
  rcases improves id with same | updated
  · rw [same]
    exact before.trans fromParts
  · rw [updated, updateAttrs, found]
    exact Attrs.union_included (before.trans fromParts) fromParts

end Improves

/-- The attributes that sweeping starts from, node by node. -/
theorem of_initialAttrs
    (layout : Layout)
    (id : NodeId) :
    layout.initialAttrs.of id =
      (layout.shape? id).elim Attrs.none Shape.initialAttrs := by
  rw [AttrTable.of, initialAttrs, Array.getElem?_map, shape?, node?]
  cases layout.nodes[id]? <;> rfl

/-- Sweeping starts below everything to which no node can add. -/
theorem initialAttrs_below
    {known : NodeId → Attrs}
    (closed :
      ∀ {id shape},
        layout.shape? id = some shape →
        (shape.attrs known).included (known id))
    (id : NodeId) :
    (layout.initialAttrs.of id).included (known id) := by
  rw [of_initialAttrs]
  cases found : layout.shape? id with
  | none =>
      exact Attrs.none_included _
  | some shape =>
      exact (shape.initialAttrs_included known).trans (closed found)

/-- Sweeping starts from flags that need no parts. -/
theorem supported_initialAttrs
    (layout : Layout) :
    layout.Supported layout.initialAttrs := by
  intro id shape found
  rw [of_initialAttrs, found]
  exact shape.initialAttrs_included _

/-- The attributes are included in every assignment to which no node can add. -/
theorem attrs_least
    (layout : Layout)
    (known : NodeId → Attrs)
    (closed :
      ∀ {id shape},
        layout.shape? id = some shape →
        (shape.attrs known).included (known id))
    (id : NodeId) :
    (layout.attrs.of id).included (known id) := by
  have always :
      ∀ id, (AttrTable.of layout.settleAttrs.state id).included (known id) :=
    settle_sweep_preserves
      (fun table => ∀ id, (AttrTable.of table id).included (known id))
      (fun visited isBelow =>
        (layout.improves_updateEntry _ visited).below closed isBelow)
      _ _ (layout.initialAttrs_below closed)
  exact always id

/-- Every flag of a node follows from its parts. -/
theorem supported_attrs
    (layout : Layout) :
    layout.Supported layout.attrs :=
  settle_sweep_preserves layout.Supported
    (fun visited isSupported =>
      (layout.improves_updateEntry _ visited).supported isSupported)
    _ _ layout.supported_initialAttrs

/-- The attributes of a node are those that follow from its parts. -/
theorem WellNumbered.attrs_of_shape
    (wellNumbered : layout.WellNumbered)
    {id : NodeId}
    {shape : Shape NodeId}
    (found : layout.shape? id = some shape) :
    layout.attrs.of id = shape.attrs layout.attrs.of :=
  Attrs.included_antisymm (layout.supported_attrs found)
    (attrs_closed wellNumbered found)

end Layout

end PegAudit
