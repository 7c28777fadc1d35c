import PegAudit.Proofs.FirstTerms
import PegAudit.Proofs.Renumbering.Layout

namespace PegAudit

/-!
# Relations under other numbers

Layouts that differ in their numbers only have the same relations: the pairs
that shapes give correspond, and with them the paths that closures are made of.
So the first terminals of corresponding expressions correspond too.
-/

/-- What is taken of renumbered elements is what is taken of the elements. -/
theorem upTo_map
    (stops : β → Bool)
    (renumber : α → β)
    (elements : List α) :
    upTo stops (elements.map renumber) =
      (upTo (fun element => stops (renumber element)) elements).map
        renumber := by
  induction elements with
  | nil =>
      rfl
  | cons element rest inductionHypothesis =>
      simp only [List.map_cons, upTo]
      split
      · rfl
      · rw [inductionHypothesis, List.map_cons]

/-- The other set has the same members under other numbers. -/
structure IndexSet.Renumbers
    (renumber : Nat → Nat)
    (indices other : IndexSet) :
    Prop where
  room_eq :
    other.room = indices.room
  contains_eq :
    ∀ index, other.contains (renumber index) = indices.contains index

/-- The other relation has the same pairs under other numbers. -/
structure IndexRelation.Renumbers
    (renumber : Nat → Nat)
    (relation other : IndexRelation) :
    Prop where
  size_eq :
    other.size = relation.size
  contains_eq :
    ∀ left right,
      other.contains (renumber left) (renumber right) =
        relation.contains left right

/-- The other relations have the same pairs under other numbers, each of the six. -/
structure Relations.Renumbers
    (renumber : Nat → Nat)
    (relations other : Relations) :
    Prop where
  calls :
    relations.calls.Renumbers renumber other.calls
  callsClosure :
    relations.callsClosure.Renumbers renumber other.callsClosure
  first :
    relations.first.Renumbers renumber other.first
  firstClosure :
    relations.firstClosure.Renumbers renumber other.firstClosure
  disjoint :
    relations.disjoint.Renumbers renumber other.disjoint
  nonDisjoint :
    relations.nonDisjoint.Renumbers renumber other.nonDisjoint

namespace IndexRelation.Renumbers

variable
  {renumber : Equiv.Perm Nat}
  {relation other : IndexRelation}

/-- Corresponding pairs are related here if they are there. -/
theorem relates_iff
    (renumbers : relation.Renumbers renumber other)
    {left right : Nat} :
    other.Relates (renumber left) (renumber right) ↔
      relation.Relates left right := by
  rw [Relates, Relates, renumbers.contains_eq]

/-- Paths correspond. -/
theorem transGen_iff
    (renumbers : relation.Renumbers renumber other)
    {left right : Nat} :
    Relation.TransGen other.Relates (renumber left) (renumber right) ↔
      Relation.TransGen relation.Relates left right := by
  constructor
  · intro path
    have back :
        Relation.TransGen relation.Relates
          (renumber.symm (renumber left))
          (renumber.symm (renumber right)) := by
      apply path.lift renumber.symm
      intro first second related
      apply renumbers.relates_iff.mp
      rwa [Equiv.apply_symm_apply, Equiv.apply_symm_apply]
    simpa using back
  · intro path
    exact path.lift renumber fun _ _ => renumbers.relates_iff.mpr

/-- Closures correspond. -/
theorem closure
    {room otherRoom : Nat}
    (renumbers : relation.Renumbers renumber other)
    (uniform : relation.Uniform room)
    (otherUniform : other.Uniform otherRoom) :
    relation.closure.Renumbers renumber other.closure where
  size_eq := by
    rw [size_closure, size_closure, renumbers.size_eq]
  contains_eq := by
    intro left right
    rw [Bool.eq_iff_iff]
    exact
      (otherUniform.relates_closure_iff.trans renumbers.transGen_iff).trans
        uniform.relates_closure_iff.symm

/-- Reflexive closures correspond. -/
theorem star
    {room : Nat}
    (renumbers : relation.Renumbers renumber other)
    (uniform : relation.Uniform room)
    (otherUniform : other.Uniform room)
    (enough : relation.size ≤ room)
    (inside :
      ∀ id, renumber id < relation.size ↔ id < relation.size) :
    relation.star.Renumbers renumber other.star where
  size_eq := by
    rw [size_star, size_star, renumbers.size_eq]
  contains_eq := by
    intro left right
    have otherEnough : other.size ≤ room := by
      rwa [renumbers.size_eq]
    rw [Bool.eq_iff_iff]
    refine (otherUniform.relates_star_iff otherEnough).trans ?_
    refine Iff.trans ?_ (uniform.relates_star_iff enough).symm
    rw [renumbers.transGen_iff, renumbers.size_eq, inside,
      renumber.injective.eq_iff]

end IndexRelation.Renumbers

namespace Layout.Renumbers

variable
  {renumber : Equiv.Perm NodeId}
  {layout other : Layout}

section Shapes

variable
  {table otherTable : AttrTable}
  (sameAttrs : ∀ id, otherTable.of (renumber id) = table.of id)

include sameAttrs

/-- The elements that are reached correspond. -/
theorem reachable_map
    (elements : List NodeId) :
    otherTable.reachable (elements.map renumber) =
      (table.reachable elements).map renumber := by
  simp only [AttrTable.reachable, upTo_map, sameAttrs]

/-- The called nodes correspond. -/
theorem callees_renumbered
    (shape : Shape NodeId) :
    (shape.renumbered renumber).callees otherTable =
      (shape.callees table).map renumber := by
  cases shape with
  | group grouping parts =>
      cases grouping with
      | choice =>
          rfl
      | sequence =>
          exact reachable_map sameAttrs parts
  | _ =>
      rfl

/-- The nodes that contribute first characters correspond. -/
theorem openers_renumbered
    (shape : Shape NodeId) :
    (shape.renumbered renumber).openers otherTable =
      (shape.openers table).map renumber := by
  have filtered :
      ((shape.renumbered renumber).callees otherTable).filter
          (fun id => (otherTable.of id).advances) =
        ((shape.callees table).filter
          fun id => (table.of id).advances).map renumber := by
    rw [callees_renumbered sameAttrs, List.filter_map]
    simp only [Function.comp_def, sameAttrs]
  cases shape with
  | reference target rule =>
      rfl
  | unary operator body =>
      cases operator <;> first | rfl | exact filtered
  | _ =>
      exact filtered

end Shapes

/-- Relations made from corresponding shapes correspond. -/
theorem relate
    (renumbers : layout.Renumbers renumber other)
    (wellNumbered : layout.WellNumbered)
    (otherNumbered : other.WellNumbered)
    {related otherRelated : Shape NodeId → List NodeId}
    (mentions :
      ∀ {shape id}, id ∈ related shape → id ∈ shape.mentioned)
    (otherMentions :
      ∀ {shape id}, id ∈ otherRelated shape → id ∈ shape.mentioned)
    (corresponds :
      ∀ shape,
        otherRelated (shape.renumbered renumber) =
          (related shape).map renumber) :
    (layout.relate related).Renumbers renumber
      (other.relate otherRelated) where
  size_eq := renumbers.exprCount_eq
  contains_eq := by
    intro left right
    rw [Bool.eq_iff_iff]
    refine (relates_relate_iff otherNumbered otherMentions).trans ?_
    refine Iff.trans ?_ (relates_relate_iff wellNumbered mentions).symm
    rw [renumbers.shape?_eq]
    simp only [Option.map_eq_some_iff, exists_exists_and_eq_and,
      corresponds, List.mem_map_of_injective renumber.injective]

/-- The terminals of corresponding nodes are the same. -/
theorem terminal?_eq
    (renumbers : layout.Renumbers renumber other)
    (id : NodeId) :
    other.terminal? (renumber id) = layout.terminal? id := by
  rw [terminal?, renumbers.shape?_eq, terminal?]
  cases layout.shape? id with
  | none =>
      rfl
  | some shape =>
      cases shape <;> rfl

variable
  (renumbers : layout.Renumbers renumber other)
  (wellNumbered : layout.WellNumbered)
  (otherNumbered : other.WellNumbered)

include renumbers wellNumbered otherNumbered

/-- The disjoint terminals correspond. -/
theorem disjointTerminals :
    layout.disjointTerminals.Renumbers renumber
      other.disjointTerminals where
  size_eq := renumbers.terminalCount_eq
  contains_eq := by
    intro left right
    have below
        (id : NodeId) :
        renumber id < layout.terminalCount ↔ id < layout.terminalCount :=
      renumbers.lt_terminalCount_iff wellNumbered otherNumbered
    have covered := IndexSet.le_room_empty layout.terminalCount
    rw [Bool.eq_iff_iff]
    simp only [Layout.disjointTerminals, IndexRelation.contains_ofRows,
      renumbers.terminalCount_eq, renumbers.terminal?_eq, terminalIds,
      Bool.and_eq_true, decide_eq_true_eq, List.mem_filter,
      List.mem_range, below]
    constructor
    · rintro ⟨⟨leftIn, rightIn, disjoint⟩, _⟩
      exact
        ⟨⟨leftIn, rightIn, disjoint⟩, Nat.lt_of_lt_of_le rightIn covered⟩
    · rintro ⟨⟨leftIn, rightIn, disjoint⟩, _⟩
      exact
        ⟨⟨leftIn, rightIn, disjoint⟩,
          Nat.lt_of_lt_of_le ((below right).mpr rightIn) covered⟩

/-- The terminals that are not disjoint correspond. -/
theorem complement_disjointTerminals :
    layout.disjointTerminals.complement.Renumbers renumber
      other.disjointTerminals.complement where
  size_eq := renumbers.terminalCount_eq
  contains_eq := by
    intro left right
    have below
        (id : NodeId) :
        renumber id < layout.terminalCount ↔ id < layout.terminalCount :=
      renumbers.lt_terminalCount_iff wellNumbered otherNumbered
    have covered := IndexSet.le_room_empty layout.terminalCount
    have sameDisjoint :=
      renumbers.disjointTerminals wellNumbered otherNumbered
    have size :
        layout.disjointTerminals.size = layout.terminalCount :=
      rfl
    rw [Bool.eq_iff_iff]
    simp only [IndexRelation.complement, IndexRelation.contains_ofRows,
      sameDisjoint.size_eq, sameDisjoint.contains_eq, size,
      Bool.and_eq_true, decide_eq_true_eq, List.mem_filter,
      List.mem_range, below]
    constructor
    · rintro ⟨⟨leftIn, rightIn, overlap⟩, _⟩
      exact
        ⟨⟨leftIn, rightIn, overlap⟩, Nat.lt_of_lt_of_le rightIn covered⟩
    · rintro ⟨⟨leftIn, rightIn, overlap⟩, _⟩
      exact
        ⟨⟨leftIn, rightIn, overlap⟩,
          Nat.lt_of_lt_of_le ((below right).mpr rightIn) covered⟩

/-- All relations correspond. -/
theorem relations :
    (layout.relations layout.attrs).Renumbers renumber
      (other.relations other.attrs) := by
  have sameAttrs := renumbers.attrs_eq wellNumbered otherNumbered
  have calls :=
    renumbers.relate wellNumbered otherNumbered
      Shape.mentioned_of_mem_callees Shape.mentioned_of_mem_callees
      (callees_renumbered sameAttrs)
  have first :=
    renumbers.relate wellNumbered otherNumbered
      (fun opens =>
        Shape.mentioned_of_mem_callees (Shape.mem_callees_of_mem_openers opens))
      (fun opens =>
        Shape.mentioned_of_mem_callees (Shape.mem_callees_of_mem_openers opens))
      (openers_renumbered sameAttrs)
  have otherUniform := other.uniform_relate (Shape.openers other.attrs)
  rw [renumbers.exprCount_eq] at otherUniform
  exact
    { calls := calls
      callsClosure :=
        calls.closure (layout.uniform_relate _) (other.uniform_relate _)
      first := first
      firstClosure :=
        first.star (layout.uniform_relate _) otherUniform
          (IndexSet.le_room_empty layout.exprCount)
          fun _ => renumbers.lt_exprCount_iff
      disjoint := renumbers.disjointTerminals wellNumbered otherNumbered
      nonDisjoint :=
        renumbers.complement_disjointTerminals wellNumbered otherNumbered }

/-- The first terminals of corresponding expressions correspond. -/
theorem firstTerms
    (id : NodeId) :
    ((layout.relations layout.attrs).firstTerms
        layout.terminalCount id).Renumbers renumber
      ((other.relations other.attrs).firstTerms
        other.terminalCount (renumber id)) where
  room_eq := by
    rw [Relations.firstTerms, IndexSet.room_ofList, Relations.firstTerms,
      IndexSet.room_ofList, renumbers.terminalCount_eq]
  contains_eq := by
    intro terminal
    have related := renumbers.relations wellNumbered otherNumbered
    have below :
        renumber terminal < layout.terminalCount ↔
          terminal < layout.terminalCount :=
      renumbers.lt_terminalCount_iff wellNumbered otherNumbered
    rw [Bool.eq_iff_iff, Relations.contains_firstTerms_iff,
      Relations.contains_firstTerms_iff, renumbers.terminalCount_eq, below,
      related.firstClosure.relates_iff]

end Layout.Renumbers

end PegAudit
