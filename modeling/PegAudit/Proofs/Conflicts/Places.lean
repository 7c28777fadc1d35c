import PegAudit.Proofs.Analysis.Terminals
import PegAudit.Proofs.Checked.Conflicts
import PegAudit.Proofs.Renumbering.Conflicts

namespace PegAudit

/-!
# The places of conflicts

A decision has a place: its node and the positions of its two ways.  Decisions
are examined in the order of their places.  Sorting by the names of the nodes is
stable, so among equal names the order of the places is kept.
-/

section Stable

variable
  {le : α → α → Bool}
  (transitive :
    ∀ first second third,
      le first second = true →
      le second third = true →
      le first third = true)
  (total : ∀ first second, (le first second || le second first) = true)

include transitive total

/-- Sorting keeps the elements of one rank in their order. -/
theorem filter_mergeSort_alike
    (elements : List α)
    (one : α) :
    (elements.mergeSort le).filter
        (fun other => le one other && le other one) =
      elements.filter fun other => le one other && le other one := by
  let alike (other : α) : Bool := le one other && le other one
  have oneRank :
      (elements.filter alike).Pairwise fun first second =>
        le first second = true := by
    apply List.pairwise_of_forall_mem_list
    intro first firstIn second secondIn
    have firstAlike := (List.mem_filter.mp firstIn).2
    have secondAlike := (List.mem_filter.mp secondIn).2
    exact
      transitive first one second (Bool.and_eq_true_iff.mp firstAlike).2
        (Bool.and_eq_true_iff.mp secondAlike).1
  have kept :
      (elements.filter alike).Sublist
        ((elements.mergeSort le).filter alike) := by
    have sorted :=
      (List.sublist_mergeSort transitive total oneRank
        List.filter_sublist).filter alike
    simpa [List.filter_filter] using sorted
  exact
    (kept.eq_of_length
      ((List.mergeSort_perm elements le).filter alike).length_eq.symm).symm

/-- Sorting keeps any order among elements of one rank. -/
theorem pairwise_mergeSort_of_pairwise
    {elements : List α}
    {ordered : α → α → Prop}
    (inOrder : elements.Pairwise ordered) :
    (elements.mergeSort le).Pairwise fun earlier later =>
      le earlier later = true ∧
        (le later earlier = true → ordered earlier later) := by
  have sorted := List.pairwise_mergeSort transitive total elements
  rw [List.pairwise_iff_forall_sublist] at sorted inOrder ⊢
  intro earlier later inSorted
  refine ⟨sorted inSorted, fun tied => inOrder ?_⟩
  let alike (other : α) : Bool := le earlier other && le other earlier
  have ownRank : le earlier earlier = true := by
    simpa using total earlier earlier
  have bothAlike : [earlier, later].filter alike = [earlier, later] := by
    simp [alike, ownRank, sorted inSorted, tied]
  rw [← bothAlike]
  exact
    (inSorted.filter alike).trans
      (filter_mergeSort_alike transitive total elements earlier ▸
        List.filter_sublist)

end Stable

/-- Where a decision is made: the node, and the positions of the ways in it. -/
structure Place where
  owner : NodeId
  first : Nat
  second : Nat
  deriving Repr, DecidableEq

/-- Places are ordered by node, then by first and by second position. -/
def Place.Before
    (earlier later : Place) :
    Prop :=
  earlier.owner < later.owner ∨
    earlier.owner = later.owner ∧
      (earlier.first < later.first ∨
        earlier.first = later.first ∧ earlier.second < later.second)

/-- A choice decides between alternatives, a repetition or option on its body. -/
inductive Layout.DecidesAt
    (layout : Layout) :
    Place →
    Decision →
    Prop
  | alternatives
      {owner first second : NodeId}
      {parts : List NodeId}
      {earlier later : Nat}
      (shape : layout.shape? owner = some (.group .choice parts))
      (inOrder : earlier < later)
      (isFirst : parts[earlier]? = some first)
      (isSecond : parts[later]? = some second) :
      DecidesAt layout
        { owner := owner, first := earlier, second := later }
        { first := first, second := some second, owner := owner }
  | repetition
      {owner body : NodeId}
      {operator : Operator}
      (shape : layout.shape? owner = some (.unary operator body))
      (isOpen : operator ∈ [.oneOrMore, .zeroOrMore, .optional]) :
      DecidesAt layout
        { owner := owner, first := 0, second := 0 }
        { first := body, second := none, owner := owner }

section Pairs

variable {elements : List α}

/-- The elements of a pair stand at two positions in order. -/
theorem exists_positions_of_mem_orderedPairs
    {pair : α × α}
    (listed : pair ∈ orderedPairs elements) :
    ∃ earlier later : Nat,
      earlier < later ∧
        elements[earlier]? = some pair.1 ∧
          elements[later]? = some pair.2 := by
  induction elements with
  | nil =>
      cases listed
  | cons element rest inductionHypothesis =>
      rcases List.mem_append.mp listed with isFirst | inRest
      · obtain ⟨second, inRest, rfl⟩ := List.mem_map.mp isFirst
        obtain ⟨position, isSecond⟩ := List.mem_iff_getElem?.mp inRest
        exact
          ⟨0, position + 1, Nat.succ_pos position, rfl, by simpa⟩
      · obtain ⟨earlier, later, inOrder, isFirst, isSecond⟩ :=
          inductionHypothesis inRest
        exact
          ⟨earlier + 1, later + 1, Nat.succ_lt_succ inOrder, by simpa,
            by simpa⟩

/-- Pairs of ordered elements are ordered by their first, then their second. -/
theorem pairwise_orderedPairs
    {ordered : α → α → Prop}
    (inOrder : elements.Pairwise ordered) :
    (orderedPairs elements).Pairwise (Prod.Lex ordered ordered) := by
  induction inOrder with
  | nil =>
      exact .nil
  | @cons element rest below inRest inductionHypothesis =>
      refine List.pairwise_append.mpr ⟨?_, inductionHypothesis, ?_⟩
      · rw [List.pairwise_map]
        exact inRest.imp fun before => .right element before
      · intro pair ofElement other inLater
        obtain ⟨second, _, rfl⟩ := List.mem_map.mp ofElement
        exact
          Prod.lex_def.mpr
            (.inl (below _ (mem_of_mem_orderedPairs inLater).1))

/-- Elements with their positions are ordered by position. -/
theorem pairwise_zipIdx
    (elements : List α) :
    elements.zipIdx.Pairwise fun earlier later => earlier.2 < later.2 := by
  rw [← List.pairwise_map, List.zipIdx_map_snd]
  exact List.pairwise_lt_range'

end Pairs

namespace Shape

/-- The decisions of a shape with the given number, each with its place. -/
def placedDecisions
    (owner : NodeId) :
    Shape NodeId →
    List (Place × Decision)
  | .group .choice parts =>
      (orderedPairs parts.zipIdx).map fun (first, second) =>
        ({ owner := owner, first := first.2, second := second.2 },
          { first := first.1, second := some second.1, owner := owner })
  | shape =>
      (shape.decisions owner).map fun decision =>
        ({ owner := owner, first := 0, second := 0 }, decision)

/-- Without their places these are the decisions. -/
theorem map_snd_placedDecisions
    (owner : NodeId)
    (shape : Shape NodeId) :
    (shape.placedDecisions owner).map Prod.snd =
      shape.decisions owner := by
  have unplaced (decisions : List Decision) (place : Place) :
      (decisions.map fun decision => (place, decision)).map Prod.snd =
        decisions := by
    simp [Function.comp_def]
  cases shape with
  | group grouping parts =>
      cases grouping with
      | choice =>
          have pairs :
              orderedPairs parts =
                (orderedPairs parts.zipIdx).map
                  (Prod.map Prod.fst Prod.fst) := by
            rw [← orderedPairs_map, List.zipIdx_map_fst]
          rw [decisions, pairs]
          simp [placedDecisions, Function.comp_def]
      | sequence =>
          exact unplaced _ _
  | _ =>
      exact unplaced _ _

/-- The decisions of a node are made at it, and placed in order. -/
theorem pairwise_placedDecisions
    (owner : NodeId)
    (shape : Shape NodeId) :
    (shape.placedDecisions owner).Pairwise fun earlier later =>
      earlier.1.Before later.1 := by
  cases shape with
  | group grouping parts =>
      cases grouping with
      | choice =>
          rw [placedDecisions, List.pairwise_map]
          refine (pairwise_orderedPairs (pairwise_zipIdx parts)).imp ?_
          rintro ⟨first, second⟩ ⟨other, later⟩ inOrder
          rcases Prod.lex_def.mp inOrder with before | ⟨same, before⟩
          · exact .inr ⟨rfl, .inl before⟩
          · exact .inr ⟨rfl, .inr ⟨congrArg Prod.snd same, before⟩⟩
      | sequence =>
          exact .nil
  | unary operator body =>
      cases operator <;> simp [placedDecisions, decisions]
  | _ =>
      exact .nil

/-- A decision and its place name the node. -/
theorem owner_of_mem_placedDecisions
    {owner : NodeId}
    {shape : Shape NodeId}
    {place : Place}
    {decision : Decision}
    (placed : (place, decision) ∈ shape.placedDecisions owner) :
    place.owner = owner ∧ decision.owner = owner := by
  cases shape with
  | group grouping parts =>
      cases grouping with
      | choice =>
          obtain ⟨pair, _, same⟩ := List.mem_map.mp placed
          cases same
          exact ⟨rfl, rfl⟩
      | sequence =>
          cases placed
  | unary operator body =>
      cases operator <;> simp_all [placedDecisions, decisions]
  | _ =>
      cases placed

end Shape

/-- The placed decisions of a layout are those of its shapes. -/
theorem Layout.decidesAt_iff
    {layout : Layout}
    {place : Place}
    {decision : Decision} :
    layout.DecidesAt place decision ↔
      ∃ shape,
        layout.shape? place.owner = some shape ∧
          (place, decision) ∈ shape.placedDecisions place.owner := by
  constructor
  · rintro (⟨shape, inOrder, isFirst, isSecond⟩ | ⟨shape, isOpen⟩)
    · refine ⟨_, shape, List.mem_map.mpr ⟨((_, _), (_, _)), ?_, rfl⟩⟩
      apply mem_orderedPairs inOrder
      · simp [List.getElem?_zipIdx, isFirst]
      · simp [List.getElem?_zipIdx, isSecond]
    · refine ⟨_, shape, ?_⟩
      simp only [List.mem_cons, List.not_mem_nil, or_false] at isOpen
      rcases isOpen with rfl | rfl | rfl
      all_goals simp [Shape.placedDecisions, Shape.decisions]
  · obtain ⟨owner, firstPosition, secondPosition⟩ := place
    rintro ⟨shape, found, placed⟩
    dsimp only at found placed
    cases shape with
    | group grouping parts =>
        cases grouping with
        | choice =>
            obtain ⟨⟨first, second⟩, listed, same⟩ := List.mem_map.mp placed
            obtain ⟨earlier, later, inOrder, isFirst, isSecond⟩ :=
              exists_positions_of_mem_orderedPairs listed
            simp only [List.getElem?_zipIdx, Option.map_eq_some_iff,
              Nat.zero_add] at isFirst isSecond
            obtain ⟨_, firstHere, rfl⟩ := isFirst
            obtain ⟨_, secondHere, rfl⟩ := isSecond
            cases same
            exact .alternatives found inOrder firstHere secondHere
        | sequence =>
            cases placed
    | unary operator body =>
        cases operator with
        | andPredicate =>
            cases placed
        | notPredicate =>
            cases placed
        | _ =>
            cases List.mem_singleton.mp placed
            exact .repetition found (by simp)
    | _ =>
        cases placed

namespace Chart

variable
  {chart : Chart}
  {relations : Relations}

/-- The decisions of all nodes by number, each with its place. -/
def placedDecisions
    (chart : Chart) :
    List (Place × Decision) :=
  chart.layout.compoundIds.flatMap fun id =>
    (chart.layout.shape? id).elim [] (Shape.placedDecisions id)

/-- Without their places these are the decisions. -/
theorem map_snd_placedDecisions
    (chart : Chart) :
    chart.placedDecisions.map Prod.snd = chart.decisions := by
  rw [placedDecisions, List.map_flatMap, decisions]
  apply List.flatMap_congr
  intro id _
  cases chart.layout.shape? id with
  | none =>
      rfl
  | some shape =>
      exact shape.map_snd_placedDecisions id

/-- Decisions are placed in order. -/
theorem pairwise_placedDecisions
    (chart : Chart) :
    chart.placedDecisions.Pairwise fun earlier later =>
      earlier.1.Before later.1 := by
  have owned
      {id : NodeId}
      {placed : Place × Decision}
      (ofNode :
        placed ∈
          (chart.layout.shape? id).elim [] (Shape.placedDecisions id)) :
      placed.1.owner = id := by
    cases found : chart.layout.shape? id with
    | none =>
        rw [found] at ofNode
        cases ofNode
    | some shape =>
        rw [found] at ofNode
        exact (Shape.owner_of_mem_placedDecisions ofNode).1
  refine List.pairwise_flatMap.mpr ⟨?_, ?_⟩
  · intro id _
    cases chart.layout.shape? id with
    | none =>
        exact .nil
    | some shape =>
        exact shape.pairwise_placedDecisions id
  · have ascending : chart.layout.compoundIds.Pairwise (· < ·) :=
      List.pairwise_lt_range'
    refine ascending.imp ?_
    intro id other below placed ofNode laterPlaced ofOther
    refine .inl ?_
    rwa [owned ofNode, owned ofOther]

/-- The conflicts of all decisions by node, each with its place. -/
def placedConflicts
    (chart : Chart)
    (relations : Relations) :
    List (Place × Conflict) :=
  chart.placedDecisions.filterMap fun placed =>
    (chart.conflict? relations placed.2).map (placed.1, ·)

/-- Without their places these are the conflicts that are found. -/
theorem map_snd_placedConflicts
    (chart : Chart)
    (relations : Relations) :
    (chart.placedConflicts relations).map Prod.snd =
      chart.foundConflicts relations := by
  rw [placedConflicts, List.map_filterMap, foundConflicts,
    ← map_snd_placedDecisions, List.filterMap_map]
  congr
  funext placed
  simp [Function.comp_def]

/-- Conflicts are found in the order of their places. -/
theorem pairwise_placedConflicts
    (chart : Chart)
    (relations : Relations) :
    (chart.placedConflicts relations).Pairwise fun earlier later =>
      earlier.1.Before later.1 := by
  refine chart.pairwise_placedDecisions.filterMap _ ?_
  intro earlier later before first isFirst second isSecond
  obtain ⟨_, _, rfl⟩ := Option.map_eq_some_iff.mp isFirst
  obtain ⟨_, _, rfl⟩ := Option.map_eq_some_iff.mp isSecond
  exact before

/-- Colliding pairs are listed in ascending order. -/
theorem pairwise_collisions
    (chart : Chart)
    (relations : Relations)
    (decision : Decision) :
    (chart.collisions relations decision).Pairwise
      (Prod.Lex (· < ·) (· < ·)) := by
  exact
    pairwise_lex_flatMap (IndexSet.pairwise_toList _) fun _ _ =>
      IndexSet.pairwise_toList _

/-- A decision is a conflict exactly if some pair collides. -/
theorem conflict?_eq_some_iff
    {decision : Decision}
    {conflict : Conflict} :
    chart.conflict? relations decision = some conflict ↔
      chart.collisions relations decision ≠ [] ∧
        conflict =
          { first := decision.first
            second := decision.second
            owner := decision.owner
            pairs := chart.collisions relations decision } := by
  rw [conflict?_eq_ite, ne_eq, ← List.isEmpty_iff]
  split
  case isTrue nothing =>
    simp [nothing]
  case isFalse something =>
    simp [something, eq_comm]

/-- Decisions are placed at nodes that are not terminals. -/
theorem mem_placedDecisions_iff
    {place : Place}
    {decision : Decision} :
    (place, decision) ∈ chart.placedDecisions ↔
      place.owner ∈ chart.layout.compoundIds ∧
        chart.layout.DecidesAt place decision := by
  rw [placedDecisions, List.mem_flatMap, Layout.decidesAt_iff]
  constructor
  · rintro ⟨id, compound, placed⟩
    cases found : chart.layout.shape? id with
    | none =>
        rw [found] at placed
        cases placed
    | some shape =>
        rw [found] at placed
        obtain ⟨rfl, _⟩ := Shape.owner_of_mem_placedDecisions placed
        exact ⟨compound, shape, found, placed⟩
  · rintro ⟨compound, shape, found, placed⟩
    exact ⟨place.owner, compound, by rwa [found]⟩

/-- A placed conflict is that of a decision at its place. -/
theorem mem_placedConflicts_iff
    {place : Place}
    {conflict : Conflict} :
    (place, conflict) ∈ chart.placedConflicts relations ↔
      ∃ decision,
        (place, decision) ∈ chart.placedDecisions ∧
          chart.conflict? relations decision = some conflict := by
  rw [placedConflicts, List.mem_filterMap]
  constructor
  · rintro ⟨⟨_, decision⟩, placed, isConflict⟩
    obtain ⟨_, found, same⟩ := Option.map_eq_some_iff.mp isConflict
    cases same
    exact ⟨decision, placed, found⟩
  · rintro ⟨decision, placed, found⟩
    exact ⟨(place, decision), placed, by rw [found]; rfl⟩

/-- A placed conflict is about the node of its place. -/
theorem owner_of_mem_placedConflicts
    {placed : Place × Conflict}
    (member : placed ∈ chart.placedConflicts relations) :
    placed.2.owner = placed.1.owner := by
  obtain ⟨decision, isPlaced, found⟩ := mem_placedConflicts_iff.mp member
  obtain ⟨_, decides⟩ := mem_placedDecisions_iff.mp isPlaced
  obtain ⟨shape, _, ofShape⟩ := Layout.decidesAt_iff.mp decides
  rw [eq_of_conflict?_eq_some found]
  exact (Shape.owner_of_mem_placedDecisions ofShape).2

/-- The placed conflicts ordered by the name of the deciding node. -/
def listedConflicts
    (chart : Chart)
    (relations : Relations) :
    List (Place × Conflict) :=
  (chart.placedConflicts relations).mergeSort fun left right =>
    !decide
      (chart.layout.name right.2.owner < chart.layout.name left.2.owner)

/-- Without their places these are the reported conflicts. -/
theorem map_snd_listedConflicts
    (chart : Chart)
    (relations : Relations) :
    (chart.listedConflicts relations).map Prod.snd =
      chart.conflicts relations := by
  rw [conflicts, ← map_snd_placedConflicts]
  exact List.map_mergeSort fun _ _ _ _ => rfl

/-- Conflicts are listed by name, and by place among equal names. -/
theorem pairwise_listedConflicts
    (chart : Chart)
    (relations : Relations) :
    (chart.listedConflicts relations).Pairwise fun earlier later =>
      chart.layout.name earlier.1.owner < chart.layout.name later.1.owner ∨
        chart.layout.name earlier.1.owner =
            chart.layout.name later.1.owner ∧
          earlier.1.Before later.1 := by
  let name (placed : Place × Conflict) : String :=
    chart.layout.name placed.2.owner
  have le_iff
      (left right : Place × Conflict) :
      (!decide (name right < name left)) = true ↔
        name left ≤ name right := by
    rw [Bool.not_eq_true', decide_eq_false_iff_not, String.not_lt]
  have transitive
      (first second third : Place × Conflict)
      (below : (!decide (name second < name first)) = true)
      (further : (!decide (name third < name second)) = true) :
      (!decide (name third < name first)) = true := by
    rw [le_iff] at *
    exact String.le_trans below further
  have total
      (first second : Place × Conflict) :
      (!decide (name second < name first) ||
        !decide (name first < name second)) = true := by
    rw [Bool.or_eq_true, le_iff, le_iff]
    exact String.le_total _ _
  have sorted :=
    pairwise_mergeSort_of_pairwise transitive total
      (chart.pairwise_placedConflicts relations)
  refine sorted.imp_of_mem ?_
  intro earlier later earlierIn laterIn ⟨below, tied⟩
  rw [← owner_of_mem_placedConflicts (List.mem_mergeSort.mp earlierIn),
    ← owner_of_mem_placedConflicts (List.mem_mergeSort.mp laterIn)]
  rw [le_iff] at below tied
  by_cases above : name later ≤ name earlier
  · exact .inr ⟨String.le_antisymm below above, tied above⟩
  · exact .inl (String.not_le.mp above)

end Chart

end PegAudit
