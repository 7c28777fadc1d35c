import PegAudit.Proofs.Checked.Chart

namespace PegAudit

/-!
# Looking for conflicts is not refused

The colliding pairs of a decision are those of a product of two sets that are
not disjoint.  Building the product needs a bit for every pair, and its pairs
are the ones that are found without it.
-/

namespace IndexRelation

/-- The pairs of a relation are the members of its rows, row by row. -/
theorem Uniform.pairs_eq_flatMap
    {relation : IndexRelation}
    {room : Nat}
    (uniform : relation.Uniform room) :
    relation.pairs =
      (List.range relation.size).flatMap fun left =>
        (relation.row left).toList.map (left, ·) := by
  have rowsAre :
      relation.rows.toList.zipIdx =
        (List.range relation.size).map fun left =>
          (relation.row left, left) := by
    apply List.ext_getElem
    · simp [uniform.size_rows]
    · intro left inside _
      simp only [List.length_zipIdx, Array.length_toList] at inside
      simp [row, inside]
  rw [pairs, rowsAre, List.flatMap_map]

/-- An intersection relates what both operands relate. -/
theorem Uniform.contains_intersect
    {relation other : IndexRelation}
    {room : Nat}
    (uniform : relation.Uniform room)
    (otherUniform : other.Uniform room)
    (sameSize : relation.size = other.size)
    (left right : Nat) :
    (relation.intersect other).contains left right =
      (relation.contains left right && other.contains left right) := by
  by_cases inside : left < relation.rows.size
  · have otherInside : left < other.rows.size := by
      rwa [otherUniform.size_rows, ← sameSize, ← uniform.size_rows]
    have intersected :
        (relation.intersect other).row left =
          (relation.row left).intersect (other.row left) := by
      simp [row, IndexRelation.intersect, inside, otherInside]
    rw [contains, intersected, IndexSet.contains_intersect,
      otherUniform.room_row otherInside, contains, contains]
    cases member : (relation.row left).contains right with
    | false =>
        rfl
    | true =>
        have below : right < room := by
          rw [← uniform.room_row inside]
          exact IndexSet.lt_room_of_contains member
        simp [Nat.not_le.mpr below]
  · rw [contains_of_size_le (by simpa [IndexRelation.intersect] using inside),
      contains_of_size_le (Nat.le_of_not_lt inside), Bool.false_and]

end IndexRelation

/-- Mapping only the chosen elements is mapping the others to nothing. -/
theorem flatMap_filter_eq
    (chosen : α → Bool)
    (found : α → List β)
    (elements : List α) :
    (elements.filter chosen).flatMap found =
      elements.flatMap fun element =>
        if chosen element then found element else [] := by
  induction elements with
  | nil =>
      rfl
  | cons element rest inductionHypothesis =>
      cases isChosen : chosen element <;>
        simp [isChosen, inductionHypothesis]

/-- Members below a bound are found by asking each number below it. -/
theorem IndexSet.toList_eq_filter_range
    {indices : IndexSet}
    {bound : Nat}
    (below : ∀ {index}, indices.contains index = true → index < bound) :
    indices.toList = (List.range bound).filter indices.contains := by
  apply indices.pairwise_toList.eq_of_mem_iff
    (List.pairwise_lt_range.filter _)
  intro index
  rw [mem_toList_iff, List.mem_filter, List.mem_range]
  exact ⟨fun member => ⟨below member, member⟩, And.right⟩

/--
The related pairs of a product are, row by row, the members of the left set
with those members of the right one that they are related to.
-/
theorem IndexRelation.pairs_intersect_product
    {relation : IndexRelation}
    (uniform :
      relation.Uniform (IndexSet.empty relation.size).room)
    {left right : IndexSet}
    (leftBelow :
      ∀ {index}, left.contains index = true → index < relation.size)
    (rightBelow :
      ∀ {index}, right.contains index = true → index < relation.size)
    (rightRoom : right.room = (IndexSet.empty relation.size).room) :
    ((product left right relation.size).intersect relation).pairs =
      left.toList.flatMap fun first =>
        ((relation.row first).intersect right).toList.map (first, ·) := by
  have productUniform :
      (product left right relation.size).Uniform
        (IndexSet.empty relation.size).room := by
    rw [product]
    exact Uniform.ofRows _ _
  have related
      (first second : Nat) :
      ((product left right relation.size).intersect relation).contains
          first second = true ↔
        left.contains first = true ∧ right.contains second = true ∧
          relation.contains first second = true := by
    have covered := IndexSet.le_room_empty relation.size
    rw [productUniform.contains_intersect uniform rfl, product,
      contains_ofRows]
    by_cases member : left.contains first = true
    · have below := leftBelow member
      simp only [member, if_true, List.mem_filter,
        IndexSet.mem_toList_iff, decide_eq_true_eq, Bool.and_eq_true]
      constructor
      · rintro ⟨⟨⟨_, inRight, _⟩, _⟩, isRelated⟩
        exact ⟨trivial, inRight, isRelated⟩
      · rintro ⟨_, inRight, isRelated⟩
        have rightIs := rightBelow inRight
        exact
          ⟨⟨⟨below, inRight, rightIs⟩, Nat.lt_of_lt_of_le rightIs covered⟩,
            isRelated⟩
    · simp [member]
  rw [(productUniform.intersect relation).pairs_eq_flatMap,
    IndexSet.toList_eq_filter_range leftBelow, flatMap_filter_eq]
  apply List.flatMap_congr
  intro first inRange
  have hasRow : first < relation.rows.size := by
    rw [uniform.size_rows]
    exact List.mem_range.mp inRange
  split
  case isTrue member =>
    congr 1
    apply (IndexSet.pairwise_toList _).eq_of_mem_iff
      (IndexSet.pairwise_toList _)
    intro second
    rw [IndexSet.mem_toList_iff, IndexSet.mem_toList_iff,
      IndexSet.contains_intersect, rightRoom]
    refine (related first second).trans ?_
    simp only [member, true_and, Bool.and_eq_true, Bool.or_eq_true,
      decide_eq_true_eq]
    constructor
    · rintro ⟨inRight, isRelated⟩
      exact ⟨isRelated, .inl inRight⟩
    · rintro ⟨isRelated, inRight | outside⟩
      · exact ⟨inRight, isRelated⟩
      · have inRoom := IndexSet.lt_room_of_contains isRelated
        rw [uniform.room_row hasRow] at inRoom
        exact (Nat.not_lt.mpr outside inRoom).elim
  case isFalse notMember =>
    rw [List.map_eq_nil_iff]
    apply List.eq_nil_iff_forall_not_mem.mpr
    intro second member
    exact notMember
      ((related first second).mp (IndexSet.mem_toList_iff.mp member)).1

/-- The nodes of a decision, its owner first. -/
def Decision.nodes
    (decision : Decision) :
    List NodeId :=
  decision.owner :: decision.first :: decision.second.toList

/-- Each element of a pair is an element of the list. -/
theorem mem_of_mem_orderedPairs
    {elements : List α}
    {pair : α × α}
    (listed : pair ∈ orderedPairs elements) :
    pair.1 ∈ elements ∧ pair.2 ∈ elements := by
  induction elements with
  | nil =>
      cases listed
  | cons element rest inductionHypothesis =>
      rcases List.mem_append.mp listed with isFirst | inRest
      · obtain ⟨later, inRest, rfl⟩ := List.mem_map.mp isFirst
        exact ⟨List.mem_cons_self, List.mem_cons_of_mem element inRest⟩
      · obtain ⟨firstIn, secondIn⟩ := inductionHypothesis inRest
        exact
          ⟨List.mem_cons_of_mem element firstIn,
            List.mem_cons_of_mem element secondIn⟩

/-- A decision is about its owner and what the owner mentions. -/
theorem Shape.mem_nodes_of_mem_decisions
    {owner : NodeId}
    {shape : Shape NodeId}
    {decision : Decision}
    (decides : decision ∈ shape.decisions owner)
    {id : NodeId}
    (isNode : id ∈ decision.nodes) :
    id = owner ∨ id ∈ shape.mentioned := by
  cases shape with
  | group grouping parts =>
      cases grouping with
      | choice =>
          obtain ⟨pair, listed, rfl⟩ := List.mem_map.mp decides
          obtain ⟨firstIn, secondIn⟩ := mem_of_mem_orderedPairs listed
          simp only [Decision.nodes, Option.toList, List.mem_cons,
            List.not_mem_nil, or_false] at isNode
          rcases isNode with rfl | rfl | rfl
          · exact .inl rfl
          · exact .inr firstIn
          · exact .inr secondIn
      | sequence =>
          cases decides
  | unary operator body =>
      have isBody : id = owner ∨ id = body := by
        cases operator <;>
          simp_all [Shape.decisions, Decision.nodes]
      exact isBody.imp_right List.mem_singleton.mpr
  | _ =>
      cases decides

namespace Chart

variable
  {chart : Chart}
  {relations : Relations}

/-- The terminals of a second way are united without refusal. -/
theorem Terminated.secondTerms?_eq_some
    (terminated : chart.Terminated)
    (decision : Decision) :
    chart.secondTerms? decision = some (chart.secondTerms decision) := by
  cases isSecond : decision.second with
  | none =>
      simp only [secondTerms?, secondTerms, isSecond]
  | some second =>
      simp only [secondTerms?, secondTerms, isSecond]
      split
      · apply IndexSet.union?_eq_some
        rw [terminated.room_firstOf, terminated.room_followOf]
      · rfl

/-- All that a reported conflict mentions is there to be shown. -/
theorem Terminated.placed
    (terminated : chart.Terminated)
    (uniform :
      relations.nonDisjoint.Uniform chart.noTerminals.room)
    (terminalsInside :
      chart.layout.terminalCount ≤ chart.layout.nodes.size)
    (inside :
      ∀ decision ∈ chart.decisions,
        ∀ id ∈ decision.nodes, id < chart.layout.nodes.size)
    {conflict : Conflict}
    (reported : conflict ∈ chart.conflicts relations) :
    conflict.placed chart.layout = true := by
  obtain ⟨decision, decides, isConflict⟩ := exists_decision reported
  rw [eq_of_conflict?_eq_some isConflict]
  have nodesInside := inside decision decides
  simp only [Decision.nodes, List.forall_mem_cons] at nodesInside
  obtain ⟨ownerInside, firstInside, secondInside⟩ := nodesInside
  simp only [Conflict.placed, Conflict.shownNodes, Layout.has,
    List.all_eq_true, decide_eq_true_eq, List.cons_append,
    List.forall_mem_cons, List.forall_mem_append]
  refine ⟨firstInside, ownerInside, secondInside, ?_⟩
  intro id shown
  obtain ⟨pair, collides, ofPair⟩ := List.mem_flatMap.mp shown
  obtain ⟨leadsFirst, leadsSecond, _⟩ :=
    (terminated.mem_collisions_iff uniform).mp collides
  simp only [List.mem_cons, List.not_mem_nil, or_false] at ofPair
  rcases ofPair with rfl | rfl
  · exact
      Nat.lt_of_lt_of_le (terminated.firstOf_lt leadsFirst) terminalsInside
  · exact
      Nat.lt_of_lt_of_le (terminated.secondTerms_lt leadsSecond)
        terminalsInside

/-- A decision is examined without refusal. -/
theorem Terminated.examine?_eq_some
    (terminated : chart.Terminated)
    (uniform :
      relations.nonDisjoint.Uniform chart.noTerminals.room)
    (sameSize :
      relations.nonDisjoint.size = chart.layout.terminalCount)
    {decision : Decision}
    (inside : ∀ id ∈ decision.nodes, id < chart.layout.nodes.size) :
    chart.examine? relations decision =
      some (chart.conflict? relations decision) := by
  have second := terminated.secondTerms?_eq_some decision
  have secondRoom := terminated.room_secondTerms decision
  have visited : chart.layout.visit? decision.nodes = some () :=
    Layout.visit?_eq_some inside
  have collisions :
      ((IndexRelation.product (chart.firstOf decision.first)
          (chart.secondTerms decision)
          chart.layout.terminalCount).intersect
            relations.nonDisjoint).pairs =
        chart.collisions relations decision := by
    unfold noTerminals at uniform secondRoom
    rw [← sameSize] at uniform secondRoom ⊢
    apply IndexRelation.pairs_intersect_product uniform
    · intro terminal member
      rw [sameSize]
      exact terminated.firstOf_lt member
    · intro terminal member
      rw [sameSize]
      exact terminated.secondTerms_lt member
    · exact secondRoom
  unfold Decision.nodes at visited
  simp only [examine?, visited, second, IndexRelation.product?_eq_some,
    collisions, Option.bind_eq_bind, Option.bind_some, conflict?]
  cases chart.collisions relations decision <;> rfl

/-- All conflicts are found without refusal. -/
theorem Terminated.conflicts?_eq_some
    (terminated : chart.Terminated)
    (uniform :
      relations.nonDisjoint.Uniform chart.noTerminals.room)
    (sameSize :
      relations.nonDisjoint.size = chart.layout.terminalCount)
    (compoundsInside :
      ∀ id ∈ chart.layout.compoundIds, id < chart.layout.nodes.size)
    (inside :
      ∀ decision ∈ chart.decisions,
        ∀ id ∈ decision.nodes, id < chart.layout.nodes.size) :
    chart.conflicts? relations = some (chart.conflicts relations) := by
  have examined :
      chart.decisions.mapM (chart.examine? relations) =
        some (chart.decisions.map (chart.conflict? relations)) :=
    mapM_eq_some fun decision decides =>
      terminated.examine?_eq_some uniform sameSize (inside decision decides)
  have found :
      (chart.decisions.map (chart.conflict? relations)).filterMap id =
        chart.foundConflicts relations := by
    rw [List.filterMap_map]
    rfl
  have owners :
      chart.layout.visit?
          ((chart.foundConflicts relations).map Conflict.owner) =
        some () := by
    apply Layout.visit?_eq_some
    intro id member
    obtain ⟨conflict, isFound, rfl⟩ := List.mem_map.mp member
    obtain ⟨decision, decides, isConflict⟩ :=
      List.mem_filterMap.mp isFound
    rw [eq_of_conflict?_eq_some isConflict]
    exact inside decision decides _ List.mem_cons_self
  rw [conflicts?, Layout.visit?_eq_some compoundsInside]
  simp only [examined, found, owners, Option.bind_eq_bind,
    Option.bind_some]
  rfl

end Chart

end PegAudit
