import PegAudit.IndexRelation.Pairwise
import PegAudit.Proofs.IndexRelation.Extension

namespace PegAudit

/-!
# Relations pair by pair, and as sets of pairs

A command sequence has one transcript, be it carried out on relations, on
relations pair by pair, or on finite sets of pairs.  Along the way every
register holds a relation that the operations made, so that all rows are there
and have the same room.
-/

/-- Changing no element leaves a list as it is. -/
theorem mapIdx_same
    (elements : List α) :
    (elements.mapIdx fun _ element => element) = elements := by
  apply List.ext_getElem?
  simp

namespace IndexRelation

/-- A set is made by one insertion after the other. -/
theorem members?_eq_ofList? :
    members? = IndexSet.ofList? := by
  funext capacity indices
  rw [IndexSet.ofList?, IndexSet.foldlM_insert?_eq]
  rfl

/-- A set is made bit by bit. -/
theorem membersByMask?_eq :
    membersByMask? = members? := by
  have sameInsert : IndexSet.insertByMask? = IndexSet.insert? :=
    funext fun indices => funext indices.insertByMask?_eq
  funext capacity indices
  rw [members?_eq_ofList?, membersByMask?, sameInsert, IndexSet.ofList?]

/-- A set that is made is the set of its extension. -/
theorem rel_members?
    (capacity : Nat)
    (indices : List Nat) :
    Option.Rel (fun made extension => made.extension = extension)
      (members? capacity indices)
      (Extension.members? capacity indices) := by
  rw [members?_eq_ofList?]
  exact
    rel_foldlM IndexSet.simulates_extension.insert? indices
      (IndexSet.extension_empty capacity)

/-- Rows are united as long as there are two, if none is too short. -/
theorem uniteRows?_eq
    (rows others : List IndexSet) :
    uniteRows? rows others =
      if (rows.zip others).all fun (related, other) =>
          related.words.size ≤ other.words.size then
        some
          (rows.mapIdx fun left related =>
            match others[left]? with
            | some other => related.union other
            | none => related)
      else
        none := by
  fun_induction uniteRows? rows others with
  | case1 others =>
      rfl
  | case2 related rows =>
      simp [mapIdx_same]
  | case3 related rows other others inductionHypothesis =>
      rw [IndexSet.uniteWords?_eq, IndexSet.union?, inductionHypothesis]
      by_cases short : other.words.size < related.words.size
      · simp [short, Nat.not_le.mpr short]
      · rw [if_neg short, List.zip_cons_cons, List.all_cons]
        simp only [Nat.le_of_not_lt short, decide_true, Bool.true_and]
        split <;> simp

/-- Rows are intersected as long as there are two. -/
theorem intersectRows_eq
    (rows others : List IndexSet) :
    intersectRows rows others =
      rows.mapIdx fun left related =>
        match others[left]? with
        | some other => related.intersect other
        | none => related := by
  fun_induction intersectRows rows others with
  | case1 others =>
      rfl
  | case2 related rows =>
      simp [mapIdx_same]
  | case3 related rows other others inductionHypothesis =>
      simp [inductionHypothesis]

/-- Relating two indices by a mask is relating them. -/
theorem insertByMask?_eq
    (relation : IndexRelation)
    (pair : Nat × Nat) :
    relation.insertByMask? pair = relation.insert? pair.1 pair.2 := by
  simp only [insertByMask?, insert?, IndexSet.insertByMask?_eq]

/-- Uniting row by row is uniting. -/
theorem pairwise_union?_eq
    (relation other : IndexRelation) :
    pairwiseOperations.union? relation other = relation.union? other := by
  simp only [pairwiseOperations, uniteRows?_eq, union?, ← Array.toList_zip,
    Array.all_toList]
  split
  · simp only [Option.bind_eq_bind, Option.bind_some, union]
    apply congrArg some
    apply congrArg (IndexRelation.mk relation.size)
    apply Array.ext'
    apply List.ext_getElem?
    intro left
    cases present : other.rows[left]? <;> simp [present]
  · rfl

/-- Intersecting row by row is intersecting. -/
theorem pairwise_intersect_eq
    (relation other : IndexRelation) :
    pairwiseOperations.intersect relation other =
      relation.intersect other := by
  simp only [pairwiseOperations, intersectRows_eq, intersect]
  apply congrArg (IndexRelation.mk relation.size)
  apply Array.ext'
  apply List.ext_getElem?
  intro left
  cases present : other.rows[left]? <;> simp [present]

/-- Pair by pair, the relations that are made answer as before. -/
theorem simulates_operations :
    pairwiseOperations.Simulates operations
      fun relation other => relation.Made ∧ relation = other := by
  constructor
  case empty =>
    exact fun size => ⟨.empty size, rfl⟩
  case identity? =>
    exact fun size => rel_some (identity?_eq_some size) ⟨.identity size, rfl⟩
  case product? =>
    intro leftCapacity left rightCapacity right size
    have sameSet
        (capacity : Nat)
        (indices : List Nat) :
        Option.Rel Eq
          (membersByMask? capacity indices) (members? capacity indices) :=
      rel_of_eq (by rw [membersByMask?_eq]) fun _ => rfl
    refine rel_bind (sameSet leftCapacity left) ?_
    rintro lefts _ rfl
    refine rel_bind (sameSet rightCapacity right) ?_
    rintro rights _ rfl
    exact
      rel_some (product?_eq_some lefts rights size)
        ⟨.product lefts rights size, rfl⟩
  case insert? =>
    rintro relation _ pair ⟨made, rfl⟩
    refine rel_of_eq (relation.insertByMask?_eq pair) fun inserted => ?_
    exact ⟨made.insert inserted, rfl⟩
  case union? =>
    rintro left right _ _ ⟨leftMade, rfl⟩ ⟨rightMade, rfl⟩
    refine rel_of_eq (pairwise_union?_eq left right) fun covered => ?_
    exact ⟨leftMade.union rightMade covered, rfl⟩
  case intersect =>
    rintro left right _ _ ⟨leftMade, rfl⟩ ⟨rightMade, rfl⟩
    rw [pairwise_intersect_eq]
    exact ⟨leftMade.intersect rightMade, rfl⟩
  case complement? =>
    rintro relation _ ⟨made, rfl⟩
    exact rel_some made.uniform.complement?_eq_some ⟨made.complement, rfl⟩
  case closure? =>
    rintro relation _ ⟨made, rfl⟩
    exact rel_some made.uniform.closure?_eq_some ⟨made.closure, rfl⟩
  case star? =>
    rintro relation _ ⟨made, rfl⟩
    exact rel_some made.uniform.star?_eq_some ⟨made.star, rfl⟩
  case contains? =>
    rintro relation _ left right ⟨_, rfl⟩
    simp only [pairwiseOperations, operations, contains?,
      IndexSet.containsByMask_eq]
  case equal =>
    rintro left right _ _ ⟨_, rfl⟩ ⟨_, rfl⟩
    obtain ⟨size, rows⟩ := left
    obtain ⟨otherSize, otherRows⟩ := right
    simp [pairwiseOperations, operations, beq_eq_decide]
  case rows =>
    rintro relation _ ⟨_, rfl⟩
    simp only [pairwiseOperations, operations, IndexSet.drain_scan]
  case weight =>
    rintro relation _ ⟨_, rfl⟩
    simp only [pairwiseOperations, operations, weight, IndexSet.countOnes_eq]
  case pairs =>
    rintro relation _ ⟨_, rfl⟩
    simp only [pairwiseOperations, operations, IndexSet.drain_scan]
    rfl

/-- Relations that are made answer like their extensions. -/
theorem simulates_extension :
    operations.Simulates Extension.operations
      fun relation extension =>
        relation.Made ∧ relation.extension = extension := by
  constructor
  case empty =>
    exact fun size => ⟨.empty size, extension_empty size⟩
  case identity? =>
    exact fun size => .some ⟨.identity size, extension_identity size⟩
  case product? =>
    intro leftCapacity left rightCapacity right size
    refine rel_bind (rel_members? leftCapacity left) ?_
    rintro lefts _ rfl
    refine rel_bind (rel_members? rightCapacity right) ?_
    rintro rights _ rfl
    exact .some ⟨.product lefts rights size, extension_product lefts rights size⟩
  case insert? =>
    rintro relation _ pair ⟨made, rfl⟩
    refine rel_of_map_eq (made.map_insert? pair) fun inserted => ?_
    exact ⟨made.insert inserted, rfl⟩
  case union? =>
    rintro left right _ _ ⟨leftMade, rfl⟩ ⟨rightMade, rfl⟩
    refine rel_of_map_eq (leftMade.map_union? rightMade) fun covered => ?_
    exact ⟨leftMade.union rightMade covered, rfl⟩
  case intersect =>
    rintro left right _ _ ⟨leftMade, rfl⟩ ⟨rightMade, rfl⟩
    exact ⟨leftMade.intersect rightMade, rightMade.extension_intersect⟩
  case complement? =>
    rintro relation _ ⟨made, rfl⟩
    exact .some ⟨made.complement, extension_complement⟩
  case closure? =>
    rintro relation _ ⟨made, rfl⟩
    exact .some ⟨made.closure, made.extension_closure⟩
  case star? =>
    rintro relation _ ⟨made, rfl⟩
    exact .some ⟨made.star, made.extension_star⟩
  case contains? =>
    rintro relation _ left right ⟨made, rfl⟩
    exact made.contains?_eq_ite
  case equal =>
    rintro left right _ _ ⟨leftMade, rfl⟩ ⟨rightMade, rfl⟩
    rw [Bool.eq_iff_iff]
    simp only [operations, Extension.operations, decide_eq_true_eq]
    constructor
    · rintro rfl
      exact ⟨rfl, rfl⟩
    · rintro ⟨sameSize, samePairs⟩
      apply leftMade.eq_of_extension_eq rightMade
      exact Extension.ext sameSize fun left right => by rw [samePairs]
  case rows =>
    rintro relation _ ⟨made, rfl⟩
    exact made.rows_extension.symm
  case weight =>
    rintro relation _ ⟨_, rfl⟩
    exact relation.card_extension.symm
  case pairs =>
    rintro relation _ ⟨_, rfl⟩
    exact relation.sorted_extension.symm

end IndexRelation

end PegAudit
