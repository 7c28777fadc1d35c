import PegAudit.Proofs.Checked.IndexRelation

namespace PegAudit

/-!
# Closure is a closure

Relations are made by a few operations, and each of them leaves a row for every
index below the size, all with room for the same columns.  In the last word of
a row there may be columns at or beyond the size; nothing leads on from these.
The closure of a relation so made is the least transitive one above it, and
closing is idempotent and monotone, with and without the indices themselves.
-/

namespace IndexRelation

/-- Relations that the operations make; an insertion or a union must succeed. -/
inductive Made :
    IndexRelation →
    Prop
  | empty
      (size : Nat) :
      Made (empty size)
  | identity
      (size : Nat) :
      Made (identity size)
  | product
      (left right : IndexSet)
      (size : Nat) :
      Made (product left right size)
  | insert
      {relation grown : IndexRelation}
      {left right : Nat}
      (made : Made relation)
      (inserted : relation.insert? left right = some grown) :
      Made grown
  | union
      {relation other united : IndexRelation}
      (made : Made relation)
      (otherMade : Made other)
      (covered : relation.union? other = some united) :
      Made united
  | intersect
      {relation other : IndexRelation}
      (made : Made relation)
      (otherMade : Made other) :
      Made (relation.intersect other)
  | complement
      {relation : IndexRelation}
      (made : Made relation) :
      Made relation.complement
  | closure
      {relation : IndexRelation}
      (made : Made relation) :
      Made relation.closure
  | star
      {relation : IndexRelation}
      (made : Made relation) :
      Made relation.star

/-- An insertion that succeeds is one of a pair with a row and a bit. -/
theorem insert_eq_of_insert?_eq_some
    {relation grown : IndexRelation}
    {left right : Nat}
    (inserted : relation.insert? left right = some grown) :
    left < relation.rows.size ∧ relation.insert left right = grown := by
  unfold insert? row? at inserted
  cases present : relation.rows[left]? with
  | none =>
      simp [present] at inserted
  | some related =>
      have inside := (Array.getElem?_eq_some_iff.mp present).1
      simp only [present, Option.bind_eq_bind, Option.bind_some,
        IndexSet.insert?] at inserted
      split at inserted
      · cases inserted
        exact ⟨inside, by simp [insert, row, present]⟩
      · cases inserted

/-- A union that succeeds is the union. -/
theorem union_eq_of_union?_eq_some
    {relation other united : IndexRelation}
    (covered : relation.union? other = some united) :
    relation.union other = united := by
  unfold union? at covered
  split at covered
  · exact Option.some.inj covered
  · cases covered

/-- Whatever is made has all its rows, with room for whole words. -/
theorem Made.uniform
    {relation : IndexRelation}
    (made : relation.Made) :
    relation.Uniform (IndexSet.empty relation.size).room := by
  induction made with
  | empty size =>
      exact Uniform.ofRows _ _
  | identity size =>
      exact Uniform.ofRows _ _
  | product left right size =>
      unfold IndexRelation.product
      exact Uniform.ofRows size _
  | insert _ inserted uniform =>
      obtain ⟨inside, rfl⟩ := insert_eq_of_insert?_eq_some inserted
      exact uniform.insert inside _
  | union _ _ covered uniform _ =>
      rw [← union_eq_of_union?_eq_some covered]
      exact uniform.union _
  | intersect _ _ uniform _ =>
      exact uniform.intersect _
  | complement _ _ =>
      exact uniform_complement _
  | @closure relation _ uniform =>
      rw [relation.size_closure]
      exact uniform.closure
  | @star relation _ uniform =>
      rw [relation.size_star]
      exact uniform.star

/-- What pairs are added to one after the other stays among what is made. -/
theorem Made.insertAll?
    {relation grown : IndexRelation}
    {pairs : List (Nat × Nat)}
    (made : relation.Made)
    (inserted : relation.insertAll? pairs = some grown) :
    grown.Made := by
  induction pairs generalizing relation with
  | nil =>
      cases inserted
      exact made
  | cons pair rest inductionHypothesis =>
      obtain ⟨left, right⟩ := pair
      rw [IndexRelation.insertAll?] at inserted
      split at inserted
      case h_1 next added =>
        exact inductionHypothesis (made.insert added) inserted
      case h_2 =>
        cases inserted

/-- Exactly the relations with all rows and room for whole words are made. -/
theorem made_iff_uniform
    {relation : IndexRelation} :
    relation.Made ↔
      relation.Uniform (IndexSet.empty relation.size).room := by
  refine ⟨Made.uniform, fun uniform => ?_⟩
  let pairs : List (Nat × Nat) :=
    (List.range relation.size).flatMap fun left =>
      (relation.row left).toList.map (left, ·)
  have hasRow
      {left right : Nat}
      (relates : relation.Relates left right) :
      left < relation.size := by
    rw [← uniform.size_rows]
    exact relates.left_lt
  have listed
      (left right : Nat) :
      relation.Relates left right ↔ (left, right) ∈ pairs := by
    simp only [pairs, List.mem_flatMap, List.mem_range, List.mem_map,
      IndexSet.mem_toList_iff, Prod.mk.injEq]
    constructor
    · exact fun relates =>
        ⟨left, hasRow relates, right, relates, rfl, rfl⟩
    · rintro ⟨_, _, _, member, rfl, rfl⟩
      exact member
  have inside :
      ∀ pair ∈ pairs,
        pair.1 < relation.size ∧
          pair.2 < (IndexSet.empty relation.size).room := by
    intro pair member
    have relates := (listed pair.1 pair.2).mpr member
    exact ⟨hasRow relates, uniform.right_lt relates⟩
  exact
    (Made.empty relation.size).insertAll?
      (uniform.ofPairs?_eq_some inside listed)

namespace Uniform

variable
  {relation : IndexRelation}
  {room : Nat}

/-- Relations of one size with rows of the same room and the same pairs are equal. -/
theorem eq_of_relates_iff
    {other : IndexRelation}
    (uniform : relation.Uniform room)
    (otherUniform : other.Uniform room)
    (sameSize : relation.size = other.size)
    (samePairs :
      ∀ left right,
        relation.Relates left right ↔ other.Relates left right) :
    relation = other :=
  uniform.eq_of_contains_eq otherUniform sameSize fun left right =>
    Bool.eq_iff_iff.mpr (samePairs left right)

/-- The closure is transitive. -/
theorem closure_trans
    (uniform : relation.Uniform room)
    {left middle right : Nat}
    (first : relation.closure.Relates left middle)
    (second : relation.closure.Relates middle right) :
    relation.closure.Relates left right := by
  rw [uniform.relates_closure_iff] at *
  exact first.trans second

/-- The closure of a closure is the closure. -/
theorem closure_closure
    (uniform : relation.Uniform room) :
    relation.closure.closure = relation.closure := by
  refine
    uniform.closure.closure.eq_of_relates_iff uniform.closure
      (size_closure _) fun left right => ?_
  have transitive : IsTrans Nat relation.closure.Relates :=
    ⟨fun _ _ _ => uniform.closure_trans⟩
  rw [uniform.closure.relates_closure_iff, Relation.transGen_eq_self]

/-- The reflexive closure is transitive. -/
theorem star_trans
    (uniform : relation.Uniform room)
    (enough : relation.size ≤ room)
    {left middle right : Nat}
    (first : relation.star.Relates left middle)
    (second : relation.star.Relates middle right) :
    relation.star.Relates left right := by
  rw [uniform.relates_star_iff enough] at *
  rcases first with there | ⟨rfl, _⟩
  · rcases second with onward | ⟨rfl, _⟩
    · exact .inl (there.trans onward)
    · exact .inl there
  · exact second

/-- The reflexive closure of a reflexive closure is the reflexive closure. -/
theorem star_star
    (uniform : relation.Uniform room)
    (enough : relation.size ≤ room) :
    relation.star.star = relation.star := by
  refine
    uniform.star.star.eq_of_relates_iff uniform.star (size_star _)
      fun left right => ?_
  have transitive : IsTrans Nat relation.star.Relates :=
    ⟨fun _ _ _ => uniform.star_trans enough⟩
  have enoughAgain : relation.star.size ≤ room := by
    rwa [size_star]
  rw [uniform.star.relates_star_iff enoughAgain, Relation.transGen_eq_self,
    size_star]
  refine or_iff_left_of_imp ?_
  rintro ⟨rfl, inside⟩
  exact (uniform.relates_star_iff enough).mpr (.inr ⟨rfl, inside⟩)

end Uniform

/-- What the closures of a relation are. -/
structure ClosureLaws
    (relation : IndexRelation) :
    Prop where
  /-- Pivot by pivot and row by row, in place, the closures are not refused. -/
  closure?_eq :
    relation.closure? = some relation.closure
  star?_eq :
    relation.star? = some relation.star
  /-- The closure relates what paths of one or more links join. -/
  closure_iff :
    ∀ left right,
      relation.closure.Relates left right ↔
        Relation.TransGen relation.Relates left right
  /-- The reflexive closure relates every index below the size to itself besides. -/
  star_iff :
    ∀ left right,
      relation.star.Relates left right ↔
        Relation.TransGen relation.Relates left right ∨
          (left = right ∧ left < relation.size)
  includes :
    ∀ left right,
      relation.Relates left right →
      relation.closure.Relates left right
  transitive :
    ∀ left middle right,
      relation.closure.Relates left middle →
      relation.closure.Relates middle right →
      relation.closure.Relates left right
  /-- No transitive relation above it lacks a pair of the closure. -/
  least :
    ∀ links : Nat → Nat → Prop,
      (∀ left middle right,
        links left middle →
        links middle right →
        links left right) →
      (∀ left right, relation.Relates left right → links left right) →
      ∀ left right, relation.closure.Relates left right → links left right
  closure_closure :
    relation.closure.closure = relation.closure
  star_star :
    relation.star.star = relation.star
  /-- More pairs give no fewer pairs of the closures. -/
  monotone :
    ∀ other : IndexRelation,
      other.Made →
      relation.size ≤ other.size →
      (∀ left right,
        relation.Relates left right →
        other.Relates left right) →
      ∀ left right,
        (relation.closure.Relates left right →
            other.closure.Relates left right) ∧
          (relation.star.Relates left right →
            other.star.Relates left right)

/-- Every relation made by the operations obeys the laws of closure. -/
theorem Made.closureLaws
    {relation : IndexRelation}
    (made : relation.Made) :
    relation.ClosureLaws := by
  have uniform := made.uniform
  have enough := IndexSet.le_room_empty relation.size
  refine
    { closure?_eq := uniform.closure?_eq_some
      star?_eq := uniform.star?_eq_some
      closure_iff := fun _ _ => uniform.relates_closure_iff
      star_iff := fun _ _ => uniform.relates_star_iff enough
      includes := ?_
      transitive := fun _ _ _ => uniform.closure_trans
      least := ?_
      closure_closure := uniform.closure_closure
      star_star := uniform.star_star enough
      monotone := ?_ }
  · intro left right link
    exact uniform.relates_closure_iff.mpr (.single link)
  · intro links transitive includes left right link
    have isTransitive : IsTrans Nat links := ⟨transitive⟩
    exact
      Relation.transGen_minimal includes _ _
        (uniform.relates_closure_iff.mp link)
  · intro other otherMade sizes included left right
    have otherEnough := IndexSet.le_room_empty other.size
    have paths :
        Relation.TransGen relation.Relates left right →
          Relation.TransGen other.Relates left right :=
      Relation.TransGen.mono included _ _
    rw [uniform.relates_closure_iff, otherMade.uniform.relates_closure_iff,
      uniform.relates_star_iff enough,
      otherMade.uniform.relates_star_iff otherEnough]
    refine ⟨paths, ?_⟩
    rintro (path | ⟨rfl, inside⟩)
    · exact .inl (paths path)
    · exact .inr ⟨rfl, Nat.lt_of_lt_of_le inside sizes⟩

/-- A chain of three links, the last to a column that is no row. -/
def chainToStray : IndexRelation :=
  (((empty 3).insert 0 1).insert 1 2).insert 2 63

/-- The chain reaches the last column of the word, which is related to nothing. -/
theorem closureLaws_chainToStray :
    chainToStray.Made ∧
      chainToStray.ClosureLaws ∧
      chainToStray.star.Relates 0 63 ∧
      ¬ chainToStray.star.Relates 63 63 := by
  have first : (empty 3).insert? 0 1 = some ((empty 3).insert 0 1) := rfl
  have second :
      ((empty 3).insert 0 1).insert? 1 2 =
        some (((empty 3).insert 0 1).insert 1 2) :=
    rfl
  have third :
      (((empty 3).insert 0 1).insert 1 2).insert? 2 63 =
        some chainToStray :=
    rfl
  have made : chainToStray.Made :=
    .insert (.insert (.insert (.empty 3) first) second) third
  have laws := Made.closureLaws made
  have links :
      chainToStray.contains 0 1 = true ∧
        chainToStray.contains 1 2 = true ∧
        chainToStray.contains 2 63 = true := by
    decide +kernel
  have path : Relation.TransGen chainToStray.Relates 0 63 :=
    .tail (.tail (.single links.1) links.2.1) links.2.2
  have noLoop : ¬ chainToStray.star.Relates 63 63 := by
    rw [Relates]
    decide +kernel
  exact ⟨made, laws, (laws.star_iff 0 63).mpr (.inl path), noLoop⟩

end IndexRelation

end PegAudit
