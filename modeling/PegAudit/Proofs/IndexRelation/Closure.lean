import Mathlib.Logic.Relation
import PegAudit.IndexRelation.Members

namespace PegAudit

/-!
# The closure misses no path

Warshall's algorithm takes the pivots one after the other.  Once a pivot is
taken, two links that meet in it are joined by a link, and later pivots keep it
so.  After the last pivot every path is a link.
-/

namespace IndexRelation

/-- Are the two indices related? -/
def Relates
    (relation : IndexRelation)
    (left right : Nat) :
    Prop :=
  relation.contains left right = true

/-- There is a row for every index below the size, and all have the same room. -/
structure Uniform
    (relation : IndexRelation)
    (room : Nat) :
    Prop where
  size_rows :
    relation.rows.size = relation.size
  room_row :
    ∀ {left},
      left < relation.rows.size →
      (relation.row left).room = room

/-- The left index of a related pair has a row. -/
theorem Relates.left_lt
    {relation : IndexRelation}
    {left right : Nat}
    (relates : relation.Relates left right) :
    left < relation.rows.size := by
  apply Nat.lt_of_not_le
  intro outside
  rw [Relates, contains_of_size_le outside] at relates
  cases relates

namespace Uniform

/-- The right index of a related pair has room in every row. -/
theorem right_lt
    {relation : IndexRelation}
    {room left right : Nat}
    (uniform : relation.Uniform room)
    (relates : relation.Relates left right) :
    right < room := by
  rw [← uniform.room_row relates.left_lt]
  exact IndexSet.lt_room_of_contains relates

/-- A relation made from rows is uniform. -/
theorem ofRows
    (size : Nat)
    (related : Nat → List Nat) :
    (IndexRelation.ofRows size related).Uniform
      (IndexSet.empty size).room where
  size_rows :=
    size_rows_ofRows size related
  room_row := by
    intro left present
    rw [size_rows_ofRows] at present
    have foldl_room
        (members : List Nat)
        (indices : IndexSet) :
        (members.foldl IndexSet.insert indices).room = indices.room := by
      induction members generalizing indices with
      | nil =>
          rfl
      | cons first rest inductionHypothesis =>
          rw [List.foldl_cons, inductionHypothesis,
            IndexSet.room_insert]
    simp [row, IndexRelation.ofRows, present, IndexSet.ofList, foldl_room]

/-- Passing through a pivot keeps a relation uniform. -/
theorem through
    {relation : IndexRelation}
    {room : Nat}
    (uniform : relation.Uniform room)
    (pivot : Nat) :
    (relation.through pivot).Uniform room where
  size_rows := by
    rw [size_rows_through, size_through, uniform.size_rows]
  room_row := by
    intro left present
    rw [size_rows_through] at present
    have sameRoom := uniform.room_row present
    simp only [row, IndexRelation.through, Array.getElem?_map,
      Array.getElem?_eq_getElem present, Option.map_some,
      Option.getD_some] at sameRoom ⊢
    split
    · rw [IndexSet.room_union, sameRoom]
    · exact sameRoom

/-- In a uniform relation, passing through a pivot joins all links that meet in it. -/
theorem relates_through_iff
    {relation : IndexRelation}
    {room : Nat}
    (uniform : relation.Uniform room)
    {pivot left right : Nat} :
    (relation.through pivot).Relates left right ↔
      relation.Relates left right ∨
        (relation.Relates left pivot ∧ relation.Relates pivot right) := by
  simp only [Relates, contains_through, Bool.or_eq_true,
    Bool.and_eq_true, decide_eq_true_eq]
  constructor
  · rintro (direct | ⟨joined, _⟩)
    · exact .inl direct
    · exact .inr joined
  · rintro (direct | joined)
    · exact .inl direct
    · have present := Relates.left_lt joined.1
      have inRoom := uniform.right_lt joined.2
      rw [← uniform.room_row present] at inRoom
      exact .inr ⟨joined, inRoom⟩

end Uniform

/-- A complement has room for every number with a row. -/
theorem uniform_complement
    (relation : IndexRelation) :
    relation.complement.Uniform (IndexSet.empty relation.size).room :=
  Uniform.ofRows _ _

/-- Two links that meet in one of the listed pivots are joined by a link. -/
def JoinsAt
    (relation : IndexRelation)
    (pivots : List Nat) :
    Prop :=
  ∀ pivot ∈ pivots,
    ∀ left right,
      relation.Relates left pivot →
      relation.Relates pivot right →
      relation.Relates left right

/-- One more pivot is joined, and the pivots before it stay so. -/
theorem JoinsAt.through
    {relation : IndexRelation}
    {room : Nat}
    (uniform : relation.Uniform room)
    {pivots : List Nat}
    (joins : relation.JoinsAt pivots)
    (pivot : Nat) :
    (relation.through pivot).JoinsAt (pivot :: pivots) := by
  intro middle member left right toMiddle fromMiddle
  rw [uniform.relates_through_iff] at *
  rcases List.mem_cons.mp member with rfl | earlier
  · have toPivot : relation.Relates left middle :=
      toMiddle.elim id And.left
    have fromPivot : relation.Relates middle right :=
      fromMiddle.elim id And.right
    exact .inr ⟨toPivot, fromPivot⟩
  · rcases toMiddle with toMiddle | ⟨toPivot, pivotToMiddle⟩
    · rcases fromMiddle with fromMiddle | ⟨middleToPivot, fromPivot⟩
      · exact .inl (joins middle earlier _ _ toMiddle fromMiddle)
      · exact .inr ⟨joins middle earlier _ _ toMiddle middleToPivot, fromPivot⟩
    · rcases fromMiddle with fromMiddle | ⟨middleToPivot, fromPivot⟩
      · exact .inr ⟨toPivot, joins middle earlier _ _ pivotToMiddle fromMiddle⟩
      · exact .inr ⟨toPivot, fromPivot⟩

/-- What taking a list of pivots does to a relation. -/
theorem foldl_through
    {relation : IndexRelation}
    {room : Nat}
    (uniform : relation.Uniform room)
    {taken : List Nat}
    (joins : relation.JoinsAt taken)
    (pivots : List Nat) :
    (pivots.foldl IndexRelation.through relation).Uniform room ∧
      (pivots.foldl IndexRelation.through relation).JoinsAt
        (pivots.reverse ++ taken) ∧
      ∀ {left right},
        relation.Relates left right →
        (pivots.foldl IndexRelation.through relation).Relates
          left right := by
  induction pivots generalizing relation taken with
  | nil =>
      exact ⟨uniform, joins, id⟩
  | cons pivot rest inductionHypothesis =>
      obtain ⟨laterUniform, laterJoins, keeps⟩ :=
        inductionHypothesis (uniform.through pivot)
          (joins.through uniform pivot)
      refine ⟨laterUniform, by simpa using laterJoins, ?_⟩
      intro left right relates
      exact keeps (uniform.relates_through_iff.mpr (.inl relates))

/-- Nothing is joined before the first pivot. -/
theorem joinsAt_nil
    (relation : IndexRelation) :
    relation.JoinsAt [] := by
  intro pivot member
  cases member

/-- The closure has the rows and the room of the relation. -/
theorem Uniform.closure
    {relation : IndexRelation}
    {room : Nat}
    (uniform : relation.Uniform room) :
    relation.closure.Uniform room :=
  (foldl_through uniform relation.joinsAt_nil
    (List.range relation.size)).1

/-- The closure keeps the size. -/
theorem size_closure
    (relation : IndexRelation) :
    relation.closure.size = relation.size := by
  have keepsSize
      (pivots : List Nat)
      (current : IndexRelation) :
      (pivots.foldl IndexRelation.through current).size =
        current.size := by
    induction pivots generalizing current with
    | nil =>
        rfl
    | cons pivot rest inductionHypothesis =>
        rw [List.foldl_cons, inductionHypothesis, size_through]
  exact keepsSize _ relation

/-- The reflexive closure keeps the size. -/
theorem size_star
    (relation : IndexRelation) :
    relation.star.size = relation.size :=
  relation.size_closure

/-- Every path of a uniform relation is a link of its closure. -/
theorem relates_closure_of_transGen
    {relation : IndexRelation}
    {room : Nat}
    (uniform : relation.Uniform room)
    {left right : Nat}
    (path : Relation.TransGen relation.Relates left right) :
    relation.closure.Relates left right := by
  obtain ⟨_, joins, keeps⟩ :=
    foldl_through uniform relation.joinsAt_nil
      (List.range relation.size)
  induction path with
  | single link =>
      exact keeps link
  | @tail middle right path link pathIsLink =>
      have isPivot :
          middle ∈ (List.range relation.size).reverse ++ [] := by
        have hasRow := link.left_lt
        rw [uniform.size_rows] at hasRow
        simpa using hasRow
      exact joins middle isPivot left right pathIsLink (keeps link)

/-- Every link of the closure of a uniform relation is a path. -/
theorem transGen_of_relates_closure
    {relation : IndexRelation}
    {room : Nat}
    (uniform : relation.Uniform room)
    {left right : Nat}
    (link : relation.closure.Relates left right) :
    Relation.TransGen relation.Relates left right := by
  have steps
      (pivots : List Nat)
      {current : IndexRelation}
      (currentUniform : current.Uniform room)
      (isPath :
        ∀ {left right},
          current.Relates left right →
          Relation.TransGen relation.Relates left right)
      {left right : Nat}
      (link :
        (pivots.foldl IndexRelation.through current).Relates left right) :
      Relation.TransGen relation.Relates left right := by
    induction pivots generalizing current left right with
    | nil =>
        exact isPath link
    | cons pivot rest inductionHypothesis =>
        refine
          inductionHypothesis (currentUniform.through pivot) ?_ link
        intro left right joined
        rcases currentUniform.relates_through_iff.mp joined with
          direct | ⟨toPivot, fromPivot⟩
        · exact isPath direct
        · exact (isPath toPivot).trans (isPath fromPivot)
  exact steps (List.range relation.size) uniform .single link

/-- The closure of a uniform relation has exactly the paths. -/
theorem Uniform.relates_closure_iff
    {relation : IndexRelation}
    {room : Nat}
    (uniform : relation.Uniform room)
    {left right : Nat} :
    relation.closure.Relates left right ↔
      Relation.TransGen relation.Relates left right :=
  ⟨transGen_of_relates_closure uniform,
    relates_closure_of_transGen uniform⟩

/-- A union relates what either operand relates and has room for. -/
theorem contains_union
    (relation other : IndexRelation)
    (left right : Nat) :
    (relation.union other).contains left right =
      (relation.contains left right ||
        (other.contains left right &&
          decide (right < (relation.row left).room))) := by
  unfold contains row union
  simp only [Array.getElem?_mapIdx]
  cases relation.rows[left]? with
  | none =>
      simp [IndexSet.lt_room_iff, IndexSet.empty]
  | some related =>
      cases other.rows[left]? with
      | none =>
          simp
      | some otherRelated =>
          simp [IndexSet.contains_union]

/-- Below the size, every path and every index itself is a link of the star. -/
theorem relates_star_of_reflTransGen
    {relation : IndexRelation}
    {room : Nat}
    (uniform : relation.Uniform room)
    {left right : Nat}
    (present : left < relation.size)
    (enough : relation.size ≤ room)
    (path : Relation.ReflTransGen relation.Relates left right) :
    relation.star.Relates left right := by
  rw [Relates, star, contains_union]
  rcases Relation.reflTransGen_iff_eq_or_transGen.mp path with
    rfl | proper
  · have hasRow : right < relation.closure.rows.size := by
      rwa [uniform.closure.size_rows, size_closure]
    have inRoom : right < (relation.closure.row right).room := by
      rw [uniform.closure.room_row hasRow]
      omega
    have inIdentity :
        (identity relation.size).contains right right = true := by
      have covered := IndexSet.le_room_empty relation.size
      simp only [identity, contains_ofRows, List.mem_singleton,
        decide_true, Bool.and_true, Bool.and_eq_true,
        decide_eq_true_eq]
      omega
    simp [inIdentity, inRoom]
  · have link := relates_closure_of_transGen uniform proper
    rw [Relates] at link
    simp [link]

/-- The star has exactly the paths and, below the size, every index itself. -/
theorem Uniform.relates_star_iff
    {relation : IndexRelation}
    {room : Nat}
    (uniform : relation.Uniform room)
    (enough : relation.size ≤ room)
    {left right : Nat} :
    relation.star.Relates left right ↔
      Relation.TransGen relation.Relates left right ∨
        (left = right ∧ left < relation.size) := by
  constructor
  · intro link
    rw [Relates, star, contains_union, Bool.or_eq_true] at link
    rcases link with inClosure | inIdentity
    · exact .inl (transGen_of_relates_closure uniform inClosure)
    · simp only [identity, contains_ofRows, List.mem_singleton,
        Bool.and_eq_true, decide_eq_true_eq] at inIdentity
      exact .inr ⟨inIdentity.1.1.2.symm, inIdentity.1.1.1⟩
  · rintro (path | ⟨rfl, present⟩)
    · have hasRow : left < relation.size := by
        obtain ⟨middle, first, _⟩ := Relation.TransGen.head'_iff.mp path
        rw [← uniform.size_rows]
        exact first.left_lt
      exact relates_star_of_reflTransGen uniform hasRow enough path.to_reflTransGen
    · exact relates_star_of_reflTransGen uniform present enough .refl

end IndexRelation

end PegAudit
