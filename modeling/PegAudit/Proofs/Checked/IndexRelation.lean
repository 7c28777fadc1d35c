import PegAudit.IndexRelation.Checked
import PegAudit.Proofs.Checked.Sweeps
import PegAudit.Proofs.IndexRelation.Closure
import PegAudit.Proofs.IndexSet.Order

namespace PegAudit

/-!
# Building relations is not refused

In a relation whose rows all have the same room, a pair has a bit if its
indices are below the size, and a row is never too short for another.  So the
checked operations go through and agree with the unchecked ones.
-/

/-- Mapping a list goes through if each element does. -/
theorem mapM_eq_some
    {change? : α → Option β}
    {change : α → β}
    {elements : List α}
    (each : ∀ element ∈ elements, change? element = some (change element)) :
    elements.mapM change? = some (elements.map change) := by
  induction elements with
  | nil =>
      rfl
  | cons element rest inductionHypothesis =>
      have later :=
        inductionHypothesis fun other inRest =>
          each other (List.mem_cons_of_mem element inRest)
      simp [List.mapM_cons, each element List.mem_cons_self, later]

namespace IndexSet

/-- An insertion of an index with a bit goes through. -/
theorem insert?_eq_some
    {indices : IndexSet}
    {index : Nat}
    (inside : index < indices.room) :
    indices.insert? index = some (indices.insert index) :=
  if_pos inside

/-- A union with a set of as much room goes through. -/
theorem union?_eq_some
    {indices other : IndexSet}
    (enough : indices.room ≤ other.room) :
    indices.union? other = some (indices.union other) := by
  apply if_neg
  simp only [room] at enough
  omega

/-- Insertions go through exactly if every index has a bit. -/
theorem foldlM_insert?_eq
    (indices : IndexSet)
    (added : List Nat) :
    added.foldlM insert? indices =
      if added.all (· < indices.room) then
        some (added.foldl insert indices)
      else
        none := by
  induction added generalizing indices with
  | nil =>
      rfl
  | cons index rest inductionHypothesis =>
      rw [List.foldlM_cons, insert?]
      by_cases inside : index < indices.room
      · simp [inside, inductionHypothesis]
      · simp [inside]

/-- A set of indices with bits is listed without refusal. -/
theorem ofList?_eq_some
    {capacity : Nat}
    {members : List Nat}
    (inside : ∀ index ∈ members, index < (empty capacity).room) :
    ofList? capacity members = some (ofList capacity members) := by
  rw [ofList?, foldlM_insert?_eq]
  exact if_pos (by simpa using inside)

end IndexSet

namespace IndexRelation

/-- Relations of one size with rows of the same room and members are equal. -/
theorem Uniform.eq_of_contains_eq
    {relation other : IndexRelation}
    {room : Nat}
    (uniform : relation.Uniform room)
    (otherUniform : other.Uniform room)
    (sameSize : relation.size = other.size)
    (sameMembers :
      ∀ left right,
        relation.contains left right = other.contains left right) :
    relation = other := by
  have sameRows : relation.rows = other.rows := by
    have sameCount : relation.rows.size = other.rows.size := by
      rw [uniform.size_rows, otherUniform.size_rows, sameSize]
    apply Array.ext sameCount
    intro left inside otherInside
    have rowsEqual : relation.row left = other.row left := by
      apply IndexSet.eq_of_contains_eq
      · rw [uniform.room_row inside, otherUniform.room_row otherInside]
      · exact funext (sameMembers left)
    simpa [row, inside, otherInside] using rowsEqual
  cases relation
  cases other
  simp_all

/-- The empty relation has uniform rows. -/
theorem uniform_empty
    (size : Nat) :
    (empty size).Uniform (IndexSet.empty size).room :=
  Uniform.ofRows size fun _ => []

/-- Relate two indices that have a row and a bit. -/
def insert
    (relation : IndexRelation)
    (left right : Nat) :
    IndexRelation :=
  { relation with
    rows :=
      relation.rows.setIfInBounds left
        ((relation.row left).insert right) }

/-- Insertion changes only the row of the left index. -/
theorem row_insert
    {relation : IndexRelation}
    {left : Nat}
    (inside : left < relation.rows.size)
    (right other : Nat) :
    (relation.insert left right).row other =
      if left = other then
        (relation.row left).insert right
      else
        relation.row other := by
  by_cases same : left = other
  · subst other
    simp [row, insert, inside]
  · simp [row, insert, Array.getElem?_setIfInBounds_ne same, same]

/-- Insertion keeps the room of all rows. -/
theorem Uniform.insert
    {relation : IndexRelation}
    {room : Nat}
    (uniform : relation.Uniform room)
    {left : Nat}
    (inside : left < relation.rows.size)
    (right : Nat) :
    (relation.insert left right).Uniform room where
  size_rows := by
    simpa [IndexRelation.insert] using uniform.size_rows
  room_row := by
    intro other otherInside
    rw [row_insert inside]
    split
    · rw [IndexSet.room_insert, uniform.room_row inside]
    · apply uniform.room_row
      simpa [IndexRelation.insert] using otherInside

/-- A pair with a row and a bit is related without refusal. -/
theorem Uniform.insert?_eq_some
    {relation : IndexRelation}
    {room left right : Nat}
    (uniform : relation.Uniform room)
    (inside : left < relation.rows.size)
    (hasBit : right < room) :
    relation.insert? left right = some (relation.insert left right) := by
  have present : relation.row? left = some (relation.row left) := by
    simp [row?, row, inside]
  have inserted :
      (relation.row left).insert? right =
        some ((relation.row left).insert right) := by
    apply IndexSet.insert?_eq_some
    rwa [uniform.room_row inside]
  simp [insert?, present, inserted, IndexRelation.insert]

/-- Insertion adds the pair. -/
theorem Uniform.contains_insert
    {relation : IndexRelation}
    {room left right : Nat}
    (uniform : relation.Uniform room)
    (inside : left < relation.rows.size)
    (hasBit : right < room)
    (first second : Nat) :
    (relation.insert left right).contains first second =
      (decide ((first, second) = (left, right)) ||
        relation.contains first second) := by
  rw [contains, row_insert inside]
  split
  case isTrue same =>
    subst first
    rw [IndexSet.contains_insert, uniform.room_row inside, contains,
      Bool.eq_iff_iff]
    simp only [Bool.or_eq_true, Bool.and_eq_true, decide_eq_true_eq,
      Prod.mk.injEq, true_and]
    grind
  case isFalse different =>
    simp [contains, Ne.symm different]

/-- Pairs with a row and a bit are related without refusal. -/
theorem Uniform.exists_insertAll?
    {relation : IndexRelation}
    {room : Nat}
    (uniform : relation.Uniform room)
    {pairs : List (Nat × Nat)}
    (inside :
      ∀ pair ∈ pairs, pair.1 < relation.size ∧ pair.2 < room) :
    ∃ grown,
      relation.insertAll? pairs = some grown ∧
        grown.Uniform room ∧
        grown.size = relation.size ∧
        ∀ left right,
          grown.contains left right =
            (decide ((left, right) ∈ pairs) ||
              relation.contains left right) := by
  induction pairs generalizing relation with
  | nil =>
      exact ⟨relation, rfl, uniform, rfl, by simp⟩
  | cons pair rest inductionHypothesis =>
      obtain ⟨left, right⟩ := pair
      obtain ⟨hasRow, hasBit⟩ := inside _ List.mem_cons_self
      rw [← uniform.size_rows] at hasRow
      obtain ⟨grown, through, grownUniform, sameSize, members⟩ :=
        inductionHypothesis (uniform.insert hasRow right)
          fun other inRest => inside other (List.mem_cons_of_mem _ inRest)
      refine ⟨grown, ?_, grownUniform, sameSize, ?_⟩
      · simpa [insertAll?, uniform.insert?_eq_some hasRow hasBit] using
          through
      · intro first second
        rw [members, uniform.contains_insert hasRow hasBit]
        simp [Bool.or_left_comm, ← Bool.or_assoc]

/-- A relation is built from its pairs without refusal. -/
theorem Uniform.ofPairs?_eq_some
    {relation : IndexRelation}
    (uniform :
      relation.Uniform (IndexSet.empty relation.size).room)
    {pairs : List (Nat × Nat)}
    (inside :
      ∀ pair ∈ pairs,
        pair.1 < relation.size ∧
          pair.2 < (IndexSet.empty relation.size).room)
    (members :
      ∀ left right,
        relation.Relates left right ↔ (left, right) ∈ pairs) :
    ofPairs? relation.size pairs = some relation := by
  obtain ⟨built, through, builtUniform, sameSize, builtMembers⟩ :=
    (uniform_empty relation.size).exists_insertAll? inside
  have same : built = relation := by
    apply builtUniform.eq_of_contains_eq uniform sameSize
    intro left right
    have nothing : (empty relation.size).contains left right = false := by
      simp [empty, contains_ofRows]
    rw [builtMembers, nothing, Bool.or_false, Bool.eq_iff_iff,
      decide_eq_true_eq]
    exact (members left right).symm
  rw [ofPairs?, through, same]

/-- A relation made from rows is built from the pairs of its rows. -/
theorem ofPairs?_ofRows
    {size : Nat}
    {related : Nat → List Nat}
    {pairs : List (Nat × Nat)}
    (members :
      ∀ left right,
        (left, right) ∈ pairs ↔ left < size ∧ right ∈ related left)
    (inside :
      ∀ left < size,
        ∀ right ∈ related left, right < size) :
    ofPairs? size pairs = some (ofRows size related) := by
  have covered := IndexSet.le_room_empty size
  apply (Uniform.ofRows size related).ofPairs?_eq_some
  · rintro ⟨left, right⟩ member
    obtain ⟨hasRow, listed⟩ := (members left right).mp member
    exact
      ⟨hasRow, Nat.lt_of_lt_of_le (inside left hasRow right listed) covered⟩
  · intro left right
    rw [Relates, contains_ofRows, members]
    simp only [Bool.and_eq_true, decide_eq_true_eq]
    constructor
    · rintro ⟨both, _⟩
      exact both
    · rintro ⟨hasRow, listed⟩
      exact
        ⟨⟨hasRow, listed⟩,
          Nat.lt_of_lt_of_le (inside left hasRow right listed) covered⟩

/-- The identity is built without refusal. -/
theorem identity?_eq_some
    (size : Nat) :
    identity? size = some (identity size) := by
  apply ofPairs?_ofRows
  · intro left right
    simp only [List.mem_map, List.mem_range, Prod.mk.injEq,
      List.mem_singleton]
    grind
  · intro left counted right listed
    rwa [List.mem_singleton.mp listed]

/-- A product is built without refusal. -/
theorem product?_eq_some
    (left right : IndexSet)
    (size : Nat) :
    product? left right size = some (product left right size) := by
  rw [product?, product]
  apply ofPairs?_ofRows
  · intro first second
    by_cases member : left.contains first = true
    · simp only [member, if_true, List.mem_flatMap, List.mem_map,
        List.mem_filter, IndexSet.mem_toList_iff, Prod.mk.injEq,
        decide_eq_true_eq]
      grind
    · simp only [member, List.mem_flatMap, List.mem_map, List.mem_filter,
        IndexSet.mem_toList_iff, Prod.mk.injEq, decide_eq_true_eq]
      grind
  · intro first _ second listed
    split at listed
    · simpa using (List.mem_filter.mp listed).2
    · cases listed

/-- A row of a relation is looked up without refusal. -/
theorem Uniform.row?_eq_some
    {relation : IndexRelation}
    {room left : Nat}
    (uniform : relation.Uniform room)
    (hasRow : left < relation.size) :
    relation.row? left = some (relation.row left) := by
  rw [← uniform.size_rows] at hasRow
  simp [row?, row, hasRow]

/-- A pair of indices is looked up without refusal. -/
theorem Uniform.contains?_eq_some
    {relation : IndexRelation}
    {room left : Nat}
    (uniform : relation.Uniform room)
    (hasRow : left < relation.size)
    (right : Nat) :
    relation.contains? left right =
      some (relation.contains left right) := by
  simp [contains?, uniform.row?_eq_some hasRow, contains]

/-- A complement is built without refusal. -/
theorem Uniform.complement?_eq_some
    {relation : IndexRelation}
    {room : Nat}
    (uniform : relation.Uniform room) :
    relation.complement? = some relation.complement := by
  let missing (left : Nat) : List (Nat × Nat) :=
    ((List.range relation.size).filter fun right =>
      !(relation.row left).contains right).map (left, ·)
  have looked :
      ((List.range relation.size).mapM fun left => do
        let related ← relation.row? left
        return ((List.range relation.size).filter fun right =>
          !related.contains right).map (left, ·)) =
        some ((List.range relation.size).map missing) := by
    apply mapM_eq_some
    intro left counted
    rw [uniform.row?_eq_some (List.mem_range.mp counted)]
    rfl
  rw [complement?, looked]
  apply ofPairs?_ofRows
  · intro left right
    simp only [missing, List.mem_flatten, List.mem_map, List.mem_range,
      List.mem_filter, contains]
    grind
  · intro left _ right listed
    exact List.mem_range.mp (List.mem_filter.mp listed).1

/-- Passing through a pivot is not refused. -/
theorem Uniform.through?_eq_some
    {relation : IndexRelation}
    {room pivot : Nat}
    (uniform : relation.Uniform room)
    (hasRow : pivot < relation.size) :
    relation.through? pivot = some (relation.through pivot) := by
  have pivotRoom : (relation.row pivot).room = room :=
    uniform.room_row (by rwa [uniform.size_rows])
  have swept :
      sweep?
        (fun _ _ related =>
          if related.contains pivot then
            related.union? (relation.row pivot)
          else
            some related)
        (List.range relation.size) relation.rows =
        some (relation.rows.mapIdx fun _ related =>
          if related.contains pivot then
            related.union (relation.row pivot)
          else
            related) := by
    rw [← uniform.size_rows]
    apply sweep?_range_eq_some
    intro earlier index entry present
    have sameRoom : entry.room = room := by
      have inside := (Array.getElem?_eq_some_iff.mp present).1
      simpa [row, present] using uniform.room_row inside
    have united :
        entry.union? (relation.row pivot) =
          some (entry.union (relation.row pivot)) :=
      IndexSet.union?_eq_some (by rw [sameRoom, pivotRoom])
    rw [united]
    split <;> rfl
  simp only [through?, uniform.row?_eq_some hasRow, Option.bind_eq_bind,
    Option.bind_some, swept]
  have eachRow :
      (relation.rows.mapIdx fun _ related =>
        if related.contains pivot then
          related.union (relation.row pivot)
        else
          related) = (relation.through pivot).rows := by
    apply Array.ext <;> simp [IndexRelation.through]
  rw [eachRow]
  rfl

/-- The closure is not refused. -/
theorem Uniform.closure?_eq_some
    {relation : IndexRelation}
    {room : Nat}
    (uniform : relation.Uniform room) :
    relation.closure? = some relation.closure := by
  have through
      (pivots : List Nat)
      (current : IndexRelation)
      (currentUniform : current.Uniform room)
      (inside : ∀ pivot ∈ pivots, pivot < current.size) :
      pivots.foldlM through? current =
        some (pivots.foldl IndexRelation.through current) := by
    induction pivots generalizing current with
    | nil =>
        rfl
    | cons pivot rest inductionHypothesis =>
        rw [List.foldlM_cons,
          currentUniform.through?_eq_some (inside _ List.mem_cons_self)]
        exact inductionHypothesis _ (currentUniform.through pivot)
          fun other inRest => inside other (List.mem_cons_of_mem pivot inRest)
  exact through _ relation uniform fun pivot => List.mem_range.mp

/-- A union with a relation of the same room is not refused. -/
theorem Uniform.union?_eq_some
    {relation other : IndexRelation}
    {room : Nat}
    (uniform : relation.Uniform room)
    (otherUniform : other.Uniform room) :
    relation.union? other = some (relation.union other) := by
  apply if_pos
  rw [Array.all_eq_true]
  intro left inside
  rw [Array.size_zip] at inside
  have hasRow : left < relation.rows.size := by omega
  have otherHasRow : left < other.rows.size := by omega
  have sameRoom := uniform.room_row hasRow
  have otherRoom := otherUniform.room_row otherHasRow
  simp only [row, hasRow, otherHasRow, Array.getElem?_eq_getElem,
    Option.getD_some, IndexSet.room] at sameRoom otherRoom
  rw [Array.getElem_zip, decide_eq_true_eq]
  omega

/-- A union keeps the rows and the room of its left operand. -/
theorem Uniform.union
    {relation : IndexRelation}
    {room : Nat}
    (uniform : relation.Uniform room)
    (other : IndexRelation) :
    (relation.union other).Uniform room where
  size_rows := by
    simpa [IndexRelation.union] using uniform.size_rows
  room_row := by
    intro left inside
    simp only [IndexRelation.union, Array.size_mapIdx] at inside
    have sameRoom := uniform.room_row inside
    simp only [row, IndexRelation.union, Array.getElem?_mapIdx,
      Array.getElem?_eq_getElem inside, Option.map_some,
      Option.getD_some] at sameRoom ⊢
    split
    · rw [IndexSet.room_union, sameRoom]
    · exact sameRoom

/-- An intersection keeps the rows and the room of its left operand. -/
theorem Uniform.intersect
    {relation : IndexRelation}
    {room : Nat}
    (uniform : relation.Uniform room)
    (other : IndexRelation) :
    (relation.intersect other).Uniform room where
  size_rows := by
    simpa [IndexRelation.intersect] using uniform.size_rows
  room_row := by
    intro left inside
    simp only [IndexRelation.intersect, Array.size_mapIdx] at inside
    have sameRoom := uniform.room_row inside
    simp only [row, IndexRelation.intersect, Array.getElem?_mapIdx,
      Array.getElem?_eq_getElem inside, Option.map_some,
      Option.getD_some] at sameRoom ⊢
    split
    · simpa [IndexSet.room, IndexSet.intersect] using sameRoom
    · exact sameRoom

/-- The reflexive closure has the rows and the room of the relation. -/
theorem Uniform.star
    {relation : IndexRelation}
    {room : Nat}
    (uniform : relation.Uniform room) :
    relation.star.Uniform room :=
  uniform.closure.union _

/-- The reflexive closure is not refused. -/
theorem Uniform.star?_eq_some
    {relation : IndexRelation}
    (uniform :
      relation.Uniform (IndexSet.empty relation.size).room) :
    relation.star? = some relation.star := by
  simp only [star?, uniform.closure?_eq_some, identity?_eq_some,
    Option.bind_eq_bind, Option.bind_some]
  exact uniform.closure.union?_eq_some (Uniform.ofRows _ _)

end IndexRelation

end PegAudit
