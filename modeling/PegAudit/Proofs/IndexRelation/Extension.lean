import PegAudit.IndexRelation.Extension
import PegAudit.Proofs.IndexRelation.Laws
import PegAudit.Proofs.IndexRelation.Lockstep

namespace PegAudit

/-!
# Relations are finite sets of pairs

Every operation of relations is the one of their extensions, refusals included.
-/

namespace IndexRelation

section Listing

variable (relation : IndexRelation)

/-- The listed pairs are the related ones. -/
theorem mem_pairs_iff
    {left right : Nat} :
    (left, right) ∈ relation.pairs ↔ relation.Relates left right := by
  simp only [pairs, List.mem_flatMap, Prod.exists, List.mem_map,
    Prod.mk.injEq, IndexSet.mem_toList_iff, List.mem_zipIdx_iff_getElem?,
    Array.getElem?_toList, Relates, contains, row]
  constructor
  · rintro ⟨related, _, present, _, member, rfl, rfl⟩
    simpa [present] using member
  · intro member
    cases present : relation.rows[left]? with
    | none =>
        simp [present] at member
    | some related =>
        rw [present] at member
        exact ⟨related, left, present, right, member, rfl, rfl⟩

/-- The pairs are listed by their left index, and then by the right one. -/
theorem pairwise_pairs :
    relation.pairs.Pairwise (Prod.Lex (· < ·) (· < ·)) := by
  exact
    pairwise_lex_flatMap (pairwise_snd_zipIdx _) fun entry _ =>
      entry.1.pairwise_toList

/-- The weight is the number of pairs. -/
theorem weight_eq_length_pairs :
    relation.weight = relation.pairs.length := by
  have sameLength
      (entry : IndexSet × Nat) :
      (entry.1.toList.map (entry.2, ·)).length = entry.1.count := by
    rw [List.length_map, entry.1.count_eq_length_toList]
  rw [weight, foldl_add_eq_length_flatMap sameLength _ 0, Nat.zero_add]
  rfl

/-- The pairs of the extension are the related ones. -/
theorem mem_extension
    {left right : Nat} :
    (left, right) ∈ relation.extension.pairs ↔
      relation.Relates left right := by
  rw [extension, List.mem_toFinset, mem_pairs_iff]

/-- The extension is listed like the relation. -/
theorem sorted_extension :
    relation.extension.sorted = relation.pairs := by
  have ascending : (relation.pairs.map toLex).Pairwise (· < ·) := by
    rw [List.pairwise_map]
    exact relation.pairwise_pairs
  have sameImage :
      relation.extension.pairs.image toLex =
        (relation.pairs.map toLex).toFinset := by
    ext pair
    simp [extension]
  have sameOrder :
      (relation.pairs.map toLex).toFinset.sort = relation.pairs.map toLex := by
    apply (List.toFinset_sort (· ≤ ·) (ascending.imp fun before => before.ne)).mpr
    exact ascending.imp fun before => before.le
  rw [Extension.sorted, sameImage, sameOrder, List.map_map]
  exact List.map_id _

/-- The extension has as many pairs as the weight says. -/
theorem card_extension :
    relation.extension.pairs.card = relation.weight := by
  rw [weight_eq_length_pairs, ← sorted_extension, Extension.sorted,
    List.length_map, Finset.length_sort,
    Finset.card_image_of_injective _ toLex.injective]

end Listing

section Pairs

/-- The empty relation relates nothing. -/
theorem not_relates_empty
    (size left right : Nat) :
    ¬ (empty size).Relates left right := by
  simp [Relates, empty, contains_ofRows]

/-- The identity relates each index below the size to itself. -/
theorem relates_identity_iff
    {size left right : Nat} :
    (identity size).Relates left right ↔ left = right ∧ left < size := by
  have covered := IndexSet.le_room_empty size
  simp only [Relates, identity, contains_ofRows, List.mem_singleton,
    Bool.and_eq_true, decide_eq_true_eq]
  omega

/-- A product relates the members of both sets that are below the size. -/
theorem relates_product_iff
    {lefts rights : IndexSet}
    {size left right : Nat} :
    (product lefts rights size).Relates left right ↔
      (lefts.contains left = true ∧ rights.contains right = true) ∧
        left < size ∧ right < size := by
  have covered := IndexSet.le_room_empty size
  rw [Relates, product, contains_ofRows]
  by_cases member : lefts.contains left = true
  · simp only [member, if_true, List.mem_filter, IndexSet.mem_toList_iff,
      decide_eq_true_eq, Bool.and_eq_true]
    grind
  · simp [member]

/-- A complement relates the pairs below the size that are not related. -/
theorem relates_complement_iff
    {relation : IndexRelation}
    {left right : Nat} :
    relation.complement.Relates left right ↔
      (left < relation.size ∧ right < relation.size) ∧
        ¬ relation.Relates left right := by
  have covered := IndexSet.le_room_empty relation.size
  simp only [Relates, complement, contains_ofRows, List.mem_filter,
    List.mem_range, Bool.and_eq_true, decide_eq_true_eq, Bool.not_eq_true',
    Bool.not_eq_true]
  grind

/-- An intersection drops what the right relation has room for and does not have. -/
theorem Uniform.relates_intersect_iff
    {relation other : IndexRelation}
    {room left right : Nat}
    (uniform : other.Uniform room) :
    (relation.intersect other).Relates left right ↔
      relation.Relates left right ∧
        (other.Relates left right ∨
          other.size ≤ left ∨ room ≤ right) := by
  rw [← uniform.size_rows, Relates, Relates, Relates, contains, contains,
    contains]
  by_cases otherHasRow : left < other.rows.size
  · have intersected :
        ((relation.intersect other).row left).contains right =
          ((relation.row left).intersect (other.row left)).contains right := by
      cases present : relation.rows[left]? with
      | none =>
          simp [row, IndexRelation.intersect, present,
            IndexSet.contains_intersect]
      | some related =>
          simp [row, IndexRelation.intersect, present, otherHasRow]
    rw [intersected, IndexSet.contains_intersect,
      uniform.room_row otherHasRow]
    simp [Nat.not_le.mpr otherHasRow]
  · have kept :
        (relation.intersect other).row left = relation.row left := by
      cases present : relation.rows[left]? <;>
        simp [row, IndexRelation.intersect, present, otherHasRow]
    simp [kept, Nat.le_of_not_lt otherHasRow]

variable
  {relation other : IndexRelation}
  {room left right : Nat}
  (uniform : relation.Uniform room)

include uniform

/-- A row has the common room, and a missing row has none. -/
theorem Uniform.lt_room_row_iff :
    right < (relation.row left).room ↔ left < relation.size ∧ right < room := by
  by_cases inside : left < relation.rows.size
  · rw [uniform.room_row inside]
    simp [← uniform.size_rows, inside]
  · simp [row, inside, ← uniform.size_rows, IndexSet.room, IndexSet.empty]

/-- A union relates what either relation does and the left one has room for. -/
theorem Uniform.relates_union_iff :
    (relation.union other).Relates left right ↔
      relation.Relates left right ∨
        other.Relates left right ∧ left < relation.size ∧ right < room := by
  rw [Relates, contains_union, Bool.or_eq_true, Bool.and_eq_true,
    decide_eq_true_eq, uniform.lt_room_row_iff]
  rfl

/-- A pair is related if there is room for it, and refused otherwise. -/
theorem Uniform.insert?_eq_ite :
    relation.insert? left right =
      if left < relation.size ∧ right < room then
        some (relation.insert left right)
      else
        none := by
  by_cases hasRow : left < relation.rows.size
  · by_cases hasBit : right < room
    · rw [uniform.insert?_eq_some hasRow hasBit, if_pos]
      exact ⟨uniform.size_rows ▸ hasRow, hasBit⟩
    · have noBit : (relation.row left).insert? right = none := by
        rw [IndexSet.insert?, uniform.room_row hasRow, if_neg hasBit]
      have present : relation.row? left = some (relation.row left) :=
        uniform.row?_eq_some (uniform.size_rows ▸ hasRow)
      simp [insert?, present, noBit, hasBit]
  · have noRow : relation.row? left = none := by
      simpa [row?] using hasRow
    rw [uniform.size_rows] at hasRow
    simp [insert?, noRow, hasRow]

end Pairs

section Extension

/-- Extensions of the same size with the same pairs are equal. -/
theorem Extension.ext
    {first second : Extension}
    (sameSize : first.size = second.size)
    (samePairs :
      ∀ left right,
        (left, right) ∈ first.pairs ↔ (left, right) ∈ second.pairs) :
    first = second := by
  cases first
  cases second
  cases sameSize
  exact congrArg _ (Finset.ext fun pair => samePairs pair.1 pair.2)

variable
  {relation other : IndexRelation}
  {extension : Extension}

/-- An extension is determined by its size and its pairs. -/
theorem extension_eq_of_relates_iff
    (sameSize : relation.size = extension.size)
    (samePairs :
      ∀ left right,
        relation.Relates left right ↔ (left, right) ∈ extension.pairs) :
    relation.extension = extension :=
  Extension.ext sameSize fun left right =>
    relation.mem_extension.trans (samePairs left right)

/-- The extension has the room of a row. -/
theorem room_extension
    (relation : IndexRelation) :
    relation.extension.room = (IndexSet.empty relation.size).room := by
  simp [Extension.room, IndexRelation.extension, IndexSet.room,
    IndexSet.empty]

/-- The extension of the empty relation. -/
theorem extension_empty
    (size : Nat) :
    (empty size).extension = .empty size := by
  apply extension_eq_of_relates_iff rfl
  intro left right
  simp [not_relates_empty, Extension.empty]

/-- The extension of the identity. -/
theorem extension_identity
    (size : Nat) :
    (identity size).extension = .identity size := by
  apply extension_eq_of_relates_iff rfl
  intro left right
  rw [relates_identity_iff, Extension.identity, Finset.mem_diag,
    Finset.mem_range, and_comm]

/-- The extension of a product. -/
theorem extension_product
    (lefts rights : IndexSet)
    (size : Nat) :
    (product lefts rights size).extension =
      .product lefts.extension.members rights.extension.members size := by
  apply extension_eq_of_relates_iff rfl
  intro left right
  rw [relates_product_iff, Extension.product, Extension.square,
    Finset.mem_inter, Finset.mem_product, Finset.mem_product,
    IndexSet.mem_extension, IndexSet.mem_extension, Finset.mem_range,
    Finset.mem_range]

/-- The extension of a complement. -/
theorem extension_complement :
    relation.complement.extension = relation.extension.complement := by
  apply extension_eq_of_relates_iff rfl
  intro left right
  rw [relates_complement_iff, Extension.complement, Extension.square,
    Finset.mem_sdiff, Finset.mem_product, Finset.mem_range, Finset.mem_range,
    mem_extension]
  rfl

/-- Relations that are made alike and have the same extension are equal. -/
theorem Made.eq_of_extension_eq
    (made : relation.Made)
    (otherMade : other.Made)
    (same : relation.extension = other.extension) :
    relation = other := by
  have sameSize : relation.size = other.size :=
    congrArg Extension.size same
  have otherUniform := otherMade.uniform
  rw [← sameSize] at otherUniform
  apply made.uniform.eq_of_relates_iff otherUniform sameSize
  intro left right
  rw [← mem_extension, same, mem_extension]

/-- A pair is added to the extension, or there is no room for it. -/
theorem Made.map_insert?
    (made : relation.Made)
    (pair : Nat × Nat) :
    (relation.insert? pair.1 pair.2).map IndexRelation.extension =
      relation.extension.insert? pair := by
  rw [made.uniform.insert?_eq_ite, Extension.insert?, room_extension]
  by_cases fits :
      pair.1 < relation.size ∧
        pair.2 < (IndexSet.empty relation.size).room
  · have hasRow : pair.1 < relation.rows.size := by
      rw [made.uniform.size_rows]
      exact fits.1
    rw [if_pos fits, if_pos (by exact fits), Option.map_some]
    apply congrArg some
    apply extension_eq_of_relates_iff rfl
    intro left right
    rw [Relates, made.uniform.contains_insert hasRow fits.2, Bool.or_eq_true,
      decide_eq_true_eq, Finset.mem_union, Finset.mem_singleton,
      mem_extension, or_comm]
    rfl
  · rw [if_neg fits, if_neg (by exact fits), Option.map_none]

/-- All rows have the words that the size needs. -/
theorem Made.size_words
    (made : relation.Made)
    {left : Nat}
    (inside : left < relation.rows.size) :
    relation.rows[left].words.size = (relation.size + 63) / 64 := by
  have sameRoom := made.uniform.room_row inside
  rw [← room_extension] at sameRoom
  simp only [row, inside, getElem?_pos, Option.getD_some, IndexSet.room,
    Extension.room, IndexRelation.extension] at sameRoom
  omega

/-- A union is the union of the extensions, or the right rows are too short. -/
theorem Made.map_union?
    (made : relation.Made)
    (otherMade : other.Made) :
    (relation.union? other).map IndexRelation.extension =
      relation.extension.union? other.extension := by
  have covered_iff :
      ((relation.rows.zip other.rows).all fun both =>
          both.1.words.size ≤ both.2.words.size) = true ↔
        ¬ (other.size ≠ 0 ∧
          other.extension.room < relation.extension.room) := by
    -- All rows of a relation have equally many words, so one pair of rows decides.
    rw [Array.all_eq_true]
    simp only [decide_eq_true_eq, Array.getElem_zip,
      Array.size_zip, made.uniform.size_rows, otherMade.uniform.size_rows,
      made.size_words, otherMade.size_words, Extension.room, extension]
    constructor
    · rintro covered ⟨hasRows, short⟩
      have first := covered 0 (by omega)
      omega
    · intro enough left inside
      omega
  unfold Extension.union?
  by_cases short :
      other.size ≠ 0 ∧ other.extension.room < relation.extension.room
  · have refused : relation.union? other = none :=
      if_neg (mt covered_iff.mp (not_not_intro short))
    rw [refused, if_pos (by exact short), Option.map_none]
  · have united : relation.union? other = some (relation.union other) :=
      if_pos (covered_iff.mpr short)
    rw [united, if_neg (by exact short), Option.map_some]
    apply congrArg some
    apply extension_eq_of_relates_iff rfl
    intro left right
    rw [made.uniform.relates_union_iff, Extension.union, Finset.mem_union,
      Finset.mem_filter, mem_extension, mem_extension, room_extension]
    rfl

/-- The extension of an intersection. -/
theorem Made.extension_intersect
    (otherMade : other.Made) :
    (relation.intersect other).extension =
      relation.extension.intersect other.extension := by
  apply extension_eq_of_relates_iff rfl
  intro left right
  rw [otherMade.uniform.relates_intersect_iff, Extension.intersect,
    Finset.mem_filter, mem_extension, mem_extension, room_extension]
  rfl

/-- The extension of the closure. -/
theorem Made.extension_closure
    (made : relation.Made) :
    relation.closure.extension = relation.extension.closure := by
  apply extension_eq_of_relates_iff (size_closure relation)
  intro left right
  -- Paths may end in a column beyond the size, but none goes on from there.
  have inside
      (link : relation.closure.Relates left right) :
      left < relation.size ∧ right < relation.extension.room := by
    have hasRow := link.left_lt
    rw [made.uniform.closure.size_rows, size_closure] at hasRow
    rw [room_extension]
    exact ⟨hasRow, made.uniform.closure.right_lt link⟩
  simp only [Extension.closure, Finset.mem_filter, Finset.mem_product,
    Finset.mem_range, mem_extension]
  constructor
  · exact fun link => ⟨inside link, made.uniform.relates_closure_iff.mp link⟩
  · exact fun ⟨_, path⟩ => made.uniform.relates_closure_iff.mpr path

/-- The extension of the reflexive closure. -/
theorem Made.extension_star
    (made : relation.Made) :
    relation.star.extension = relation.extension.star := by
  apply extension_eq_of_relates_iff (size_star relation)
  intro left right
  rw [made.uniform.relates_star_iff (IndexSet.le_room_empty relation.size),
    Extension.star, Finset.mem_union, ← made.extension_closure,
    mem_extension, made.uniform.relates_closure_iff, Extension.identity,
    Finset.mem_diag, Finset.mem_range, and_comm (a := left = right)]
  rfl

/-- Looking up a pair asks the extension, or finds no row. -/
theorem Made.contains?_eq_ite
    (made : relation.Made)
    {left right : Nat} :
    relation.contains? left right =
      if left < relation.extension.size then
        some (decide ((left, right) ∈ relation.extension.pairs))
      else
        none := by
  by_cases hasRow : left < relation.size
  · rw [made.uniform.contains?_eq_some hasRow, if_pos (by exact hasRow)]
    simp [mem_extension, Relates]
  · rw [if_neg (by exact hasRow)]
    rw [← made.uniform.size_rows] at hasRow
    simpa [contains?, row?] using hasRow

/-- A row of the extension is listed like the row. -/
theorem sort_row_extension
    (relation : IndexRelation)
    (left : Nat) :
    (relation.extension.row left).sort = (relation.row left).toList := by
  have sameMembers :
      relation.extension.row left = (relation.row left).extension.members := by
    ext right
    simp only [Extension.row, Finset.mem_image, Finset.mem_filter,
      Prod.exists, mem_extension, IndexSet.mem_extension]
    constructor
    · rintro ⟨_, _, ⟨relates, rfl⟩, rfl⟩
      exact relates
    · exact fun member => ⟨left, right, ⟨member, rfl⟩, rfl⟩
  rw [sameMembers, IndexSet.sort_extension]

/-- The rows of the extension are listed like the rows. -/
theorem Made.rows_extension
    (made : relation.Made) :
    ((List.range relation.size).map fun left =>
        (relation.extension.row left).sort) =
      relation.rows.toList.map IndexSet.toList := by
  simp only [sort_row_extension]
  apply List.ext_getElem
  · simp [made.uniform.size_rows]
  · intro left inside otherInside
    simp only [List.length_map, Array.length_toList] at otherInside
    simp [row, otherInside]

end Extension

end IndexRelation

end PegAudit
