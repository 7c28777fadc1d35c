import PegAudit.Proofs.IndexRelation.Transcripts

namespace PegAudit

/-!
# The algebra of relations

Besides the transcript that a command sequence has, the relations that it makes
obey laws: a complement stays among the indices below the size, so taking it
twice drops the pairs beyond, and the laws of De Morgan hold for relations of
one size.
-/

namespace IndexRelation

/-- No right index of a pair is at or beyond the size. -/
def WithinSquare
    (relation : IndexRelation) :
    Prop :=
  ∀ left right, relation.Relates left right → right < relation.size

/-- What holds of a relation, and of it and another one. -/
structure AlgebraLaws
    (relation other : IndexRelation) :
    Prop where
  mem_pairs_iff :
    ∀ left right,
      (left, right) ∈ relation.pairs ↔ relation.Relates left right
  /-- By the left index, then by the right one, each pair once. -/
  ascending : relation.pairs.Pairwise (Prod.Lex (· < ·) (· < ·))
  weight_eq : relation.weight = relation.pairs.length
  complement_iff :
    ∀ left right,
      relation.complement.Relates left right ↔
        (left < relation.size ∧ right < relation.size) ∧
          ¬ relation.Relates left right
  /-- Twice the complement drops the pairs beyond the size, and no others. -/
  complement_complement_iff :
    ∀ left right,
      relation.complement.complement.Relates left right ↔
        relation.Relates left right ∧ right < relation.size
  complement_complement :
    relation.WithinSquare →
    relation.complement.complement = relation
  weight_complement :
    relation.WithinSquare →
    relation.weight + relation.complement.weight =
      relation.size * relation.size
  complement_union :
    relation.size = other.size →
    relation.union? other = some (relation.union other) ∧
      (relation.union other).complement =
        relation.complement.intersect other.complement
  complement_intersect :
    relation.size = other.size →
    relation.complement.union? other.complement =
        some (relation.complement.union other.complement) ∧
      (relation.intersect other).complement =
        relation.complement.union other.complement

section Laws

variable {relation other : IndexRelation}

/-- The left index of a pair is below the size. -/
theorem Made.left_lt
    (made : relation.Made)
    {left right : Nat}
    (relates : relation.Relates left right) :
    left < relation.size := by
  rw [← made.uniform.size_rows]
  exact relates.left_lt

/-- Twice the complement is the relation below the size. -/
theorem Made.relates_complement_complement_iff
    (made : relation.Made)
    {left right : Nat} :
    relation.complement.complement.Relates left right ↔
      relation.Relates left right ∧ right < relation.size := by
  rw [relates_complement_iff, relates_complement_iff]
  constructor
  · rintro ⟨inside, related⟩
    by_contra unrelated
    exact related ⟨inside, fun relates => unrelated ⟨relates, inside.2⟩⟩
  · rintro ⟨relates, inside⟩
    exact ⟨⟨made.left_lt relates, inside⟩, fun other => other.2 relates⟩

/-- Twice the complement is the relation if no pair is beyond the size. -/
theorem Made.complement_complement
    (made : relation.Made)
    (within : relation.WithinSquare) :
    relation.complement.complement = relation := by
  apply (made.complement.complement).eq_of_extension_eq made
  apply extension_eq_of_relates_iff rfl
  intro left right
  rw [made.relates_complement_complement_iff, mem_extension]
  exact and_iff_left_of_imp (within left right)

/-- A relation and its complement have all pairs below the size between them. -/
theorem Made.weight_complement
    (made : relation.Made)
    (within : relation.WithinSquare) :
    relation.weight + relation.complement.weight =
      relation.size * relation.size := by
  have inSquare :
      relation.extension.pairs ⊆ Extension.square relation.size := by
    rintro ⟨left, right⟩ member
    have relates := relation.mem_extension.mp member
    rw [Extension.square, Finset.mem_product, Finset.mem_range,
      Finset.mem_range]
    exact ⟨made.left_lt relates, within left right relates⟩
  have others :
      relation.complement.extension.pairs =
        Extension.square relation.size \ relation.extension.pairs := by
    rw [extension_complement]
    rfl
  rw [← card_extension, ← card_extension, others, Nat.add_comm,
    Finset.card_sdiff_add_card_eq_card inSquare, Extension.square,
    Finset.card_product, Finset.card_range]

/-- The union of relations of one size goes through. -/
theorem Made.union?_eq_some
    (made : relation.Made)
    (otherMade : other.Made)
    (sameSize : relation.size = other.size) :
    relation.union? other = some (relation.union other) := by
  have otherUniform := otherMade.uniform
  rw [← sameSize] at otherUniform
  exact made.uniform.union?_eq_some otherUniform

/-- The union of relations of one size relates what either does. -/
theorem Made.relates_union_iff
    (made : relation.Made)
    (otherMade : other.Made)
    (sameSize : relation.size = other.size)
    {left right : Nat} :
    (relation.union other).Relates left right ↔
      relation.Relates left right ∨ other.Relates left right := by
  rw [made.uniform.relates_union_iff, sameSize]
  refine or_congr_right (and_iff_left_of_imp fun relates => ?_)
  exact ⟨otherMade.left_lt relates, otherMade.uniform.right_lt relates⟩

/-- The intersection of relations of one size relates what both do. -/
theorem Made.relates_intersect_iff
    (made : relation.Made)
    (otherMade : other.Made)
    (sameSize : relation.size = other.size)
    {left right : Nat} :
    (relation.intersect other).Relates left right ↔
      relation.Relates left right ∧ other.Relates left right := by
  rw [otherMade.uniform.relates_intersect_iff, ← sameSize]
  refine and_congr_right fun relates => or_iff_left ?_
  -- A related pair is in both bounds, so the intersection asks for it.
  rintro (outside | outside)
  · exact Nat.not_lt.mpr outside (made.left_lt relates)
  · exact Nat.not_lt.mpr outside (made.uniform.right_lt relates)

/-- The complement of a union is the intersection of the complements. -/
theorem Made.complement_union
    (made : relation.Made)
    (otherMade : other.Made)
    (sameSize : relation.size = other.size) :
    (relation.union other).complement =
      relation.complement.intersect other.complement := by
  apply
    (uniform_complement (relation.union other)).eq_of_relates_iff
      ((uniform_complement relation).intersect other.complement) rfl
  intro left right
  rw [relates_complement_iff, made.relates_union_iff otherMade sameSize,
    made.complement.relates_intersect_iff otherMade.complement sameSize,
    relates_complement_iff, relates_complement_iff, ← sameSize, not_or]
  exact and_and_left

/-- The complement of an intersection is the union of the complements. -/
theorem Made.complement_intersect
    (made : relation.Made)
    (otherMade : other.Made)
    (sameSize : relation.size = other.size) :
    (relation.intersect other).complement =
      relation.complement.union other.complement := by
  apply
    (uniform_complement (relation.intersect other)).eq_of_relates_iff
      ((uniform_complement relation).union other.complement) rfl
  intro left right
  rw [relates_complement_iff, made.relates_intersect_iff otherMade sameSize,
    made.complement.relates_union_iff otherMade.complement sameSize,
    relates_complement_iff, relates_complement_iff, ← sameSize, not_and_or]
  exact and_or_left

/-- Relations that the operations make obey the laws. -/
theorem Made.algebraLaws
    (made : relation.Made)
    (otherMade : other.Made) :
    relation.AlgebraLaws other where
  mem_pairs_iff := fun _ _ => relation.mem_pairs_iff
  ascending := relation.pairwise_pairs
  weight_eq := relation.weight_eq_length_pairs
  complement_iff := fun _ _ => relates_complement_iff
  complement_complement_iff := fun _ _ =>
    made.relates_complement_complement_iff
  complement_complement := made.complement_complement
  weight_complement := made.weight_complement
  complement_union := fun sameSize =>
    ⟨made.union?_eq_some otherMade sameSize,
      made.complement_union otherMade sameSize⟩
  complement_intersect := fun sameSize =>
    ⟨made.complement.union?_eq_some otherMade.complement sameSize,
      made.complement_intersect otherMade sameSize⟩

end Laws

/-- What commands on relations answer, and what the registers hold after them. -/
structure CommandsExact
    (commands : List Command) :
    Prop where
  /-- The answers are those of finite sets of pairs, up to the first refusal. -/
  run_eq :
    run commands = runOn Extension.operations commands
  /-- Pair by pair and word by word, the answers are the same. -/
  pairwise_eq :
    runOn pairwiseOperations commands = runOn Extension.operations commands
  laws :
    ∀ {registers},
      stateAfter? Command.step [] commands = some registers →
      ∀ {name otherName relation other},
        registers.read? name = some relation →
        registers.read? otherName = some other →
        relation.AlgebraLaws other

/-- The operations make what the registers hold after a command sequence. -/
theorem made_of_stateAfter?
    {commands : List Command}
    {registers : Registers IndexRelation}
    (reached : stateAfter? Command.step [] commands = some registers)
    {name : String}
    {relation : IndexRelation}
    (held : registers.read? name = some relation) :
    relation.Made := by
  have states :=
    rel_stateAfter? simulates_extension.stepOn commands .nil
  rw [← Command.step_eq_stepOn, reached] at states
  generalize
    stateAfter? (Command.stepOn Extension.operations) [] commands = after
    at states
  cases states with
  | some alike =>
      have values := alike.read? name
      rw [held] at values
      generalize Registers.read? _ name = value at values
      cases values with
      | some isRelated =>
          exact isRelated.1

/--
A command sequence has one transcript, on relations, pair by pair and on finite
sets of pairs, and leaves relations that obey the laws of complement, union and
intersection.
-/
theorem commandsExact
    (commands : List Command) :
    CommandsExact commands where
  run_eq := by
    rw [run, Command.step_eq_stepOn]
    exact simulates_extension.runOn_eq commands
  pairwise_eq :=
    (simulates_operations.runOn_eq commands).trans
      (simulates_extension.runOn_eq commands)
  laws := fun reached _ _ _ _ held otherHeld =>
    (made_of_stateAfter? reached held).algebraLaws
      (made_of_stateAfter? reached otherHeld)

/-- A product of sets that reach beyond its size, one more pair, and an identity. -/
def relateThree : List Command :=
  [.product "product" 70 [0, 2, 65] 3 [1, 2] 3,
   .insert "product" [(1, 0)],
   .identity "identity" 3]

/-- The laws hold of the product and the identity, which are of one size. -/
theorem commandsExact_relateThree :
    ∃ registers relation other,
      stateAfter? Command.step [] relateThree = some registers ∧
        registers.read? "product" = some relation ∧
        registers.read? "identity" = some other ∧
        relation.pairs = [(0, 1), (0, 2), (1, 0), (2, 1), (2, 2)] ∧
        relation.size = other.size ∧
        relation.weight + relation.complement.weight = 9 ∧
        relation.AlgebraLaws other := by
  let sets := IndexSet.ofList 70 [0, 2, 65]
  let relation :=
    (product sets (IndexSet.ofList 3 [1, 2]) 3).insert 1 0
  let registers :=
    [("identity", identity 3), ("product", relation),
     ("product", product sets (IndexSet.ofList 3 [1, 2]) 3)]
  have reached :
      stateAfter? Command.step [] relateThree = some registers := by
    decide +kernel
  have held : Registers.read? registers "product" = some relation := by
    decide +kernel
  have otherHeld :
      Registers.read? registers "identity" = some (identity 3) := by
    decide +kernel
  exact
    ⟨registers, relation, identity 3, reached, held, otherHeld,
      by decide +kernel, by decide +kernel, by decide +kernel,
      (commandsExact relateThree).laws reached held otherHeld⟩

end IndexRelation

end PegAudit
