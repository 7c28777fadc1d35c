import PegAudit.IndexSet.Extension
import PegAudit.Proofs.IndexSet.Words
import PegAudit.Proofs.Registers

namespace PegAudit

/-!
# Index sets are finite sets with room

Every operation of index sets is the one of their extensions, refusals
included.  So a command sequence has one transcript, be it carried out on index
sets, word by word, or on finite sets.
-/

namespace IndexSet

/-- Values of two kinds answer alike and are refused alike, and go on doing so. -/
structure Operations.Simulates
    (operations : Operations α)
    (others : Operations β)
    (related : α → β → Prop) :
    Prop where
  empty :
    ∀ capacity,
      related (operations.empty capacity) (others.empty capacity)
  insert? :
    ∀ {value other} index,
      related value other →
      Option.Rel related
        (operations.insert? value index) (others.insert? other index)
  union? :
    ∀ {left right otherLeft otherRight},
      related left otherLeft →
      related right otherRight →
      Option.Rel (AnswersAlike related)
        (operations.union? left right) (others.union? otherLeft otherRight)
  intersect :
    ∀ {left right otherLeft otherRight},
      related left otherLeft →
      related right otherRight →
      related
        (operations.intersect left right)
        (others.intersect otherLeft otherRight)
  contains :
    ∀ {value other} index,
      related value other →
      operations.contains value index = others.contains other index
  intersects :
    ∀ {left right otherLeft otherRight},
      related left otherLeft →
      related right otherRight →
      operations.intersects left right =
        others.intersects otherLeft otherRight
  equal :
    ∀ {left right otherLeft otherRight},
      related left otherLeft →
      related right otherRight →
      operations.equal left right = others.equal otherLeft otherRight
  isEmpty :
    ∀ {value other},
      related value other →
      operations.isEmpty value = others.isEmpty other
  count :
    ∀ {value other},
      related value other →
      operations.count value = others.count other
  toList :
    ∀ {value other},
      related value other →
      operations.toList value = others.toList other

namespace Operations.Simulates

variable
  {operations : Operations α}
  {others : Operations β}
  {related : α → β → Prop}
  (simulates : operations.Simulates others related)

include simulates

/-- Assigning related values answers alike. -/
theorem assign
    {registers : Registers α}
    {otherRegisters : Registers β}
    (alike : registers.Alike related otherRegisters)
    (target : String)
    {value : α}
    {other : β}
    (isRelated : related value other) :
    AnswersAlike (Registers.Alike related)
      (operations.assign registers target value)
      (others.assign otherRegisters target other) := by
  refine ⟨alike.write target isRelated, ?_⟩
  simp only [Operations.assign, simulates.toList isRelated]

/-- Commands answer alike in registers with related values. -/
theorem stepOn
    {registers : Registers α}
    {otherRegisters : Registers β}
    (command : Command)
    (alike : registers.Alike related otherRegisters) :
    Option.Rel (AnswersAlike (Registers.Alike related))
      (command.stepOn operations registers)
      (command.stepOn others otherRegisters) := by
  have read := alike.read?
  cases command with
  | new target capacity =>
      exact .some (simulates.assign alike target (simulates.empty capacity))
  | copy target source =>
      refine rel_bind (read source) fun value => ?_
      exact .some (simulates.assign alike target value)
  | insert target indices =>
      refine rel_bind (read target) fun value => ?_
      refine rel_bind (rel_foldlM simulates.insert? indices value) fun grown => ?_
      exact .some (simulates.assign alike target grown)
  | union target source =>
      refine rel_bind (read target) fun left => ?_
      refine rel_bind (read source) fun right => ?_
      refine rel_bind (simulates.union? left right) fun united => ?_
      refine .some ⟨alike.write target united.1, ?_⟩
      simp only [simulates.toList united.1, united.2]
  | intersect target source =>
      refine rel_bind (read target) fun left => ?_
      refine rel_bind (read source) fun right => ?_
      exact
        .some (simulates.assign alike target (simulates.intersect left right))
  | contains target index =>
      refine rel_bind (read target) fun value => ?_
      exact .some ⟨alike, by rw [simulates.contains index value]⟩
  | intersects target source =>
      refine rel_bind (read target) fun left => ?_
      refine rel_bind (read source) fun right => ?_
      exact .some ⟨alike, by rw [simulates.intersects left right]⟩
  | equal target source =>
      refine rel_bind (read target) fun left => ?_
      refine rel_bind (read source) fun right => ?_
      exact .some ⟨alike, by rw [simulates.equal left right]⟩
  | isEmpty target =>
      refine rel_bind (read target) fun value => ?_
      exact .some ⟨alike, by rw [simulates.isEmpty value]⟩
  | count target =>
      refine rel_bind (read target) fun value => ?_
      exact .some ⟨alike, by rw [simulates.count value]⟩
  | members target =>
      refine rel_bind (read target) fun value => ?_
      exact .some ⟨alike, by rw [simulates.toList value]⟩
  | text target =>
      refine rel_bind (read target) fun value => ?_
      refine .some ⟨alike, ?_⟩
      simp only [Operations.text, simulates.toList value]

/-- A command sequence has one transcript on both kinds of values. -/
theorem runOn_eq
    (commands : List Command) :
    runOn operations commands = runOn others commands :=
  runCommands_eq_of_lockstep simulates.stepOn commands .nil

end Operations.Simulates

namespace Extension

/-- Extensions with as many words and the same members are equal. -/
theorem ext
    {first second : Extension}
    (sameCount : first.wordCount = second.wordCount)
    (sameMembers :
      ∀ index, index ∈ first.members ↔ index ∈ second.members) :
    first = second := by
  cases first
  cases second
  cases sameCount
  exact congrArg _ (Finset.ext sameMembers)

/-- The members of a union. -/
theorem mem_union
    {left right : Extension}
    {index : Nat} :
    index ∈ (left.union right).members ↔
      index ∈ left.members ∨ index ∈ right.members ∧ index < left.room := by
  rw [union, Finset.mem_union, Finset.mem_filter]

end Extension

section Extension

variable {indices other : IndexSet}

/-- The members of the extension are the members. -/
@[simp] theorem mem_extension
    {index : Nat} :
    index ∈ indices.extension.members ↔ indices.contains index = true := by
  simp [extension, mem_toList_iff]

/-- The extension has as many words. -/
@[simp] theorem wordCount_extension :
    indices.extension.wordCount = indices.words.size :=
  rfl

/-- The extension has the room of the index set. -/
@[simp] theorem room_extension :
    indices.extension.room = indices.room :=
  rfl

/-- The members in order are the listing. -/
theorem sort_extension :
    indices.extension.members.sort = indices.toList := by
  have ascending := indices.pairwise_toList
  apply (List.toFinset_sort (· ≤ ·) (ascending.imp Nat.ne_of_lt)).mpr
  exact ascending.imp Nat.le_of_lt

/-- Index sets with the same extension are equal. -/
theorem extension_injective :
    Function.Injective extension := by
  intro left right same
  apply eq_of_contains_eq
  · rw [← room_extension, same, room_extension]
  · funext index
    rw [Bool.eq_iff_iff, ← mem_extension, same, mem_extension]

/-- The extension of the empty set. -/
theorem extension_empty
    (capacity : Nat) :
    (empty capacity).extension = .empty capacity := by
  apply Extension.ext
  · simp [empty, Extension.empty]
  · simp [Extension.empty]

/-- An insertion, seen from outside. -/
theorem map_insert?
    (index : Nat) :
    (indices.insert? index).map extension =
      indices.extension.insert? index := by
  unfold insert? Extension.insert?
  rw [room_extension]
  split
  case isTrue inside =>
    refine congrArg some (Extension.ext ?_ fun member => ?_)
    · simp [insert]
    · simp only [mem_extension, contains_insert, Finset.mem_union,
        Finset.mem_singleton, Bool.or_eq_true, Bool.and_eq_true,
        decide_eq_true_eq]
      grind
  case isFalse =>
    rfl

/-- A union, seen from outside. -/
theorem extension_union :
    (indices.union other).extension =
      indices.extension.union other.extension := by
  apply Extension.ext
  · simp [union, Extension.union]
  · intro index
    simp only [Extension.mem_union, mem_extension, contains_union,
      room_extension, Bool.or_eq_true, Bool.and_eq_true, decide_eq_true_eq]

/-- A union differs from its left operand exactly if it has another member. -/
theorem union_ne_iff :
    indices.union other ≠ indices ↔
      ∃ index ∈ (indices.union other).extension.members,
        index ∉ indices.extension.members := by
  constructor
  · intro different
    by_contra! noneNew
    apply different
    apply extension_injective
    apply Extension.ext
    · simp [union]
    · intro index
      refine ⟨noneNew index, fun member => ?_⟩
      rw [mem_extension] at member
      simp [contains_union, member]
  · rintro ⟨index, member, isNew⟩ same
    rw [same] at member
    exact isNew member

/-- A union with its report, seen from outside. -/
theorem map_union? :
    (operations.union? indices other).map (Prod.map extension id) =
      indices.extension.union? other.extension := by
  unfold Extension.union?
  -- Both sides compare numbers of words; they differ in what a change is.
  by_cases short : other.words.size < indices.words.size
  · have refused : indices.union? other = none := if_pos short
    rw [if_pos (by exact short)]
    simp [operations, refused]
  · have united : indices.union? other = some (indices.union other) :=
      if_neg short
    have sameReport :
        decide (indices.union other ≠ indices) =
          decide
            (∃ index ∈ (indices.union other).extension.members,
              index ∉ indices.extension.members) :=
      decide_eq_decide.mpr union_ne_iff
    rw [if_neg (by exact short), ← extension_union, ← sameReport]
    simp [operations, united]

/-- An intersection, seen from outside. -/
theorem extension_intersect :
    (indices.intersect other).extension =
      indices.extension.intersect other.extension := by
  apply Extension.ext
  · simp [intersect, Extension.intersect]
  · simp [contains_intersect, Extension.intersect]

/-- A word is not zero exactly if one of its bits is set. -/
theorem ne_zero_iff_testBit
    {word : UInt64} :
    word ≠ 0 ↔
      ∃ position < 64, word.toNat.testBit position = true := by
  constructor
  · intro notZero
    have natNotZero : word.toNat ≠ 0 := by
      intro zero
      exact notZero (UInt64.toNat_inj.mp zero)
    obtain ⟨position, found⟩ := Nat.exists_testBit_of_ne_zero natNotZero
    refine ⟨position, ?_, found⟩
    by_contra! behind
    exact Bool.false_ne_true ((testBit_of_le word behind).symm.trans found)
  · rintro ⟨position, _, found⟩ rfl
    simp at found

/-- Sets have a common member where two words have a common bit. -/
theorem intersects_iff :
    indices.intersects other = true ↔
      ∃ index,
        indices.contains index = true ∧ other.contains index = true := by
  rw [intersects, Array.any_eq_true]
  simp only [bne_iff_ne, ne_zero_iff_testBit, UInt64.toNat_and,
    Nat.testBit_and, Bool.and_eq_true, Array.size_zip, Array.getElem_zip]
  constructor
  · rintro ⟨block, inside, position, inWord, found, otherFound⟩
    refine ⟨64 * block + position, ?_, ?_⟩
    · rwa [contains_of_block (by omega) inWord]
    · rwa [contains_of_block (by omega) inWord]
  · rintro ⟨index, member, otherMember⟩
    have inside := (lt_room_iff _ _).mp (lt_room_of_contains member)
    have otherInside := (lt_room_iff _ _).mp (lt_room_of_contains otherMember)
    refine ⟨index / 64, by omega, index % 64,
      Nat.mod_lt _ (by decide), ?_, ?_⟩
    · simpa [contains, inside] using member
    · simpa [contains, otherInside] using otherMember

/-- A set is empty exactly if it has no members. -/
theorem isEmpty_iff :
    indices.isEmpty = true ↔ indices.extension.members = ∅ := by
  rw [← not_iff_not, Finset.eq_empty_iff_forall_notMem]
  simp only [isEmpty, Array.all_eq_true, beq_iff_eq, mem_extension]
  push Not
  simp only [ne_zero_iff_testBit]
  constructor
  · rintro ⟨block, inside, position, inWord, found⟩
    refine ⟨64 * block + position, ?_⟩
    rwa [contains_of_block inside inWord]
  · rintro ⟨index, member⟩
    have inside := (lt_room_iff _ _).mp (lt_room_of_contains member)
    refine ⟨index / 64, inside, index % 64, Nat.mod_lt _ (by decide), ?_⟩
    simpa [contains, inside] using member

/-- As many members are counted as the extension has. -/
theorem card_extension :
    indices.extension.members.card = indices.count := by
  rw [count_eq_length_toList, ← sort_extension, Finset.length_sort]

end Extension

/-- The operations of index sets are those of their extensions. -/
theorem simulates_extension :
    operations.Simulates Extension.operations
      fun indices extension => indices.extension = extension := by
  constructor
  case empty =>
    exact extension_empty
  case insert? =>
    rintro indices _ index rfl
    exact rel_of_map_eq (map_insert? index) fun _ => rfl
  case union? =>
    rintro left right _ _ rfl rfl
    exact rel_of_map_eq map_union? fun _ => ⟨rfl, rfl⟩
  case intersect =>
    rintro left right _ _ rfl rfl
    exact extension_intersect
  case contains =>
    rintro indices _ index rfl
    simp [operations, Extension.operations]
  case intersects =>
    rintro left right _ _ rfl rfl
    rw [Bool.eq_iff_iff]
    simp [operations, Extension.operations, intersects_iff]
  case equal =>
    rintro left right _ _ rfl rfl
    rw [Bool.eq_iff_iff]
    simp only [operations, Extension.operations, decide_eq_true_eq]
    constructor
    · rintro rfl
      exact ⟨rfl, rfl⟩
    · rintro ⟨sameCount, sameMembers⟩
      apply extension_injective
      exact Extension.ext sameCount fun index => by rw [sameMembers]
  case isEmpty =>
    rintro indices _ rfl
    rw [Bool.eq_iff_iff]
    simp [operations, Extension.operations, isEmpty_iff]
  case count =>
    rintro indices _ rfl
    exact card_extension.symm
  case toList =>
    rintro indices _ rfl
    exact sort_extension.symm

end IndexSet

end PegAudit
