import PegAudit.IndexRelation.Operations
import PegAudit.Proofs.IndexSet.Transcripts

namespace PegAudit

/-!
# Relations in lockstep

Two kinds of values whose operations go on alike make one transcript of a
command sequence.  Commands on relations are carried out by their operations.
-/

namespace IndexRelation

/-- Values of two kinds answer alike and are refused alike, and go on doing so. -/
structure Operations.Simulates
    (operations : Operations α)
    (others : Operations β)
    (related : α → β → Prop) :
    Prop where
  empty :
    ∀ size,
      related (operations.empty size) (others.empty size)
  identity? :
    ∀ size,
      Option.Rel related (operations.identity? size) (others.identity? size)
  product? :
    ∀ leftCapacity left rightCapacity right size,
      Option.Rel related
        (operations.product? leftCapacity left rightCapacity right size)
        (others.product? leftCapacity left rightCapacity right size)
  insert? :
    ∀ {value other} pair,
      related value other →
      Option.Rel related
        (operations.insert? value pair) (others.insert? other pair)
  union? :
    ∀ {left right otherLeft otherRight},
      related left otherLeft →
      related right otherRight →
      Option.Rel related
        (operations.union? left right) (others.union? otherLeft otherRight)
  intersect :
    ∀ {left right otherLeft otherRight},
      related left otherLeft →
      related right otherRight →
      related
        (operations.intersect left right)
        (others.intersect otherLeft otherRight)
  complement? :
    ∀ {value other},
      related value other →
      Option.Rel related
        (operations.complement? value) (others.complement? other)
  closure? :
    ∀ {value other},
      related value other →
      Option.Rel related (operations.closure? value) (others.closure? other)
  star? :
    ∀ {value other},
      related value other →
      Option.Rel related (operations.star? value) (others.star? other)
  contains? :
    ∀ {value other} left right,
      related value other →
      operations.contains? value left right =
        others.contains? other left right
  equal :
    ∀ {left right otherLeft otherRight},
      related left otherLeft →
      related right otherRight →
      operations.equal left right = others.equal otherLeft otherRight
  rows :
    ∀ {value other},
      related value other →
      operations.rows value = others.rows other
  weight :
    ∀ {value other},
      related value other →
      operations.weight value = others.weight other
  pairs :
    ∀ {value other},
      related value other →
      operations.pairs value = others.pairs other

namespace Operations.Simulates

variable
  {operations : Operations α}
  {others : Operations β}
  {related : α → β → Prop}
  (simulates : operations.Simulates others related)

include simulates

/-- Assigning related values answers alike. -/
theorem assign
    {registers : Registers α}
    {otherRegisters : Registers β}
    (alike : registers.Alike related otherRegisters)
    (target : String)
    {value : α}
    {other : β}
    (isRelated : related value other) :
    Option.Rel (AnswersAlike (Registers.Alike related))
      (some (operations.assign registers target value))
      (some (others.assign otherRegisters target other)) := by
  refine .some ⟨alike.write target isRelated, ?_⟩
  simp only [Operations.assign, simulates.pairs isRelated]

/-- Commands answer alike in registers with related values. -/
theorem stepOn
    {registers : Registers α}
    {otherRegisters : Registers β}
    (command : Command)
    (alike : registers.Alike related otherRegisters) :
    Option.Rel (AnswersAlike (Registers.Alike related))
      (command.stepOn operations registers)
      (command.stepOn others otherRegisters) := by
  have read := alike.read?
  have assigned
      (target : String)
      {value : α}
      {other : β}
      (isRelated : related value other) :=
    simulates.assign alike target isRelated
  cases command with
  | new target size =>
      exact assigned target (simulates.empty size)
  | identity target size =>
      exact rel_bind (simulates.identity? size) (assigned target)
  | product target leftCapacity left rightCapacity right size =>
      exact
        rel_bind
          (simulates.product? leftCapacity left rightCapacity right size)
          (assigned target)
  | insert target pairs =>
      refine rel_bind (read target) fun value => ?_
      exact
        rel_bind (rel_foldlM simulates.insert? pairs value) (assigned target)
  | union target left right =>
      refine rel_bind (read left) fun leftValue => ?_
      refine rel_bind (read right) fun rightValue => ?_
      exact rel_bind (simulates.union? leftValue rightValue) (assigned target)
  | intersect target left right =>
      refine rel_bind (read left) fun leftValue => ?_
      refine rel_bind (read right) fun rightValue => ?_
      exact assigned target (simulates.intersect leftValue rightValue)
  | complement target source =>
      refine rel_bind (read source) fun value => ?_
      exact rel_bind (simulates.complement? value) (assigned target)
  | closure target source =>
      refine rel_bind (read source) fun value => ?_
      exact rel_bind (simulates.closure? value) (assigned target)
  | star target source =>
      refine rel_bind (read source) fun value => ?_
      exact rel_bind (simulates.star? value) (assigned target)
  | contains target left right =>
      refine rel_bind (read target) fun value => ?_
      rw [simulates.contains? left right value]
      cases others.contains? _ left right with
      | none =>
          exact .none
      | some answer =>
          exact .some ⟨alike, rfl⟩
  | equal target source =>
      refine rel_bind (read target) fun left => ?_
      refine rel_bind (read source) fun right => ?_
      exact .some ⟨alike, by rw [simulates.equal left right]⟩
  | row target left =>
      refine rel_bind (read target) fun value => ?_
      rw [simulates.rows value]
      cases (others.rows _)[left]? with
      | none =>
          exact .none
      | some members =>
          exact .some ⟨alike, rfl⟩
  | weight target =>
      refine rel_bind (read target) fun value => ?_
      exact .some ⟨alike, by rw [simulates.weight value]⟩
  | text target =>
      refine rel_bind (read target) fun value => ?_
      refine .some ⟨alike, ?_⟩
      simp only [Operations.text, simulates.rows value]

/-- A command sequence has one transcript on both kinds of values. -/
theorem runOn_eq
    (commands : List Command) :
    runOn operations commands = runOn others commands :=
  runCommands_eq_of_lockstep simulates.stepOn commands .nil

end Operations.Simulates

/-- The text is that of the listed members. -/
theorem text_operations
    (relation : IndexRelation) :
    operations.text relation = relation.text := by
  have sameTest
      (indices : IndexSet) :
      indices.toList.isEmpty = indices.isEmpty := by
    rw [Bool.eq_iff_iff, List.isEmpty_iff, IndexSet.isEmpty_iff,
      IndexSet.extension, List.toFinset_eq_empty_iff]
  rw [Operations.text, text, braced]
  simp only [operations, List.zipIdx_map, List.filterMap_map,
    Function.comp_def, Prod.map, id_eq, sameTest]
  rfl

/-- Commands on relations are carried out by their operations. -/
theorem Command.step_eq_stepOn :
    Command.step = Command.stepOn operations := by
  funext registers command
  cases command with
  | insert target pairs =>
      simp only [Command.step, Command.stepOn, insertAll?_eq_foldlM,
        Operations.insertAll?]
      rfl
  | product target leftCapacity left rightCapacity right size =>
      simp only [Command.step, Command.stepOn, operations]
      cases members? leftCapacity left with
      | none =>
          rfl
      | some leftSet =>
          cases members? rightCapacity right <;> rfl
  | row target left =>
      simp only [Command.step, Command.stepOn, operations, row?,
        List.getElem?_map, Array.getElem?_toList]
      cases registers.read? target with
      | none =>
          rfl
      | some relation =>
          cases found : relation.rows[left]? <;> simp [found]
  | text target =>
      simp only [Command.step, Command.stepOn, text_operations]
  | _ =>
      rfl

end IndexRelation

end PegAudit
