import PegAudit.Diagnosis
import PegAudit.Proofs.Renumbering.Relations

namespace PegAudit

/-!
# Faults and notes under other numbers

What is found at a node depends on its shape and on what is known of it and its
parts, so corresponding nodes give the same faults and notes.  The nodes through
which a rule reaches itself are listed by number, so only their order may
differ.
-/

/-- The two lists of faults are the same up to the order of witnesses. -/
structure Fault.SameFaults
    (faults others : List Fault) :
    Prop where
  iterations :
    ∀ body iteration,
      .nullableIteration body iteration ∈ others ↔
        .nullableIteration body iteration ∈ faults
  recursions :
    ∀ {rule via},
      .leftRecursion rule via ∈ faults →
      ∃ otherVia,
        .leftRecursion rule otherVia ∈ others ∧ otherVia.Perm via
  otherRecursions :
    ∀ {rule otherVia},
      .leftRecursion rule otherVia ∈ others →
      ∃ via, .leftRecursion rule via ∈ faults ∧ via.Perm otherVia

/-- Without faults on one side there are none on the other. -/
theorem Fault.SameFaults.isEmpty_eq
    {faults others : List Fault}
    (same : Fault.SameFaults faults others) :
    others.isEmpty = faults.isEmpty := by
  rw [Bool.eq_iff_iff, List.isEmpty_iff, List.isEmpty_iff,
    List.eq_nil_iff_forall_not_mem, List.eq_nil_iff_forall_not_mem]
  constructor
  · rintro none (⟨rule, via⟩ | ⟨body, iteration⟩) member
    · obtain ⟨otherVia, otherMember, _⟩ := same.recursions member
      exact none _ otherMember
    · exact none _ ((same.iterations body iteration).mpr member)
  · rintro none (⟨rule, via⟩ | ⟨body, iteration⟩) member
    · obtain ⟨otherVia, otherMember, _⟩ := same.otherRecursions member
      exact none _ otherMember
    · exact none _ ((same.iterations body iteration).mp member)

namespace Layout

/-- A fault is found at an iteration or at a rule. -/
theorem mem_faults_iff
    {layout : Layout}
    {table : AttrTable}
    {relations : Relations}
    {fault : Fault} :
    fault ∈ layout.faults table relations ↔
      (∃ id ∈ layout.compoundIds,
          fault ∈ layout.iterationFaults table id) ∨
        ∃ rule ∈ layout.rules,
          fault ∈ layout.recursionFaults relations rule := by
  rw [faults, List.mem_eraseDups, List.mem_append, List.mem_flatMap,
    List.mem_flatMap]

/-- At an iteration only its body is at fault. -/
theorem exists_of_mem_iterationFaults
    {layout : Layout}
    {table : AttrTable}
    {id : NodeId}
    {fault : Fault}
    (found : fault ∈ layout.iterationFaults table id) :
    ∃ body iteration, fault = .nullableIteration body iteration := by
  unfold iterationFaults at found
  dsimp only at found
  repeat' split at found
  all_goals
    first
    | exact ⟨_, _, List.mem_singleton.mp found⟩
    | cases found

/-- At a rule only left recursion is found, with the witnesses of the rule. -/
theorem mem_recursionFaults_iff
    {layout : Layout}
    {relations : Relations}
    {rule : NodeId}
    {fault : Fault} :
    fault ∈ layout.recursionFaults relations rule ↔
      relations.callsClosure.Relates rule rule ∧
        fault =
          .leftRecursion (layout.simple rule)
            ((layout.recursionWitnesses relations rule).map
              layout.simple) := by
  unfold recursionFaults IndexRelation.Relates
  split <;> simp_all

end Layout

namespace Layout.Renumbers

variable
  {renumber : Equiv.Perm NodeId}
  {layout other : Layout}
  (renumbers : layout.Renumbers renumber other)
  (wellNumbered : layout.WellNumbered)
  (otherNumbered : other.WellNumbered)

include renumbers wellNumbered otherNumbered

/-- Corresponding iterations have the same faults. -/
theorem iterationFaults_eq
    (id : NodeId) :
    other.iterationFaults other.attrs (renumber id) =
      layout.iterationFaults layout.attrs id := by
  have sameAttrs := renumbers.attrs_eq wellNumbered otherNumbered
  unfold iterationFaults
  rw [renumbers.shape?_eq]
  cases layout.shape? id with
  | none =>
      rfl
  | some shape =>
      cases shape with
      | unary operator body =>
          cases operator <;>
            simp [Shape.renumbered, sameAttrs, renumbers.simple_eq,
              renumbers.source_eq]
      | _ =>
          rfl

/-- Rules reach themselves through corresponding nodes. -/
theorem recursionWitnesses_perm
    (rule : NodeId) :
    (other.recursionWitnesses (other.relations other.attrs)
        (renumber rule)).Perm
      ((layout.recursionWitnesses (layout.relations layout.attrs)
        rule).map renumber) := by
  have related := renumbers.relations wellNumbered otherNumbered
  unfold recursionWitnesses
  refine (renumbers.ids_perm.filter _).trans ?_
  rw [List.filter_map]
  simp only [Function.comp_def, related.calls.contains_eq,
    related.callsClosure.contains_eq]
  exact .refl _

/-- Left recursion that is found here is found there. -/
theorem exists_leftRecursion
    {rule : String}
    {via : List String}
    (found :
      .leftRecursion rule via ∈
        layout.faults layout.attrs (layout.relations layout.attrs)) :
    ∃ otherVia,
      .leftRecursion rule otherVia ∈
          other.faults other.attrs (other.relations other.attrs) ∧
        otherVia.Perm via := by
  have related := renumbers.relations wellNumbered otherNumbered
  rcases mem_faults_iff.mp found with ⟨id, _, atNode⟩ | ⟨top, isRule, atRule⟩
  · obtain ⟨_, _, same⟩ := exists_of_mem_iterationFaults atNode
    cases same
  · obtain ⟨recursive, same⟩ := mem_recursionFaults_iff.mp atRule
    cases same
    have witnesses :=
      (renumbers.recursionWitnesses_perm wellNumbered otherNumbered
        top).map other.simple
    rw [List.map_map] at witnesses
    have named :
        other.simple ∘ renumber = layout.simple :=
      funext renumbers.simple_eq
    rw [named] at witnesses
    refine ⟨_, mem_faults_iff.mpr (.inr ⟨renumber top, ?_, ?_⟩), witnesses⟩
    · exact
        renumbers.rules_perm.mem_iff.mpr (List.mem_map_of_mem isRule)
    · rw [mem_recursionFaults_iff, renumbers.simple_eq]
      exact ⟨related.callsClosure.relates_iff.mpr recursive, rfl⟩

/-- The faults are the same up to the order of witnesses. -/
theorem sameFaults :
    Fault.SameFaults
      (layout.faults layout.attrs (layout.relations layout.attrs))
      (other.faults other.attrs (other.relations other.attrs)) where
  iterations := by
    intro body iteration
    have atRule
        {some : Layout}
        {relations : Relations}
        {rule : NodeId} :
        .nullableIteration body iteration ∉
          some.recursionFaults relations rule := by
      intro found
      cases (mem_recursionFaults_iff.mp found).2
    have compound :=
      renumbers.compoundIds_perm wellNumbered otherNumbered
    simp only [mem_faults_iff, atRule, and_false, exists_false, or_false,
      compound.mem_iff, List.mem_map, exists_exists_and_eq_and,
      renumbers.iterationFaults_eq wellNumbered otherNumbered]
  recursions :=
    renumbers.exists_leftRecursion wellNumbered otherNumbered
  otherRecursions :=
    renumbers.symm.exists_leftRecursion otherNumbered wellNumbered

/-- What is noted of groups is the same at corresponding groups. -/
theorem groupNotes_eq
    (id : NodeId) :
    other.hidingNotes other.attrs (renumber id) =
        layout.hidingNotes layout.attrs id ∧
      other.endingNotes other.attrs (renumber id) =
        layout.endingNotes layout.attrs id := by
  have sameAttrs := renumbers.attrs_eq wellNumbered otherNumbered
  unfold hidingNotes endingNotes
  rw [renumbers.shape?_eq]
  cases layout.shape? id with
  | none =>
      exact ⟨rfl, rfl⟩
  | some shape =>
      cases shape with
      | group grouping parts =>
          cases grouping <;>
            simp [Shape.renumbered, ← List.map_dropLast,
              List.filter_map, Function.comp_def, sameAttrs,
              renumbers.simple_eq, renumbers.source_eq]
      | _ =>
          exact ⟨rfl, rfl⟩

/-- What is noted of single nodes is the same at corresponding nodes. -/
theorem nodeNotes_eq
    (id : NodeId) :
    other.failureNotes other.attrs (renumber id) =
        layout.failureNotes layout.attrs id ∧
      other.optionNotes other.attrs (renumber id) =
        layout.optionNotes layout.attrs id := by
  have sameAttrs := renumbers.attrs_eq wellNumbered otherNumbered
  unfold failureNotes optionNotes
  rw [renumbers.shape?_eq, sameAttrs, renumbers.simple_eq]
  refine ⟨rfl, ?_⟩
  cases layout.shape? id with
  | none =>
      rfl
  | some shape =>
      cases shape with
      | unary operator body =>
          cases operator <;>
            simp [Shape.renumbered, sameAttrs, renumbers.simple_eq,
              renumbers.source_eq]
      | _ =>
          rfl

/-- The same notes are made. -/
theorem mem_notes_iff
    (note : Note) :
    note ∈ other.notes other.attrs ↔
      note ∈ layout.notes layout.attrs := by
  have collected
      {found otherFound : NodeId → List Note}
      (same : ∀ id, otherFound (renumber id) = found id) :
      note ∈ (other.ids.flatMap otherFound).eraseDups ↔
        note ∈ (layout.ids.flatMap found).eraseDups := by
    simp only [List.mem_eraseDups, List.mem_flatMap,
      renumbers.ids_perm.mem_iff, List.mem_map,
      exists_exists_and_eq_and, same]
  have groups := renumbers.groupNotes_eq wellNumbered otherNumbered
  have nodes := renumbers.nodeNotes_eq wellNumbered otherNumbered
  simp only [notes, List.mem_append,
    collected fun id => (groups id).1, collected fun id => (groups id).2,
    collected fun id => (nodes id).1, collected fun id => (nodes id).2]

end Layout.Renumbers

end PegAudit
