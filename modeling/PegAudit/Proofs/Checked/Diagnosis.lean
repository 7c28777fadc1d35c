import PegAudit.Diagnosis.Checked
import PegAudit.Proofs.Checked.Relations

namespace PegAudit

/-!
# Looking for faults and notes is not refused

Every expression and every row that is looked at is there, and a group in a
grammar without defects has a last part.
-/

/-- Filtering a list goes through if each test does. -/
theorem filterM_eq_some
    {test? : α → Option Bool}
    {test : α → Bool}
    {elements : List α}
    (each : ∀ element ∈ elements, test? element = some (test element)) :
    elements.filterM test? = some (elements.filter test) := by
  have through
      (kept : List α) :
      elements.filterAuxM test? kept =
        some ((elements.filter test).reverse ++ kept) := by
    induction elements generalizing kept with
    | nil =>
        rfl
    | cons element rest inductionHypothesis =>
        have later :=
          inductionHypothesis fun other inRest =>
            each other (List.mem_cons_of_mem element inRest)
        simp only [List.filterAuxM, each element List.mem_cons_self,
          Option.bind_eq_bind, Option.bind_some, later]
        cases decision : test element <;> simp [decision]
  simp [List.filterM, through]

/-- A list with an element has a last one. -/
theorem beforeLast?_eq_some
    {elements : List α}
    (nonempty : elements ≠ []) :
    beforeLast? elements = some elements.dropLast := by
  cases elements with
  | nil =>
      exact (nonempty rfl).elim
  | cons element rest =>
      rfl

namespace Layout

/-- Every group of a layout has a part. -/
def GroupsHaveParts
    (layout : Layout) :
    Prop :=
  ∀ {id grouping parts},
    layout.shape? id = some (.group grouping parts) →
    parts ≠ []

namespace WellNumbered

variable {layout : Layout}

/-- Looking for faults is not refused. -/
theorem faults?_eq_some
    (wellNumbered : layout.WellNumbered)
    (table : AttrTable) :
    layout.faults? table (layout.relations table) =
      some (layout.faults table (layout.relations table)) := by
  let relations := layout.relations table
  have callsUniform := layout.uniform_relate (Shape.callees table)
  have iterations :
      layout.compoundIds.mapM (layout.iterationFaults? table) =
        some (layout.compoundIds.map (layout.iterationFaults table)) := by
    apply mapM_eq_some
    intro id compound
    rw [iterationFaults?, wellNumbered.inspect?_eq_some
      (wellNumbered.lt_of_mem_compoundIds compound)]
    rfl
  have closureRow
      {id : NodeId}
      (counted : id < layout.exprCount)
      (other : NodeId) :
      relations.callsClosure.contains? id other =
        some (relations.callsClosure.contains id other) := by
    apply callsUniform.closure.contains?_eq_some
    rwa [IndexRelation.size_closure]
  have isWitness
      {rule : NodeId}
      (ruleCounted : rule < layout.exprCount)
      {id : NodeId}
      (counted : id < layout.exprCount) :
      isWitness? relations rule id =
        some (relations.calls.contains rule id &&
          relations.callsClosure.contains id rule) := by
    have called :
        relations.calls.contains? rule id =
          some (relations.calls.contains rule id) :=
      callsUniform.contains?_eq_some ruleCounted id
    simp only [isWitness?, called, closureRow counted, Option.bind_eq_bind,
      Option.bind_some]
    cases relations.calls.contains rule id <;> rfl
  have recursions :
      layout.rules.mapM (layout.recursionFaults? relations) =
        some (layout.rules.map (layout.recursionFaults relations)) := by
    apply mapM_eq_some
    intro rule isRule
    have counted := wellNumbered.rules_lt isRule
    have witnesses :
        layout.ids.filterM (isWitness? relations rule) =
          some (layout.recursionWitnesses relations rule) :=
      filterM_eq_some fun id listed =>
        isWitness counted (List.mem_range.mp listed)
    have visited :
        layout.visit?
          (rule :: layout.recursionWitnesses relations rule) =
          some () := by
      apply wellNumbered.visit?_eq_some
      intro id member
      rcases List.mem_cons.mp member with rfl | isWitness
      · exact counted
      · exact List.mem_range.mp (List.mem_filter.mp isWitness).1
    simp only [recursionFaults?, closureRow counted, witnesses, visited,
      Option.bind_eq_bind, Option.bind_some, recursionFaults]
    split <;> rfl
  rw [faults?, iterations, recursions]
  simp only [faults, List.flatMap_def]
  rfl

/-- Looking for notes is not refused. -/
theorem notes?_eq_some
    (wellNumbered : layout.WellNumbered)
    (groupsHaveParts : layout.GroupsHaveParts)
    (table : AttrTable) :
    layout.notes? table = some (layout.notes table) := by
  have visited
      {id : NodeId}
      {grouping : Grouping}
      {parts : List NodeId}
      (counted : id < layout.exprCount)
      (found : layout.shape? id = some (.group grouping parts)) :
      layout.visit? (id :: parts.dropLast) = some () := by
    apply wellNumbered.visit?_eq_some
    intro other member
    rcases List.mem_cons.mp member with rfl | inParts
    · exact counted
    · exact wellNumbered.mentioned_lt found (parts.dropLast_subset inParts)
  have hidden :
      layout.ids.mapM (layout.hidingNotes? table) =
        some (layout.ids.map (layout.hidingNotes table)) := by
    apply mapM_eq_some
    intro id listed
    unfold hidingNotes?
    split
    case h_1 parts found =>
      simp only [beforeLast?_eq_some (groupsHaveParts found),
        visited (List.mem_range.mp listed) found, Option.bind_eq_bind,
        Option.bind_some, hidingNotes, found]
      rfl
    case h_2 isOther =>
      unfold hidingNotes
      split
      case h_1 parts found =>
        exact (isOther parts found).elim
      case h_2 =>
        rfl
  have ended :
      layout.ids.mapM (layout.endingNotes? table) =
        some (layout.ids.map (layout.endingNotes table)) := by
    apply mapM_eq_some
    intro id listed
    unfold endingNotes?
    split
    case h_1 parts found =>
      simp only [beforeLast?_eq_some (groupsHaveParts found),
        visited (List.mem_range.mp listed) found, Option.bind_eq_bind,
        Option.bind_some, endingNotes, found]
      rfl
    case h_2 isOther =>
      unfold endingNotes
      split
      case h_1 parts found =>
        exact (isOther parts found).elim
      case h_2 =>
        rfl
  have failed :
      layout.ids.mapM (layout.failureNotes? table) =
        some (layout.ids.map (layout.failureNotes table)) := by
    apply mapM_eq_some
    intro id listed
    have there : layout.visit? [id] = some () :=
      wellNumbered.visit?_eq_some (by simpa using List.mem_range.mp listed)
    rw [failureNotes?, there]
    rfl
  have optional :
      layout.ids.mapM (layout.optionNotes? table) =
        some (layout.ids.map (layout.optionNotes table)) := by
    apply mapM_eq_some
    intro id listed
    rw [optionNotes?,
      wellNumbered.inspect?_eq_some (List.mem_range.mp listed)]
    rfl
  rw [notes?, hidden, ended, failed, optional]
  simp only [notes, List.flatMap_def]
  rfl

end WellNumbered

end Layout

end PegAudit
