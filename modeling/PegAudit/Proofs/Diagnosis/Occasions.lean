import PegAudit.Diagnosis
import PegAudit.Proofs.Diagnosis.FirstSeen
import PegAudit.Proofs.Layout.WellNumbered

namespace PegAudit

/-!
# What calls for a note

A note is called for by an expression, or by one part of an expression, whose
attributes meet a condition.  The notes of a layout are exactly those that some
place calls for.  Equal notes are one, the kinds of notes come in a fixed order,
and the notes of a kind stand in the order in which their places come first.
-/

namespace Layout

section Occasions

variable
  (layout : Layout)
  (table : AttrTable)

/-- A part before the last of a group has a flag. -/
structure FlaggedAt
    (grouping : Grouping)
    (flag : Attrs → Bool)
    (id : NodeId)
    (earlier : List NodeId)
    (part : NodeId)
    (later : List NodeId) :
    Prop where
  counted : id ∈ layout.ids
  shape :
    layout.shape? id = some (.group grouping (earlier ++ part :: later))
  notLast : later ≠ []
  flagged : flag (table.of part) = true

/-- An alternative before the last of a choice never fails. -/
abbrev HidesAt :=
  layout.FlaggedAt table .choice fun attrs => !attrs.canFail

/-- An element before the last of a sequence ends the input. -/
abbrev EndsAt :=
  layout.FlaggedAt table .sequence Attrs.endsInput

/-- An expression always fails. -/
structure FailsAt
    (id : NodeId) :
    Prop where
  counted : id ∈ layout.ids
  flagged : (table.of id).alwaysFails = true

/-- The body of an option never fails. -/
structure RedundantAt
    (id body : NodeId) :
    Prop where
  counted : id ∈ layout.ids
  shape : layout.shape? id = some (.unary .optional body)
  flagged : (table.of body).canFail = false

/--
A place of the layout calls for a note: an expression and, for a note about one
of its parts, how many parts stand before that one.
-/
inductive Warrants :
    Note →
    NodeId →
    Nat →
    Prop
  | hidesAlternatives
      {id part : NodeId}
      {earlier later : List NodeId}
      (occasion : layout.HidesAt table id earlier part later) :
      Warrants
        (.hidesAlternatives (layout.simple part) (layout.simple id))
        id earlier.length
  | endsInput
      {id part : NodeId}
      {earlier later : List NodeId}
      (occasion : layout.EndsAt table id earlier part later) :
      Warrants
        (.endsInput (layout.simple part) (layout.source id))
        id earlier.length
  | alwaysFails
      {id : NodeId}
      (occasion : layout.FailsAt table id) :
      Warrants (.alwaysFails (layout.simple id)) id 0
  | redundantOption
      {id body : NodeId}
      (occasion : layout.RedundantAt table id body) :
      Warrants
        (.redundantOption (layout.simple body) (layout.source id))
        id 0

end Occasions

end Layout

/-- The place of the kind of a note among the kinds. -/
def Note.group :
    Note →
    Nat
  | .hidesAlternatives _ _ => 0
  | .endsInput _ _ => 1
  | .alwaysFails _ => 2
  | .redundantOption _ _ => 3

namespace Layout

/--
A note comes before another one of a later kind, and before one of its own kind
if some place that calls for it comes before each place that calls for the
other.
-/
def NotedBefore
    (layout : Layout)
    (table : AttrTable)
    (earlier later : Note) :
    Prop :=
  earlier.group < later.group ∨
    earlier.group = later.group ∧
      ∀ id position,
        layout.Warrants table later id position →
        ∃ smaller before,
          layout.Warrants table earlier smaller before ∧
            (smaller < id ∨ smaller = id ∧ before < position)

/-- The notes of one kind that are found at each node are the warranted ones. -/
structure Collects
    (layout : Layout)
    (table : AttrTable)
    (group : Nat)
    (found : NodeId → List Note) :
    Prop where
  sound :
    ∀ {id note},
      id ∈ layout.ids →
      note ∈ found id →
      note.group = group ∧ ∃ position, layout.Warrants table note id position
  complete :
    ∀ {id note position},
      layout.Warrants table note id position →
      note.group = group →
      id ∈ layout.ids ∧
        ∃ before after,
          found id = before ++ note :: after ∧
            ∀ earlier ∈ before,
              ∃ smaller < position,
                layout.Warrants table earlier id smaller

section Collecting

variable
  {layout : Layout}
  {table : AttrTable}
  {id : NodeId}

/-- The flagged parts before the last are those that stand so in the group. -/
theorem exists_flaggedAt_iff
    {grouping : Grouping}
    {flag : Attrs → Bool}
    {parts : List NodeId}
    (counted : id ∈ layout.ids)
    (shape : layout.shape? id = some (.group grouping parts))
    {part : NodeId} :
    part ∈ parts.dropLast.filter (fun part => flag (table.of part)) ↔
      ∃ earlier later,
        layout.FlaggedAt table grouping flag id earlier part later := by
  rw [List.mem_filter]
  constructor
  · rintro ⟨member, flagged⟩
    obtain ⟨earlier, between, split⟩ := List.mem_iff_append.mp member
    have nonempty : parts ≠ [] := by
      rintro rfl
      cases member
    have whole :
        parts = earlier ++ part :: (between ++ [parts.getLast nonempty]) :=
      calc
        parts = parts.dropLast ++ [parts.getLast nonempty] :=
          (List.dropLast_append_getLast nonempty).symm
        _ = earlier ++ part :: (between ++ [parts.getLast nonempty]) := by
          rw [split, List.append_assoc, List.cons_append]
    exact
      ⟨earlier, between ++ [parts.getLast nonempty], counted,
        by rwa [← whole], by simp, flagged⟩
  · rintro ⟨earlier, later, occasion⟩
    have same := shape.symm.trans occasion.shape
    cases same
    rw [List.dropLast_append_of_ne_nil (by simp),
      List.dropLast_cons_of_ne_nil occasion.notLast]
    exact ⟨by simp, occasion.flagged⟩

/-- The flagged parts before a flagged one are those listed before it. -/
theorem FlaggedAt.filter_dropLast
    {grouping : Grouping}
    {flag : Attrs → Bool}
    {earlier later : List NodeId}
    {part : NodeId}
    (occasion :
      layout.FlaggedAt table grouping flag id earlier part later) :
    (earlier ++ part :: later).dropLast.filter
        (fun part => flag (table.of part)) =
      earlier.filter (fun part => flag (table.of part)) ++
        part :: later.dropLast.filter
          (fun part => flag (table.of part)) := by
  rw [List.dropLast_append_of_ne_nil (by simp),
    List.dropLast_cons_of_ne_nil occasion.notLast, List.filter_append,
    List.filter_cons_of_pos (by exact occasion.flagged)]

/-- A flagged part among the earlier ones is flagged at its own place. -/
theorem FlaggedAt.exists_earlier
    {grouping : Grouping}
    {flag : Attrs → Bool}
    {earlier later : List NodeId}
    {part other : NodeId}
    (occasion :
      layout.FlaggedAt table grouping flag id earlier part later)
    (listed :
      other ∈ earlier.filter (fun part => flag (table.of part))) :
    ∃ before after,
      before.length < earlier.length ∧
        layout.FlaggedAt table grouping flag id before other after := by
  obtain ⟨member, flagged⟩ := List.mem_filter.mp listed
  obtain ⟨before, between, rfl⟩ := List.mem_iff_append.mp member
  refine
    ⟨before, between ++ part :: later, by simp, occasion.counted, ?_, by simp,
      flagged⟩
  rw [occasion.shape, List.append_assoc, List.cons_append]

/-- The notes about the flagged parts of groups are collected. -/
theorem Collects.of_flagged
    (grouping : Grouping)
    (flag : Attrs → Bool)
    (note : NodeId → NodeId → Note)
    {group : Nat}
    {found : NodeId → List Note}
    (sameGroup : ∀ part id, (note part id).group = group)
    (warranted :
      ∀ {id part earlier later},
        layout.FlaggedAt table grouping flag id earlier part later →
        layout.Warrants table (note part id) id earlier.length)
    (occasions :
      ∀ {other id position},
        layout.Warrants table other id position →
        other.group = group →
        ∃ earlier part later,
          other = note part id ∧
            position = earlier.length ∧
            layout.FlaggedAt table grouping flag id earlier part later)
    (inGroup :
      ∀ {id parts},
        layout.shape? id = some (.group grouping parts) →
        found id =
          (parts.dropLast.filter fun part => flag (table.of part)).map
            fun part => note part id)
    (elsewhere :
      ∀ {id},
        (∀ parts, layout.shape? id ≠ some (.group grouping parts)) →
        found id = []) :
    layout.Collects table group found := by
  refine { sound := ?_, complete := ?_ }
  · intro id other counted member
    by_cases isGroup :
        ∃ parts, layout.shape? id = some (.group grouping parts)
    · obtain ⟨parts, shape⟩ := isGroup
      rw [inGroup shape] at member
      obtain ⟨part, listed, rfl⟩ := List.mem_map.mp member
      obtain ⟨earlier, later, occasion⟩ :=
        (exists_flaggedAt_iff counted shape).mp listed
      exact ⟨sameGroup part id, earlier.length, warranted occasion⟩
    · rw [elsewhere (not_exists.mp isGroup)] at member
      cases member
  · intro id other position isWarranted isOfGroup
    obtain ⟨earlier, part, later, rfl, rfl, occasion⟩ :=
      occasions isWarranted isOfGroup
    refine
      ⟨occasion.counted, _, _,
        by rw [inGroup occasion.shape, occasion.filter_dropLast,
          List.map_append, List.map_cons], ?_⟩
    intro other member
    obtain ⟨part, listed, rfl⟩ := List.mem_map.mp member
    obtain ⟨before, after, smaller, earlierOccasion⟩ :=
      occasion.exists_earlier listed
    exact ⟨before.length, smaller, warranted earlierOccasion⟩

/-- Notes about hidden alternatives are collected. -/
theorem collects_hidingNotes :
    layout.Collects table 0 (layout.hidingNotes table) := by
  apply Collects.of_flagged .choice (fun attrs => !attrs.canFail)
    (fun part id =>
      .hidesAlternatives (layout.simple part) (layout.simple id))
    (fun _ _ => rfl) Warrants.hidesAlternatives
  · rintro other id position (occasion | _ | _ | _) isOfGroup
    · exact ⟨_, _, _, rfl, rfl, occasion⟩
    all_goals cases isOfGroup
  · intro id parts shape
    rw [hidingNotes, shape]
  · intro id isOther
    unfold hidingNotes
    split
    case h_1 parts shape =>
      exact (isOther parts shape).elim
    case h_2 =>
      rfl

/-- Notes about elements that end the input are collected. -/
theorem collects_endingNotes :
    layout.Collects table 1 (layout.endingNotes table) := by
  apply Collects.of_flagged .sequence Attrs.endsInput
    (fun part id => .endsInput (layout.simple part) (layout.source id))
    (fun _ _ => rfl) Warrants.endsInput
  · rintro other id position (_ | occasion | _ | _) isOfGroup
    · cases isOfGroup
    · exact ⟨_, _, _, rfl, rfl, occasion⟩
    all_goals cases isOfGroup
  · intro id parts shape
    rw [endingNotes, shape]
  · intro id isOther
    unfold endingNotes
    split
    case h_1 parts shape =>
      exact (isOther parts shape).elim
    case h_2 =>
      rfl

/-- Notes about expressions that always fail are collected. -/
theorem collects_failureNotes :
    layout.Collects table 2 (layout.failureNotes table) := by
  refine { sound := ?_, complete := ?_ }
  · intro id note counted member
    unfold failureNotes at member
    split at member
    case isTrue flagged =>
      cases List.mem_singleton.mp member
      exact ⟨rfl, 0, .alwaysFails ⟨counted, flagged⟩⟩
    case isFalse =>
      cases member
  · rintro id note position (_ | _ | occasion | _) isOfGroup
    case alwaysFails =>
      refine ⟨occasion.counted, [], [], ?_, by simp⟩
      rw [failureNotes, if_pos occasion.flagged]
      rfl
    all_goals cases isOfGroup

/-- Notes about options that are not needed are collected. -/
theorem collects_optionNotes :
    layout.Collects table 3 (layout.optionNotes table) := by
  refine { sound := ?_, complete := ?_ }
  · intro id note counted member
    unfold optionNotes at member
    split at member
    case h_1 body shape =>
      split at member
      case isTrue =>
        cases member
      case isFalse flagged =>
        cases List.mem_singleton.mp member
        exact
          ⟨rfl, 0,
            .redundantOption ⟨counted, shape, by simpa using flagged⟩⟩
    case h_2 =>
      cases member
  · rintro id note position (_ | _ | _ | occasion) isOfGroup
    case redundantOption =>
      refine ⟨occasion.counted, [], [], ?_, by simp⟩
      rw [optionNotes, occasion.shape]
      simp [occasion.flagged]
    all_goals cases isOfGroup

end Collecting

section Kinds

variable
  {layout : Layout}
  {table : AttrTable}
  {group : Nat}
  {found : NodeId → List Note}

/-- The notes of a kind are those of the kind that some place calls for. -/
theorem Collects.mem_iff
    (collects : layout.Collects table group found)
    {note : Note} :
    note ∈ (layout.ids.flatMap found).eraseDups ↔
      note.group = group ∧
        ∃ id position, layout.Warrants table note id position := by
  rw [List.mem_eraseDups, List.mem_flatMap]
  constructor
  · rintro ⟨id, counted, member⟩
    obtain ⟨isOfGroup, position, warranted⟩ := collects.sound counted member
    exact ⟨isOfGroup, id, position, warranted⟩
  · rintro ⟨isOfGroup, id, position, warranted⟩
    obtain ⟨counted, before, after, split, _⟩ :=
      collects.complete warranted isOfGroup
    exact ⟨id, counted, by simp [split]⟩

/-- The notes of a kind stand in the order of the places that call for them. -/
theorem Collects.ordered
    (collects : layout.Collects table group found) :
    (layout.ids.flatMap found).eraseDups.Pairwise
      (layout.NotedBefore table) := by
  apply (pairwise_eraseDups_flatMap_range layout.exprCount found).imp_of_mem
  intro earlier later earlierMember laterMember precedes
  have earlierGroup := (collects.mem_iff.mp earlierMember).1
  have laterGroup := (collects.mem_iff.mp laterMember).1
  refine .inr ⟨earlierGroup.trans laterGroup.symm, ?_⟩
  intro id position warranted
  obtain ⟨counted, before, after, split, inFront⟩ :=
    collects.complete warranted laterGroup
  rcases precedes (List.mem_range.mp counted) split with
    here | ⟨smaller, isSmaller, member⟩
  · obtain ⟨place, isBefore, called⟩ := inFront earlier here
    exact ⟨id, place, called, .inr ⟨rfl, isBefore⟩⟩
  · have smallerCounted : smaller ∈ layout.ids :=
      List.mem_range.mpr (isSmaller.trans (List.mem_range.mp counted))
    obtain ⟨_, place, called⟩ := collects.sound smallerCounted member
    exact ⟨smaller, place, called, .inl isSmaller⟩

/-- A note of one kind comes before all notes of later kinds. -/
theorem Collects.before
    {laterGroup : Nat}
    {laterFound : NodeId → List Note}
    (collects : layout.Collects table group found)
    (laterCollects : layout.Collects table laterGroup laterFound)
    (isLater : group < laterGroup)
    {earlier later : Note}
    (earlierMember : earlier ∈ (layout.ids.flatMap found).eraseDups)
    (laterMember : later ∈ (layout.ids.flatMap laterFound).eraseDups) :
    layout.NotedBefore table earlier later := by
  left
  rwa [(collects.mem_iff.mp earlierMember).1,
    (laterCollects.mem_iff.mp laterMember).1]

end Kinds

section All

variable
  (layout : Layout)
  (table : AttrTable)

/-- The notes are those that some place calls for. -/
theorem mem_notes_iff
    (note : Note) :
    note ∈ layout.notes table ↔
      ∃ id position, layout.Warrants table note id position := by
  simp only [notes, List.mem_append, collects_hidingNotes.mem_iff,
    collects_endingNotes.mem_iff, collects_failureNotes.mem_iff,
    collects_optionNotes.mem_iff]
  constructor
  · rintro (((⟨_, place⟩ | ⟨_, place⟩) | ⟨_, place⟩) | ⟨_, place⟩) <;>
      exact place
  · intro place
    cases note with
    | hidesAlternatives => exact .inl (.inl (.inl ⟨rfl, place⟩))
    | endsInput => exact .inl (.inl (.inr ⟨rfl, place⟩))
    | alwaysFails => exact .inl (.inr ⟨rfl, place⟩)
    | redundantOption => exact .inr ⟨rfl, place⟩

/-- Kinds come in their order, and notes of a kind in that of their places. -/
theorem notes_ordered :
    (layout.notes table).Pairwise (layout.NotedBefore table) := by
  simp only [notes, List.pairwise_append, List.mem_append]
  have hidden : layout.Collects table 0 (layout.hidingNotes table) :=
    collects_hidingNotes
  have ended : layout.Collects table 1 (layout.endingNotes table) :=
    collects_endingNotes
  have failed : layout.Collects table 2 (layout.failureNotes table) :=
    collects_failureNotes
  have optional : layout.Collects table 3 (layout.optionNotes table) :=
    collects_optionNotes
  refine
    ⟨⟨⟨hidden.ordered, ended.ordered, ?_⟩, failed.ordered, ?_⟩,
      optional.ordered, ?_⟩
  · intro earlier inHiding later inEnding
    exact hidden.before ended (by decide) inHiding inEnding
  · rintro earlier (inHiding | inEnding) later inFailure
    · exact hidden.before failed (by decide) inHiding inFailure
    · exact ended.before failed (by decide) inEnding inFailure
  · rintro earlier ((inHiding | inEnding) | inFailure) later inOption
    · exact hidden.before optional (by decide) inHiding inOption
    · exact ended.before optional (by decide) inEnding inOption
    · exact failed.before optional (by decide) inFailure inOption

/-- No note is repeated. -/
theorem nodup_notes :
    (layout.notes table).Nodup := by
  have hidden : layout.Collects table 0 (layout.hidingNotes table) :=
    collects_hidingNotes
  have ended : layout.Collects table 1 (layout.endingNotes table) :=
    collects_endingNotes
  have failed : layout.Collects table 2 (layout.failureNotes table) :=
    collects_failureNotes
  have optional : layout.Collects table 3 (layout.optionNotes table) :=
    collects_optionNotes
  simp only [notes, List.nodup_append, nodup_eraseDups, true_and,
    List.mem_append, hidden.mem_iff, ended.mem_iff, failed.mem_iff,
    optional.mem_iff]
  refine ⟨⟨?_, ?_⟩, ?_⟩
  all_goals
    rintro earlier earlierKind later laterKind rfl
    omega

end All

section Congruence

variable
  {layout other : Layout}
  {table otherTable : AttrTable}

/-- Layouts with the same expressions have the same notes. -/
theorem WellNumbered.notes_congr
    (wellNumbered : layout.WellNumbered)
    (sameCount : other.exprCount = layout.exprCount)
    (sameNode :
      ∀ {id}, id < layout.exprCount → other.node? id = layout.node? id)
    (sameAttrs :
      ∀ {id}, id < layout.exprCount → otherTable.of id = table.of id) :
    other.notes otherTable = layout.notes table := by
  have sameShape
      {id : NodeId}
      (counted : id < layout.exprCount) :
      other.shape? id = layout.shape? id := by
    rw [shape?, sameNode counted, shape?]
  have sameSimple
      {id : NodeId}
      (counted : id < layout.exprCount) :
      other.simple id = layout.simple id := by
    rw [simple, sameNode counted, simple]
  have sameSource
      {id : NodeId}
      (counted : id < layout.exprCount) :
      other.source id = layout.source id := by
    rw [source, sameNode counted, source]
  have ofParts
      {id : NodeId}
      {grouping : Grouping}
      {parts : List NodeId}
      (shape : layout.shape? id = some (.group grouping parts))
      (flag : Attrs → Bool)
      (note : NodeId → Note)
      (otherNote : NodeId → Note)
      (sameNote :
        ∀ {part}, part < layout.exprCount → otherNote part = note part) :
      (parts.dropLast.filter fun part => flag (otherTable.of part)).map
          otherNote =
        (parts.dropLast.filter fun part => flag (table.of part)).map
          note := by
    have counted
        {part : NodeId}
        (listed : part ∈ parts.dropLast) :
        part < layout.exprCount :=
      wellNumbered.mentioned_lt shape (parts.dropLast_subset listed)
    rw [List.filter_congr fun part listed =>
      congrArg flag (sameAttrs (counted listed))]
    apply List.map_congr_left
    intro part listed
    exact sameNote (counted (List.mem_of_mem_filter listed))
  have sameFound
      {found otherFound : NodeId → List Note}
      (same :
        ∀ {id}, id < layout.exprCount → otherFound id = found id) :
      other.ids.flatMap otherFound = layout.ids.flatMap found := by
    rw [ids, sameCount, ids]
    apply List.flatMap_congr
    intro id counted
    exact same (List.mem_range.mp counted)
  have hidden :
      other.ids.flatMap (other.hidingNotes otherTable) =
        layout.ids.flatMap (layout.hidingNotes table) := by
    apply sameFound
    intro id counted
    unfold hidingNotes
    rw [sameShape counted, sameSimple counted]
    split
    case h_1 parts shape =>
      apply ofParts shape fun attrs => !attrs.canFail
      intro part partCounted
      rw [sameSimple partCounted]
    case h_2 =>
      rfl
  have ended :
      other.ids.flatMap (other.endingNotes otherTable) =
        layout.ids.flatMap (layout.endingNotes table) := by
    apply sameFound
    intro id counted
    unfold endingNotes
    rw [sameShape counted, sameSource counted]
    split
    case h_1 parts shape =>
      apply ofParts shape Attrs.endsInput
      intro part partCounted
      rw [sameSimple partCounted]
    case h_2 =>
      rfl
  have failed :
      other.ids.flatMap (other.failureNotes otherTable) =
        layout.ids.flatMap (layout.failureNotes table) := by
    apply sameFound
    intro id counted
    rw [failureNotes, sameAttrs counted, sameSimple counted, failureNotes]
  have optional :
      other.ids.flatMap (other.optionNotes otherTable) =
        layout.ids.flatMap (layout.optionNotes table) := by
    apply sameFound
    intro id counted
    unfold optionNotes
    rw [sameShape counted, sameSource counted]
    split
    case h_1 body shape =>
      have bodyCounted : body < layout.exprCount :=
        wellNumbered.mentioned_lt shape (by simp [Shape.mentioned])
      rw [sameAttrs bodyCounted, sameSimple bodyCounted]
    case h_2 =>
      rfl
  rw [notes, hidden, ended, failed, optional, notes]

end Congruence

end Layout

end PegAudit
