import PegAudit.Proofs.Attrs.Soundness
import PegAudit.Proofs.Layout.Arrangement
import PegAudit.Proofs.Relations.Calls

namespace PegAudit

/-!
# What a match starts without consuming

Matching an expression starts matching others where it stands.  The computed
calls have every such start but one kind: an element of a sequence behind one
that ends the input is not called.  Such an element is started without
consuming only where the input has ended.
-/

/-- Matching the first expression on an input starts matching the second one there. -/
inductive Starts
    (view : View ι) :
    ι →
    List Char →
    ι →
    Prop
  /-- A reference starts its rule. -/
  | reference
      {id rule : ι}
      {target : String}
      {input : List Char}
      (shape : view id = some (.reference target rule)) :
      Starts view id input rule
  /-- An operator starts its body. -/
  | body
      {id body : ι}
      {operator : Operator}
      {input : List Char}
      (shape : view id = some (.unary operator body)) :
      Starts view id input body
  /-- A choice starts an alternative when those before it have failed. -/
  | alternative
      {id part : ι}
      {earlier later : List ι}
      {input : List Char}
      (shape : view id = some (.group .choice (earlier ++ part :: later)))
      (failed : ∀ other ∈ earlier, Fails view other input) :
      Starts view id input part
  /-- A sequence starts an element where those before it ended, here without consuming. -/
  | element
      {id part : ι}
      {earlier later : List ι}
      {input : List Char}
      {trees : List (ParseTree ι)}
      (shape : view id = some (.group .sequence (earlier ++ part :: later)))
      (reached : Runs view (.inTurn earlier) input (.success trees input)) :
      Starts view id input part

/-- Elements that together consume nothing all succeed where the first starts. -/
theorem Runs.succeeds_of_inTurn
    {view : View ι}
    {elements : List ι}
    {input : List Char}
    {trees : List (ParseTree ι)}
    (run : Runs view (.inTurn elements) input (.success trees input)) :
    ∀ element ∈ elements, Succeeds view element input input := by
  induction elements generalizing trees with
  | nil =>
      simp
  | cons element others inductionHypothesis =>
      cases run with
      | inTurnAll first later =>
          have same :=
            first.rest_suffix.eq_of_length_le later.rest_suffix.length_le
          subst same
          exact
            List.forall_mem_cons.mpr
              ⟨⟨_, first⟩, inductionHypothesis later⟩

/--
An element that occurs once is reached without consuming exactly if all
elements before it are transparent.
-/
theorem AttrTable.mem_reachable_append_iff
    {table : AttrTable}
    {earlier later : List NodeId}
    {id : NodeId}
    (isNew : id ∉ earlier) :
    id ∈ table.reachable (earlier ++ id :: later) ↔
      ∀ other ∈ earlier, (table.of other).transparent = true := by
  have notEarlier : id ∉ table.reachable earlier :=
    mt mem_of_mem_upTo isNew
  rw [mem_reachable_append, or_iff_right notEarlier]
  exact and_iff_left mem_reachable_cons_self

namespace Layout

variable {layout : Layout}

/-- The second node is an element of the first behind one that ends the input. -/
def BehindEnd
    (layout : Layout)
    (id other : NodeId) :
    Prop :=
  ∃ earlier later,
    layout.shape? id = some (.group .sequence (earlier ++ other :: later)) ∧
      ∃ element ∈ earlier, (layout.attrs.of element).endsInput = true

/-- Only a sequence has elements behind others. -/
theorem BehindEnd.isSequence
    {id other : NodeId}
    {shape : Shape NodeId}
    (found : layout.shape? id = some shape)
    (behind : layout.BehindEnd id other) :
    ∃ parts, shape = .group .sequence parts := by
  obtain ⟨earlier, later, isSequence, _⟩ := behind
  exact ⟨_, Option.some.inj (found.symm.trans isSequence)⟩

/-- The computed calls of a node are those of its shape. -/
theorem WellNumbered.contains_calls_iff
    (wellNumbered : layout.WellNumbered)
    {id other : NodeId}
    {shape : Shape NodeId}
    (found : layout.shape? id = some shape) :
    (layout.relations layout.attrs).calls.contains id other = true ↔
      other ∈ shape.callees layout.attrs := by
  change (layout.relations layout.attrs).calls.Relates id other ↔ _
  rw [relates_calls wellNumbered]
  constructor
  · rintro ⟨same, alsoFound, called⟩
    rwa [Option.some.inj (found.symm.trans alsoFound)]
  · intro called
    exact ⟨shape, found, called⟩

/-- What anything but a sequence may begin with is called, and behind nothing. -/
theorem WellNumbered.contains_calls_iff_of_callee
    (wellNumbered : layout.WellNumbered)
    {id other : NodeId}
    {shape : Shape NodeId}
    (found : layout.shape? id = some shape)
    (notSequence : ∀ parts, shape ≠ .group .sequence parts)
    (called : other ∈ shape.callees layout.attrs)
    (input : List Char) :
    ((layout.relations layout.attrs).calls.contains id other = true ↔
        ¬ layout.BehindEnd id other) ∧
      (layout.BehindEnd id other → input = []) := by
  have notBehind : ¬ layout.BehindEnd id other := by
    intro behind
    obtain ⟨parts, isSequence⟩ := behind.isSequence found
    exact notSequence parts isSequence
  have isCalled := (wellNumbered.contains_calls_iff found).mpr called
  exact
    ⟨iff_of_true isCalled notBehind, fun behind => (notBehind behind).elim⟩

/--
An element that is reached without consuming is called exactly if no element
before it ends the input, and one that does leaves no input.
-/
theorem WellNumbered.contains_calls_iff_of_element
    (wellNumbered : layout.WellNumbered)
    {id other : NodeId}
    {earlier later : List NodeId}
    (found :
      layout.shape? id =
        some (.group .sequence (earlier ++ other :: later)))
    (distinct : (earlier ++ other :: later).Nodup)
    {input : List Char}
    {trees : List (ParseTree NodeId)}
    (reached :
      Runs layout.view (.inTurn earlier) input (.success trees input)) :
    ((layout.relations layout.attrs).calls.contains id other = true ↔
        ¬ layout.BehindEnd id other) ∧
      (layout.BehindEnd id other → input = []) := by
  have isNew : other ∉ earlier :=
    fun inEarlier =>
      (List.nodup_append.mp distinct).2.2 other inEarlier other
        List.mem_cons_self rfl
  have isLast : other ∉ later :=
    (List.nodup_cons.mp (List.nodup_append.mp distinct).2.1).1
  have behind_iff :
      layout.BehindEnd id other ↔
        ∃ element ∈ earlier,
          (layout.attrs.of element).endsInput = true := by
    constructor
    · rintro ⟨before, after, alsoFound, ends⟩
      have same := Option.some.inj (found.symm.trans alsoFound)
      simp only [Shape.group.injEq, true_and] at same
      rwa [((List.append_cons_inj_of_notMem isNew isLast).mp same).1]
    · exact fun ends => ⟨earlier, later, found, ends⟩
  have transparent_iff
      (element : NodeId)
      (member : element ∈ earlier) :
      (layout.attrs.of element).transparent = true ↔
        ¬ (layout.attrs.of element).endsInput = true := by
    obtain ⟨_, run⟩ := reached.succeeds_of_inTurn element member
    have nullable : (layout.attrs.of element).nullable = true :=
      (wellNumbered.permitted run).1 rfl
    simp [Attrs.transparent, nullable]
  constructor
  · rw [wellNumbered.contains_calls_iff found, Shape.callees,
      AttrTable.mem_reachable_append_iff isNew, behind_iff]
    constructor
    · rintro allTransparent ⟨element, member, ends⟩
      exact
        (transparent_iff element member).mp
          (allTransparent element member) ends
    · intro noEnd element member
      exact
        (transparent_iff element member).mpr fun ends =>
          noEnd ⟨element, member, ends⟩
  · intro behind
    obtain ⟨element, member, ends⟩ := behind_iff.mp behind
    exact
      layout.endsSoundly_attrs element ends
        (reached.succeeds_of_inTurn element member)

end Layout

namespace Grammar

/--
Whatever a match of an expression starts where it stands is called by the
expression, unless it is behind an element that ends the input; then it is not
called, and the input has ended.
-/
theorem contains_calls_iff_of_starts
    {grammar : Grammar}
    {layout : Layout}
    (laidOut : grammar.toLayout = .ok layout)
    {id other : NodeId}
    {input : List Char}
    (starts : Starts layout.view id input other) :
    ((layout.relations layout.attrs).calls.contains id other = true ↔
        ¬ layout.BehindEnd id other) ∧
      (layout.BehindEnd id other → input = []) := by
  obtain ⟨clean, rfl⟩ := toLayout_eq_ok_iff.mp laidOut
  have wellNumbered := wellNumbered_layOut clean
  cases starts with
  | reference shape =>
      exact wellNumbered.contains_calls_iff_of_callee shape (by simp)
        List.mem_cons_self input
  | body shape =>
      exact wellNumbered.contains_calls_iff_of_callee shape (by simp)
        List.mem_cons_self input
  | alternative shape failed =>
      exact wellNumbered.contains_calls_iff_of_callee shape (by simp)
        List.mem_append_cons_self input
  | element shape reached =>
      have distinct := nodup_children clean id
      rw [Layout.children, show grammar.layOut.shape? id = _ from shape]
        at distinct
      exact wellNumbered.contains_calls_iff_of_element shape distinct reached

/-- The end of the input, and then a letter. -/
def endThenLetter : Grammar :=
  { rules :=
      [{ name := "S"
         body :=
           .group .sequence [.terminal .endOfInput, .literal "a"] }] }

theorem toLayout_endThenLetter :
    endThenLetter.toLayout = .ok endThenLetter.layOut :=
  toLayout_eq_ok_iff.mpr ⟨by decide, rfl⟩

/-- Where the input has ended, the sequence starts the letter without consuming. -/
theorem starts_letter :
    Starts endThenLetter.layOut.view 2 [] 1 := by
  have parts :
      endThenLetter.layOut.view 2 =
        some (.group .sequence ([0] ++ 1 :: [])) :=
    rfl
  have ending :
      Runs endThenLetter.layOut.view (.inTurn [0]) []
        (.success [.leaf 0 []] []) :=
    .inTurnAll (.terminal rfl rfl (List.nil_append []).symm) .inTurnNone
  exact .element parts ending

/-- Both elements are started where the input has ended, but only the first is called. -/
theorem contains_calls_iff_of_starts_endThenLetter :
    endThenLetter.toLayout = .ok endThenLetter.layOut ∧
      Starts endThenLetter.layOut.view 2 [] 0 ∧
      (endThenLetter.layOut.relations
        endThenLetter.layOut.attrs).calls.contains 2 0 = true ∧
      Starts endThenLetter.layOut.view 2 [] 1 ∧
      ¬ (endThenLetter.layOut.relations
        endThenLetter.layOut.attrs).calls.contains 2 1 = true := by
  have first :
      endThenLetter.layOut.view 2 =
        some (.group .sequence ([] ++ 0 :: [1])) :=
    rfl
  have second :
      endThenLetter.layOut.shape? 2 =
        some (.group .sequence ([0] ++ 1 :: [])) :=
    rfl
  have firstStarts : Starts endThenLetter.layOut.view 2 [] 0 :=
    .element first .inTurnNone
  have secondBehind : endThenLetter.layOut.BehindEnd 2 1 :=
    ⟨[0], [], second, 0, List.mem_cons_self, by decide +kernel⟩
  have firstInFront : ¬ endThenLetter.layOut.BehindEnd 2 0 := by
    rintro ⟨earlier, later, found, element, member, ends⟩
    have same := Option.some.inj (second.symm.trans found)
    cases earlier with
    | nil =>
        cases member
    | cons other others =>
        simp only [Shape.group.injEq, true_and, List.nil_append,
          List.cons_append, List.cons.injEq] at same
        have again : 0 ∈ [1] := by
          rw [same.2]
          exact List.mem_append_cons_self
        simp at again
  exact
    ⟨toLayout_endThenLetter, firstStarts,
      (contains_calls_iff_of_starts toLayout_endThenLetter
        firstStarts).1.mpr firstInFront,
      starts_letter,
      fun isCalled =>
        (contains_calls_iff_of_starts toLayout_endThenLetter
          starts_letter).1.mp isCalled secondBehind⟩

/-- A letter that is started where the input has ended need not be called. -/
theorem not_contains_calls_of_starts :
    endThenLetter.toLayout = .ok endThenLetter.layOut ∧
      Starts endThenLetter.layOut.view 2 [] 1 ∧
      (endThenLetter.layOut.relations
        endThenLetter.layOut.attrs).calls.contains 2 1 = false :=
  ⟨toLayout_endThenLetter, starts_letter, by decide +kernel⟩

end Grammar

end PegAudit
