import PegAudit.Proofs.Attrs.Closed
import PegAudit.Proofs.Matching.Runs

namespace PegAudit

/-!
# The attributes are sound

An outcome of a match is one that the attributes of the expression permit.  The
three flags that say what may happen hold because the table is closed, by
induction over the run.  That a flagged expression succeeds only where the
input ends holds because the table was reached from below: each sweep switches
the flag on only for a reason that is already sound, so this induction is over
the sweeps.
-/

/-- The attributes of an attempt, given those of the nodes. -/
def Attempt.attrs
    (known : ι → Attrs) :
    Attempt ι →
    Attrs
  | .node id => known id
  | .anyOf alternatives => Grouping.choice.attrs (alternatives.map known)
  | .inTurn elements => Grouping.sequence.attrs (elements.map known)
  | .rounds body => Operator.zeroOrMore.attrs (known body)

/-- The outcomes on an input that attributes permit. -/
def Outcome.Permitted
    (attrs : Attrs)
    (input : List Char) :
    Outcome ι →
    Prop
  | .success _ rest =>
      (rest = input → attrs.nullable = true) ∧
        (rest ≠ input → attrs.advances = true)
  | .failure =>
      attrs.canFail = true

/-- More flags permit more. -/
theorem Outcome.Permitted.mono
    {attrs wider : Attrs}
    {input : List Char}
    {outcome : Outcome ι}
    (permitted : outcome.Permitted attrs input)
    (included : attrs.included wider) :
    outcome.Permitted wider input := by
  cases outcome with
  | success trees rest =>
      exact
        ⟨fun same => included.1 (permitted.1 same),
          fun moved => included.2.1 (permitted.2 moved)⟩
  | failure =>
      exact included.2.2.1 permitted

/--
Two matches one after the other consume nothing only if neither does, and
something only if one of them does.
-/
theorem Outcome.Permitted.andThen
    {first later : Attrs}
    {input middle rest : List Char}
    {trees laterTrees : List (ParseTree ι)}
    (firstPermitted :
      (Outcome.success trees middle).Permitted first input)
    (laterPermitted :
      (Outcome.success laterTrees rest).Permitted later middle)
    (firstSuffix : middle <:+ input)
    (laterSuffix : rest <:+ middle) :
    (rest = input → first.nullable = true ∧ later.nullable = true) ∧
      (rest ≠ input → first.advances = true ∨ later.advances = true) := by
  constructor
  · rintro rfl
    have same : middle = rest :=
      firstSuffix.eq_of_length_le laterSuffix.length_le
    exact ⟨firstPermitted.1 same, laterPermitted.1 same.symm⟩
  · intro moved
    by_cases firstMoved : middle = input
    · subst middle
      exact .inr (laterPermitted.2 moved)
    · exact .inl (firstPermitted.2 firstMoved)

namespace Terminal

/-- The end of the input leaves nothing. -/
theorem remainder?_endOfInput
    {input rest : List Char}
    (matched : Terminal.endOfInput.remainder? input = some rest) :
    input = [] ∧ rest = [] := by
  cases input with
  | nil =>
      simpa [remainder?, eq_comm] using matched
  | cons character others =>
      cases matched

/-- Every other terminal consumes, unless it is an empty literal. -/
theorem remainder?_length_lt
    {item : Terminal}
    {input rest : List Char}
    (consuming : item ≠ .endOfInput)
    (nonempty : item ≠ .literal "")
    (matched : item.remainder? input = some rest) :
    rest.length < input.length := by
  cases item with
  | literal text =>
      have shape := stripFront_eq_some_iff.mp matched
      have hasText : 0 < text.toList.length := by
        apply List.length_pos_iff.mpr
        intro noText
        apply nonempty
        rw [String.toList_eq_nil_iff.mp noText]
      simp only [shape, List.length_append]
      omega
  | endOfInput =>
      exact (consuming rfl).elim
  | _ =>
      cases input with
      | nil =>
          cases matched
      | cons character others =>
          simp only [remainder?] at matched
          split at matched
          · cases matched
            exact Nat.lt_succ_self _
          · cases matched

/-- A match of a terminal is one its attributes permit. -/
theorem permitted
    {item : Terminal}
    (nonempty : item ≠ .literal "")
    {input rest : List Char}
    (matched : item.remainder? input = some rest)
    (trees : List (ParseTree ι)) :
    (Outcome.success trees rest).Permitted item.attrs input := by
  by_cases isEnd : item = .endOfInput
  · subst item
    exact ⟨fun _ => rfl, fun _ => rfl⟩
  · have consumes := remainder?_length_lt isEnd nonempty matched
    refine ⟨?_, ?_⟩
    · rintro rfl
      exact (Nat.lt_irrefl _ consumes).elim
    · intro _
      cases item <;> rfl

/-- Every terminal may fail. -/
@[simp] theorem canFail_attrs
    (item : Terminal) :
    item.attrs.canFail = true := by
  cases item <;> rfl

end Terminal

namespace Runs

/-- Under closed attributes every run ends in a permitted outcome. -/
theorem permitted
    {view : View ι}
    {known : ι → Attrs}
    (closed :
      ∀ {id shape},
        view id = some shape →
        (shape.attrs known).included (known id))
    (nonempty :
      ∀ id, view id ≠ some (.terminal (.literal "")))
    {attempt : Attempt ι}
    {input : List Char}
    {outcome : Outcome ι}
    (run : Runs view attempt input outcome) :
    outcome.Permitted (attempt.attrs known) input := by
  induction run with
  | @terminal id item text input rest shape matched consumed =>
      have notEmpty : item ≠ .literal "" := by
        rintro rfl
        exact nonempty id shape
      exact (Terminal.permitted notEmpty matched _).mono (closed shape)
  | @terminalFails id item input shape unmatched =>
      exact Outcome.Permitted.mono item.canFail_attrs (closed shape)
  | reference shape body bodyPermitted =>
      exact bodyPermitted.mono (closed shape)
  | referenceFails shape body bodyPermitted =>
      exact bodyPermitted.mono (closed shape)
  | andPredicate shape ahead bodyPermitted =>
      refine Outcome.Permitted.mono ?_ (closed shape)
      simp only [Outcome.Permitted, Attempt.attrs, Shape.attrs,
        Operator.attrs] at *
      grind
  | andPredicateFails shape ahead bodyPermitted =>
      refine Outcome.Permitted.mono ?_ (closed shape)
      exact bodyPermitted
  | notPredicate shape ahead bodyPermitted =>
      refine Outcome.Permitted.mono ?_ (closed shape)
      exact ⟨fun _ => bodyPermitted, fun moved => (moved rfl).elim⟩
  | notPredicateFails shape ahead bodyPermitted =>
      refine Outcome.Permitted.mono ?_ (closed shape)
      simp only [Outcome.Permitted, Attempt.attrs, Shape.attrs,
        Operator.attrs] at *
      grind
  | oneOrMore shape once more oncePermitted morePermitted =>
      refine Outcome.Permitted.mono ?_ (closed shape)
      have both :=
        oncePermitted.andThen morePermitted once.rest_suffix
          more.rest_suffix
      exact
        ⟨fun same => (both.1 same).1,
          fun moved => (both.2 moved).elim id id⟩
  | oneOrMoreFails shape once bodyPermitted =>
      exact Outcome.Permitted.mono bodyPermitted (closed shape)
  | zeroOrMore shape more roundsPermitted =>
      exact roundsPermitted.mono (closed shape)
  | optional shape once bodyPermitted =>
      refine Outcome.Permitted.mono ?_ (closed shape)
      simp only [Outcome.Permitted, Attempt.attrs, Shape.attrs,
        Operator.attrs] at *
      grind
  | optionalSkips shape once bodyPermitted =>
      refine Outcome.Permitted.mono ?_ (closed shape)
      simp only [Outcome.Permitted, Attempt.attrs, Shape.attrs,
        Operator.attrs] at *
      grind
  | choice shape chosen chosenPermitted =>
      exact chosenPermitted.mono (closed shape)
  | choiceFails shape rejected rejectedPermitted =>
      exact Outcome.Permitted.mono rejectedPermitted (closed shape)
  | sequence shape all allPermitted =>
      exact allPermitted.mono (closed shape)
  | sequenceFails shape stopped stoppedPermitted =>
      exact Outcome.Permitted.mono stoppedPermitted (closed shape)
  | remainingInput shape =>
      refine Outcome.Permitted.mono ?_ (closed shape)
      exact ⟨fun _ => rfl, fun _ => rfl⟩
  | anyOfNone =>
      rfl
  | anyOfFirst first firstPermitted =>
      simp only [Outcome.Permitted, Attempt.attrs, Grouping.attrs,
        List.map_cons, List.any_cons, Bool.or_eq_true] at *
      exact
        ⟨fun same => .inl (firstPermitted.1 same),
          fun moved => .inl (firstPermitted.2 moved)⟩
  | @anyOfLater id others input outcome first later firstPermitted
      laterPermitted =>
      cases outcome with
      | success trees rest =>
          simp only [Outcome.Permitted, Attempt.attrs, Grouping.attrs,
            List.map_cons, List.any_cons, Bool.or_eq_true] at *
          exact
            ⟨fun same => .inr (laterPermitted.1 same),
              fun moved => .inr (laterPermitted.2 moved)⟩
      | failure =>
          simp only [Outcome.Permitted, Attempt.attrs, Grouping.attrs,
            List.map_cons, List.all_cons, Bool.and_eq_true] at *
          exact ⟨firstPermitted, laterPermitted⟩
  | inTurnNone =>
      exact ⟨fun _ => rfl, fun moved => (moved rfl).elim⟩
  | inTurnAll first later firstPermitted laterPermitted =>
      have both :=
        firstPermitted.andThen laterPermitted first.rest_suffix
          later.rest_suffix
      simpa [Outcome.Permitted, Attempt.attrs, Grouping.attrs] using both
  | inTurnFirstFails first firstPermitted =>
      simp only [Outcome.Permitted, Attempt.attrs, Grouping.attrs,
        List.map_cons, List.any_cons, Bool.or_eq_true] at *
      exact .inl firstPermitted
  | inTurnLaterFails first later firstPermitted laterPermitted =>
      simp only [Outcome.Permitted, Attempt.attrs, Grouping.attrs,
        List.map_cons, List.any_cons, Bool.or_eq_true] at *
      exact .inr laterPermitted
  | roundsStop last lastPermitted =>
      simp only [Outcome.Permitted, Attempt.attrs, Operator.attrs] at *
      simp [lastPermitted]
  | roundsMore once more oncePermitted morePermitted =>
      have both :=
        oncePermitted.andThen morePermitted once.rest_suffix
          more.rest_suffix
      exact
        ⟨fun same => (both.1 same).2,
          fun moved => (both.2 moved).elim id id⟩

/-- A choice succeeds by one of its alternatives. -/
theorem exists_chosen
    {view : View ι}
    {alternatives : List ι}
    {input rest : List Char}
    {trees : List (ParseTree ι)}
    (run : Runs view (.anyOf alternatives) input (.success trees rest)) :
    ∃ chosen ∈ alternatives, Succeeds view chosen input rest := by
  induction alternatives with
  | nil =>
      cases run
  | cons alternative others inductionHypothesis =>
      cases run with
      | anyOfFirst first =>
          exact ⟨alternative, List.mem_cons_self, trees, first⟩
      | anyOfLater first later =>
          obtain ⟨chosen, member, succeeds⟩ := inductionHypothesis later
          exact ⟨chosen, List.mem_cons_of_mem alternative member, succeeds⟩

end Runs

/-- The expression succeeds only where the input ends. -/
def EndsInput
    (view : View ι)
    (id : ι) :
    Prop :=
  ∀ ⦃input rest⦄, Succeeds view id input rest → rest = []

/-- Elements in turn end the input if one of them does. -/
theorem Runs.rest_eq_nil_of_endsInput
    {view : View ι}
    {elements : List ι}
    {input rest : List Char}
    {trees : List (ParseTree ι)}
    (run : Runs view (.inTurn elements) input (.success trees rest))
    {ending : ι}
    (member : ending ∈ elements)
    (ends : EndsInput view ending) :
    rest = [] := by
  induction elements generalizing input trees with
  | nil =>
      cases member
  | cons element others inductionHypothesis =>
      cases run with
      | inTurnAll first later =>
          rcases List.mem_cons.mp member with rfl | inOthers
          · have suffix := later.rest_suffix
            rw [ends ⟨_, first⟩] at suffix
            exact List.suffix_nil.mp suffix
          · exact inductionHypothesis later inOthers

/-- What ends the input by its parts ends the input. -/
theorem EndsInput.of_attrs
    {view : View ι}
    {known : ι → Attrs}
    (sound : ∀ id, (known id).endsInput = true → EndsInput view id)
    {id : ι}
    {shape : Shape ι}
    (found : view id = some shape)
    (flagged : (shape.attrs known).endsInput = true) :
    EndsInput view id := by
  intro input rest succeeds
  obtain ⟨trees, run⟩ := succeeds
  cases run with
  | @terminal _ item _ _ _ here matched consumed =>
      cases found.symm.trans here
      cases item with
      | endOfInput =>
          exact (Terminal.remainder?_endOfInput matched).2
      | _ =>
          cases flagged
  | reference here body =>
      cases found.symm.trans here
      exact sound _ flagged ⟨_, body⟩
  | andPredicate here ahead =>
      cases found.symm.trans here
      cases flagged
  | notPredicate here ahead =>
      cases found.symm.trans here
      cases flagged
  | oneOrMore here once more =>
      cases found.symm.trans here
      have suffix := more.rest_suffix
      rw [sound _ flagged ⟨_, once⟩] at suffix
      exact List.suffix_nil.mp suffix
  | zeroOrMore here more =>
      cases found.symm.trans here
      cases flagged
  | optional here once =>
      cases found.symm.trans here
      cases flagged
  | optionalSkips here once =>
      cases found.symm.trans here
      cases flagged
  | choice here chosen =>
      cases found.symm.trans here
      obtain ⟨part, member, succeeds⟩ := chosen.exists_chosen
      have all := List.all_eq_true.mp flagged
      exact sound part (all _ (List.mem_map_of_mem member)) succeeds
  | sequence here all =>
      cases found.symm.trans here
      obtain ⟨attrs, member, ends⟩ := List.any_eq_true.mp flagged
      obtain ⟨part, inParts, rfl⟩ := List.mem_map.mp member
      exact all.rest_eq_nil_of_endsInput inParts (sound part ends)
  | remainingInput here =>
      rfl

namespace Layout

/-- The flag for ending the input is on only where it is true. -/
def EndsSoundly
    (layout : Layout)
    (table : AttrTable) :
    Prop :=
  ∀ id, (table.of id).endsInput = true → EndsInput layout.view id

/-- The table that sweeping starts from is sound: only terminals have flags. -/
theorem endsSoundly_initialAttrs
    (layout : Layout) :
    layout.EndsSoundly layout.initialAttrs := by
  intro id flagged
  cases present : layout.nodes[id]? with
  | none =>
      simp [AttrTable.of, initialAttrs, present, Attrs.none] at flagged
  | some node =>
      have found : layout.view id = some node.shape := by
        simp [view, shape?, node?, present]
      have initially : node.shape.initialAttrs.endsInput = true := by
        simpa [AttrTable.of, initialAttrs, present] using flagged
      have fromNothing :
          (node.shape.attrs fun _ => Attrs.none).endsInput = true := by
        cases shape : node.shape <;> rw [shape] at initially
        · exact initially
        · cases initially
        · cases initially
        · cases initially
        · exact initially
      apply EndsInput.of_attrs _ found fromNothing
      intro other impossible
      cases impossible

/-- Every update keeps the table sound. -/
theorem endsSoundly_updateEntry
    {layout : Layout}
    {table : AttrTable}
    (index : NodeId)
    (sound : layout.EndsSoundly table) :
    layout.EndsSoundly (updateEntry layout.updateAttrs table index) := by
  unfold updateEntry
  split
  case h_2 =>
    exact sound
  case h_1 entry present =>
    have inside := (Array.getElem?_eq_some_iff.mp present).1
    intro id flagged
    by_cases same : index = id
    · subst id
      rw [AttrTable.of,
        Array.getElem?_setIfInBounds_self_of_lt inside] at flagged
      simp only [Option.getD_some, updateAttrs] at flagged
      have before : entry.endsInput = true → EndsInput layout.view index :=
        fun on => sound index (by simpa [AttrTable.of, present] using on)
      split at flagged
      case h_1 shape found =>
        rcases Bool.or_eq_true_iff.mp flagged with wasOn | follows
        · exact before wasOn
        · exact EndsInput.of_attrs sound found follows
      case h_2 =>
        exact before flagged
    · rw [AttrTable.of, Array.getElem?_setIfInBounds_ne same] at flagged
      exact sound id flagged

/-- The computed table is sound. -/
theorem endsSoundly_attrs
    (layout : Layout) :
    layout.EndsSoundly layout.attrs :=
  settle_sweep_preserves layout.EndsSoundly endsSoundly_updateEntry
    layout.ids (4 * layout.exprCount + 1) layout.endsSoundly_initialAttrs

/-- Every run over a well-numbered layout ends in a permitted outcome. -/
theorem WellNumbered.permitted
    {layout : Layout}
    (wellNumbered : layout.WellNumbered)
    {attempt : Attempt NodeId}
    {input : List Char}
    {outcome : Outcome NodeId}
    (run : Runs layout.view attempt input outcome) :
    outcome.Permitted (attempt.attrs layout.attrs.of) input :=
  run.permitted (attrs_closed wellNumbered) fun _ isEmpty =>
    wellNumbered.literal_ne_empty isEmpty rfl

end Layout

namespace Grammar

/--
The attributes of an expression permit whatever a match of it does, at every
position of every input.
-/
theorem attrs_sound
    {grammar : Grammar}
    {layout : Layout}
    (laidOut : grammar.toLayout = .ok layout)
    (id : NodeId)
    (input : List Char) :
    (∀ rest,
        Succeeds layout.view id input rest →
        (rest = input → (layout.attrs.of id).nullable = true) ∧
          (rest ≠ input → (layout.attrs.of id).advances = true) ∧
          ((layout.attrs.of id).endsInput = true → rest = [])) ∧
      (Fails layout.view id input →
        (layout.attrs.of id).canFail = true) := by
  obtain ⟨clean, rfl⟩ := toLayout_eq_ok_iff.mp laidOut
  have wellNumbered := wellNumbered_layOut clean
  constructor
  · intro rest succeeds
    have ⟨trees, run⟩ := succeeds
    have permitted := wellNumbered.permitted run
    exact
      ⟨permitted.1, permitted.2,
        fun flagged => grammar.layOut.endsSoundly_attrs id flagged succeeds⟩
  · intro fails
    exact wellNumbered.permitted fails

/-- The literal consumes an `a` and fails where the input has ended. -/
theorem attrs_sound_letters :
    letters.toLayout = .ok letters.layOut ∧
      Succeeds letters.layOut.view 0 ['a'] [] ∧
      (letters.layOut.attrs.of 0).advances = true ∧
      (letters.layOut.attrs.of 0).canFail = true := by
  have laidOut : letters.toLayout = .ok letters.layOut :=
    toLayout_eq_ok_iff.mpr ⟨defects_letters, rfl⟩
  have succeeds : Succeeds letters.layOut.view 0 ['a'] [] :=
    ⟨[.leaf 0 ['a']], .terminal rfl rfl rfl⟩
  have fails : Fails letters.layOut.view 0 [] :=
    .terminalFails rfl rfl
  have consumes := (attrs_sound laidOut 0 ['a']).1 [] succeeds
  exact
    ⟨laidOut, succeeds, consumes.2.1 (by decide),
      (attrs_sound laidOut 0 []).2 fails⟩

end Grammar

end PegAudit
