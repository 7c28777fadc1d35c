import PegAudit.Proofs.Checked.Chart

namespace PegAudit

/-!
# Room for the remaining input

A chart with room for the remaining input has one more node than without, and
one more strand, at the end of the start rule's tail.  The strand leads only to
that node, which no terminal begins, so it adds nothing to the entry of the
start: the sweeps for the first terminals of tails run in step, with one entry
left empty, and come to the same end for every expression.
-/

/-- Uniting with the empty set changes nothing. -/
theorem IndexSet.union_empty
    (indices : IndexSet)
    (capacity : Nat) :
    indices.union (.empty capacity) = indices := by
  apply IndexSet.eq_of_contains_eq
  · exact room_union indices _
  · funext index
    simp [contains_union]

/-- An entry added behind a table is not seen at the numbers below its size. -/
theorem getElem?_push_of_lt
    {entries : Array α}
    {count id : Nat}
    (sized : entries.size = count)
    (counted : id < count)
    (entry : α) :
    (entries.push entry)[id]? = entries[id]? := by
  rw [Array.getElem?_push, if_neg (by lia)]

namespace Chart

/-- The charts say the same of all expressions, apart from the tail of the start rule. -/
structure Agrees
    (chart other : Chart) :
    Prop where
  terminalCount_eq :
    other.layout.terminalCount = chart.layout.terminalCount
  exprCount_eq :
    other.layout.exprCount = chart.layout.exprCount
  rules_eq :
    other.layout.rules = chart.layout.rules
  unused_eq :
    other.layout.unused = chart.layout.unused
  node?_eq :
    ∀ id < chart.layout.exprCount,
      other.layout.node? id = chart.layout.node? id
  attrsOf_eq :
    ∀ id < chart.layout.exprCount, other.attrsOf id = chart.attrsOf id
  firstOf_eq :
    ∀ id < chart.layout.exprCount, other.firstOf id = chart.firstOf id
  followOf_eq :
    ∀ id < chart.layout.exprCount, other.followOf id = chart.followOf id
  tailOf_eq :
    ∀ id, id ≠ chart.layout.start → other.tailOf id = chart.tailOf id

namespace Agrees

variable {chart other : Chart}

/-- A chart agrees with itself. -/
theorem refl
    (chart : Chart) :
    chart.Agrees chart where
  terminalCount_eq := rfl
  exprCount_eq := rfl
  rules_eq := rfl
  unused_eq := rfl
  node?_eq := fun _ _ => rfl
  attrsOf_eq := fun _ _ => rfl
  firstOf_eq := fun _ _ => rfl
  followOf_eq := fun _ _ => rfl
  tailOf_eq := fun _ _ => rfl

/-- Charts that agree have the same start. -/
theorem start_eq
    (agrees : chart.Agrees other) :
    other.layout.start = chart.layout.start := by
  rw [Layout.start, Layout.start, agrees.rules_eq]

/-- Charts that agree count the same expressions. -/
theorem lt_exprCount
    (agrees : chart.Agrees other)
    {id : NodeId}
    (counted : id < other.layout.exprCount) :
    id < chart.layout.exprCount := by
  rwa [agrees.exprCount_eq] at counted

/-- The other chart agrees with the chart. -/
theorem symm
    (agrees : chart.Agrees other) :
    other.Agrees chart where
  terminalCount_eq := agrees.terminalCount_eq.symm
  exprCount_eq := agrees.exprCount_eq.symm
  rules_eq := agrees.rules_eq.symm
  unused_eq := agrees.unused_eq.symm
  node?_eq := fun id counted =>
    (agrees.node?_eq id (agrees.lt_exprCount counted)).symm
  attrsOf_eq := fun id counted =>
    (agrees.attrsOf_eq id (agrees.lt_exprCount counted)).symm
  firstOf_eq := fun id counted =>
    (agrees.firstOf_eq id (agrees.lt_exprCount counted)).symm
  followOf_eq := fun id counted =>
    (agrees.followOf_eq id (agrees.lt_exprCount counted)).symm
  tailOf_eq := fun id notStart =>
    (agrees.tailOf_eq id (agrees.start_eq ▸ notStart)).symm

/-- Charts that agree have the same set of no terminals. -/
theorem noTerminals_eq
    (agrees : chart.Agrees other) :
    other.noTerminals = chart.noTerminals := by
  rw [noTerminals, noTerminals, agrees.terminalCount_eq]

/-- The same terminals may start what follows along a strand between expressions. -/
theorem firstTermsIn_eq
    (agrees : chart.Agrees other)
    {strand : Strand}
    (counted :
      ∀ element ∈ strand.elements, element < chart.layout.exprCount)
    {follow others : Array IndexSet}
    (sameEntry : others[strand.outer]? = follow[strand.outer]?) :
    strand.firstTermsIn other others = strand.firstTermsIn chart follow := by
  have sameAttrs :
      ∀ element ∈ strand.elements,
        other.attrs.of element = chart.attrs.of element :=
    fun element member => agrees.attrsOf_eq element (counted element member)
  have sameOpening :
      strand.opening other.attrs = strand.opening chart.attrs :=
    upTo_congr fun element member => by rw [sameAttrs element member]
  have samePassing :
      strand.passesThrough other.attrs = strand.passesThrough chart.attrs := by
    rw [Bool.eq_iff_iff]
    simp only [Strand.passesThrough, Bool.and_eq_true, List.all_eq_true]
    exact and_congr_right fun _ =>
      forall₂_congr fun element member => by rw [sameAttrs element member]
  have sameFirst :
      (strand.opening chart.attrs).map other.firstOf =
        (strand.opening chart.attrs).map chart.firstOf :=
    List.map_congr_left fun element opens =>
      agrees.firstOf_eq element (counted element (mem_of_mem_upTo opens))
  rw [Strand.firstTermsIn, Strand.firstTermsIn, sameOpening, samePassing,
    sameFirst, agrees.noTerminals_eq, sameEntry]

end Agrees

/-- The node for the remaining input is the last one, if there is room for it. -/
theorem nodes_withRemainder
    (chart : Chart) :
    chart.withRemainder.layout.nodes =
      if !(chart.attrsOf chart.layout.start).endsInput then
        chart.layout.nodes.push chart.layout.remainderNode
      else
        chart.layout.nodes := by
  cases ends : (chart.attrsOf chart.layout.start).endsInput <;>
    simp [withRemainder, ends, Layout.withRemainder]

/-- A sweep keeps the number of entries. -/
theorem size_sweepFollow
    (chart : Chart)
    (follow : Array IndexSet) :
    (chart.sweepFollow follow).size = follow.size :=
  size_sweep _ _ follow

/-- Everything in a chart is filled in for the expressions and for nothing else. -/
structure Filled
    (chart : Chart) :
    Prop where
  nodes_size : chart.layout.nodes.size = chart.layout.exprCount
  attrs_size : chart.attrs.size = chart.layout.exprCount
  first_size : chart.first.size = chart.layout.exprCount
  tails_size : chart.tails.size = chart.layout.exprCount
  follow_size : chart.follow.size = chart.layout.exprCount
  start_lt : chart.layout.start < chart.layout.exprCount
  strands_lt :
    ∀ {id strand},
      strand ∈ chart.tailOf id →
      strand.outer < chart.layout.exprCount ∧
        ∀ element ∈ strand.elements, element < chart.layout.exprCount

namespace Filled

variable {chart : Chart}

/-- The strand to the remaining input stands behind the others of the start. -/
theorem tailOf_withRemainder
    (filled : chart.Filled)
    (id : NodeId) :
    chart.withRemainder.tailOf id =
      chart.tailOf id ++
        if (chart.attrsOf chart.layout.start).endsInput = false ∧
            id = chart.layout.start then
          [.toRemainder chart.layout.start chart.layout.exprCount]
        else
          [] := by
  rw [Chart.tailOf_withRemainder, filled.nodes_size]
  · rw [filled.attrs_size, filled.nodes_size]
  · rw [filled.tails_size, filled.nodes_size]
  · rw [filled.nodes_size]
    exact filled.start_lt

/-- Room for the remaining input changes nothing for the expressions. -/
theorem agrees_withRemainder
    (filled : chart.Filled) :
    chart.Agrees chart.withRemainder := by
  have sameTails :
      ∀ id,
        id ≠ chart.layout.start →
        chart.withRemainder.tailOf id = chart.tailOf id := by
    intro id notStart
    simp [filled.tailOf_withRemainder, notStart]
  unfold withRemainder at sameTails ⊢
  dsimp only at sameTails ⊢
  split at sameTails
  case isTrue ends =>
    rw [if_pos ends]
    exact .refl chart
  case isFalse goesOn =>
    rw [if_neg goesOn]
    exact
      { terminalCount_eq := rfl
        exprCount_eq := rfl
        rules_eq := rfl
        unused_eq := rfl
        node?_eq := fun _ counted =>
          getElem?_push_of_lt filled.nodes_size counted _
        attrsOf_eq := fun _ counted =>
          congrArg (·.getD Attrs.none)
            (getElem?_push_of_lt filled.attrs_size counted _)
        firstOf_eq := fun _ counted =>
          congrArg (·.getD chart.noTerminals)
            (getElem?_push_of_lt filled.first_size counted _)
        followOf_eq := fun _ counted =>
          congrArg (·.getD chart.noTerminals)
            (getElem?_push_of_lt filled.follow_size counted _)
        tailOf_eq := sameTails }

/-- No terminal starts what follows along the strand to the remaining input. -/
theorem firstTermsIn_toRemainder
    (filled : chart.Filled)
    (goesOn : (chart.attrsOf chart.layout.start).endsInput = false)
    (start : NodeId)
    (follow : Array IndexSet) :
    (Strand.toRemainder start chart.layout.exprCount).firstTermsIn
        chart.withRemainder follow =
      chart.noTerminals := by
  have opening
      (table : AttrTable) :
      (Strand.toRemainder start chart.layout.exprCount).opening table =
        [chart.layout.exprCount] := by
    simp [Strand.opening, Strand.toRemainder, AttrTable.reachable, upTo]
  have stops
      (table : AttrTable) :
      (Strand.toRemainder start chart.layout.exprCount).passesThrough table =
        false :=
    rfl
  have noFirst :
      chart.withRemainder.firstOf chart.layout.exprCount =
        chart.noTerminals := by
    simp [firstOf, withRemainder, goesOn, ← filled.first_size]
  rw [Strand.firstTermsIn, opening, stops, List.map_singleton,
    List.foldl_cons, List.foldl_nil, noFirst,
    filled.agrees_withRemainder.noTerminals_eq]
  exact IndexSet.union_empty _ _

/-- Room for the remaining input changes no update. -/
theorem updateFollow_withRemainder
    (filled : chart.Filled)
    (goesOn : (chart.attrsOf chart.layout.start).endsInput = false)
    {follow : Array IndexSet}
    (sized : follow.size = chart.layout.exprCount)
    (last : IndexSet)
    (id : NodeId)
    (current : IndexSet) :
    chart.withRemainder.updateFollow (follow.push last) id current =
      chart.updateFollow follow id current := by
  have sameTerms :
      (chart.tailOf id).map
          (Strand.firstTermsIn chart.withRemainder (follow.push last)) =
        (chart.tailOf id).map (Strand.firstTermsIn chart follow) := by
    apply List.map_congr_left
    intro strand inTail
    obtain ⟨outerCounted, counted⟩ := filled.strands_lt inTail
    exact
      filled.agrees_withRemainder.firstTermsIn_eq counted
        (getElem?_push_of_lt sized outerCounted last)
  rw [updateFollow, updateFollow, filled.tailOf_withRemainder,
    List.map_append, sameTerms, List.foldl_append]
  split
  · rw [List.map_singleton, filled.firstTermsIn_toRemainder goesOn,
      List.foldl_cons, List.foldl_nil]
    exact IndexSet.union_empty _ _
  · rfl

/-- The sweeps run in step, with an empty entry for the remaining input. -/
theorem settleFollow_withRemainder
    (filled : chart.Filled)
    (goesOn : (chart.attrsOf chart.layout.start).endsInput = false) :
    chart.withRemainder.settleFollow =
      { state := chart.settleFollow.state.push chart.noTerminals
        sweeps := chart.settleFollow.sweeps } := by
  have starts :
      chart.withRemainder.follow = chart.follow.push chart.noTerminals := by
    simp [withRemainder, goesOn]
  have agrees := filled.agrees_withRemainder
  have sweeps
      (follow : Array IndexSet)
      (sized : follow.size = chart.layout.exprCount) :
      chart.withRemainder.sweepFollow (follow.push chart.noTerminals) =
        (chart.sweepFollow follow).push chart.noTerminals := by
    rw [sweepFollow, Layout.ids, agrees.exprCount_eq]
    refine sweep_push (fun {_ id} current tableSized _ => ?_) (by simp) sized
    exact filled.updateFollow_withRemainder goesOn tableSized _ id current
  rw [settleFollow, starts, agrees.exprCount_eq, agrees.terminalCount_eq]
  exact
    settle_map (Array.push · chart.noTerminals)
      Array.push_inj_left.mp
      (fun follow sized => (chart.size_sweepFollow follow).trans sized)
      sweeps _ filled.follow_size

/-- The sweeps leave everything filled. -/
theorem fillFollow
    (filled : chart.Filled) :
    chart.fillFollow.Filled :=
  { filled with
    follow_size :=
      settle_preserves
        (fun follow sized => (chart.size_sweepFollow follow).trans sized) _
        filled.follow_size }

/-- Making room before or after the sweeps is the same. -/
theorem fillFollow_withRemainder
    (filled : chart.Filled) :
    chart.withRemainder.fillFollow = chart.fillFollow.withRemainder := by
  cases ends : (chart.attrsOf chart.layout.start).endsInput with
  | true =>
      have noRoom : chart.withRemainder = chart := if_pos ends
      rw [noRoom]
      exact (if_pos ends).symm
  | false =>
      have goesOn :
          ¬ (chart.attrsOf chart.layout.start).endsInput = true := by
        simp [ends]
      calc
        chart.withRemainder.fillFollow =
            { chart.withRemainder with
              follow := chart.settleFollow.state.push chart.noTerminals } := by
          rw [Chart.fillFollow, filled.settleFollow_withRemainder ends]
        _ = chart.fillFollow.withRemainder := by
          unfold withRemainder
          dsimp only
          rw [if_neg goesOn]
          exact (if_neg goesOn).symm

end Filled

end Chart

end PegAudit
