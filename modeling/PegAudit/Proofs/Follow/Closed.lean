import PegAudit.Proofs.Analysis.Describes
import PegAudit.Proofs.Sweeps

namespace PegAudit

/-!
# The first terminals of tails are closed

The sweeps over a chart end in a table to which no strand can add: the entry of
a called node has the terminals that may start the elements after the call and,
where those may all be passed, the entry of the calling node.
-/

namespace Strand

/-- What the strand itself contributes, and what it passes on. -/
theorem contains_firstTermsIn
    {chart : Chart}
    {follow : Array IndexSet}
    {strand : Strand}
    {terminal : NodeId} :
    (strand.firstTermsIn chart follow).contains terminal = true ↔
      terminal < chart.noTerminals.room ∧
        ((∃ element ∈ strand.opening chart.attrs,
            (chart.firstOf element).contains terminal = true) ∨
          (strand.passesThrough chart.attrs = true ∧
            ((follow[strand.outer]?).getD chart.noTerminals).contains
              terminal = true)) := by
  have nothing : chart.noTerminals.contains terminal = false :=
    IndexSet.contains_empty _ _
  unfold firstTermsIn
  dsimp only
  split
  case isTrue passes =>
    rw [IndexSet.contains_union, IndexSet.room_foldl_union,
      IndexSet.contains_foldl_union, nothing]
    simp [passes]
    grind
  case isFalse stops =>
    rw [IndexSet.contains_foldl_union, nothing]
    simp [stops]
    grind

/-- A call is passed through where nothing on the way ends the input or stops. -/
theorem passesThrough_ofCall
    {table known : AttrTable}
    {outer called : NodeId}
    {elements : List NodeId}
    (agree : ∀ element ∈ elements, table.of element = known.of element)
    (goesOn : (known.of called).endsInput = false)
    (passed :
      ∀ element ∈ elements, (known.of element).transparent = true) :
    (ofCall known outer called elements).passesThrough table = true := by
  have noneEnds :
      ∀ element ∈ elements, ¬ (known.of element).endsInput = true := by
    intro element member
    have transparent := passed element member
    simp only [Attrs.transparent, Bool.and_eq_true,
      Bool.not_eq_true'] at transparent
    simp [transparent.2]
  have passedHere :
      ∀ element ∈ elements, (table.of element).transparent = true := by
    intro element member
    rw [agree element member]
    exact passed element member
  simp only [passesThrough, ofCall, Bool.and_eq_true, Bool.not_eq_true',
    List.any_eq_false, List.all_eq_true]
  exact ⟨⟨goesOn, noneEnds⟩, passedHere⟩

end Strand

namespace Chart

/-- Entries have room for all terminals and hold nothing else. -/
structure HoldsTerminals
    (chart : Chart)
    (follow : Array IndexSet) :
    Prop where
  size_eq :
    follow.size = chart.follow.size
  room_eq :
    ∀ {index : Nat} {entry : IndexSet},
      follow[index]? = some entry →
      entry.room = chart.noTerminals.room
  lt :
    ∀ {index : Nat} {entry : IndexSet} {terminal : NodeId},
      follow[index]? = some entry →
      entry.contains terminal = true →
      terminal < chart.layout.terminalCount

/-- The chart has what sweeping for the first terminals of tails starts from. -/
structure Prepared
    (chart : Chart) :
    Prop where
  firstOf_lt :
    ∀ {id terminal},
      (chart.firstOf id).contains terminal = true →
      terminal < chart.layout.terminalCount
  exprCount_le :
    chart.layout.exprCount ≤ chart.follow.size
  holds :
    chart.HoldsTerminals chart.follow

variable {chart : Chart}

/-- The first terminals of tails before any is known. -/
def emptyFollow
    (chart : Chart) :
    Array IndexSet :=
  Array.replicate chart.layout.nodes.size chart.noTerminals

/-- No first terminal of a tail is known before the sweeps. -/
theorem contains_emptyFollow
    (id terminal : NodeId) :
    (chart.emptyFollow[id]?.getD chart.noTerminals).contains terminal =
      false := by
  rw [emptyFollow, Array.getElem?_replicate]
  split <;> exact IndexSet.contains_empty _ _

/-- The members of an update are the old ones and those of all strands. -/
theorem contains_updateFollow
    {follow : Array IndexSet}
    {id : NodeId}
    {current : IndexSet}
    {terminal : NodeId} :
    (chart.updateFollow follow id current).contains terminal = true ↔
      current.contains terminal = true ∨
        (terminal < current.room ∧
          ∃ strand ∈ chart.tailOf id,
            (strand.firstTermsIn chart follow).contains terminal =
              true) := by
  rw [updateFollow, IndexSet.contains_foldl_union]
  simp [and_comm]

/-- An update takes nothing away. -/
theorem contains_updateEntry_of_contains
    {follow : Array IndexSet}
    {visited id terminal : NodeId}
    (member :
      (follow[id]?.getD chart.noTerminals).contains terminal = true) :
    ((updateEntry chart.updateFollow follow visited)[id]?.getD
        chart.noTerminals).contains terminal = true := by
  unfold updateEntry
  split
  case h_2 =>
    exact member
  case h_1 current present =>
    have inside := (Array.getElem?_eq_some_iff.mp present).1
    by_cases same : visited = id
    · subst id
      rw [Array.getElem?_setIfInBounds_self_of_lt inside]
      rw [present] at member
      exact contains_updateFollow.mpr (.inl member)
    · rwa [Array.getElem?_setIfInBounds_ne same]

/-- An update adds only what the strands of a node contribute. -/
theorem contains_or_of_contains_updateEntry
    {follow : Array IndexSet}
    {visited id terminal : NodeId}
    (member :
      ((updateEntry chart.updateFollow follow visited)[id]?.getD
        chart.noTerminals).contains terminal = true) :
    (follow[id]?.getD chart.noTerminals).contains terminal = true ∨
      ∃ strand ∈ chart.tailOf id,
        (strand.firstTermsIn chart follow).contains terminal = true := by
  unfold updateEntry at member
  split at member
  case h_2 =>
    exact .inl member
  case h_1 current present =>
    have inside := (Array.getElem?_eq_some_iff.mp present).1
    by_cases same : visited = id
    · subst id
      rw [Array.getElem?_setIfInBounds_self_of_lt inside] at member
      rw [present]
      exact (contains_updateFollow.mp member).imp_right And.right
    · rw [Array.getElem?_setIfInBounds_ne same] at member
      exact .inl member

namespace Prepared

/-- First terminals along a strand are terminals. -/
theorem firstTermsIn_lt
    (prepared : chart.Prepared)
    {follow : Array IndexSet}
    (holds : chart.HoldsTerminals follow)
    {strand : Strand}
    {terminal : NodeId}
    (member :
      (strand.firstTermsIn chart follow).contains terminal = true) :
    terminal < chart.layout.terminalCount := by
  obtain ⟨_, ⟨element, _, opens⟩ | ⟨_, follows⟩⟩ :=
    Strand.contains_firstTermsIn.mp member
  · exact prepared.firstOf_lt opens
  · cases found : follow[strand.outer]? with
    | none =>
        simp [found, noTerminals] at follows
    | some entry =>
        rw [found] at follows
        exact holds.lt found follows

/-- Updates keep what the entries hold and only ever add to them. -/
theorem growing
    (prepared : chart.Prepared) :
    Growing chart.updateFollow chart.HoldsTerminals IndexSet.count where
  keeps := by
    intro follow index holds
    unfold updateEntry
    split
    case h_2 =>
      exact holds
    case h_1 current present =>
      have inside := (Array.getElem?_eq_some_iff.mp present).1
      refine
        { size_eq := by simpa using holds.size_eq
          room_eq := ?_
          lt := ?_ }
      · intro other entry found
        by_cases same : index = other
        · subst other
          rw [Array.getElem?_setIfInBounds_self_of_lt inside] at found
          cases found
          rw [updateFollow, IndexSet.room_foldl_union]
          exact holds.room_eq present
        · rw [Array.getElem?_setIfInBounds_ne same] at found
          exact holds.room_eq found
      · intro other entry terminal found member
        by_cases same : index = other
        · subst other
          rw [Array.getElem?_setIfInBounds_self_of_lt inside] at found
          cases found
          rcases contains_updateFollow.mp member with
            before | ⟨_, strand, _, added⟩
          · exact holds.lt present before
          · exact prepared.firstTermsIn_lt holds added
        · rw [Array.getElem?_setIfInBounds_ne same] at found
          exact holds.lt found member
  grows := by
    intro follow index current _ _ changed
    apply IndexSet.count_lt_count
    · rw [updateFollow, IndexSet.room_foldl_union]
    · intro terminal member
      exact contains_updateFollow.mpr (.inl member)
    · exact changed

/-- The computed table holds only terminals. -/
theorem holds_fillFollow
    (prepared : chart.Prepared) :
    chart.HoldsTerminals chart.fillFollow.follow :=
  settle_sweep_preserves chart.HoldsTerminals
    prepared.growing.keeps chart.layout.ids
    (chart.layout.exprCount * chart.layout.terminalCount + 1)
    prepared.holds

/-- The computed first terminals of tails are terminals. -/
theorem followOf_lt
    (prepared : chart.Prepared)
    {id terminal : NodeId}
    (member : (chart.fillFollow.followOf id).contains terminal = true) :
    terminal < chart.layout.terminalCount := by
  cases found : chart.fillFollow.follow[id]? with
  | none =>
      simp [followOf, found, noTerminals] at member
  | some entry =>
      rw [followOf, found] at member
      exact prepared.holds_fillFollow.lt found member

/-- No strand of a node's tail adds to the computed entry of the node. -/
theorem contains_followOf
    (prepared : chart.Prepared)
    {strand : Strand}
    (counted : strand.called < chart.layout.exprCount)
    (inTail : strand ∈ chart.tailOf strand.called)
    {terminal : NodeId}
    (member : (strand.firstTerms chart.fillFollow).contains terminal = true) :
    (chart.fillFollow.followOf strand.called).contains terminal = true := by
  have atEnd := prepared.holds_fillFollow
  have inside : strand.called < chart.fillFollow.follow.size := by
    rw [atEnd.size_eq]
    exact Nat.lt_of_lt_of_le counted prepared.exprCount_le
  have present :
      chart.fillFollow.follow[strand.called]? =
        some chart.fillFollow.follow[strand.called] :=
    Array.getElem?_eq_getElem inside
  have fixed :
      chart.updateFollow chart.fillFollow.follow strand.called
          chart.fillFollow.follow[strand.called] =
        chart.fillFollow.follow[strand.called] := by
    refine prepared.growing.update_settle chart.layout.terminalCount ?_
      chart.layout.ids ?_ prepared.holds (List.mem_range.mpr counted)
      present
    · intro table index entry tableHolds found
      exact IndexSet.count_le (tableHolds.lt found)
    · simp [Layout.ids]
  have hasRoom :
      terminal < chart.fillFollow.follow[strand.called].room := by
    rw [atEnd.room_eq present]
    exact (Strand.contains_firstTermsIn.mp member).1
  have added :
      (chart.updateFollow chart.fillFollow.follow strand.called
        chart.fillFollow.follow[strand.called]).contains terminal = true :=
    contains_updateFollow.mpr (.inr ⟨hasRoom, strand, inTail, member⟩)
  rw [fixed] at added
  rw [followOf, present]
  exact added

end Prepared

end Chart

/-- Each listed element comes with the elements after it. -/
theorem mem_of_mem_withRest
    {element : α}
    {elements rest : List α}
    (listed : (element, rest) ∈ withRest elements) :
    element ∈ elements ∧ ∀ later ∈ rest, later ∈ elements := by
  induction elements with
  | nil =>
      cases listed
  | cons first others inductionHypothesis =>
      rcases List.mem_cons.mp listed with same | inOthers
      · cases same
        exact
          ⟨List.mem_cons_self,
            fun later member => List.mem_cons_of_mem element member⟩
      · obtain ⟨isElement, restInOthers⟩ := inductionHypothesis inOthers
        exact
          ⟨List.mem_cons_of_mem first isElement,
            fun later member =>
              List.mem_cons_of_mem first (restInOthers later member)⟩

/-- A shape calls only what it mentions, with only itself or such after it. -/
theorem Shape.mentioned_of_mem_sites
    {id called : NodeId}
    {elements : List NodeId}
    {shape : Shape NodeId}
    (isSite : (called, elements) ∈ shape.sites id) :
    called ∈ shape.mentioned ∧
      ∀ element ∈ elements, element = id ∨ element ∈ shape.mentioned := by
  cases shape with
  | terminal item =>
      cases isSite
  | reference target rule =>
      cases List.mem_singleton.mp isSite
      exact ⟨List.mem_cons_self, by simp⟩
  | unary operator body =>
      have bodyIsCalled :
          called = body ∧ (elements = [id] ∨ elements = []) := by
        cases operator <;>
          simp only [sites, List.mem_cons, Prod.mk.injEq,
            List.not_mem_nil, or_false] at isSite <;>
          tauto
      obtain ⟨rfl, rfl | rfl⟩ := bodyIsCalled
      · exact ⟨List.mem_cons_self, by simp⟩
      · exact ⟨List.mem_cons_self, by simp⟩
  | group grouping parts =>
      cases grouping with
      | choice =>
          obtain ⟨part, isPart, same⟩ := List.mem_map.mp isSite
          cases same
          exact ⟨isPart, by simp⟩
      | sequence =>
          obtain ⟨isPart, restInParts⟩ := mem_of_mem_withRest isSite
          exact ⟨isPart, fun later member => .inr (restInParts later member)⟩
  | remainingInput =>
      cases isSite

namespace Layout

variable {layout : Layout}

/-- An opened chart has the nodes of the layout. -/
theorem size_nodes_le_openChart
    (layout : Layout)
    (options : Options) :
    layout.nodes.size ≤ (layout.openChart options).layout.nodes.size := by
  unfold openChart Chart.withRemainder
  dsimp only
  split
  · split
    · exact Nat.le_refl _
    · rw [withRemainder, Array.size_push]
      exact Nat.le_succ _
  · exact Nat.le_refl _

/-- Sweeping starts from empty sets. -/
theorem follow_openChart
    (layout : Layout)
    (options : Options) :
    (layout.openChart options).follow =
      (layout.openChart options).emptyFollow := by
  unfold openChart Chart.withRemainder Chart.emptyFollow
  dsimp only
  split
  · split
    · rfl
    · rw [withRemainder, Array.size_push]
      exact Array.replicate_succ.symm
  · rfl

namespace WellNumbered

/-- The chart of a well-numbered layout is prepared. -/
theorem prepared_openChart
    (wellNumbered : layout.WellNumbered)
    (options : Options) :
    (layout.openChart options).Prepared := by
  have describes := wellNumbered.describes_openChart options
  have initially := layout.follow_openChart options
  have isEmpty
      {index : Nat}
      {entry : IndexSet}
      (found : (layout.openChart options).follow[index]? = some entry) :
      entry = (layout.openChart options).noTerminals := by
    rw [initially, Chart.emptyFollow, Array.getElem?_replicate] at found
    split at found
    · exact (Option.some.inj found).symm
    · cases found
  refine
    { firstOf_lt := ?_
      exprCount_le := ?_
      holds := { size_eq := rfl, room_eq := ?_, lt := ?_ } }
  · intro id terminal member
    rw [describes.terminalCount_eq]
    exact describes.firstOf_lt member
  · rw [describes.exprCount_eq, initially, Chart.emptyFollow,
      Array.size_replicate, ← wellNumbered.size_nodes]
    exact layout.size_nodes_le_openChart options
  · intro index entry found
    rw [isEmpty found]
  · intro index entry terminal found member
    rw [isEmpty found, Chart.noTerminals, IndexSet.contains_empty] at member
    cases member

/-- The nodes of a site are counted. -/
theorem sites_lt
    (wellNumbered : layout.WellNumbered)
    {id called : NodeId}
    {elements : List NodeId}
    {shape : Shape NodeId}
    (found : layout.shape? id = some shape)
    (isSite : (called, elements) ∈ shape.sites id) :
    called < layout.exprCount ∧
      ∀ element ∈ elements, element < layout.exprCount := by
  obtain ⟨calledMentioned, elementsMentioned⟩ :=
    Shape.mentioned_of_mem_sites isSite
  refine ⟨wellNumbered.mentioned_lt found calledMentioned, ?_⟩
  intro element member
  rcases elementsMentioned element member with rfl | mentioned
  · exact wellNumbered.exists_shape_iff.mp ⟨shape, found⟩
  · exact wellNumbered.mentioned_lt found mentioned

/-- The strand of a site that goes on is in the tail of the called node. -/
theorem mem_tailOf_of_mem_sites
    (wellNumbered : layout.WellNumbered)
    (options : Options)
    {id called : NodeId}
    {elements : List NodeId}
    {shape : Shape NodeId}
    (found : layout.shape? id = some shape)
    (isSite : (called, elements) ∈ shape.sites id)
    (goesOn : (layout.attrs.of called).endsInput = false) :
    Strand.ofCall layout.attrs id called elements ∈
      (layout.openChart options).tailOf called := by
  have describes := wellNumbered.describes_openChart options
  have calledCounted := (wellNumbered.sites_lt found isSite).1
  have isCompound : shape.isTerminal = false := by
    cases shape with
    | terminal item =>
        cases isSite
    | remainingInput =>
        cases isSite
    | _ =>
        rfl
  apply describes.mem_tailOf _ calledCounted
  refine List.mem_flatMap.mpr
    ⟨id, wellNumbered.mem_compoundIds found isCompound, ?_⟩
  simp only [strandsFrom, found]
  exact List.mem_map.mpr
    ⟨(called, elements),
      List.mem_filter.mpr ⟨isSite, by simp [goesOn]⟩, rfl⟩

/-- What may follow a called node is what the site and the caller say. -/
theorem contains_followOf_of_mem_sites
    (wellNumbered : layout.WellNumbered)
    (options : Options)
    {id called : NodeId}
    {elements : List NodeId}
    {shape : Shape NodeId}
    (found : layout.shape? id = some shape)
    (isSite : (called, elements) ∈ shape.sites id)
    (goesOn : (layout.attrs.of called).endsInput = false)
    {terminal : NodeId}
    (follows :
      (∃ element ∈ layout.attrs.reachable elements,
          ((layout.relations layout.attrs).firstTerms
            layout.terminalCount element).contains terminal = true) ∨
        ((∀ element ∈ elements,
            (layout.attrs.of element).transparent = true) ∧
          ((layout.openChart options).fillFollow.followOf
            id).contains terminal = true)) :
    ((layout.openChart options).fillFollow.followOf called).contains
      terminal = true := by
  have describes := wellNumbered.describes_openChart options
  have prepared := wellNumbered.prepared_openChart options
  obtain ⟨calledCounted, elementCounted⟩ :=
    wellNumbered.sites_lt found isSite
  have sameAttrs :
      ∀ element ∈ elements,
        (layout.openChart options).attrs.of element =
          layout.attrs.of element :=
    fun element member => describes.attrsOf_eq (elementCounted element member)
  have sameReach :
      (layout.openChart options).attrs.reachable elements =
        layout.attrs.reachable elements :=
    upTo_congr fun element member => by rw [sameAttrs element member]
  rw [← describes.exprCount_eq] at calledCounted
  have hasRoom
      (isTerminal :
        terminal < (layout.openChart options).layout.terminalCount) :
      terminal <
        (layout.openChart options).fillFollow.noTerminals.room :=
    Nat.lt_of_lt_of_le isTerminal (IndexSet.le_room_empty _)
  apply prepared.contains_followOf calledCounted
    (wellNumbered.mem_tailOf_of_mem_sites options found isSite goesOn)
  apply Strand.contains_firstTermsIn.mpr
  rcases follows with ⟨element, isReached, opens⟩ | ⟨passed, followsCaller⟩
  · have isElement := mem_of_mem_upTo isReached
    rw [← describes.firstOf_eq (elementCounted element isElement)] at opens
    rw [← sameReach] at isReached
    exact
      ⟨hasRoom (prepared.firstOf_lt opens),
        .inl ⟨element, isReached, opens⟩⟩
  · exact
      ⟨hasRoom (prepared.followOf_lt followsCaller),
        .inr
          ⟨Strand.passesThrough_ofCall sameAttrs goesOn passed,
            followsCaller⟩⟩

end WellNumbered

end Layout

end PegAudit
