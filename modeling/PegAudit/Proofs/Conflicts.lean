import PegAudit.Proofs.Analysis.Describes
import PegAudit.Proofs.Analysis.View

namespace PegAudit

/-!
# No collision is missed

Where an input lets both ways of a decision consume, the first leaves of the
two matches are terminals of the two first sets.  Both consume on the input, so
they are not disjoint and the pair is among the collisions of the decision.
-/

/-- An element and a later one are a pair. -/
theorem mem_orderedPairs
    {elements : List α}
    {earlier later : Nat}
    {first second : α}
    (inOrder : earlier < later)
    (isFirst : elements[earlier]? = some first)
    (isSecond : elements[later]? = some second) :
    (first, second) ∈ orderedPairs elements := by
  induction elements generalizing earlier later with
  | nil =>
      cases isFirst
  | cons element rest inductionHypothesis =>
      cases later with
      | zero =>
          omega
      | succ later =>
          have inRest : rest[later]? = some second := by
            simpa using isSecond
          cases earlier with
          | zero =>
              have isHead : element = first := by
                simpa using isFirst
              subst element
              apply List.mem_append_left
              exact List.mem_map.mpr
                ⟨second, List.mem_of_getElem? inRest, rfl⟩
          | succ earlier =>
              apply List.mem_append_right
              have firstInRest : rest[earlier]? = some first := by
                simpa using isFirst
              exact inductionHypothesis (Nat.lt_of_succ_lt_succ inOrder)
                firstInRest inRest

/-- The expression succeeds on the input and consumes some of it. -/
def Advances
    (view : View ι)
    (id : ι)
    (input : List Char) :
    Prop :=
  ∃ rest, Succeeds view id input rest ∧ rest ≠ input

namespace Layout

variable {layout : Layout}

/-- Two terminals that consume on one input are not related as disjoint. -/
theorem WellNumbered.relates_nonDisjoint
    (wellNumbered : layout.WellNumbered)
    {left right : NodeId}
    {input : List Char}
    (leftConsumes : layout.Consumes left input)
    (rightConsumes : layout.Consumes right input) :
    (layout.relations layout.attrs).nonDisjoint.Relates left right := by
  have leftBelow := wellNumbered.lt_of_consumes leftConsumes
  have rightBelow := wellNumbered.lt_of_consumes rightConsumes
  obtain ⟨leftItem, leftFound, leftMatches⟩ := leftConsumes
  obtain ⟨rightItem, rightFound, rightMatches⟩ := rightConsumes
  have covered := IndexSet.le_room_empty layout.terminalCount
  have notDisjoint :
      layout.disjointTerminals.contains left right = false := by
    simp [disjointTerminals, IndexRelation.contains_ofRows, leftFound,
      rightFound, leftMatches.disjoint_eq_false rightMatches]
  have sameSize :
      layout.disjointTerminals.size = layout.terminalCount :=
    rfl
  rw [IndexRelation.Relates, relations, IndexRelation.complement,
    IndexRelation.contains_ofRows, sameSize]
  simp only [Bool.and_eq_true, decide_eq_true_eq, List.mem_filter,
    List.mem_range, Bool.not_eq_true']
  exact
    ⟨⟨leftBelow, rightBelow, notDisjoint⟩,
      Nat.lt_of_lt_of_le rightBelow covered⟩

end Layout

namespace Chart

variable
  {chart : Chart}
  {relations : Relations}

/-- Terminals that lead both ways and are not disjoint collide. -/
theorem mem_collisions
    {decision : Decision}
    {left right : NodeId}
    (leadsFirst : (chart.firstOf decision.first).contains left = true)
    (leadsSecond : (chart.secondTerms decision).contains right = true)
    (related : relations.nonDisjoint.Relates left right) :
    (left, right) ∈ chart.collisions relations decision := by
  refine List.mem_flatMap.mpr
    ⟨left, IndexSet.mem_toList_iff.mpr leadsFirst, ?_⟩
  refine List.mem_map.mpr
    ⟨right, IndexSet.mem_toList_iff.mpr ?_, rfl⟩
  rw [IndexSet.contains_intersect, leadsSecond, Bool.true_or, Bool.and_true]
  exact related

/-- A colliding pair of a decision is reported. -/
theorem exists_conflict
    {decision : Decision}
    (decides : decision ∈ chart.decisions)
    {pair : NodeId × NodeId}
    (collides : pair ∈ chart.collisions relations decision) :
    ∃ conflict ∈ chart.conflicts relations,
      conflict.first = decision.first ∧
        conflict.second = decision.second ∧
        conflict.owner = decision.owner ∧
        pair ∈ conflict.pairs := by
  have found :
      chart.conflict? relations decision =
        some
          { first := decision.first
            second := decision.second
            owner := decision.owner
            pairs := chart.collisions relations decision } := by
    unfold conflict?
    split
    case h_1 none =>
      rw [none] at collides
      cases collides
    case h_2 =>
      rfl
  exact
    ⟨_,
      List.mem_mergeSort.mpr
        (List.mem_filterMap.mpr ⟨decision, decides, found⟩),
      rfl, rfl, rfl, collides⟩

/-- The first terminals of the second alternative lead the second way. -/
theorem contains_secondTerms_of_firstOf
    {first second owner terminal : NodeId}
    (opens : (chart.firstOf second).contains terminal = true) :
    (chart.secondTerms
      { first := first, second := some second, owner := owner }).contains
        terminal = true := by
  unfold secondTerms
  dsimp only
  split
  · rw [IndexSet.contains_union, opens, Bool.true_or]
  · exact opens

namespace Describes

variable {layout : Layout}

/-- A node that has decisions decides in the chart. -/
theorem mem_decisions
    (describes : chart.Describes layout)
    (wellNumbered : layout.WellNumbered)
    {owner : NodeId}
    {shape : Shape NodeId}
    (found : layout.shape? owner = some shape)
    (isCompound : shape.isTerminal = false)
    {decision : Decision}
    (decides : decision ∈ shape.decisions owner) :
    decision ∈ chart.decisions := by
  have counted := wellNumbered.exists_shape_iff.mp ⟨shape, found⟩
  refine List.mem_flatMap.mpr ⟨owner, ?_, ?_⟩
  · rw [Layout.compoundIds, describes.terminalCount_eq,
      describes.exprCount_eq]
    exact wellNumbered.mem_compoundIds found isCompound
  · rw [describes.shape?_eq counted, found]
    exact decides

/-- A match that consumes starts with one of the first terminals. -/
theorem exists_firstOf
    (describes : chart.Describes layout)
    (wellNumbered : layout.WellNumbered)
    {id : NodeId}
    {input : List Char}
    (advances : Advances layout.view id input) :
    ∃ terminal,
      (chart.firstOf id).contains terminal = true ∧
        layout.Consumes terminal input := by
  obtain ⟨rest, ⟨trees, run⟩, moved⟩ := advances
  obtain ⟨leaf, consuming⟩ := run.exists_firstConsuming moved
  obtain ⟨consumes, opens⟩ :=
    wellNumbered.firstTerms_sound run consuming
  have counted := wellNumbered.exists_shape_iff.mp run.exists_shape
  rw [← describes.firstOf_eq counted] at opens
  exact ⟨leaf.1, opens, consumes⟩

/-- Behind a transparent alternative the tail leads the second way. -/
theorem contains_secondTerms_of_followOf
    (describes : chart.Describes layout)
    {first second owner terminal : NodeId}
    (counted : second < layout.exprCount)
    (transparent : (chart.attrsOf second).transparent = true)
    (follows : (chart.followOf owner).contains terminal = true)
    (isTerminal : terminal < layout.terminalCount) :
    (chart.secondTerms
      { first := first, second := some second, owner := owner }).contains
        terminal = true := by
  have hasRoom : terminal < (chart.firstOf second).room := by
    rw [describes.firstOf_eq counted, Relations.firstTerms,
      IndexSet.room_ofList]
    exact Nat.lt_of_lt_of_le isTerminal
      (IndexSet.le_room_empty layout.terminalCount)
  simp [secondTerms, transparent, IndexSet.contains_union, follows,
    hasRoom]

end Describes

end Chart

namespace Analysis

/-- Some terminal of the node's tail consumes on the input. -/
def MayFollow
    (analysis : Analysis)
    (owner : NodeId)
    (input : List Char) :
    Prop :=
  ∃ terminal,
    (analysis.chart.followOf owner).contains terminal = true ∧
      analysis.layout.Consumes terminal input

/-- A decision is reported with terminals that both consume on the input. -/
def Detects
    (analysis : Analysis)
    (decision : Decision)
    (input : List Char) :
    Prop :=
  ∃ conflict ∈ analysis.conflicts,
    conflict.first = decision.first ∧
      conflict.second = decision.second ∧
      conflict.owner = decision.owner ∧
      ∃ pair ∈ conflict.pairs,
        analysis.layout.Consumes pair.1 input ∧
          analysis.layout.Consumes pair.2 input

end Analysis

namespace Layout

variable
  {layout : Layout}
  {options : Options}

/-- The terminals of an analysis are those of its layout. -/
theorem terminal?_analyze
    (wellNumbered : layout.WellNumbered)
    (id : NodeId) :
    (layout.analyze options).layout.terminal? id = layout.terminal? id := by
  apply Option.ext
  intro item
  rw [terminal?_eq_some_iff, terminal?_eq_some_iff]
  constructor
  · intro found
    exact shape?_of_shape?_analyze found (by simp)
  · intro found
    have counted := wellNumbered.exists_shape_iff.mp ⟨_, found⟩
    rwa [shape?_analyze wellNumbered counted]

/-- Terminals consume alike in an analysis and in its layout. -/
theorem consumes_analyze_iff
    (wellNumbered : layout.WellNumbered)
    {id : NodeId}
    {input : List Char} :
    (layout.analyze options).layout.Consumes id input ↔
      layout.Consumes id input := by
  simp only [Consumes, terminal?_analyze wellNumbered]

/-- Expressions consume alike in an analysis and in its layout. -/
theorem advances_analyze_iff
    (wellNumbered : layout.WellNumbered)
    {id : NodeId}
    (counted : id < layout.exprCount)
    {input : List Char} :
    Advances (layout.analyze options).layout.view id input ↔
      Advances layout.view id input := by
  simp only [Advances, Succeeds, runs_analyze_iff wellNumbered counted]

namespace WellNumbered

/-- What may follow in an analysis consumes in its layout. -/
theorem exists_followOf
    (wellNumbered : layout.WellNumbered)
    (noFaults :
      layout.faults layout.attrs (layout.relations layout.attrs) = [])
    {owner : NodeId}
    {input : List Char}
    (mayFollow : (layout.analyze options).MayFollow owner input) :
    ∃ terminal,
      ((layout.openChart options).fillFollow.followOf owner).contains
          terminal = true ∧
        layout.Consumes terminal input := by
  obtain ⟨terminal, follows, consumes⟩ := mayFollow
  have consumesHere := (consumes_analyze_iff wellNumbered).mp consumes
  rw [analyze_eq_of_faults_eq_nil noFaults] at follows
  exact ⟨terminal, follows, consumesHere⟩

/--
A decision is reported if its first way consumes and a terminal that consumes
leads the second way.
-/
theorem detects
    (wellNumbered : layout.WellNumbered)
    (noFaults :
      layout.faults layout.attrs (layout.relations layout.attrs) = [])
    (enabled : options.conflicts = true)
    {shape : Shape NodeId}
    {decision : Decision}
    (found : layout.shape? decision.owner = some shape)
    (isCompound : shape.isTerminal = false)
    (decides : decision ∈ shape.decisions decision.owner)
    {input : List Char}
    (firstAdvances : Advances layout.view decision.first input)
    {right : NodeId}
    (leadsSecond :
      ((layout.openChart options).fillFollow.secondTerms
        decision).contains right = true)
    (rightConsumes : layout.Consumes right input) :
    (layout.analyze options).Detects decision input := by
  have describes :=
    (wellNumbered.describes_openChart options).fillFollow
  obtain ⟨left, leadsFirst, leftConsumes⟩ :=
    describes.exists_firstOf wellNumbered firstAdvances
  have collides :=
    Chart.mem_collisions leadsFirst leadsSecond
      (wellNumbered.relates_nonDisjoint leftConsumes rightConsumes)
  obtain ⟨conflict, reported, sameFirst, sameSecond, sameOwner, member⟩ :=
    Chart.exists_conflict
      (describes.mem_decisions wellNumbered found isCompound decides)
      collides
  refine
    ⟨conflict, ?_, sameFirst, sameSecond, sameOwner, (left, right), member,
      (consumes_analyze_iff wellNumbered).mpr leftConsumes,
      (consumes_analyze_iff wellNumbered).mpr rightConsumes⟩
  rw [analyze_eq_of_faults_eq_nil noFaults]
  simpa [enabled] using reported

/-- A choice between two alternatives that may both consume is reported. -/
theorem detects_choice
    (wellNumbered : layout.WellNumbered)
    (noFaults :
      layout.faults layout.attrs (layout.relations layout.attrs) = [])
    (enabled : options.conflicts = true)
    {owner first second : NodeId}
    {parts : List NodeId}
    (found : layout.shape? owner = some (.group .choice parts))
    (isPair : (first, second) ∈ orderedPairs parts)
    (secondCounted : second < layout.exprCount)
    {input : List Char}
    (firstAdvances : Advances layout.view first input)
    (secondWay :
      Advances layout.view second input ∨
        (((layout.analyze options).chart.attrsOf second).transparent =
            true ∧
          (layout.analyze options).MayFollow owner input)) :
    (layout.analyze options).Detects
      { first := first, second := some second, owner := owner }
      input := by
  have describes :=
    (wellNumbered.describes_openChart options).fillFollow
  have decides :
      { first := first, second := some second, owner := owner } ∈
        Shape.decisions owner (.group .choice parts) :=
    List.mem_map.mpr ⟨(first, second), isPair, rfl⟩
  have leads :
      ∃ right,
        ((layout.openChart options).fillFollow.secondTerms
          { first := first
            second := some second
            owner := owner }).contains right = true ∧
          layout.Consumes right input := by
    rcases secondWay with secondAdvances | ⟨transparent, mayFollow⟩
    · obtain ⟨right, opens, consumes⟩ :=
        describes.exists_firstOf wellNumbered secondAdvances
      exact
        ⟨right, Chart.contains_secondTerms_of_firstOf opens, consumes⟩
    · obtain ⟨right, follows, consumes⟩ :=
        wellNumbered.exists_followOf noFaults mayFollow
      rw [analyze_eq_of_faults_eq_nil noFaults] at transparent
      exact
        ⟨right,
          describes.contains_secondTerms_of_followOf secondCounted
            transparent follows (wellNumbered.lt_of_consumes consumes),
          consumes⟩
  obtain ⟨right, leadsSecond, rightConsumes⟩ := leads
  exact wellNumbered.detects noFaults enabled found rfl decides
    firstAdvances leadsSecond rightConsumes

/-- An iteration or option whose body and tail may both consume is reported. -/
theorem detects_unary
    (wellNumbered : layout.WellNumbered)
    (noFaults :
      layout.faults layout.attrs (layout.relations layout.attrs) = [])
    (enabled : options.conflicts = true)
    {owner body : NodeId}
    {operator : Operator}
    (found : layout.shape? owner = some (.unary operator body))
    (isOptional :
      operator = .oneOrMore ∨ operator = .zeroOrMore ∨
        operator = .optional)
    {input : List Char}
    (bodyAdvances : Advances layout.view body input)
    (mayFollow : (layout.analyze options).MayFollow owner input) :
    (layout.analyze options).Detects
      { first := body, second := none, owner := owner } input := by
  have decides :
      { first := body, second := none, owner := owner } ∈
        Shape.decisions owner (.unary operator body) := by
    rcases isOptional with rfl | rfl | rfl <;>
      exact List.mem_cons_self
  obtain ⟨right, follows, consumes⟩ :=
    wellNumbered.exists_followOf noFaults mayFollow
  exact wellNumbered.detects noFaults enabled found rfl decides
    bodyAdvances follows consumes

end WellNumbered

end Layout

namespace Grammar

/--
On every input where the first way of a decision consumes and the second may
too, the decision is reported with a pair of terminals that both consume there.
-/
theorem conflicts_complete
    {grammar : Grammar}
    {options : Options}
    {analysis : Analysis}
    (analyzed : grammar.analyze options = .ok analysis)
    (enabled : options.conflicts = true)
    (wellFormed : analysis.wellFormed = true)
    (input : List Char) :
    (∀ {owner first second : NodeId}
        {parts : List NodeId}
        {earlier later : Nat},
        analysis.layout.shape? owner = some (.group .choice parts) →
        earlier < later →
        parts[earlier]? = some first →
        parts[later]? = some second →
        Advances analysis.layout.view first input →
        Advances analysis.layout.view second input ∨
          ((analysis.chart.attrsOf second).transparent = true ∧
            analysis.MayFollow owner input) →
        analysis.Detects
          { first := first, second := some second, owner := owner }
          input) ∧
      ∀ {owner body : NodeId}
        {operator : Operator},
        analysis.layout.shape? owner = some (.unary operator body) →
        operator = .oneOrMore ∨ operator = .zeroOrMore ∨
          operator = .optional →
        Advances analysis.layout.view body input →
        analysis.MayFollow owner input →
        analysis.Detects
          { first := body, second := none, owner := owner }
          input := by
  obtain ⟨clean, rfl⟩ := analyze_eq_ok_iff.mp analyzed
  have wellNumbered := wellNumbered_layOut clean
  have noFaults := Layout.faults_eq_nil_of_wellFormed wellFormed
  constructor
  · intro owner first second parts earlier later found inOrder isFirst
      isSecond firstAdvances secondWay
    have foundHere := Layout.shape?_of_shape?_analyze found (by simp)
    have firstCounted : first < grammar.layOut.exprCount :=
      wellNumbered.mentioned_lt foundHere (List.mem_of_getElem? isFirst)
    have secondCounted : second < grammar.layOut.exprCount :=
      wellNumbered.mentioned_lt foundHere (List.mem_of_getElem? isSecond)
    rw [Layout.advances_analyze_iff wellNumbered firstCounted]
      at firstAdvances
    rw [Layout.advances_analyze_iff wellNumbered secondCounted]
      at secondWay
    exact wellNumbered.detects_choice noFaults enabled foundHere
      (mem_orderedPairs inOrder isFirst isSecond) secondCounted
      firstAdvances secondWay
  · intro owner body operator found isOptional bodyAdvances mayFollow
    have foundHere := Layout.shape?_of_shape?_analyze found (by simp)
    have bodyCounted : body < grammar.layOut.exprCount :=
      wellNumbered.mentioned_lt foundHere List.mem_cons_self
    rw [Layout.advances_analyze_iff wellNumbered bodyCounted]
      at bodyAdvances
    exact wellNumbered.detects_unary noFaults enabled foundHere isOptional
      bodyAdvances mayFollow

/-- An `a` can be read in two ways, which the analysis of the letters reports. -/
theorem conflicts_complete_letters :
    letters.analyze {} = .ok (letters.layOut.analyze {}) ∧
      (letters.layOut.analyze {}).wellFormed = true ∧
      (letters.layOut.analyze {}).Detects
        { first := 0, second := some 1, owner := 5 } ['a'] := by
  obtain ⟨analyzed, wellFormed⟩ := analyze_letters
  have found :
      (letters.layOut.analyze {}).layout.shape? 5 =
        some (.group .choice [0, 1]) := by
    decide +kernel
  have literal :
      (letters.layOut.analyze {}).layout.shape? 0 =
        some (.terminal (.literal "a")) := by
    decide +kernel
  have range :
      (letters.layOut.analyze {}).layout.shape? 1 =
        some (.terminal (.range 'a' 'z')) := by
    decide +kernel
  refine ⟨analyzed, wellFormed, ?_⟩
  refine
    (conflicts_complete analyzed rfl wellFormed ['a']).1 found
      Nat.zero_lt_one rfl rfl ?_ (.inl ?_)
  · exact ⟨[], ⟨[.leaf 0 ['a']], .terminal literal rfl rfl⟩, by simp⟩
  · exact ⟨[], ⟨[.leaf 1 ['a']], .terminal range rfl rfl⟩, by simp⟩

end Grammar

end PegAudit
