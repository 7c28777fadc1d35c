import PegAudit.Analysis.Checked
import PegAudit.Proofs.Analysis.Terminals
import PegAudit.Proofs.Checked.Diagnosis

namespace PegAudit

/-!
# Filling a chart is not refused

All sets of terminals in a chart have the same room, so uniting them is never
refused, and strands mention only nodes of the layout.  The sweeps for the
first terminals of tails end because sets of terminals cannot grow for ever.
-/

/-- All nodes of a strand are nodes of the layout. -/
structure Strand.Within
    (layout : Layout)
    (strand : Strand) :
    Prop where
  called_lt : strand.called < layout.nodes.size
  outer_lt : strand.outer < layout.nodes.size
  elements_lt : ∀ element ∈ strand.elements, element < layout.nodes.size

namespace Chart

/-- A chart whose sets have room for all terminals and whose strands stay inside. -/
structure Furnished
    (chart : Chart) :
    Prop where
  exprCount_le : chart.layout.exprCount ≤ chart.layout.nodes.size
  room_firstOf :
    ∀ id, (chart.firstOf id).room = chart.noTerminals.room
  within_tailOf :
    ∀ {id strand},
      strand ∈ chart.tailOf id →
      strand.Within chart.layout

section Filling

/-- Consecutive pushes append to each tail the strands that call its node. -/
theorem foldlM_pushStrand?
    {strands : List Strand}
    {tails : Array (List Strand)}
    (inside : ∀ strand ∈ strands, strand.called < tails.size) :
    strands.foldlM pushStrand? tails =
      some (tails.mapIdx fun id tail =>
        tail ++ strands.filter (·.called == id)) := by
  induction strands generalizing tails with
  | nil =>
      have same :
          (tails.mapIdx fun _ tail => tail) = tails := by
        apply Array.ext <;> simp
      simp [same]
  | cons strand rest inductionHypothesis =>
      have here : strand.called < tails.size :=
        inside strand List.mem_cons_self
      have pushed :
          pushStrand? tails strand =
            some (tails.modify strand.called (· ++ [strand])) :=
        if_pos here
      have later :
          ∀ other ∈ rest,
            other.called <
              (tails.modify strand.called (· ++ [strand])).size := by
        intro other inRest
        rw [Array.size_modify]
        exact inside other (List.mem_cons_of_mem strand inRest)
      rw [List.foldlM_cons, pushed]
      refine (inductionHypothesis later).trans ?_
      congr 1
      apply Array.ext
      · simp
      · intro id _ _
        simp only [Array.getElem_mapIdx, Array.getElem_modify,
          List.filter_cons]
        by_cases isCalled : strand.called = id
        · simp [isCalled]
        · simp [isCalled]

end Filling

section Gathering

variable {chart : Chart}

/-- Consecutive elements are gathered without refusal. -/
theorem Furnished.gatherElements?_eq_some
    (furnished : chart.Furnished)
    {elements : List NodeId}
    (inside : ∀ element ∈ elements, element < chart.layout.nodes.size)
    {terms : IndexSet}
    (sameRoom : terms.room = chart.noTerminals.room) :
    chart.gatherElements? terms elements =
      some
        (((chart.attrs.reachable elements).map chart.firstOf).foldl
            IndexSet.union terms,
          elements.all fun element =>
            (chart.attrs.of element).transparent) := by
  induction elements generalizing terms with
  | nil =>
      rfl
  | cons element rest inductionHypothesis =>
      have visited : chart.layout.visit? [element] = some () :=
        Layout.visit?_eq_some (by simpa using inside element List.mem_cons_self)
      have united :
          terms.union? (chart.firstOf element) =
            some (terms.union (chart.firstOf element)) := by
        apply IndexSet.union?_eq_some
        rw [sameRoom, furnished.room_firstOf]
      simp only [gatherElements?, visited, united, Option.bind_eq_bind,
        Option.bind_some]
      by_cases passed : (chart.attrs.of element).transparent = true
      · have grownRoom :
            (terms.union (chart.firstOf element)).room =
              chart.noTerminals.room :=
          (IndexSet.room_union _ _).trans sameRoom
        have later :=
          inductionHypothesis
            (fun other inRest =>
              inside other (List.mem_cons_of_mem element inRest)) grownRoom
        simp [attrsOf, passed, later, AttrTable.reachable, upTo]
      · simp [attrsOf, passed, AttrTable.reachable, upTo]

/-- The first terminals along a strand are gathered without refusal. -/
theorem Furnished.exists_gather?
    (furnished : chart.Furnished)
    {follow : Array IndexSet}
    (holds : chart.HoldsTerminals follow)
    {strand : Strand}
    (within : strand.Within chart.layout)
    {terms : IndexSet}
    (sameRoom : terms.room = chart.noTerminals.room) :
    ∃ grown,
      chart.gather? follow terms strand = some grown ∧
        grown.room = chart.noTerminals.room ∧
        ∀ terminal,
          grown.contains terminal = true ↔
            terms.contains terminal = true ∨
              (strand.firstTermsIn chart follow).contains terminal =
                true := by
  have gathered :=
    furnished.gatherElements?_eq_some within.elements_lt sameRoom
  have visited : chart.layout.visit? [strand.outer] = some () :=
    Layout.visit?_eq_some (by simpa using within.outer_lt)
  have followRoom :
      (follow[strand.outer]?.getD chart.noTerminals).room =
        chart.noTerminals.room := by
    cases present : follow[strand.outer]? with
    | none =>
        rfl
    | some entry =>
        exact holds.room_eq present
  let own :=
    ((strand.opening chart.attrs).map chart.firstOf).foldl
      IndexSet.union terms
  have ownRoom : own.room = chart.noTerminals.room :=
    (IndexSet.room_foldl_union _ _).trans sameRoom
  have ownMembers
      (terminal : NodeId) :
      own.contains terminal = true ↔
        terms.contains terminal = true ∨
          (terminal < chart.noTerminals.room ∧
            ∃ element ∈ strand.opening chart.attrs,
              (chart.firstOf element).contains terminal = true) := by
    rw [IndexSet.contains_foldl_union, sameRoom]
    simp [and_comm]
  have stepped :
      chart.gather? follow terms strand =
        if strand.passesThrough chart.attrs then
          some (own.union (follow[strand.outer]?.getD chart.noTerminals))
        else
          some own := by
    have united :
        own.union? (follow[strand.outer]?.getD chart.noTerminals) =
          some
            (own.union (follow[strand.outer]?.getD chart.noTerminals)) := by
      apply IndexSet.union?_eq_some
      rw [ownRoom, followRoom]
    rw [gather?, gathered, Strand.passesThrough, Bool.and_comm]
    simp only [Option.bind_eq_bind, Option.bind_some, visited]
    split
    · exact united
    · rfl
  by_cases passes : strand.passesThrough chart.attrs = true
  · refine ⟨_, by rw [stepped, if_pos passes], ?_, ?_⟩
    · rw [IndexSet.room_union, ownRoom]
    · intro terminal
      rw [IndexSet.contains_union, Bool.or_eq_true, ownMembers,
        Strand.contains_firstTermsIn, ownRoom, Bool.and_eq_true,
        decide_eq_true_eq]
      simp only [passes, true_and]
      grind
  · refine ⟨own, by rw [stepped, if_neg passes], ownRoom, ?_⟩
    intro terminal
    rw [ownMembers, Strand.contains_firstTermsIn]
    simp only [passes, false_and, or_false, Bool.false_eq_true]

/-- The first terminals along a strand are the gathered ones. -/
theorem Furnished.gathered?_eq_some
    (furnished : chart.Furnished)
    (holds : chart.HoldsTerminals chart.follow)
    {strand : Strand}
    (within : strand.Within chart.layout) :
    chart.gather? chart.follow chart.noTerminals strand =
      some (strand.firstTerms chart) := by
  obtain ⟨grown, gathered, sameRoom, members⟩ :=
    furnished.exists_gather? holds within rfl
  rw [gathered, Option.some.injEq]
  apply IndexSet.eq_of_contains_eq
  · rw [sameRoom, Strand.firstTerms, Strand.room_firstTermsIn]
  · funext terminal
    rw [Bool.eq_iff_iff, members, Strand.firstTerms]
    simp [noTerminals]

/-- The first terminals along consecutive strands are gathered without refusal. -/
theorem Furnished.exists_foldlM_gather?
    (furnished : chart.Furnished)
    {follow : Array IndexSet}
    (holds : chart.HoldsTerminals follow)
    {strands : List Strand}
    (within : ∀ strand ∈ strands, strand.Within chart.layout)
    {terms : IndexSet}
    (sameRoom : terms.room = chart.noTerminals.room) :
    ∃ grown,
      strands.foldlM (chart.gather? follow) terms = some grown ∧
        grown.room = chart.noTerminals.room ∧
        ∀ terminal,
          grown.contains terminal = true ↔
            terms.contains terminal = true ∨
              ∃ strand ∈ strands,
                (strand.firstTermsIn chart follow).contains terminal =
                  true := by
  induction strands generalizing terms with
  | nil =>
      exact ⟨terms, rfl, sameRoom, by simp⟩
  | cons strand rest inductionHypothesis =>
      obtain ⟨first, gathered, firstRoom, firstMembers⟩ :=
        furnished.exists_gather? holds (within strand List.mem_cons_self)
          sameRoom
      obtain ⟨grown, later, grownRoom, members⟩ :=
        inductionHypothesis
          (fun other inRest => within other (List.mem_cons_of_mem strand inRest))
          firstRoom
      refine ⟨grown, ?_, grownRoom, ?_⟩
      · rw [List.foldlM_cons, gathered]
        exact later
      · intro terminal
        rw [members, firstMembers, List.exists_mem_cons_iff, or_assoc]

/-- An update of first terminals of tails is not refused. -/
theorem Furnished.updateFollow?_eq_some
    (furnished : chart.Furnished)
    {follow : Array IndexSet}
    (holds : chart.HoldsTerminals follow)
    {id : NodeId}
    (counted : id < chart.layout.exprCount)
    {current : IndexSet}
    (sameRoom : current.room = chart.noTerminals.room) :
    chart.updateFollow? follow id current =
      some (chart.updateFollow follow id current) := by
  have visited : chart.layout.visit? [id] = some () := by
    apply Layout.visit?_eq_some
    simpa using Nat.lt_of_lt_of_le counted furnished.exprCount_le
  have within :
      ∀ strand ∈ chart.tailOf id, strand.Within chart.layout :=
    fun _ inTail => furnished.within_tailOf inTail
  obtain ⟨terms, gathered, termsRoom, members⟩ :=
    furnished.exists_foldlM_gather? holds within rfl
  have united : current.union? terms = some (current.union terms) :=
    IndexSet.union?_eq_some (by rw [sameRoom, termsRoom])
  rw [updateFollow?, visited]
  simp only [Option.bind_eq_bind, Option.bind_some, gathered, united,
    Option.some.injEq]
  apply IndexSet.eq_of_contains_eq
  · rw [IndexSet.room_union, updateFollow, IndexSet.room_foldl_union]
  · funext terminal
    rw [Bool.eq_iff_iff, contains_updateFollow, IndexSet.contains_union]
    simp only [Bool.or_eq_true, Bool.and_eq_true, members,
      decide_eq_true_eq, noTerminals, IndexSet.contains_empty,
      Bool.false_eq_true, false_or, and_comm]

/-- The sweeps for the first terminals of tails end and miss nothing. -/
theorem Furnished.fillFollow?_eq_some
    (furnished : chart.Furnished)
    (prepared : chart.Prepared) :
    chart.fillFollow? = some chart.fillFollow := by
  have settled :
      settle? (sweep? chart.updateFollow? chart.layout.ids)
          (chart.layout.exprCount * chart.layout.terminalCount + 1)
          chart.follow =
        some chart.settleFollow := by
    apply prepared.growing.settle?_eq_some chart.layout.terminalCount
    · intro table index entry holds present
      exact IndexSet.count_le (holds.lt present)
    · intro table index holds listed
      rw [holds.size_eq]
      exact Nat.lt_of_lt_of_le (List.mem_range.mp listed)
        prepared.exprCount_le
    · intro table index entry holds listed present
      exact furnished.updateFollow?_eq_some holds (List.mem_range.mp listed)
        (holds.room_eq present)
    · simp [Layout.ids]
    · exact prepared.holds
  rw [fillFollow?, settled]
  rfl

end Gathering

end Chart

namespace Layout.WellNumbered

variable {layout : Layout}

/-- The first terminals of all expressions are filled in without refusal. -/
theorem fillFirst?_eq_some
    (wellNumbered : layout.WellNumbered) :
    (Chart.ofAttrs layout layout.attrs).fillFirst?
        (layout.relations layout.attrs) =
      some ((Chart.ofAttrs layout layout.attrs).fillFirst
        (layout.relations layout.attrs)) := by
  let chart := Chart.ofAttrs layout layout.attrs
  let relations := layout.relations layout.attrs
  have sizeFirst : chart.first.size = layout.exprCount := by
    simp [chart, Chart.ofAttrs, wellNumbered.size_nodes]
  have swept :
      sweep?
          (fun _ id _ => relations.firstTerms? layout.terminalCount id)
          layout.ids chart.first =
        some (chart.first.mapIdx fun id _ =>
          relations.firstTerms layout.terminalCount id) := by
    rw [ids, ← sizeFirst]
    apply sweep?_range_eq_some
    intro earlier id entry present
    have counted := (Array.getElem?_eq_some_iff.mp present).1
    rw [sizeFirst] at counted
    exact layout.firstTerms?_eq_some layout.attrs counted
  have filled :
      (chart.first.mapIdx fun id _ =>
          relations.firstTerms layout.terminalCount id) =
        (chart.fillFirst relations).first := by
    apply Array.ext
    · simp [chart, Chart.fillFirst, Chart.ofAttrs]
    · intro id _ _
      simp [chart, Chart.fillFirst, Chart.ofAttrs]
  calc
    chart.fillFirst? relations =
        (sweep?
          (fun _ id _ => relations.firstTerms? layout.terminalCount id)
          layout.ids chart.first).map
            fun first => { chart with first := first } := by
      rw [Chart.fillFirst?, Option.map_eq_bind]
      rfl
    _ = some (chart.fillFirst relations) := by
      rw [swept, filled]
      rfl

/-- The nodes of a strand are expressions. -/
theorem strand_lt
    (wellNumbered : layout.WellNumbered)
    {strand : Strand}
    (isStrand : strand ∈ layout.strands layout.attrs) :
    strand.called < layout.exprCount ∧
      strand.outer < layout.exprCount ∧
      ∀ element ∈ strand.elements, element < layout.exprCount := by
  obtain ⟨outer, compound, fromOuter⟩ := List.mem_flatMap.mp isStrand
  unfold strandsFrom at fromOuter
  split at fromOuter
  case h_1 shape found =>
    obtain ⟨site, isSite, rfl⟩ := List.mem_map.mp fromOuter
    have siteCounted :=
      wellNumbered.sites_lt found (List.mem_filter.mp isSite).1
    exact
      ⟨siteCounted.1, wellNumbered.lt_of_mem_compoundIds compound,
        siteCounted.2⟩
  case h_2 =>
    cases fromOuter

/-- The tails are filled in without refusal. -/
theorem fillTails?_eq_some
    (wellNumbered : layout.WellNumbered)
    (relations : Relations) :
    ((Chart.ofAttrs layout layout.attrs).fillFirst relations).fillTails? =
      some
        ((Chart.ofAttrs layout layout.attrs).fillFirst
          relations).fillTails := by
  let chart := (Chart.ofAttrs layout layout.attrs).fillFirst relations
  have visited :
      layout.visit? (layout.compoundIds.flatMap chart.strandNodes) =
        some () := by
    apply wellNumbered.visit?_eq_some
    intro id member
    obtain ⟨outer, compound, isNode⟩ := List.mem_flatMap.mp member
    rcases List.mem_cons.mp isNode with rfl | ofSite
    · exact wellNumbered.lt_of_mem_compoundIds compound
    · obtain ⟨site, isSite, ofSite⟩ := List.mem_flatMap.mp ofSite
      cases found : layout.shape? outer with
      | none =>
          simp [chart, Chart.fillFirst, Chart.ofAttrs, found] at isSite
      | some shape =>
          have siteCounted :
              site.1 < layout.exprCount ∧
                ∀ element ∈ site.2, element < layout.exprCount := by
            apply wellNumbered.sites_lt found
            simpa [chart, Chart.fillFirst, Chart.ofAttrs, found] using
              isSite
          rcases List.mem_cons.mp ofSite with rfl | isElement
          · exact siteCounted.1
          · exact siteCounted.2 id isElement
  have pushed :
      (layout.strands layout.attrs).foldlM Chart.pushStrand? chart.tails =
        some chart.fillTails.tails := by
    rw [Chart.foldlM_pushStrand?]
    · congr 1
      apply Array.ext
      · simp [chart, Chart.fillTails, Chart.fillFirst, Chart.ofAttrs]
      · intro id _ _
        simp [chart, Chart.fillTails, Chart.fillFirst, Chart.ofAttrs]
    · intro strand isStrand
      simpa [chart, Chart.fillFirst, Chart.ofAttrs,
        wellNumbered.size_nodes] using wellNumbered.called_lt isStrand
  calc
    chart.fillTails? =
        (layout.visit?
          (layout.compoundIds.flatMap chart.strandNodes)).bind fun _ =>
            ((layout.strands layout.attrs).foldlM Chart.pushStrand?
              chart.tails).map fun tails => { chart with tails := tails } := by
      rw [Chart.fillTails?]
      simp only [Option.map_eq_bind]
      rfl
    _ = some chart.fillTails := by
      rw [visited, pushed]
      rfl

end Layout.WellNumbered

namespace Chart

/-- Making room for the remaining input is not refused. -/
theorem withRemainder?_eq_some
    {chart : Chart}
    (hasStart : chart.layout.rules ≠ [])
    (startInside : chart.layout.start < chart.layout.nodes.size)
    (tailsFilled : chart.tails.size = chart.layout.nodes.size) :
    chart.withRemainder? = some chart.withRemainder := by
  have headIs : chart.layout.rules.head? = some chart.layout.start := by
    cases rules : chart.layout.rules with
    | nil =>
        exact (hasStart rules).elim
    | cons rule rest =>
        simp [Layout.start, rules]
  have visited : chart.layout.visit? [chart.layout.start] = some () :=
    Layout.visit?_eq_some (by simpa using startInside)
  have visitedLater :
      chart.layout.withRemainder.visit?
          [chart.layout.start, chart.layout.nodes.size] =
        some () := by
    apply Layout.visit?_eq_some
    simpa [Layout.withRemainder] using Nat.lt_succ_of_lt startInside
  have pushed
      (strand : Strand)
      (isCalled : strand.called = chart.layout.start) :
      pushStrand? (chart.tails.push []) strand =
        some
          ((chart.tails.modify chart.layout.start
            (· ++ [strand])).push []) := by
    have inside : strand.called < (chart.tails.push []).size := by
      rw [isCalled, Array.size_push, tailsFilled]
      exact Nat.lt_succ_of_lt startInside
    rw [pushStrand?, if_pos inside, Option.some.injEq]
    apply Array.ext
    · simp
    · intro id within _
      simp only [Array.getElem_modify, Array.getElem_push,
        Array.size_modify]
      grind
  unfold withRemainder? withRemainder
  simp only [headIs, visited, Option.bind_eq_bind, Option.bind_some]
  split
  · rfl
  · simp only [visitedLater, Option.bind_some]
    rw [pushed _ rfl]
    rfl

end Chart

namespace Layout.WellNumbered

variable {layout : Layout}

/-- The chart is opened without refusal. -/
theorem openChart?_eq_some
    (wellNumbered : layout.WellNumbered)
    (options : Options) :
    layout.openChart? layout.attrs (layout.relations layout.attrs) options =
      some (layout.openChart options) := by
  simp only [openChart?, wellNumbered.fillFirst?_eq_some,
    wellNumbered.fillTails?_eq_some, Option.bind_eq_bind,
    Option.bind_some, openChart]
  split
  · apply Chart.withRemainder?_eq_some wellNumbered.rules_ne_nil
    · have := wellNumbered.start_lt
      rwa [← wellNumbered.size_nodes] at this
    · simp [Chart.fillTails, Chart.fillFirst, Chart.ofAttrs]
  · rfl

/-- The nodes of an opened chart are those of the layout and what it leaves over. -/
theorem size_nodes_openChart
    (wellNumbered : layout.WellNumbered)
    (options : Options) :
    (layout.openChart options).layout.nodes.size =
      layout.exprCount + (layout.remainderStrands options).length := by
  rw [← wellNumbered.size_nodes]
  unfold openChart remainderStrands Chart.withRemainder
  dsimp only
  by_cases wanted : options.remainingInputTail = true
  · by_cases ends : (layout.attrs.of layout.start).endsInput = true
    · simp [wanted, ends, Chart.attrsOf, Chart.fillTails, Chart.fillFirst,
        Chart.ofAttrs]
    · simp [wanted, ends, Chart.attrsOf, Chart.fillTails, Chart.fillFirst,
        Chart.ofAttrs, withRemainder]
  · simp [wanted, Chart.fillTails, Chart.fillFirst, Chart.ofAttrs]

/-- An opened chart is furnished. -/
theorem furnished_openChart
    (wellNumbered : layout.WellNumbered)
    (options : Options) :
    (layout.openChart options).Furnished := by
  have sizeNodes := wellNumbered.size_nodes_openChart options
  refine
    { exprCount_le := ?_
      room_firstOf := room_firstOf_openChart layout options
      within_tailOf := ?_ }
  · rw [(wellNumbered.describes_openChart options).exprCount_eq, sizeNodes]
    exact Nat.le_add_right _ _
  · intro id strand inTail
    rw [wellNumbered.tailOf_openChart] at inTail
    rcases List.mem_append.mp inTail with isSite | isRemainder
    · have counted :=
        wellNumbered.strand_lt (List.mem_of_mem_filter isSite)
      refine
        { called_lt := ?_
          outer_lt := ?_
          elements_lt := ?_ }
      · rw [sizeNodes]
        exact Nat.lt_add_right _ counted.1
      · rw [sizeNodes]
        exact Nat.lt_add_right _ counted.2.1
      · intro element member
        rw [sizeNodes]
        exact Nat.lt_add_right _ (counted.2.2 element member)
    · split at isRemainder
      case isFalse =>
        cases isRemainder
      case isTrue =>
        have startCounted := wellNumbered.start_lt
        unfold remainderStrands at isRemainder sizeNodes
        split at isRemainder
        case isFalse =>
          cases isRemainder
        case isTrue wanted =>
          rw [if_pos wanted, List.length_singleton] at sizeNodes
          cases List.mem_singleton.mp isRemainder
          refine
            { called_lt := ?_
              outer_lt := ?_
              elements_lt := ?_ }
          · rw [sizeNodes]
            exact Nat.lt_succ_of_lt startCounted
          · rw [sizeNodes]
            exact Nat.lt_succ_of_lt startCounted
          · intro element member
            rw [sizeNodes, List.mem_singleton.mp member,
              wellNumbered.size_nodes]
            exact Nat.lt_succ_self _

end Layout.WellNumbered

end PegAudit
