import PegAudit.Proofs.Checked.Conflicts
import PegAudit.Proofs.Checked.Layout
import PegAudit.Proofs.Checked.Strands
import PegAudit.Proofs.Layout.Arrangement

namespace PegAudit

/-!
# No analysis is refused

The stages put together: a grammar is laid out or has its defects listed, and
the layout goes through attributes, relations, faults, first terminals, tails
and conflicts without a check that fails.  Neither does the report refuse what
was found.
-/

namespace Grammar

/-- In a grammar without defects every group has a part. -/
theorem groupsHaveParts_layOut
    {grammar : Grammar}
    (clean : grammar.defects = []) :
    grammar.layOut.GroupsHaveParts := by
  intro id grouping parts found
  obtain ⟨site, cursor, expression, places, _, sameShape⟩ :=
    exists_places_of_shape? found
  have noDefect := places.defects_eq_nil clean
  cases expression with
  | group written inside =>
      simp only [Expr.shapeAt, Shape.group.injEq] at sameShape
      obtain ⟨rfl, rfl⟩ := sameShape
      have enough : ¬ inside.length < 2 := by
        intro few
        simp [Expr.defects, few] at noDefect
      intro noParts
      have noneInside := congrArg List.length noParts
      rw [Expr.length_topIds] at noneInside
      exact enough (by simp_all)
  | _ =>
      cases sameShape

end Grammar

namespace Layout

variable {layout : Layout}

/-- An opened chart keeps the nodes of the layout. -/
theorem node?_openChart
    (layout : Layout)
    (options : Options)
    {id : NodeId}
    (present : id < layout.nodes.size) :
    (layout.openChart options).layout.node? id = layout.node? id := by
  unfold openChart
  dsimp only
  split
  case isFalse =>
    rfl
  case isTrue =>
    rcases Chart.layout_withRemainder
        ((Chart.ofAttrs layout layout.attrs).fillFirst
          (layout.relations layout.attrs)).fillTails with same | extended
    · rw [same]
      rfl
    · rw [extended]
      exact layout.node?_withRemainder_of_lt present

/-- A chart of which only the attributes are known has no strands. -/
theorem tailOf_ofAttrs
    (layout : Layout)
    (table : AttrTable)
    (id : NodeId) :
    (Chart.ofAttrs layout table).tailOf id = [] := by
  by_cases present : id < layout.nodes.size <;>
    simp [Chart.tailOf, Chart.ofAttrs, present]

namespace WellNumbered

/-- The expressions are nodes of the opened chart. -/
theorem lt_size_nodes_openChart
    (wellNumbered : layout.WellNumbered)
    (options : Options)
    {id : NodeId}
    (counted : id < layout.exprCount) :
    id < (layout.openChart options).layout.nodes.size := by
  rw [wellNumbered.size_nodes_openChart]
  exact Nat.lt_add_right _ counted

/-- A decision is between nodes of the opened chart. -/
theorem nodes_lt_of_mem_decisions
    (wellNumbered : layout.WellNumbered)
    (options : Options)
    {decision : Decision}
    (decides : decision ∈ (layout.openChart options).decisions)
    {id : NodeId}
    (isNode : id ∈ decision.nodes) :
    id < (layout.openChart options).layout.nodes.size := by
  rw [wellNumbered.decisions_openChart] at decides
  obtain ⟨owner, compound, ofOwner⟩ := List.mem_flatMap.mp decides
  have ownerCounted := wellNumbered.lt_of_mem_compoundIds compound
  apply wellNumbered.lt_size_nodes_openChart
  cases found : layout.shape? owner with
  | some shape =>
      rw [found] at ofOwner
      rcases Shape.mem_nodes_of_mem_decisions ofOwner isNode with
        rfl | isMentioned
      · exact ownerCounted
      · exact wellNumbered.mentioned_lt found isMentioned
  | none =>
      rw [found] at ofOwner
      cases ofOwner

/-- Conflicts are found without refusal. -/
theorem conflicts?_eq_some
    (wellNumbered : layout.WellNumbered)
    (options : Options) :
    (layout.openChart options).fillFollow.conflicts?
        (layout.relations layout.attrs) =
      some
        ((layout.openChart options).fillFollow.conflicts
          (layout.relations layout.attrs)) := by
  have describes := wellNumbered.describes_openChart options
  apply (wellNumbered.terminated_fillFollow options).conflicts?_eq_some
  · exact wellNumbered.uniform_nonDisjoint_openChart options
  · exact describes.terminalCount_eq.symm
  · intro id compound
    apply wellNumbered.lt_size_nodes_openChart
    apply wellNumbered.lt_of_mem_compoundIds
    rwa [Chart.layout_fillFollow, wellNumbered.compoundIds_openChart]
      at compound
  · intro decision decides id isNode
    exact wellNumbered.nodes_lt_of_mem_decisions options decides isNode

/-- A layout whose groups have parts is analyzed without refusal. -/
theorem analyze?_eq_some
    (wellNumbered : layout.WellNumbered)
    (groupsHaveParts : layout.GroupsHaveParts)
    (options : Options) :
    layout.analyze? options = some (layout.analyze options) := by
  have filled :=
    (wellNumbered.furnished_openChart options).fillFollow?_eq_some
      (wellNumbered.prepared_openChart options)
  have opened := wellNumbered.openChart?_eq_some options
  have notes := wellNumbered.notes?_eq_some groupsHaveParts layout.attrs
  have conflicts := wellNumbered.conflicts?_eq_some options
  unfold attrs at filled opened notes conflicts
  simp only [analyze?, analyze, wellNumbered.settleAttrs?_eq_some,
    wellNumbered.relations?_eq_some, wellNumbered.faults?_eq_some,
    Option.bind_eq_bind, Option.bind_some, attrs]
  by_cases noFaults :
      (layout.faults layout.settleAttrs.state
        (layout.relations layout.settleAttrs.state)).isEmpty = true
  · simp only [noFaults, if_true, notes, opened, filled, conflicts,
      Option.bind_some]
    cases options.styleNotes <;> cases options.conflicts <;> rfl
  · simp only [noFaults]
    rfl

/-- What an analysis reports of a conflict is there to be shown. -/
theorem placed_analyze
    (wellNumbered : layout.WellNumbered)
    {options : Options}
    {conflict : Conflict}
    (reported : conflict ∈ (layout.analyze options).conflicts) :
    conflict.placed (layout.analyze options).layout = true := by
  unfold analyze at reported ⊢
  dsimp only at reported ⊢
  split at reported
  case isFalse =>
    cases reported
  case isTrue noFaults =>
    rw [if_pos noFaults]
    dsimp only [Analysis.layout] at reported ⊢
    split at reported
    case isFalse =>
      cases reported
    case isTrue =>
      apply (wellNumbered.terminated_fillFollow options).placed
        (wellNumbered.uniform_nonDisjoint_openChart options) ?_ ?_ reported
      · rw [Chart.layout_fillFollow, wellNumbered.size_nodes_openChart,
          (wellNumbered.describes_openChart options).terminalCount_eq]
        exact Nat.le_add_right_of_le wellNumbered.terminalCount_le
      · intro decision decides id isNode
        exact wellNumbered.nodes_lt_of_mem_decisions options decides isNode

/-- Strands of the layout lead from parts to owners, or from rules. -/
theorem mem_children_of_mem_strands
    (wellNumbered : layout.WellNumbered)
    {strand : Strand}
    (isStrand : strand ∈ layout.strands layout.attrs)
    (notRule : strand.called ∉ layout.rules) :
    strand.outer ∈ layout.compoundIds ∧
      strand.called ∈ layout.children strand.outer := by
  obtain ⟨outer, compound, fromOuter⟩ := List.mem_flatMap.mp isStrand
  unfold strandsFrom at fromOuter
  split at fromOuter
  case h_2 =>
    cases fromOuter
  case h_1 shape found =>
    obtain ⟨site, isSite, rfl⟩ := List.mem_map.mp fromOuter
    have mentioned :=
      (Shape.mentioned_of_mem_sites (List.mem_filter.mp isSite).1).1
    have isPart : site.1 ∈ shape.children := by
      cases shape with
      | reference target rule =>
          have isRule := wellNumbered.reference_rule found
          rw [← List.mem_singleton.mp mentioned] at isRule
          exact (notRule isRule).elim
      | _ =>
          exact mentioned
    refine ⟨compound, ?_⟩
    rw [children, Strand.ofCall, found]
    exact isPart

/-- Strands that do not lead from rules lead to nodes with fewer rounds ahead. -/
theorem rounds_lt_of_mem_strands
    (wellNumbered : layout.WellNumbered)
    {strand : Strand}
    (isStrand : strand ∈ layout.strands layout.attrs)
    (notRule : strand.called ∉ layout.rules) :
    layout.rounds strand.outer < layout.rounds strand.called := by
  obtain ⟨compound, isPart⟩ :=
    wellNumbered.mem_children_of_mem_strands isStrand notRule
  have outerCounted := wellNumbered.lt_of_mem_compoundIds compound
  have notTerminal : layout.terminalCount ≤ strand.outer :=
    (List.mem_range'_1.mp compound).1
  unfold children at isPart
  cases found : layout.shape? strand.outer with
  | none =>
      simp [found] at isPart
  | some shape =>
      rw [found] at isPart
      have later := wellNumbered.children_later found isPart
      unfold rounds
      split <;> split <;> lia

/-- The tail of a node that is not the top of a rule has its call sites only. -/
theorem mem_strands_of_mem_tailOf
    (wellNumbered : layout.WellNumbered)
    (marked : ∀ {id}, layout.isRule id = true ↔ id ∈ layout.rules)
    {options : Options}
    {id : NodeId}
    {strand : Strand}
    (inTail : strand ∈ (layout.openChart options).tailOf id)
    (notRule : (layout.openChart options).layout.isRule id = false) :
    strand.called = id ∧
      strand ∈ layout.strands layout.attrs ∧
        strand.called ∉ layout.rules := by
  obtain ⟨rfl, counted⟩ := wellNumbered.called_eq_of_mem_tailOf inTail
  have notTop : strand.called ∉ layout.rules := by
    rw [← marked]
    rw [isRule,
      layout.node?_openChart options
        (by rwa [wellNumbered.size_nodes])] at notRule
    exact Bool.eq_false_iff.mp notRule
  refine ⟨rfl, ?_, notTop⟩
  rw [wellNumbered.tailOf_openChart] at inTail
  rcases List.mem_append.mp inTail with isSite | isRemainder
  · exact List.mem_of_mem_filter isSite
  · split at isRemainder
    case isTrue isStart =>
      have startIsRule : layout.start ∈ layout.rules := by
        cases rules : layout.rules with
        | nil =>
            exact (wellNumbered.rules_ne_nil rules).elim
        | cons first others =>
            simp [start, rules]
      rw [← isStart] at startIsRule
      exact (notTop startIsRule).elim
    case isFalse =>
      cases isRemainder

/-- Sweeping to the end leaves a chart whose strands can be followed. -/
theorem navigable_fillFollow
    (wellNumbered : layout.WellNumbered)
    (marked : ∀ {id}, layout.isRule id = true ↔ id ∈ layout.rules)
    (options : Options) :
    (layout.openChart options).fillFollow.Navigable where
  furnished :=
    { wellNumbered.furnished_openChart options with }
  holds :=
    { (wellNumbered.prepared_openChart options).holds_fillFollow with
      size_eq := rfl }
  descends := by
    have describes := wellNumbered.describes_openChart options
    intro id strand inTail notRule
    obtain ⟨rfl, isStrand, notTop⟩ :=
      wellNumbered.mem_strands_of_mem_tailOf marked inTail notRule
    have fewer := wellNumbered.rounds_lt_of_mem_strands isStrand notTop
    unfold rounds at fewer ⊢
    rwa [Chart.layout_fillFollow, describes.terminalCount_eq,
      describes.exprCount_eq]

/-- A chart of which only the attributes are known has no strands to follow. -/
theorem navigable_ofAttrs
    (wellNumbered : layout.WellNumbered)
    (table : AttrTable) :
    (Chart.ofAttrs layout table).Navigable := by
  have noStrand
      {id : NodeId}
      {strand : Strand} :
      strand ∉ (Chart.ofAttrs layout table).tailOf id := by
    rw [layout.tailOf_ofAttrs]
    exact List.not_mem_nil
  refine
    { furnished :=
        { exprCount_le := ?_
          room_firstOf := ?_
          within_tailOf := fun inTail => (noStrand inTail).elim }
      holds :=
        { size_eq := rfl
          room_eq := ?_
          lt := ?_ }
      descends := fun inTail => (noStrand inTail).elim }
  · exact Nat.le_of_eq wellNumbered.size_nodes.symm
  · intro id
    by_cases present : id < layout.nodes.size <;>
      simp [Chart.firstOf, Chart.ofAttrs, Chart.noTerminals, present]
  · intro index entry present
    simp only [Chart.ofAttrs, Array.getElem?_replicate] at present
    split at present <;> cases present
    rfl
  · intro index entry terminal present member
    simp only [Chart.ofAttrs, Array.getElem?_replicate] at present
    split at present <;> cases present
    simp at member

/-- The strands of every analysis can be followed. -/
theorem navigable_analyze
    (wellNumbered : layout.WellNumbered)
    (marked : ∀ {id}, layout.isRule id = true ↔ id ∈ layout.rules)
    (options : Options) :
    (layout.analyze options).chart.Navigable := by
  unfold analyze
  dsimp only
  split
  · exact wellNumbered.navigable_fillFollow marked options
  · exact wellNumbered.navigable_ofAttrs layout.attrs

end WellNumbered

end Layout

/-- Conflicts whose nodes are there are reported without refusal. -/
theorem Analysis.report?_eq_some
    {analysis : Analysis}
    (placed :
      ∀ conflict ∈ analysis.conflicts,
        conflict.placed analysis.layout = true) :
    analysis.report? = some analysis.report := by
  have shown :
      analysis.conflicts.mapM (Conflict.lines? analysis.layout) =
        some
          (analysis.conflicts.map fun conflict =>
            conflict.text analysis.layout ::
              conflict.pairs.map fun pair =>
                "  " ++ Conflict.pairText analysis.layout pair) :=
    mapM_eq_some fun conflict reported => if_pos (placed conflict reported)
  rw [report?, shown, report, reportLines, List.flatMap_def]
  rfl

/--
Whatever is asked of an analysis is answered: its report, each of its
conflicts and tails, and the strands of the tails with all that come out of
them.
-/
structure Analysis.Answers
    (analysis : Analysis) :
    Prop where
  report? :
    analysis.report? = some analysis.report
  lines? :
    ∀ conflict ∈ analysis.conflicts,
      ∃ lines, conflict.lines? analysis.layout = some lines
  tails :
    ∀ id, analysis.chart.AnswersTail id
  strands :
    ∀ {strand},
      analysis.chart.Reaches strand →
      analysis.chart.Answers strand

namespace Grammar

/-- No grammar is refused, whatever is wrong with it. -/
theorem analyze?_eq_some
    (grammar : Grammar)
    (options : Options) :
    grammar.analyze? options = some (grammar.analyze options) := by
  rw [analyze?, toLayout?_eq_some, analyze]
  cases laidOut : grammar.toLayout with
  | error defects =>
      rfl
  | ok layout =>
      obtain ⟨clean, rfl⟩ := toLayout_eq_ok_iff.mp laidOut
      have analyzed :=
        (wellNumbered_layOut clean).analyze?_eq_some
          (groupsHaveParts_layOut clean) options
      simp only [Option.bind_eq_bind, Option.bind_some, analyzed]
      rfl

/-- An analysis that a grammar has answers whatever is asked of it. -/
theorem answers_of_analyze
    {grammar : Grammar}
    {options : Options}
    {analysis : Analysis}
    (analyzed : grammar.analyze options = .ok analysis) :
    analysis.Answers := by
  obtain ⟨clean, rfl⟩ := analyze_eq_ok_iff.mp analyzed
  have wellNumbered := wellNumbered_layOut clean
  have navigable :=
    wellNumbered.navigable_analyze isRule_layOut_iff options
  exact
    { report? :=
        Analysis.report?_eq_some fun conflict reported =>
          wellNumbered.placed_analyze reported
      lines? := fun conflict reported =>
        ⟨_, if_pos (wellNumbered.placed_analyze reported)⟩
      tails := navigable.answersTail
      strands := navigable.answers }

/--
No check fails, neither in the analysis of a grammar nor in anything that is
asked of the analysis afterwards.
-/
theorem analyze_never_refused
    (grammar : Grammar)
    (options : Options) :
    grammar.analyze? options = some (grammar.analyze options) ∧
      ∀ analysis,
        grammar.analyze options = .ok analysis →
        analysis.Answers :=
  ⟨grammar.analyze?_eq_some options,
    fun _ analyzed => answers_of_analyze analyzed⟩

/-- The brackets are analyzed, and their analysis can be asked anything. -/
theorem analyze_never_refused_brackets :
    brackets.analyze? {} = some (.ok (brackets.layOut.analyze {})) ∧
      (brackets.layOut.analyze {}).Answers := by
  have analyzed :
      brackets.analyze {} = .ok (brackets.layOut.analyze {}) :=
    analyze_eq_ok_iff.mpr ⟨defects_brackets, rfl⟩
  obtain ⟨notRefused, answered⟩ := analyze_never_refused brackets {}
  rw [analyzed] at notRefused
  exact ⟨notRefused, answered _ analyzed⟩

end Grammar

end PegAudit
