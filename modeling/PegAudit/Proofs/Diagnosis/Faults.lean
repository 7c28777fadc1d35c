import PegAudit.Proofs.Attrs.Settling
import PegAudit.Proofs.Diagnosis.Notes
import PegAudit.Proofs.Layout.Arrangement
import PegAudit.Proofs.Layout.ReadBack
import PegAudit.Proofs.Renumbering.Findings

namespace PegAudit

/-!
# Exactly the faults are found

A cycle of calls passes through the top node of a rule, so looking at rules is
enough.  Faulty iterations are listed by node, equal texts once; left recursion
is listed by rule.  No two rules have one name, so no left recursion is taken
for a repetition of another.
-/

/-- The node repeats a body. -/
def Layout.Iterates
    (layout : Layout)
    (id body : NodeId) :
    Prop :=
  layout.shape? id = some (.unary .oneOrMore body) ∨
    layout.shape? id = some (.unary .zeroOrMore body)

namespace Analysis

variable
  (analysis : Analysis)

/-- One or more calls lead from the first node to the second. -/
def Leads :
    NodeId →
    NodeId →
    Prop :=
  Relation.TransGen analysis.relations.calls.Relates

/-- The node repeats a nullable body and has this fault. -/
def NullableAt
    (id : NodeId)
    (fault : Fault) :
    Prop :=
  ∃ body,
    analysis.layout.Iterates id body ∧
      (analysis.chart.attrsOf body).nullable = true ∧
        fault =
          .nullableIteration (analysis.layout.simple body)
            (analysis.layout.source id)

/-- The called nodes that lead back to a rule are some, and make up this fault. -/
def RecursiveAt
    (rule : NodeId)
    (fault : Fault) :
    Prop :=
  ∃ via : List NodeId,
    via ≠ [] ∧
      via.Pairwise (· < ·) ∧
        (∀ id,
          id ∈ via ↔
            analysis.relations.calls.Relates rule id ∧
              analysis.Leads id rule) ∧
          fault =
            .leftRecursion (analysis.layout.name rule)
              (via.map analysis.layout.simple)

/-- All faulty iterations, each where it is first seen. -/
structure ListsIterations
    (iterations : List Fault) :
    Prop where
  nodup : iterations.Nodup
  mem_iff :
    ∀ fault,
      fault ∈ iterations ↔ ∃ id, analysis.NullableAt id fault
  /-- An earlier fault is found at a smaller number than any place of a later. -/
  ordered :
    iterations.Pairwise fun earlier later =>
      ∀ id,
        analysis.NullableAt id later →
        ∃ smaller < id, analysis.NullableAt smaller earlier

/-- The left recursion of every rule that leads back to itself, rule by rule. -/
structure ListsRecursions
    (recursions : List Fault) :
    Prop where
  by_rule :
    ∃ recursive : List NodeId,
      recursive.Sublist analysis.layout.rules ∧
        (∀ rule,
          rule ∈ recursive ↔
            rule ∈ analysis.layout.rules ∧ analysis.Leads rule rule) ∧
          List.Forall₂ analysis.RecursiveAt recursive recursions
  nodup : recursions.Nodup

/-- The verdict and the faults are what the relation of calls and the attributes say. -/
structure FaultsExact :
    Prop where
  wellFormed_iff :
    analysis.wellFormed = true ↔
      (∀ id, ¬ analysis.Leads id id) ∧
        ∀ id body,
          analysis.layout.Iterates id body →
          (analysis.chart.attrsOf body).nullable = false
  faults_eq :
    ∃ iterations recursions,
      analysis.faults = iterations ++ recursions ∧
        analysis.ListsIterations iterations ∧
          analysis.ListsRecursions recursions

end Analysis

namespace Layout

section Iterations

variable
  {layout : Layout}
  {table : AttrTable}
  {id : NodeId}

/-- What is found at an iteration with a nullable body. -/
theorem mem_iterationFaults_iff
    {fault : Fault} :
    fault ∈ layout.iterationFaults table id ↔
      ∃ body,
        layout.Iterates id body ∧
          (table.of body).nullable = true ∧
            fault =
              .nullableIteration (layout.simple body) (layout.source id) := by
  unfold iterationFaults Iterates
  cases layout.shape? id with
  | none =>
      simp
  | some shape =>
      cases shape with
      | unary operator body =>
          cases operator <;> simp
      | _ =>
          simp

/-- At one node there is one fault at most. -/
theorem iterationFaults_eq_of_mem
    {fault : Fault}
    (found : fault ∈ layout.iterationFaults table id) :
    layout.iterationFaults table id = [fault] := by
  unfold iterationFaults at found ⊢
  dsimp only at found ⊢
  split at found
  case h_3 =>
    cases found
  all_goals
    split at found
    case isTrue nullable =>
      rw [if_pos nullable, List.mem_singleton.mp found]
    case isFalse =>
      cases found

/-- Terminals are not at fault, so all nodes may be looked at. -/
theorem WellNumbered.flatMap_iterationFaults
    (wellNumbered : layout.WellNumbered) :
    layout.compoundIds.flatMap (layout.iterationFaults table) =
      layout.ids.flatMap (layout.iterationFaults table) := by
  have nothing :
      layout.terminalIds.flatMap (layout.iterationFaults table) = [] := by
    rw [List.flatMap_eq_nil_iff]
    intro id isTerminal
    apply List.eq_nil_iff_forall_not_mem.mpr
    intro fault found
    obtain ⟨body, iterates, _⟩ := mem_iterationFaults_iff.mp found
    have below := List.mem_range.mp isTerminal
    rcases iterates with here | here <;>
      cases (wellNumbered.isTerminal_iff here).mpr below
  rw [wellNumbered.ids_eq_append, List.flatMap_append, nothing,
    List.nil_append]

end Iterations

section Recursion

variable
  {layout : Layout}
  {table : AttrTable}

/-- The closure of the calls has the chains of calls. -/
theorem relates_callsClosure_iff
    {id other : NodeId} :
    (layout.relations table).callsClosure.Relates id other ↔
      Relation.TransGen (layout.relations table).calls.Relates id other :=
  (layout.uniform_relate (Shape.callees table)).relates_closure_iff

/-- A rule goes through the called nodes that lead back to it, by number. -/
theorem WellNumbered.mem_recursionWitnesses_iff
    (wellNumbered : layout.WellNumbered)
    {rule id : NodeId} :
    id ∈ layout.recursionWitnesses (layout.relations layout.attrs) rule ↔
      (layout.relations layout.attrs).calls.Relates rule id ∧
        Relation.TransGen (layout.relations layout.attrs).calls.Relates
          id rule := by
  rw [recursionWitnesses, List.mem_filter, Bool.and_eq_true,
    ← relates_callsClosure_iff, IndexRelation.Relates,
    IndexRelation.Relates]
  refine and_iff_right_of_imp ?_
  rintro ⟨called, _⟩
  rw [← IndexRelation.Relates, relates_calls wellNumbered] at called
  exact List.mem_range.mpr (wellNumbered.calls_lt called).2

/-- A rule that leads back to itself does so through a called node. -/
theorem WellNumbered.recursionWitnesses_ne_nil
    (wellNumbered : layout.WellNumbered)
    {rule : NodeId}
    (cycle :
      Relation.TransGen (layout.relations layout.attrs).calls.Relates
        rule rule) :
    layout.recursionWitnesses (layout.relations layout.attrs) rule ≠ [] := by
  -- If the first call of the cycle does not close it, what follows leads back.
  have throughCall :
      ∃ id,
        (layout.relations layout.attrs).calls.Relates rule id ∧
          Relation.TransGen (layout.relations layout.attrs).calls.Relates
            id rule := by
    obtain ⟨id, called, onward⟩ := Relation.TransGen.head'_iff.mp cycle
    rcases Relation.reflTransGen_iff_eq_or_transGen.mp onward with
      rfl | back
    · exact ⟨_, called, cycle⟩
    · exact ⟨id, called, back⟩
  obtain ⟨id, witness⟩ := throughCall
  exact List.ne_nil_of_mem
    (wellNumbered.mem_recursionWitnesses_iff.mpr witness)

/-- The left recursion of a rule that leads back to itself. -/
def leftRecursion
    (layout : Layout)
    (relations : Relations)
    (rule : NodeId) :
    Fault :=
  .leftRecursion (layout.simple rule)
    ((layout.recursionWitnesses relations rule).map layout.simple)

/-- Left recursion is found rule by rule. -/
theorem flatMap_recursionFaults
    (layout : Layout)
    (relations : Relations)
    (rules : List NodeId) :
    rules.flatMap (layout.recursionFaults relations) =
      (rules.filter fun rule =>
        relations.callsClosure.contains rule rule).map
          (layout.leftRecursion relations) := by
  induction rules with
  | nil =>
      rfl
  | cons rule rest inductionHypothesis =>
      rw [List.flatMap_cons, inductionHypothesis, recursionFaults]
      split
      case isTrue cycle =>
        simp [cycle, leftRecursion]
      case isFalse straight =>
        simp [straight]

end Recursion

/-- A rule that is read from a node has the name of the node. -/
theorem name_of_rule?
    {layout : Layout}
    {top : NodeId}
    {rule : Rule}
    (read : layout.rule? top = some rule) :
    layout.name top = rule.name := by
  obtain ⟨node, found, withBody⟩ := Option.bind_eq_some_iff.mp read
  obtain ⟨body, _, same⟩ := Option.bind_eq_some_iff.mp withBody
  cases same
  rw [name, found]
  rfl

/-- Rules that are read from nodes have the names of the nodes. -/
theorem map_name_of_mapM_rule?
    {layout : Layout}
    {tops : List NodeId}
    {rules : List Rule}
    (read : tops.mapM layout.rule? = some rules) :
    tops.map layout.name = rules.map Rule.name := by
  induction tops generalizing rules with
  | nil =>
      cases read
      rfl
  | cons top rest inductionHypothesis =>
      rw [List.mapM_cons] at read
      obtain ⟨rule, atTop, others⟩ := Option.bind_eq_some_iff.mp read
      obtain ⟨later, atRest, same⟩ := Option.bind_eq_some_iff.mp others
      cases same
      rw [List.map_cons, List.map_cons, inductionHypothesis atRest,
        name_of_rule? atTop]

section Analyzed

variable
  {layout : Layout}
  {options : Options}

/-- The relations of an analysis are those of its layout. -/
@[simp] theorem relations_analyze :
    (layout.analyze options).relations =
      layout.relations layout.attrs := by
  unfold analyze
  dsimp only
  split <;> rfl

/-- The faults of an analysis are those of its layout. -/
@[simp] theorem faults_analyze :
    (layout.analyze options).faults =
      layout.faults layout.attrs (layout.relations layout.attrs) := by
  unfold analyze
  dsimp only
  split
  case isTrue noFaults =>
    exact (List.isEmpty_iff.mp noFaults).symm
  case isFalse =>
    rfl

/-- The rules of an analysis are those of its layout. -/
@[simp] theorem rules_analyze :
    (layout.analyze options).layout.rules = layout.rules := by
  rcases layout.layout_analyze options with same | extended
  · rw [same]
  · rw [extended]
    rfl

/-- One or more calls lead from node to node as in the layout. -/
theorem leads_analyze :
    (layout.analyze options).Leads =
      Relation.TransGen (layout.relations layout.attrs).calls.Relates := by
  rw [Analysis.Leads, relations_analyze]

namespace WellNumbered

variable
  (wellNumbered : layout.WellNumbered)

include wellNumbered

/-- With and without faults the chart has the attributes of the expressions. -/
theorem attrsOf_analyze
    {id : NodeId}
    (counted : id < layout.exprCount) :
    (layout.analyze options).chart.attrsOf id = layout.attrs.of id := by
  unfold analyze
  dsimp only
  split
  · exact (wellNumbered.describes_openChart options).attrsOf_eq counted
  · rfl

/-- The same nodes repeat the same bodies in an analysis. -/
theorem iterates_analyze_iff
    {id body : NodeId} :
    (layout.analyze options).layout.Iterates id body ↔
      layout.Iterates id body := by
  constructor
  · rintro (plus | star)
    · exact .inl (shape?_of_shape?_analyze plus nofun)
    · exact .inr (shape?_of_shape?_analyze star nofun)
  · intro iterates
    have counted : id < layout.exprCount := by
      rcases iterates with here | here
      all_goals exact wellNumbered.exists_shape_iff.mp ⟨_, here⟩
    rwa [Iterates, shape?_analyze wellNumbered counted]

/-- A repeated body and the node that repeats it are expressions. -/
theorem lt_of_iterates
    {id body : NodeId}
    (iterates : layout.Iterates id body) :
    id < layout.exprCount ∧ body < layout.exprCount := by
  rcases iterates with here | here
  all_goals
    exact
      ⟨wellNumbered.exists_shape_iff.mp ⟨_, here⟩,
        wellNumbered.mentioned_lt here List.mem_cons_self⟩

/-- Expressions have the same texts in an analysis. -/
theorem texts_analyze
    {id : NodeId}
    (counted : id < layout.exprCount) :
    (layout.analyze options).layout.simple id = layout.simple id ∧
      (layout.analyze options).layout.source id = layout.source id ∧
        (layout.analyze options).layout.name id = layout.name id := by
  have sameNode := wellNumbered.node?_analyze options counted
  simp only [simple, source, name, sameNode, and_self]

/-- The places of nullable bodies are those where faults are looked for. -/
theorem nullableAt_analyze_iff
    {id : NodeId}
    {fault : Fault} :
    (layout.analyze options).NullableAt id fault ↔
      fault ∈ layout.iterationFaults layout.attrs id := by
  rw [mem_iterationFaults_iff, Analysis.NullableAt]
  refine exists_congr fun body => ?_
  rw [wellNumbered.iterates_analyze_iff]
  refine and_congr_right fun iterates => ?_
  obtain ⟨counted, bodyCounted⟩ := wellNumbered.lt_of_iterates iterates
  rw [wellNumbered.attrsOf_analyze bodyCounted,
    (wellNumbered.texts_analyze bodyCounted).1,
    (wellNumbered.texts_analyze counted).2.1]

/-- Faulty iterations are listed by node, each where it is first seen. -/
theorem listsIterations :
    (layout.analyze options).ListsIterations
      (layout.ids.flatMap
        (layout.iterationFaults layout.attrs)).eraseDups := by
  refine { nodup := nodup_eraseDups _, mem_iff := ?_, ordered := ?_ }
  · intro fault
    simp only [List.mem_eraseDups, List.mem_flatMap,
      wellNumbered.nullableAt_analyze_iff]
    refine exists_congr fun id => and_iff_right_of_imp fun found => ?_
    obtain ⟨body, iterates, _⟩ := mem_iterationFaults_iff.mp found
    exact List.mem_range.mpr (wellNumbered.lt_of_iterates iterates).1
  · refine (pairwise_eraseDups_flatMap_range _ _).imp ?_
    intro earlier later seen id nullable
    simp only [wellNumbered.nullableAt_analyze_iff] at nullable ⊢
    obtain ⟨body, iterates, _⟩ := mem_iterationFaults_iff.mp nullable
    -- Nothing stands in front of the only fault of its node.
    have alone :
        layout.iterationFaults layout.attrs id = [] ++ later :: [] :=
      iterationFaults_eq_of_mem nullable
    rcases seen (wellNumbered.lt_of_iterates iterates).1 alone with
      inFront | atSmaller
    · cases inFront
    · exact atSmaller

end WellNumbered

end Analyzed

end Layout

namespace Grammar

variable {grammar : Grammar}

/-- The top nodes of the rules have the names of the rules. -/
theorem map_name_rules
    (grammar : Grammar) :
    grammar.layOut.rules.map grammar.layOut.name = grammar.names :=
  Layout.map_name_of_mapM_rule?
    (mapM_rule?_layOut (List.nil_append grammar.rules).symm)

/-- The simple name of the top node of a rule is the name of the rule. -/
theorem simple_eq_name
    {rule : NodeId}
    (isTop : rule ∈ grammar.layOut.rules) :
    grammar.layOut.simple rule = grammar.layOut.name rule := by
  have isRule := isRule_layOut_iff.mpr isTop
  unfold Layout.isRule Layout.simple Layout.name at *
  cases found : grammar.layOut.node? rule with
  | none =>
      rfl
  | some node =>
      rw [found] at isRule
      exact if_pos isRule

/-- The nodes through which a rule leads back to itself make up its fault. -/
theorem recursiveAt_leftRecursion
    (clean : grammar.defects = [])
    {options : Options}
    {rule : NodeId}
    (isTop : rule ∈ grammar.layOut.rules)
    (cycle : (grammar.layOut.analyze options).Leads rule rule) :
    (grammar.layOut.analyze options).RecursiveAt rule
      (grammar.layOut.leftRecursion
        (grammar.layOut.relations grammar.layOut.attrs) rule) := by
  have wellNumbered := wellNumbered_layOut clean
  have counted := wellNumbered.rules_lt isTop
  rw [Layout.leads_analyze] at cycle
  refine
    ⟨grammar.layOut.recursionWitnesses
      (grammar.layOut.relations grammar.layOut.attrs) rule,
      wellNumbered.recursionWitnesses_ne_nil cycle, ?_, ?_, ?_⟩
  · exact List.pairwise_lt_range.filter _
  · intro id
    rw [Layout.leads_analyze, Layout.relations_analyze,
      wellNumbered.mem_recursionWitnesses_iff]
  · rw [(wellNumbered.texts_analyze counted).2.2, ← simple_eq_name isTop,
      Layout.leftRecursion]
    congr 1
    apply List.map_congr_left
    intro id witness
    have idCounted := List.mem_range.mp (List.mem_filter.mp witness).1
    exact (wellNumbered.texts_analyze idCounted).1.symm

/-- No two rules have the same left recursion. -/
theorem nodup_recursionFaults
    (clean : grammar.defects = [])
    (relations : Relations) :
    (grammar.layOut.rules.flatMap
      (grammar.layOut.recursionFaults relations)).Nodup := by
  have distinct : (grammar.layOut.rules.map grammar.layOut.name).Nodup := by
    rw [map_name_rules]
    exact nodup_names clean
  rw [Layout.flatMap_recursionFaults]
  refine .sublist (List.filter_sublist.map _) ?_
  apply (List.nodup_map_iff_inj_on distinct.of_map).mpr
  intro rule isTop other otherTop same
  have sameName :
      grammar.layOut.name rule = grammar.layOut.name other := by
    rw [← simple_eq_name isTop, ← simple_eq_name otherTop]
    exact (Fault.leftRecursion.inj same).1
  exact List.inj_on_of_nodup_map distinct isTop otherTop sameName

section Exact

variable
  (clean : grammar.defects = [])
  {options : Options}

include clean

/-- Left recursion is listed by rule. -/
theorem listsRecursions :
    (grammar.layOut.analyze options).ListsRecursions
      (grammar.layOut.rules.flatMap
        (grammar.layOut.recursionFaults
          (grammar.layOut.relations grammar.layOut.attrs))) := by
  let relations := grammar.layOut.relations grammar.layOut.attrs
  let isRecursive (rule : NodeId) : Bool :=
    relations.callsClosure.contains rule rule
  have mem_recursive
      {rule : NodeId} :
      rule ∈ grammar.layOut.rules.filter isRecursive ↔
        rule ∈ grammar.layOut.rules ∧
          (grammar.layOut.analyze options).Leads rule rule := by
    rw [List.mem_filter, Layout.leads_analyze,
      ← Layout.relates_callsClosure_iff]
    rfl
  rw [Layout.flatMap_recursionFaults]
  refine
    { by_rule :=
        ⟨grammar.layOut.rules.filter isRecursive, ?_, ?_, ?_⟩
      nodup := ?_ }
  · rw [Layout.rules_analyze]
    exact List.filter_sublist
  · intro rule
    rw [Layout.rules_analyze]
    exact mem_recursive
  · rw [List.forall₂_map_right_iff, List.forall₂_same]
    intro rule member
    obtain ⟨isTop, cycle⟩ := mem_recursive.mp member
    exact recursiveAt_leftRecursion clean isTop cycle
  · rw [← Layout.flatMap_recursionFaults]
    exact nodup_recursionFaults clean relations

/-- Faulty iterations come first, and no left recursion is dropped behind them. -/
theorem faults_layOut :
    grammar.layOut.faults grammar.layOut.attrs
        (grammar.layOut.relations grammar.layOut.attrs) =
      (grammar.layOut.ids.flatMap
          (grammar.layOut.iterationFaults
            grammar.layOut.attrs)).eraseDups ++
        grammar.layOut.rules.flatMap
          (grammar.layOut.recursionFaults
            (grammar.layOut.relations grammar.layOut.attrs)) := by
  rw [Layout.faults, (wellNumbered_layOut clean).flatMap_iterationFaults]
  apply eraseDups_append_of_disjoint
  · exact nodup_recursionFaults clean _
  · intro fault recursive iteration
    obtain ⟨rule, _, atRule⟩ := List.mem_flatMap.mp recursive
    obtain ⟨id, _, atNode⟩ := List.mem_flatMap.mp iteration
    obtain ⟨_, rfl⟩ := Layout.mem_recursionFaults_iff.mp atRule
    obtain ⟨_, _, _, different⟩ := Layout.mem_iterationFaults_iff.mp atNode
    cases different

/-- There are no faults unless a node leads back to itself or repeats for ever. -/
theorem wellFormed_analyze_iff :
    (grammar.layOut.analyze options).wellFormed = true ↔
      (∀ id, ¬ (grammar.layOut.analyze options).Leads id id) ∧
        ∀ id body,
          (grammar.layOut.analyze options).layout.Iterates id body →
          ((grammar.layOut.analyze options).chart.attrsOf body).nullable =
            false := by
  have wellNumbered := wellNumbered_layOut clean
  have listed :
      (grammar.layOut.analyze options).ListsIterations _ :=
    wellNumbered.listsIterations
  rw [Analysis.wellFormed, List.isEmpty_iff, Layout.faults_analyze,
    faults_layOut clean, List.append_eq_nil_iff, and_comm]
  refine and_congr ?acyclic ?consuming
  case acyclic =>
    rw [List.flatMap_eq_nil_iff, Layout.leads_analyze]
    constructor
    · intro noFault
      rw [Layout.relates_calls wellNumbered]
      apply wellNumbered.calls_acyclic
      intro rule isTop cycle
      rw [← Layout.relates_calls wellNumbered] at cycle
      have found :
          grammar.layOut.leftRecursion
              (grammar.layOut.relations grammar.layOut.attrs) rule ∈
            grammar.layOut.recursionFaults
              (grammar.layOut.relations grammar.layOut.attrs) rule :=
        Layout.mem_recursionFaults_iff.mpr
          ⟨Layout.relates_callsClosure_iff.mpr cycle, rfl⟩
      rw [noFault rule isTop] at found
      cases found
    · intro acyclic rule _
      apply List.eq_nil_iff_forall_not_mem.mpr
      intro fault found
      have onDiagonal := (Layout.mem_recursionFaults_iff.mp found).1
      exact acyclic rule (Layout.relates_callsClosure_iff.mp onDiagonal)
  case consuming =>
    rw [List.eq_nil_iff_forall_not_mem]
    constructor
    · intro noFault id body iterates
      apply Bool.eq_false_of_not_eq_true
      intro nullable
      exact noFault _
        ((listed.mem_iff _).mpr ⟨id, body, iterates, nullable, rfl⟩)
    · intro consuming fault found
      obtain ⟨id, body, iterates, nullable, _⟩ :=
        (listed.mem_iff fault).mp found
      exact Bool.false_ne_true
        ((consuming id body iterates).symm.trans nullable)

end Exact

/--
The verdict is exact over all nodes and the faults are listed exactly, for every
grammar that is analyzed.
-/
theorem faults_exact
    {grammar : Grammar}
    {options : Options}
    {analysis : Analysis}
    (analyzed : grammar.analyze options = .ok analysis) :
    analysis.FaultsExact := by
  obtain ⟨clean, rfl⟩ := analyze_eq_ok_iff.mp analyzed
  refine
    { wellFormed_iff := wellFormed_analyze_iff clean
      faults_eq :=
        ⟨_, _, ?_, (wellNumbered_layOut clean).listsIterations,
          listsRecursions clean⟩ }
  rw [Layout.faults_analyze, faults_layOut clean]

/--
A grammar with one text of a faulty iteration at two places, a rule that leads
back to itself, and two that do so through each other.
-/
def tangled : Grammar :=
  { rules :=
      [{ name := "list"
         body :=
           .group .choice
             [.group .sequence
                [.unary .zeroOrMore (.reference "item"), .literal "."],
              .group .sequence [.reference "list", .literal ","],
              .group .sequence
                [.unary .zeroOrMore (.reference "item"), .literal ";"]] },
       { name := "item"
         body := .unary .optional (.literal "i") },
       { name := "even"
         body := .group .sequence [.reference "odd", .literal "e"] },
       { name := "odd"
         body :=
           .group .choice
             [.group .sequence [.reference "even", .literal "o"],
              .literal "o"] }] }

/-- The faults of the tangled rules are all there is to find in them. -/
theorem faults_exact_tangled :
    ∃ analysis,
      tangled.analyze {} = .ok analysis ∧
        analysis.faults.map Fault.message =
          ["'item' in 'item*' may consume empty string",
           "'list' is left-recursive via 'list \",\"'",
           "'even' is left-recursive via 'odd'",
           "'odd' is left-recursive via 'even \"o\"'"] ∧
        analysis.FaultsExact := by
  have analyzed :
      tangled.analyze {} = .ok (tangled.layOut.analyze {}) :=
    analyze_eq_ok_iff.mpr ⟨by decide, rfl⟩
  exact ⟨_, analyzed, by decide +kernel, faults_exact analyzed⟩

end Grammar

end PegAudit
