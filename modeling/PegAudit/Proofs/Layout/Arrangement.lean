import Mathlib.Data.List.Nodup
import Mathlib.Data.List.Pairwise
import PegAudit.Proofs.Layout.Filling

namespace PegAudit

/-!
# The arrangement of a layout

The nodes of a grammar form trees, one for each rule.  Counting and filling
agree on every number, the numbers of each block ascend in pre-order, every
node but the top of a rule is a part of exactly one node, and each node names
the rule it stands in.
-/

namespace Layout

/-- Only counted nodes have parts. -/
theorem WellNumbered.mem_ids_of_mem_children
    {layout : Layout}
    (wellNumbered : layout.WellNumbered)
    {owner part : NodeId}
    (member : part ∈ layout.children owner) :
    owner ∈ layout.ids := by
  cases found : layout.shape? owner with
  | none =>
      rw [children, found] at member
      cases member
  | some shape =>
      exact List.mem_range.mpr
        (wellNumbered.exists_shape_iff.mp ⟨shape, found⟩)

/--
A layout is arranged as its grammar is: the numbers are those that counting and
filling agree on, and the nodes form one tree for each rule.
-/
structure Arranged
    (grammar : Grammar)
    (layout : Layout) :
    Prop
    extends layout.WellNumbered where
  /-- The tops counted beforehand are the numbers that the rules really get. -/
  filled_tops :
    grammar.fill.1 = grammar.topIds
  rules_eq :
    layout.rules = grammar.topIds
  /-- Every slot is written exactly once. -/
  written_once :
    grammar.fill.2.written.Perm layout.ids
  /-- No slot stays empty, and the nodes keep the numbers of their slots. -/
  filled_nodes :
    grammar.fill.2.nodes = layout.nodes.map some
  terminals_ascend :
    layout.preorder.filter (· < layout.terminalCount) =
      layout.terminalIds
  compounds_ascend :
    layout.preorder.filter (layout.terminalCount ≤ ·) =
      layout.compoundIds
  children_nodup :
    ∀ owner, (layout.children owner).Nodup
  owner_unique :
    ∀ {id},
      id < layout.exprCount →
      id ∉ layout.rules →
      ∃! owner, id ∈ layout.children owner
  rule_not_child :
    ∀ {top},
      top ∈ layout.rules →
      ∀ owner, top ∉ layout.children owner
  isRule_iff :
    ∀ {id}, layout.isRule id = true ↔ id ∈ layout.rules
  in_tree :
    ∀ {id},
      id < layout.exprCount →
      ∃ top ∈ layout.rules, id ∈ layout.tree top
  rule_of_tree :
    ∀ {top id},
      top ∈ layout.rules →
      id ∈ layout.tree top →
      (layout.node? id).map Node.rule = some top

end Layout

namespace Grammar

variable {grammar : Grammar}

/-- The tops of rules and the parts of nodes repeat nothing. -/
theorem nodup_rules_children
    (grammar : Grammar) :
    (grammar.layOut.rules ++
      grammar.layOut.ids.flatMap grammar.layOut.children).Nodup :=
  grammar.perm_topIds_children.nodup_iff.mpr List.nodup_range

/-- The parts of a node are distinct. -/
theorem nodup_children
    (clean : grammar.defects = [])
    (owner : NodeId) :
    (grammar.layOut.children owner).Nodup := by
  by_cases hasParts : ∃ part, part ∈ grammar.layOut.children owner
  · obtain ⟨part, member⟩ := hasParts
    have counted :=
      (wellNumbered_layOut clean).mem_ids_of_mem_children member
    have parts := (List.nodup_append.mp grammar.nodup_rules_children).2.1
    exact (List.nodup_flatMap.mp parts).1 owner counted
  · have noParts : grammar.layOut.children owner = [] :=
      List.eq_nil_iff_forall_not_mem.mpr (not_exists.mp hasParts)
    rw [noParts]
    exact List.nodup_nil

/-- Two nodes that share a part are the same. -/
theorem owner_eq
    (clean : grammar.defects = [])
    {first second part : NodeId}
    (ofFirst : part ∈ grammar.layOut.children first)
    (ofSecond : part ∈ grammar.layOut.children second) :
    first = second := by
  have wellNumbered := wellNumbered_layOut clean
  have parts := (List.nodup_append.mp grammar.nodup_rules_children).2.1
  have apart := (List.nodup_flatMap.mp parts).2
  have symmetric :
      Std.Symm (Function.onFun List.Disjoint grammar.layOut.children) :=
    ⟨fun _ _ disjoint _ inLeft inRight => disjoint inRight inLeft⟩
  by_contra different
  have disjoint :=
    apart.forall (wellNumbered.mem_ids_of_mem_children ofFirst)
      (wellNumbered.mem_ids_of_mem_children ofSecond) different
  exact disjoint ofFirst ofSecond

/-- Every node is the top of a rule or a part of a node. -/
theorem mem_rules_or_exists_owner
    {id : NodeId}
    (counted : id < grammar.layOut.exprCount) :
    id ∈ grammar.layOut.rules ∨
      ∃ owner, id ∈ grammar.layOut.children owner := by
  have listed :=
    grammar.perm_topIds_children.mem_iff.mpr (List.mem_range.mpr counted)
  rcases List.mem_append.mp listed with isTop | isPart
  · exact .inl isTop
  · obtain ⟨owner, _, member⟩ := List.mem_flatMap.mp isPart
    exact .inr ⟨owner, member⟩

/-- The top of a rule is a part of no node. -/
theorem not_mem_children_of_mem_rules
    (clean : grammar.defects = [])
    {top : NodeId}
    (isTop : top ∈ grammar.layOut.rules)
    (owner : NodeId) :
    top ∉ grammar.layOut.children owner := by
  intro member
  have counted :=
    (wellNumbered_layOut clean).mem_ids_of_mem_children member
  have isPart :
      top ∈ grammar.layOut.ids.flatMap grammar.layOut.children :=
    List.mem_flatMap.mpr ⟨owner, counted, member⟩
  exact
    (List.nodup_append.mp grammar.nodup_rules_children).2.2
      top isTop top isPart rfl

/-- A node of a rule is the top of its body and has its name. -/
theorem exists_rule_of_isRule
    {id : NodeId}
    (isRule : grammar.layOut.isRule id = true) :
    ∃ before rule after,
      grammar.rules = before ++ rule :: after ∧
        id =
          rule.body.topId
            (Expr.skipParts grammar.cursor (before.map Rule.body)) ∧
        grammar.layOut.name id = rule.name := by
  have counted : id < grammar.layOut.exprCount := by
    rw [← size_nodes_layOut]
    apply Nat.lt_of_not_le
    intro outside
    simp [Layout.isRule, Layout.node?,
      Array.getElem?_eq_none outside] at isRule
  obtain ⟨site, cursor, expression, places, rfl⟩ :=
    exists_places grammar counted
  have node := places.node?
  have atSite : site.isRule = true := by
    simpa [Layout.isRule, node, Site.node] using isRule
  cases places with
  | @rule before after rule _ rules here =>
      subst here
      refine ⟨before, rule, after, rules, rfl, ?_⟩
      rw [Layout.name, node]
      rfl
  | body whole =>
      cases atSite
  | part whole =>
      cases atSite

/-- Exactly the tops of rules are nodes of rules. -/
theorem isRule_layOut_iff
    {id : NodeId} :
    grammar.layOut.isRule id = true ↔ id ∈ grammar.layOut.rules := by
  constructor
  · intro isRule
    obtain ⟨before, rule, after, rules, rfl, _⟩ :=
      exists_rule_of_isRule isRule
    have isTop :=
      Expr.mem_topIds grammar.cursor (before.map Rule.body) rule.body
        (after.map Rule.body)
    rw [← List.map_cons, ← List.map_append, ← rules] at isTop
    exact isTop
  · intro member
    obtain ⟨site, cursor, expression, places, rfl, isRule, _⟩ :=
      exists_places_of_mem_topIds member
    simpa [Layout.isRule, places.node?, Site.node] using isRule

/-- The nodes in the tree of a rule name that rule. -/
theorem rule_of_mem_tree
    {top id : NodeId}
    (isTop : top ∈ grammar.layOut.rules)
    (member : id ∈ grammar.layOut.tree top) :
    (grammar.layOut.node? id).map Node.rule = some top := by
  obtain ⟨site, cursor, expression, places, rfl, _, ofRule⟩ :=
    exists_places_of_mem_topIds isTop
  rw [places.tree_eq] at member
  obtain ⟨node, found, sameRule⟩ := places.rule_of_mem_numbers member
  rw [found, Option.map_some, sameRule, ofRule]

/-- The layout of a grammar without defects is arranged as the grammar. -/
theorem arranged_of_toLayout
    {layout : Layout}
    (laidOut : grammar.toLayout = .ok layout) :
    layout.Arranged grammar := by
  obtain ⟨clean, rfl⟩ := toLayout_eq_ok_iff.mp laidOut
  have wellNumbered := wellNumbered_layOut clean
  have givesOut := grammar.givesOut_preorder
  refine
    { wellNumbered with
      filled_tops := grammar.fst_fill
      rules_eq := rfl
      written_once := grammar.perm_written_fill
      filled_nodes := grammar.nodes_fill
      terminals_ascend := ?_
      compounds_ascend := ?_
      children_nodup := nodup_children clean
      owner_unique := ?_
      rule_not_child := not_mem_children_of_mem_rules clean
      isRule_iff := isRule_layOut_iff
      in_tree := ?_
      rule_of_tree := rule_of_mem_tree }
  · rw [givesOut.terminals, Layout.terminalIds, List.range_eq_range']
    rfl
  · rw [givesOut.compounds, Layout.compoundIds, terminalCount_layOut]
    rfl
  · intro id counted notTop
    obtain ⟨owner, member⟩ :=
      (mem_rules_or_exists_owner counted).resolve_left notTop
    exact ⟨owner, member, fun other ofOther => owner_eq clean ofOther member⟩
  · intro id counted
    have listed :=
      grammar.perm_preorder.mem_iff.mpr (List.mem_range.mpr counted)
    exact List.mem_flatMap.mp listed

/-- The layout of brackets is arranged; its digit is the second top. -/
theorem arranged_of_toLayout_brackets :
    brackets.toLayout = .ok brackets.layOut ∧
      brackets.layOut.Arranged brackets ∧
      brackets.fill.1 = [3, 2] := by
  have laidOut : brackets.toLayout = .ok brackets.layOut :=
    toLayout_eq_ok_iff.mpr ⟨defects_brackets, rfl⟩
  have arranged := arranged_of_toLayout laidOut
  exact ⟨laidOut, arranged, arranged.filled_tops.trans rfl⟩

end Grammar

end PegAudit
