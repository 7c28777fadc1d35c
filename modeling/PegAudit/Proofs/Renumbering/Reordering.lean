import PegAudit.Proofs.Renumbering.Rules

namespace PegAudit

/-!
# Layouts of reordered grammars

A grammar may list the same rules in another order.  It has a defect exactly if
the grammar has one.  Otherwise the two layouts differ in their numbers only:
each sub-expression has a node in both, and references lead to the node of the
same rule.
-/

/-- The other grammar lists the same rules in any order, the same one first. -/
structure Grammar.Reorders
    (grammar other : Grammar) :
    Prop where
  head?_eq :
    other.rules.head? = grammar.rules.head?
  perm :
    other.rules.Perm grammar.rules

/-- Defects of an expression depend on which names are known only. -/
theorem Expr.defects_congr
    {known others : List String}
    (sameNames : ∀ name, known.contains name = others.contains name)
    (expression : Expr)
    (name : String) :
    expression.defects known name = expression.defects others name := by
  induction expression generalizing name with
  | terminal item =>
      rfl
  | reference target =>
      rw [defects, defects, sameNames]
  | unary operator body sameBody =>
      exact sameBody (partName name 1)
  | group grouping parts sameParts =>
      have sameFrom
          (position : Nat) :
          partDefects known name position parts =
            partDefects others name position parts := by
        induction parts generalizing position with
        | nil =>
            rfl
        | cons part rest inductionHypothesis =>
            have later :=
              inductionHypothesis fun next inRest =>
                sameParts next (List.mem_cons_of_mem part inRest)
            rw [partDefects, partDefects,
              sameParts part List.mem_cons_self, later]
      rw [defects, defects, sameFrom]

/-- The names that consecutive expressions refer to are those that each of them does. -/
theorem Expr.partTargets_eq_flatMap
    (parts : List Expr) :
    partTargets parts = parts.flatMap targets := by
  induction parts with
  | nil =>
      rfl
  | cons part rest inductionHypothesis =>
      rw [partTargets, inductionHypothesis, List.flatMap_cons]

/-- Lists made of parts of equal lengths are equal part by part. -/
theorem eq_of_flatMap_eq
    {part other : α → List β}
    {elements : List α}
    (sameLength :
      ∀ element, (part element).length = (other element).length)
    (same : elements.flatMap part = elements.flatMap other) :
    ∀ element ∈ elements, part element = other element := by
  induction elements with
  | nil =>
      simp
  | cons first rest inductionHypothesis =>
      rw [List.flatMap_cons, List.flatMap_cons] at same
      obtain ⟨atFirst, atRest⟩ := List.append_inj same (sameLength first)
      rw [List.forall_mem_cons]
      exact ⟨atFirst, inductionHypothesis atRest⟩

namespace Grammar

namespace Reorders

variable {grammar other : Grammar}

/-- The grammar lists the rules of the other one in any order. -/
theorem symm
    (reorders : grammar.Reorders other) :
    other.Reorders grammar where
  head?_eq := reorders.head?_eq.symm
  perm := reorders.perm.symm

/-- The other grammar has the same names. -/
theorem names_perm
    (reorders : grammar.Reorders other) :
    other.names.Perm grammar.names :=
  reorders.perm.map Rule.name

/-- The other grammar has the same bodies. -/
theorem bodies_perm
    (reorders : grammar.Reorders other) :
    other.bodies.Perm grammar.bodies :=
  reorders.perm.map Rule.body

/-- A grammar with the same rules has no defect that the grammar has not. -/
theorem defects_eq_nil
    (reorders : grammar.Reorders other)
    (clean : grammar.defects = []) :
    other.defects = [] := by
  obtain ⟨nonempty, distinct, bodiesClean⟩ :=
    defects_eq_nil_iff.mp clean
  have sameNames
      (name : String) :
      other.names.contains name = grammar.names.contains name := by
    rw [Bool.eq_iff_iff, List.contains_iff_mem, List.contains_iff_mem,
      reorders.names_perm.mem_iff]
  refine defects_eq_nil_iff.mpr ⟨?_, ?_, ?_⟩
  · intro noRules
    have same := reorders.perm
    rw [noRules] at same
    exact nonempty same.nil_eq.symm
  · exact reorders.names_perm.nodup_iff.mpr distinct
  · intro rule isRule
    rw [Expr.defects_congr sameNames]
    exact bodiesClean rule (reorders.perm.mem_iff.mp isRule)

/-- Rules that nothing refers to are the same in both grammars. -/
theorem unused_perm
    (reorders : grammar.Reorders other) :
    other.unused.Perm grammar.unused := by
  have sameTargets
      (name : String) :
      (Expr.partTargets other.bodies).contains name =
        (Expr.partTargets grammar.bodies).contains name := by
    rw [Bool.eq_iff_iff, List.contains_iff_mem, List.contains_iff_mem,
      Expr.partTargets_eq_flatMap, Expr.partTargets_eq_flatMap,
      (reorders.bodies_perm.flatMap_right Expr.targets).mem_iff]
  have rest : (other.names.drop 1).Perm (grammar.names.drop 1) := by
    have sameHead := reorders.head?_eq
    have samePerm := reorders.names_perm
    unfold names at samePerm ⊢
    cases here : grammar.rules with
    | nil =>
        rw [here, List.map_nil] at samePerm
        rw [samePerm.eq_nil, List.map_nil]
    | cons first later =>
        rw [here] at sameHead samePerm
        obtain ⟨otherLater, there⟩ :=
          List.head?_eq_some_iff.mp sameHead
        rw [there] at samePerm ⊢
        exact samePerm.cons_inv
  unfold unused
  dsimp only
  refine (rest.filter _).trans (.of_eq ?_)
  simp only [sameTargets]

/-- Both grammars start from the same cursor. -/
theorem cursor_eq
    (reorders : grammar.Reorders other) :
    other.cursor = grammar.cursor := by
  unfold cursor
  rw [Expr.skipParts_perm reorders.bodies_perm]

/-- Both grammars end at the same cursor. -/
theorem skipParts_bodies
    (reorders : grammar.Reorders other) :
    Expr.skipParts other.cursor other.bodies =
      Expr.skipParts grammar.cursor grammar.bodies := by
  rw [reorders.cursor_eq, Expr.skipParts_perm reorders.bodies_perm]

/-- No node is counted that is not counted here. -/
theorem exprCount_eq
    (reorders : grammar.Reorders other) :
    other.layOut.exprCount = grammar.layOut.exprCount :=
  congrArg Cursor.compound reorders.skipParts_bodies

/-- Both grammars pair their numbers, sub-expression by sub-expression. -/
theorem exists_renumber
    (reorders : grammar.Reorders other)
    (clean : grammar.defects = []) :
    ∃ renumber : Equiv.Perm NodeId,
      (∀ rule ∈ grammar.rules,
        (grammar.numbersAt rule).map renumber = other.numbersAt rule) ∧
        ∀ id, grammar.layOut.exprCount ≤ id → renumber id = id := by
  have listed := perm_numbersAt clean
  have otherListed := perm_numbersAt (reorders.defects_eq_nil clean)
  rw [Layout.ids, reorders.exprCount_eq] at otherListed
  have regrouped := reorders.perm.flatMap_right other.numbersAt
  obtain ⟨renumber, paired, fixed⟩ :=
    exists_perm_map_eq (listed.nodup_iff.mpr List.nodup_range)
      (listed.trans (otherListed.symm.trans regrouped))
  refine ⟨renumber, ?_, ?_⟩
  -- A rule has as many numbers in both lists, so they are paired rule by rule.
  · rw [List.map_flatMap] at paired
    apply eq_of_flatMap_eq _ paired
    intro rule
    rw [List.length_map]
    exact rule.body.length_numbers _ _
  · intro id notCounted
    apply fixed
    rw [listed.mem_iff, Layout.ids, List.mem_range]
    exact Nat.not_lt.mpr notCounted

end Reorders

/-- What stands beside a key that occurs once is found under it. -/
theorem lookup_eq_some_of_mem
    {entries : Scope}
    {name : String}
    {top : NodeId}
    (distinct : (entries.map Prod.fst).Nodup)
    (member : (name, top) ∈ entries) :
    entries.lookup name = some top := by
  induction entries with
  | nil =>
      cases member
  | cons entry rest inductionHypothesis =>
      rw [List.map_cons, List.nodup_cons] at distinct
      rcases List.mem_cons.mp member with rfl | inRest
      · simp
      · have different : (name == entry.1) = false := by
          rw [beq_eq_false_iff_ne]
          rintro rfl
          exact distinct.1 (List.mem_map.mpr ⟨_, inRest, rfl⟩)
        rw [List.lookup_cons, different]
        exact inductionHypothesis distinct.2 inRest

/-- The name of a rule leads to its top. -/
theorem lookup_name
    {grammar : Grammar}
    (clean : grammar.defects = [])
    {rule : Rule}
    (isRule : rule ∈ grammar.rules) :
    grammar.scope.lookup rule.name = some (grammar.topAt rule) := by
  have entries :
      grammar.scope =
        grammar.rules.map fun rule => (rule.name, grammar.topAt rule) := by
    rw [scope, (numbersOf_bodies clean).2]
    exact List.zip_map'
  rw [entries]
  apply lookup_eq_some_of_mem
  · rw [List.map_map]
    exact nodup_names clean
  · exact List.mem_map.mpr ⟨rule, isRule, rfl⟩

section Paired

variable
  {grammar other : Grammar}
  {renumber : Equiv.Perm NodeId}
  (reorders : grammar.Reorders other)
  (clean : grammar.defects = [])
  (paired :
    ∀ rule ∈ grammar.rules,
      (grammar.numbersAt rule).map renumber = other.numbersAt rule)

include reorders clean paired

/-- What is placed here is placed there, under the same name in the same rule. -/
theorem Places.reordered
    {site : Site}
    {cursor : Cursor}
    {expression : Expr}
    (places : grammar.Places site cursor expression) :
    ∃ otherCursor,
      other.Places { site with rule := renumber site.rule } otherCursor
          expression ∧
        (expression.numbers cursor).map renumber =
          expression.numbers otherCursor := by
  induction places with
  | @rule before after rule cursor rules here =>
      have isRule : rule ∈ grammar.rules := by simp [rules]
      obtain ⟨otherBefore, otherAfter, otherRules⟩ :=
        List.append_of_mem (reorders.perm.mem_iff.mpr isRule)
      have otherHere :=
        cursorAt_eq (reorders.defects_eq_nil clean) otherRules
      rw [← cursorAt_eq clean rules] at here
      subst here
      rw [Expr.renumber_topId (paired rule isRule)]
      exact ⟨_, .rule otherRules otherHere, paired rule isRule⟩
  | body whole inOther =>
      obtain ⟨otherCursor, otherWhole, same⟩ := inOther
      exact ⟨_, otherWhole.body, (List.cons.inj same).2⟩
  | part whole inOther =>
      obtain ⟨otherCursor, otherWhole, same⟩ := inOther
      have below := Expr.map_numbers_of_split (List.cons.inj same).2
      exact ⟨_, otherWhole.part, below⟩

/-- References to a rule lead to corresponding tops. -/
theorem lookup_reordered
    {site : Site}
    {cursor : Cursor}
    {target : String}
    (places : grammar.Places site cursor (.reference target)) :
    ∃ top,
      grammar.scope.lookup target = some top ∧
        other.scope.lookup target = some (renumber top) := by
  obtain ⟨_, _, found⟩ := places.exists_lookup clean
  obtain ⟨position, isName, _⟩ := exists_position_of_lookup_zip found
  obtain ⟨rule, isRule, rfl⟩ :=
    List.mem_map.mp (List.mem_of_getElem? isName)
  have sameTop : renumber (grammar.topAt rule) = other.topAt rule :=
    Expr.renumber_topId (paired rule isRule)
  refine ⟨_, lookup_name clean isRule, ?_⟩
  rw [sameTop]
  exact
    lookup_name (reorders.defects_eq_nil clean)
      (reorders.perm.mem_iff.mpr isRule)

/-- What is placed in both grammars has corresponding shapes. -/
theorem shapeAt_reordered
    {site : Site}
    {cursor otherCursor : Cursor}
    {expression : Expr}
    (places : grammar.Places site cursor expression)
    (same :
      (expression.numbers cursor).map renumber =
        expression.numbers otherCursor) :
    expression.shapeAt other.scope otherCursor =
      (expression.shapeAt grammar.scope cursor).renumbered renumber := by
  cases expression with
  | terminal item =>
      rfl
  | reference target =>
      obtain ⟨top, found, otherFound⟩ :=
        lookup_reordered reorders clean paired places
      simp [Expr.shapeAt, Shape.renumbered, found, otherFound]
  | unary operator body =>
      have below := Expr.renumber_topId (List.cons.inj same).2
      simp [Expr.shapeAt, Shape.renumbered, below]
  | group grouping parts =>
      have below := Expr.map_topIds (List.cons.inj same).2
      simp [Expr.shapeAt, Shape.renumbered, below]

/-- Each node has the number of the same sub-expression there. -/
theorem node?_reordered
    (fixed : ∀ id, grammar.layOut.exprCount ≤ id → renumber id = id)
    (id : NodeId) :
    other.layOut.node? (renumber id) =
      (grammar.layOut.node? id).map (Node.renumbered renumber) := by
  by_cases counted : id < grammar.layOut.exprCount
  · obtain ⟨site, cursor, expression, places, rfl⟩ :=
      grammar.exists_places counted
    obtain ⟨otherCursor, otherPlaces, same⟩ :=
      places.reordered reorders clean paired
    rw [Expr.renumber_topId same, otherPlaces.node?, places.node?,
      shapeAt_reordered reorders clean paired places same]
    rfl
  · have behind := Nat.le_of_not_lt counted
    have noNode : grammar.layOut.node? id = none := by
      simp [Layout.node?, grammar.size_nodes_layOut, behind]
    have noOther : other.layOut.node? id = none := by
      simp [Layout.node?, other.size_nodes_layOut, reorders.exprCount_eq,
        behind]
    rw [fixed id behind, noNode, noOther, Option.map_none]

end Paired

/-- Layouts of the same rules differ in their numbers only. -/
theorem Reorders.exists_renumbers
    {grammar other : Grammar}
    (reorders : grammar.Reorders other)
    (clean : grammar.defects = []) :
    ∃ renumber : Equiv.Perm NodeId,
      grammar.layOut.Renumbers renumber other.layOut ∧
        ∀ id < grammar.layOut.exprCount,
          grammar.Corresponds other id (renumber id) := by
  obtain ⟨renumber, paired, fixed⟩ := reorders.exists_renumber clean
  have otherClean := reorders.defects_eq_nil clean
  have rules : grammar.layOut.rules = grammar.rules.map grammar.topAt :=
    (numbersOf_bodies clean).2
  have otherRules : other.layOut.rules = other.rules.map other.topAt :=
    (numbersOf_bodies otherClean).2
  have sameTop
      {rule : Rule}
      (isRule : rule ∈ grammar.rules) :
      renumber (grammar.topAt rule) = other.topAt rule :=
    Expr.renumber_topId (paired rule isRule)
  refine
    ⟨renumber,
      { terminalCount_eq :=
          congrArg Cursor.terminal reorders.skipParts_bodies
        exprCount_eq := reorders.exprCount_eq
        node?_eq := node?_reordered reorders clean paired fixed
        rules_perm := ?_
        start_eq := ?_
        unused_perm := reorders.unused_perm
        fixed := fixed _ },
      ?_⟩
  · rw [rules, otherRules, List.map_map]
    refine (reorders.perm.map _).trans (.of_eq ?_)
    apply List.map_congr_left
    intro rule isRule
    exact (sameTop isRule).symm
  · obtain ⟨first, later, here⟩ :=
      List.exists_cons_of_ne_nil (rules_ne_nil clean)
    obtain ⟨otherLater, there⟩ :=
      List.head?_eq_some_iff.mp
        (reorders.head?_eq.trans (congrArg List.head? here))
    have isRule : first ∈ grammar.rules := by simp [here]
    rw [Layout.start, Layout.start, rules, otherRules, here, there]
    exact (sameTop isRule).symm
  · intro id counted
    have member :=
      (perm_numbersAt clean).mem_iff.mpr (List.mem_range.mpr counted)
    obtain ⟨rule, isRule, inRule⟩ := List.mem_flatMap.mp member
    obtain ⟨position, atPosition⟩ := List.mem_iff_getElem?.mp inRule
    refine ⟨rule, isRule, position, atPosition, ?_⟩
    rw [← paired rule isRule, List.getElem?_map, atPosition,
      Option.map_some]

end Grammar

end PegAudit
