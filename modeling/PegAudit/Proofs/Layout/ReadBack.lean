import PegAudit.Proofs.Layout.Numbers

namespace PegAudit

/-!
# Layouts can be read back

Following the parts of a placed expression gives the expression back, so a
layout determines the grammar it was made from.  References are resolved by
position: the number found for a name is the top of the rule with that name.
-/

namespace Expr

/-- Reading consecutive parts gives them back if reading each of them does. -/
theorem EachPart.mapM_topIds
    {read : NodeId → Option Expr}
    {cursor : Cursor}
    {parts : List Expr}
    (each :
      EachPart (fun cursor part => read (part.topId cursor) = some part)
        cursor parts) :
    (topIds cursor parts).mapM read = some parts := by
  induction each with
  | nil =>
      rfl
  | cons first later inductionHypothesis =>
      rw [topIds, List.mapM_cons, first, inductionHypothesis]
      rfl

end Expr

namespace Grammar

variable {grammar : Grammar}

/--
A placed expression is read back from its number, also from a layout with
further nodes behind the expressions.
-/
theorem Places.exprWithin?_eq
    {layout : Layout}
    (agree :
      ∀ {id},
        id < grammar.layOut.exprCount →
        layout.shape? id = grammar.layOut.shape? id)
    {site : Site}
    {cursor : Cursor}
    {expression : Expr}
    (places : grammar.Places site cursor expression)
    {depth : Nat}
    (enough : (expression.skip cursor).total ≤ cursor.total + depth) :
    layout.exprWithin? depth (expression.topId cursor) =
      some expression := by
  induction expression generalizing site cursor depth with
  | terminal item =>
      obtain ⟨inner, rfl⟩ := Expr.exists_depth enough
      rw [Layout.exprWithin?, agree places.topId_lt, places.shape?]
      rfl
  | reference target =>
      obtain ⟨inner, rfl⟩ := Expr.exists_depth enough
      rw [Layout.exprWithin?, agree places.topId_lt, places.shape?]
      rfl
  | unary operator body bodyRead =>
      obtain ⟨inner, rfl⟩ := Expr.exists_depth enough
      have below := bodyRead places.body (Expr.total_body_le enough)
      rw [Layout.exprWithin?, agree places.topId_lt, places.shape?]
      simp only [Expr.shapeAt, below, Option.map_some]
  | group grouping parts partsRead =>
      obtain ⟨inner, rfl⟩ := Expr.exists_depth enough
      have below :=
        places.eachPart enough fun member partPlaces within =>
          partsRead _ member partPlaces within
      rw [Layout.exprWithin?, agree places.topId_lt, places.shape?]
      simp only [Expr.shapeAt, below.mapM_topIds, Option.map_some]

/-- A placed expression is read back from the layout. -/
theorem Places.expr?_eq
    {site : Site}
    {cursor : Cursor}
    {expression : Expr}
    (places : grammar.Places site cursor expression) :
    grammar.layOut.expr? (expression.topId cursor) = some expression :=
  places.exprWithin?_eq (fun _ => rfl) places.total_skip_le

/-- Only a node that is written in a rule is read back. -/
theorem exists_shape_of_expr?
    {layout : Layout}
    {id : NodeId}
    {expression : Expr}
    (read : layout.expr? id = some expression) :
    ∃ shape,
      layout.shape? id = some shape ∧ shape ≠ .remainingInput := by
  unfold Layout.expr? at read
  generalize layout.exprCount = depth at read
  cases depth with
  | zero =>
      cases read
  | succ depth =>
      rw [Layout.exprWithin?] at read
      split at read
      case h_1 found | h_2 found | h_3 found | h_4 found =>
        exact ⟨_, found, nofun⟩
      case h_5 | h_6 =>
        cases read

/-- Whatever is read back from a number is placed there. -/
theorem exists_places_of_expr?
    {id : NodeId}
    {expression : Expr}
    (read : grammar.layOut.expr? id = some expression) :
    ∃ site cursor,
      grammar.Places site cursor expression ∧
        expression.topId cursor = id := by
  obtain ⟨shape, found, _⟩ := exists_shape_of_expr? read
  obtain ⟨site, cursor, placed, places, rfl, _⟩ :=
    exists_places_of_shape? found
  cases places.expr?_eq.symm.trans read
  exact ⟨site, cursor, places, rfl⟩

/-- A rule is read back from its top node. -/
theorem rule?_layOut
    {before after : List Rule}
    {rule : Rule}
    (rules : grammar.rules = before ++ rule :: after) :
    grammar.layOut.rule?
        (rule.body.topId
          (Expr.skipParts grammar.cursor (before.map Rule.body))) =
      some rule := by
  have places := Places.rule rules rfl
  simp [Layout.rule?, places.expr?_eq, places.node?, Site.node]

/-- Consecutive rules are read back from their top nodes. -/
theorem mapM_rule?_layOut
    {before after : List Rule}
    (rules : grammar.rules = before ++ after) :
    (Expr.topIds
        (Expr.skipParts grammar.cursor (before.map Rule.body))
        (after.map Rule.body)).mapM grammar.layOut.rule? =
      some after := by
  induction after generalizing before with
  | nil =>
      rfl
  | cons rule rest inductionHypothesis =>
      have first := rule?_layOut rules
      rw [List.append_cons] at rules
      have later := inductionHypothesis rules
      rw [List.map_append, Expr.skipParts_append, List.map_singleton,
        Expr.skipParts, Expr.skipParts] at later
      rw [List.map_cons, Expr.topIds, List.mapM_cons, first, later]
      rfl

/-- The layout of a grammar is read back as the grammar. -/
theorem grammar?_layOut
    (grammar : Grammar) :
    grammar.layOut.grammar? = some grammar := by
  have rules := mapM_rule?_layOut (List.nil_append grammar.rules).symm
  exact congrArg (Option.map Grammar.mk) rules

/-- Names without duplicates are distinct. -/
theorem nodup_of_duplicates_eq_nil
    {earlier names : List String}
    (clean : duplicates earlier names = []) :
    names.Nodup ∧ ∀ name ∈ names, name ∉ earlier := by
  induction names generalizing earlier with
  | nil =>
      exact ⟨List.nodup_nil, by simp⟩
  | cons name rest inductionHypothesis =>
      rw [duplicates] at clean
      split at clean
      case isTrue =>
        cases clean
      case isFalse isNew =>
        obtain ⟨distinct, others⟩ := inductionHypothesis clean
        have notInRest : name ∉ rest :=
          fun inRest => others name inRest List.mem_cons_self
        refine ⟨List.nodup_cons.mpr ⟨notInRest, distinct⟩, ?_⟩
        intro other member
        rcases List.mem_cons.mp member with rfl | inRest
        · simpa using isNew
        · exact fun inEarlier =>
            others other inRest (List.mem_cons_of_mem name inEarlier)

/-- Distinct names that do not occur earlier are no duplicates. -/
theorem duplicates_eq_nil
    {earlier names : List String}
    (distinct : names.Nodup)
    (areNew : ∀ name ∈ names, name ∉ earlier) :
    duplicates earlier names = [] := by
  induction names generalizing earlier with
  | nil =>
      rfl
  | cons name rest inductionHypothesis =>
      obtain ⟨notInRest, restDistinct⟩ := List.nodup_cons.mp distinct
      have isNew : earlier.contains name = false := by
        simpa using areNew name List.mem_cons_self
      rw [duplicates, isNew]
      apply inductionHypothesis restDistinct
      rintro other inRest inEarlier
      rcases List.mem_cons.mp inEarlier with rfl | before
      · exact notInRest inRest
      · exact areNew other (List.mem_cons_of_mem name inRest) before

/-- The rules of a grammar without defects have distinct names. -/
theorem nodup_names
    (clean : grammar.defects = []) :
    grammar.names.Nodup := by
  have nonempty : grammar.rules.isEmpty = false := by
    simpa using rules_ne_nil clean
  simp only [defects, nonempty, Bool.false_eq_true, ↓reduceIte,
    List.append_eq_nil_iff] at clean
  exact (nodup_of_duplicates_eq_nil clean.1).1

/-- A grammar without defects has rules, each with its own name and no defect. -/
theorem defects_eq_nil_iff :
    grammar.defects = [] ↔
      grammar.rules ≠ [] ∧
        grammar.names.Nodup ∧
        ∀ rule ∈ grammar.rules,
          rule.body.defects grammar.names rule.name = [] := by
  by_cases empty : grammar.rules = []
  · simp [defects, empty]
  · have distinct :
        duplicates [] grammar.names = [] ↔ grammar.names.Nodup :=
      ⟨fun none => (nodup_of_duplicates_eq_nil none).1,
        fun nodup => duplicates_eq_nil nodup (by simp)⟩
    simp [defects, empty, distinct]

/-- What is looked up stands at the same position as its key. -/
theorem exists_position_of_lookup_zip
    {keys : List String}
    {values : List NodeId}
    {key : String}
    {value : NodeId}
    (found : (keys.zip values).lookup key = some value) :
    ∃ position : Nat,
      keys[position]? = some key ∧ values[position]? = some value := by
  induction keys generalizing values with
  | nil =>
      cases found
  | cons first rest inductionHypothesis =>
      cases values with
      | nil =>
          cases found
      | cons next others =>
          rw [List.zip_cons_cons, List.lookup_cons] at found
          split at found
          case h_1 same =>
            cases found
            exact ⟨0, by simpa using (eq_of_beq same).symm, rfl⟩
          case h_2 =>
            obtain ⟨position, isKey, isValue⟩ := inductionHypothesis found
            exact ⟨position + 1, isKey, isValue⟩

/-- A reference leads to the number found for its name. -/
theorem lookup_of_reference
    (clean : grammar.defects = [])
    {id rule : NodeId}
    {target : String}
    (found : grammar.layOut.shape? id = some (.reference target rule)) :
    grammar.scope.lookup target = some rule := by
  obtain ⟨site, cursor, expression, places, rfl, isReference⟩ :=
    exists_places_of_shape? found
  cases expression with
  | reference name =>
      obtain ⟨top, _, lookup⟩ := places.exists_lookup clean
      simp only [Expr.shapeAt, lookup, Option.getD_some,
        Shape.reference.injEq] at isReference
      rw [← isReference.1, ← isReference.2]
      exact lookup
  | _ =>
      cases isReference

/--
The layout of a grammar without defects is read back as that grammar, so equal
layouts come from equal grammars only, and each reference leads to the top node
of the one rule with its name.
-/
theorem toLayout_invertible
    {layout : Layout}
    (laidOut : grammar.toLayout = .ok layout) :
    layout.grammar? = some grammar ∧
      (∀ {other : Grammar}
          {otherLayout : Layout},
          other.toLayout = .ok otherLayout →
          (layout = otherLayout ↔ grammar = other)) ∧
      ∀ {id rule : NodeId}
        {target : String},
        layout.shape? id = some (.reference target rule) →
        ∃ position : Nat,
          grammar.names[position]? = some target ∧
            layout.rules[position]? = some rule ∧
            ∀ another : Nat,
              grammar.names[another]? = some target →
              another = position := by
  obtain ⟨clean, rfl⟩ := toLayout_eq_ok_iff.mp laidOut
  refine ⟨grammar?_layOut grammar, ?_, ?_⟩
  · intro other otherLayout otherLaidOut
    obtain ⟨_, rfl⟩ := toLayout_eq_ok_iff.mp otherLaidOut
    constructor
    · intro same
      have read := congrArg Layout.grammar? same
      rw [grammar?_layOut, grammar?_layOut] at read
      exact Option.some.inj read
    · rintro rfl
      rfl
  · intro id rule target found
    obtain ⟨position, isName, isTop⟩ :=
      exists_position_of_lookup_zip (lookup_of_reference clean found)
    refine ⟨position, isName, isTop, ?_⟩
    intro another isNameToo
    have inside := (List.getElem?_eq_some_iff.mp isNameToo).1
    exact (List.getElem?_inj inside (nodup_names clean)).mp
      (isNameToo.trans isName.symm)

/--
Brackets are read back, differ from letters as layouts do, and refer to the
digit, the second rule.
-/
theorem toLayout_invertible_brackets :
    brackets.toLayout = .ok brackets.layOut ∧
      letters.toLayout = .ok letters.layOut ∧
      brackets.layOut.shape? 6 = some (.reference "digit" 2) ∧
      brackets.layOut.grammar? = some brackets ∧
      brackets.layOut ≠ letters.layOut ∧
      ∃ position : Nat,
        brackets.names[position]? = some "digit" ∧
          brackets.layOut.rules[position]? = some 2 := by
  have laidOut : brackets.toLayout = .ok brackets.layOut :=
    toLayout_eq_ok_iff.mpr ⟨defects_brackets, rfl⟩
  have otherLaidOut : letters.toLayout = .ok letters.layOut :=
    toLayout_eq_ok_iff.mpr ⟨defects_letters, rfl⟩
  have found :
      brackets.layOut.shape? 6 = some (.reference "digit" 2) := by
    decide
  obtain ⟨read, same, resolved⟩ := toLayout_invertible laidOut
  obtain ⟨position, isName, isTop, _⟩ := resolved found
  refine
    ⟨laidOut, otherLaidOut, found, read, ?_, position, isName, isTop⟩
  intro sameLayout
  have sameGrammar := (same otherLaidOut).mp sameLayout
  revert sameGrammar
  decide

end Grammar

end PegAudit
