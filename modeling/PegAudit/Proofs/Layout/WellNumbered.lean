import PegAudit.Proofs.Layout.Placement

namespace PegAudit

/-!
# Well-numbered layouts

A layout that comes from a grammar without defects is well numbered: terminals
are the first block, a part comes after its owner unless it is a terminal, a
reference leads to the top node of a rule, and no literal is empty.  All later
arguments about layouts start from these facts.
-/

/-- What the numbering of a grammar without defects guarantees. -/
structure Layout.WellNumbered (layout : Layout) : Prop where
  terminalCount_le :
    layout.terminalCount ≤ layout.exprCount
  size_nodes :
    layout.nodes.size = layout.exprCount
  isTerminal_iff :
    ∀ {id shape},
      layout.shape? id = some shape →
      (shape.isTerminal = true ↔ id < layout.terminalCount)
  isWritten :
    ∀ id, layout.shape? id ≠ some .remainingInput
  mentioned_lt :
    ∀ {id shape other},
      layout.shape? id = some shape →
      other ∈ shape.mentioned →
      other < layout.exprCount
  children_later :
    ∀ {id shape part},
      layout.shape? id = some shape →
      part ∈ shape.children →
      part < layout.terminalCount ∨ id < part
  reference_rule :
    ∀ {id target rule},
      layout.shape? id = some (.reference target rule) →
      rule ∈ layout.rules
  rules_lt :
    ∀ {rule},
      rule ∈ layout.rules →
      rule < layout.exprCount
  rules_ne_nil :
    layout.rules ≠ []
  literal_ne_empty :
    ∀ {id text},
      layout.shape? id = some (.terminal (.literal text)) →
      text ≠ ""

namespace Layout.WellNumbered

/-- The numbers with a shape are the counted ones. -/
theorem exists_shape_iff
    {layout : Layout}
    (wellNumbered : layout.WellNumbered)
    {id : NodeId} :
    (∃ shape, layout.shape? id = some shape) ↔
      id < layout.exprCount := by
  rw [← wellNumbered.size_nodes]
  constructor
  · rintro ⟨shape, found⟩
    obtain ⟨node, isNode, _⟩ := Option.map_eq_some_iff.mp found
    exact (Array.getElem?_eq_some_iff.mp isNode).1
  · intro present
    exact ⟨layout.nodes[id].shape, by simp [shape?, node?, present]⟩

/-- Every node that is not a terminal is among the compound ones. -/
theorem mem_compoundIds
    {layout : Layout}
    (wellNumbered : layout.WellNumbered)
    {id : NodeId}
    {shape : Shape NodeId}
    (found : layout.shape? id = some shape)
    (isCompound : shape.isTerminal = false) :
    id ∈ layout.compoundIds := by
  have counted := wellNumbered.exists_shape_iff.mp ⟨shape, found⟩
  have notTerminal : ¬ id < layout.terminalCount := by
    intro isTerminal
    rw [(wellNumbered.isTerminal_iff found).mpr isTerminal] at isCompound
    cases isCompound
  simp only [compoundIds, List.mem_range'_1]
  lia

/-- A number that is not a terminal's is counted. -/
theorem lt_of_mem_compoundIds
    {layout : Layout}
    (wellNumbered : layout.WellNumbered)
    {id : NodeId}
    (compound : id ∈ layout.compoundIds) :
    id < layout.exprCount := by
  have least := wellNumbered.terminalCount_le
  rw [compoundIds, List.mem_range'_1] at compound
  lia

/-- The start is a counted number. -/
theorem start_lt
    {layout : Layout}
    (wellNumbered : layout.WellNumbered) :
    layout.start < layout.exprCount := by
  cases rules : layout.rules with
  | nil =>
      exact (wellNumbered.rules_ne_nil rules).elim
  | cons first others =>
      apply wellNumbered.rules_lt
      simp [start, rules]

end Layout.WellNumbered

namespace Expr

/-- Each number of consecutive expressions is that of one of them. -/
theorem exists_part_of_mem_topIds
    {cursor : Cursor}
    {parts : List Expr}
    {id : NodeId}
    (member : id ∈ topIds cursor parts) :
    ∃ before part after,
      parts = before ++ part :: after ∧
        id = part.topId (skipParts cursor before) := by
  induction parts generalizing cursor with
  | nil =>
      cases member
  | cons part rest inductionHypothesis =>
      rcases List.mem_cons.mp member with isFirst | inRest
      · exact ⟨[], part, rest, rfl, isFirst⟩
      · obtain ⟨before, later, after, restShape, same⟩ :=
          inductionHypothesis inRest
        exact ⟨part :: before, later, after, by simp [restShape], same⟩

/-- Consecutive expressions have one number each. -/
@[simp] theorem length_topIds
    (cursor : Cursor)
    (parts : List Expr) :
    (topIds cursor parts).length = parts.length := by
  induction parts generalizing cursor with
  | nil =>
      rfl
  | cons part rest inductionHypothesis =>
      simp [topIds, inductionHypothesis]

/-- Parts without defects have none one by one. -/
theorem defects_part_eq_nil
    {known : List String}
    {name : String}
    {position : Nat}
    {before after : List Expr}
    {part : Expr}
    (clean :
      partDefects known name position (before ++ part :: after) = []) :
    part.defects known (partName name (position + before.length)) = [] := by
  induction before generalizing position with
  | nil =>
      simp only [List.nil_append, partDefects,
        List.append_eq_nil_iff] at clean
      exact clean.1
  | cons first rest inductionHypothesis =>
      simp only [List.cons_append, partDefects,
        List.append_eq_nil_iff] at clean
      have partClean := inductionHypothesis clean.2
      simpa [Nat.add_assoc, Nat.add_comm 1] using partClean

end Expr

namespace Grammar

/-- A known name has one of the listed numbers. -/
theorem exists_lookup_zip
    {keys : List String}
    {values : List NodeId}
    (sameLength : keys.length = values.length)
    {key : String}
    (known : key ∈ keys) :
    ∃ value ∈ values, (keys.zip values).lookup key = some value := by
  induction keys generalizing values with
  | nil =>
      cases known
  | cons first rest inductionHypothesis =>
      cases values with
      | nil =>
          cases sameLength
      | cons value others =>
          by_cases isFirst : key = first
          · exact ⟨value, by simp, by simp [isFirst]⟩
          · have inRest : key ∈ rest :=
              (List.mem_cons.mp known).resolve_left isFirst
            obtain ⟨found, member, lookup⟩ :=
              inductionHypothesis (by simpa using sameLength) inRest
            refine ⟨found, List.mem_cons_of_mem value member, ?_⟩
            have different : (key == first) = false :=
              beq_false_of_ne isFirst
            simp [List.zip_cons_cons, List.lookup_cons, different, lookup]

/-- Only a grammar without defects has a layout, its numbered nodes. -/
theorem toLayout_eq_ok_iff
    {grammar : Grammar}
    {layout : Layout} :
    grammar.toLayout = .ok layout ↔
      grammar.defects = [] ∧ grammar.layOut = layout := by
  unfold toLayout
  split
  case h_1 clean =>
    simp [clean]
  case h_2 defects nonempty =>
    constructor
    · intro refused
      cases refused
    · intro clean
      exact (nonempty clean.1).elim

/-- A placed expression of a grammar without defects has none. -/
theorem Places.defects_eq_nil
    {grammar : Grammar}
    (clean : grammar.defects = [])
    {site : Site}
    {cursor : Cursor}
    {expression : Expr}
    (places : grammar.Places site cursor expression) :
    expression.defects grammar.names site.name = [] := by
  induction places with
  | @rule before after rule cursor rules here =>
      have inRules : rule ∈ grammar.rules := by
        simp [rules]
      have nonempty : grammar.rules.isEmpty = false := by
        simp [rules]
      simp only [defects, nonempty, Bool.false_eq_true, ↓reduceIte,
        List.append_eq_nil_iff, List.flatMap_eq_nil_iff] at clean
      exact clean.2 rule inRules
  | @body site cursor operator body whole wholeClean =>
      exact wholeClean
  | @part site cursor grouping before after part whole wholeClean =>
      simp only [Expr.defects, List.append_eq_nil_iff] at wholeClean
      exact Expr.defects_part_eq_nil wholeClean.1

/-- The shape of a node is that of a placed expression. -/
theorem exists_places_of_shape?
    {grammar : Grammar}
    {id : NodeId}
    {shape : Shape NodeId}
    (found : grammar.layOut.shape? id = some shape) :
    ∃ site cursor expression,
      grammar.Places site cursor expression ∧
        expression.topId cursor = id ∧
        expression.shapeAt grammar.scope cursor = shape := by
  obtain ⟨node, isNode, _⟩ := Option.map_eq_some_iff.mp found
  have counted : id < grammar.layOut.exprCount := by
    rw [← size_nodes_layOut]
    exact (Array.getElem?_eq_some_iff.mp isNode).1
  obtain ⟨site, cursor, expression, places, rfl⟩ :=
    exists_places grammar counted
  refine ⟨site, cursor, expression, places, rfl, ?_⟩
  simpa [Layout.shape?, places.node?, Site.node] using found

/-- A top number belongs to the placed body of a rule. -/
theorem exists_places_of_mem_topIds
    {grammar : Grammar}
    {top : NodeId}
    (member : top ∈ grammar.topIds) :
    ∃ site cursor expression,
      grammar.Places site cursor expression ∧
        expression.topId cursor = top ∧
        site.isRule = true ∧
        site.rule = top := by
  obtain ⟨before, body, after, bodies, rfl⟩ :=
    Expr.exists_part_of_mem_topIds member
  obtain ⟨site, places, isRule, ofRule⟩ := exists_places_body bodies
  exact ⟨site, _, body, places, rfl, isRule, ofRule⟩

/-- The number of a placed expression is a counted one. -/
theorem Places.topId_lt
    {grammar : Grammar}
    {site : Site}
    {cursor : Cursor}
    {expression : Expr}
    (places : grammar.Places site cursor expression) :
    expression.topId cursor < grammar.layOut.exprCount := by
  have within := places.skip_le
  have least := places.terminalCount_le
  have own := expression.between_topId cursor
  have moved := expression.le_skip cursor
  unfold Cursor.Between at own
  lia

/-- The number of a part is a terminal's or lies behind the cursor of the part. -/
theorem Places.topId_later
    {grammar : Grammar}
    {site : Site}
    {cursor : Cursor}
    {expression : Expr}
    (places : grammar.Places site cursor expression) :
    expression.topId cursor < grammar.layOut.terminalCount ∨
      cursor.compound ≤ expression.topId cursor := by
  rcases expression.between_topId cursor with isTerminal | isCompound
  · exact .inl (Nat.lt_of_lt_of_le isTerminal.2 places.skip_le.1)
  · exact .inr isCompound.1

/-- Without defects there is a rule. -/
theorem rules_ne_nil
    {grammar : Grammar}
    (clean : grammar.defects = []) :
    grammar.rules ≠ [] := by
  intro noRules
  simp [defects, noRules] at clean

/-- A placed reference leads to a top number. -/
theorem Places.exists_lookup
    {grammar : Grammar}
    (clean : grammar.defects = [])
    {site : Site}
    {cursor : Cursor}
    {target : String}
    (places : grammar.Places site cursor (.reference target)) :
    ∃ top ∈ grammar.topIds, grammar.scope.lookup target = some top := by
  have isKnown : target ∈ grammar.names := by
    have noDefect := places.defects_eq_nil clean
    simp only [Expr.defects] at noDefect
    split at noDefect
    case isTrue known =>
      simpa using known
    case isFalse =>
      cases noDefect
  apply exists_lookup_zip _ isKnown
  simp [names, topIds, bodies]

/-- The nodes that a placed expression mentions are placed too. -/
theorem Places.exists_mentioned
    {grammar : Grammar}
    (clean : grammar.defects = [])
    {site : Site}
    {cursor : Cursor}
    {expression : Expr}
    (places : grammar.Places site cursor expression)
    {other : NodeId}
    (mentioned :
      other ∈ (expression.shapeAt grammar.scope cursor).mentioned) :
    ∃ site cursor expression,
      grammar.Places site cursor expression ∧
        expression.topId cursor = other := by
  cases expression with
  | terminal item =>
      cases mentioned
  | reference target =>
      obtain ⟨top, member, found⟩ := places.exists_lookup clean
      simp only [Expr.shapeAt, Shape.mentioned, found,
        Option.getD_some, List.mem_singleton] at mentioned
      subst other
      obtain ⟨site, cursor, body, bodyPlaces, same, _⟩ :=
        exists_places_of_mem_topIds member
      exact ⟨site, cursor, body, bodyPlaces, same⟩
  | unary operator body =>
      simp only [Expr.shapeAt, Shape.mentioned,
        List.mem_singleton] at mentioned
      subst other
      exact ⟨_, _, _, places.body, rfl⟩
  | group grouping parts =>
      obtain ⟨before, part, after, rfl, rfl⟩ :=
        Expr.exists_part_of_mem_topIds mentioned
      exact ⟨_, _, _, places.part, rfl⟩

/-- The parts of a placed expression come after it, terminals apart. -/
theorem Places.children_later
    {grammar : Grammar}
    {site : Site}
    {cursor : Cursor}
    {expression : Expr}
    (places : grammar.Places site cursor expression)
    {part : NodeId}
    (child :
      part ∈ (expression.shapeAt grammar.scope cursor).children) :
    part < grammar.layOut.terminalCount ∨
      expression.topId cursor < part := by
  cases expression with
  | terminal item =>
      cases child
  | reference target =>
      cases child
  | unary operator body =>
      simp only [Expr.shapeAt, Shape.children,
        List.mem_singleton] at child
      subst part
      exact places.body.topId_later
  | group grouping parts =>
      obtain ⟨before, part, after, rfl, rfl⟩ :=
        Expr.exists_part_of_mem_topIds child
      have moved :
          cursor.skipCompound.compound ≤
            (Expr.skipParts cursor.skipCompound before).compound :=
        (Expr.le_skipParts before cursor.skipCompound).2
      rcases places.part.topId_later with isTerminal | later
      · exact .inl isTerminal
      · exact .inr (Nat.lt_of_lt_of_le moved later)

/-- Exactly the terminals get numbers of the first block. -/
theorem Places.isTerminal_iff
    {grammar : Grammar}
    {site : Site}
    {cursor : Cursor}
    {expression : Expr}
    (places : grammar.Places site cursor expression) :
    (expression.shapeAt grammar.scope cursor).isTerminal = true ↔
      expression.topId cursor < grammar.layOut.terminalCount := by
  have least := places.terminalCount_le
  cases expression with
  | terminal item =>
      have within : cursor.terminal < grammar.layOut.terminalCount :=
        places.skip_le.1
      simpa [Expr.shapeAt, Shape.isTerminal, Expr.topId] using within
  | reference target =>
      simpa [Expr.shapeAt, Shape.isTerminal, Expr.topId] using least
  | unary operator body =>
      simpa [Expr.shapeAt, Shape.isTerminal, Expr.topId] using least
  | group grouping parts =>
      simpa [Expr.shapeAt, Shape.isTerminal, Expr.topId] using least

/-- The layout of a grammar without defects is well numbered. -/
theorem wellNumbered_layOut
    {grammar : Grammar}
    (clean : grammar.defects = []) :
    grammar.layOut.WellNumbered where
  terminalCount_le := by
    rw [terminalCount_layOut, exprCount_layOut]
    exact Nat.le_add_right _ _
  size_nodes :=
    size_nodes_layOut grammar
  isTerminal_iff := by
    intro id shape found
    obtain ⟨site, cursor, expression, places, rfl, rfl⟩ :=
      exists_places_of_shape? found
    exact places.isTerminal_iff
  isWritten := by
    intro id found
    obtain ⟨site, cursor, expression, places, rfl, isRemainder⟩ :=
      exists_places_of_shape? found
    cases expression <;> cases isRemainder
  mentioned_lt := by
    intro id shape other found mentioned
    obtain ⟨site, cursor, expression, places, rfl, rfl⟩ :=
      exists_places_of_shape? found
    obtain ⟨otherSite, otherCursor, named, otherPlaces, rfl⟩ :=
      places.exists_mentioned clean mentioned
    exact otherPlaces.topId_lt
  children_later := by
    intro id shape part found child
    obtain ⟨site, cursor, expression, places, rfl, rfl⟩ :=
      exists_places_of_shape? found
    exact places.children_later child
  reference_rule := by
    intro id target rule found
    obtain ⟨site, cursor, expression, places, rfl, isReference⟩ :=
      exists_places_of_shape? found
    cases expression with
    | reference name =>
        obtain ⟨top, member, lookup⟩ := places.exists_lookup clean
        simp only [Expr.shapeAt, lookup, Option.getD_some,
          Shape.reference.injEq] at isReference
        rw [← isReference.2]
        exact member
    | _ =>
        cases isReference
  rules_lt := by
    intro rule member
    obtain ⟨site, cursor, expression, places, rfl, _⟩ :=
      exists_places_of_mem_topIds member
    exact places.topId_lt
  rules_ne_nil := by
    intro noTops
    have noRules : grammar.topIds.length = 0 :=
      congrArg List.length noTops
    apply rules_ne_nil clean
    simpa [topIds, bodies] using noRules
  literal_ne_empty := by
    intro id text found
    obtain ⟨site, cursor, expression, places, rfl, isLiteral⟩ :=
      exists_places_of_shape? found
    have noDefect := places.defects_eq_nil clean
    cases expression with
    | terminal item =>
        cases isLiteral
        rintro rfl
        cases noDefect
    | _ =>
        cases isLiteral

/-- Letters up to the end of the input; a first `a` may be read in two ways. -/
def letters : Grammar :=
  { rules :=
      [{ name := "letters"
         body :=
           .group .sequence
             [.unary .oneOrMore
                (.group .choice [.literal "a", .range 'a' 'z']),
              .terminal .endOfInput] }] }

theorem defects_letters :
    letters.defects = [] := by
  decide

/-- Digits in brackets; the rule for a digit is referred to before it is declared. -/
def brackets : Grammar :=
  { rules :=
      [{ name := "brackets"
         body :=
           .group .choice
             [.group .sequence
                [.literal "(", .reference "brackets", .literal ")"],
              .reference "digit"] },
        { name := "digit"
          body := .range '0' '9' }] }

theorem defects_brackets :
    brackets.defects = [] := by
  decide

/-- A rule that begins with itself; otherwise it takes an optional `y`. -/
def leftRecursive : Grammar :=
  { rules :=
      [{ name := "A"
         body :=
           .group .choice
             [.group .sequence [.reference "A", .literal "x"],
              .unary .optional (.literal "y")] }] }

theorem defects_leftRecursive :
    leftRecursive.defects = [] := by
  decide

end Grammar

end PegAudit
