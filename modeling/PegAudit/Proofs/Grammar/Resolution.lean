import PegAudit.Proofs.Expr.Paths
import PegAudit.Proofs.Layout.ReadBack

namespace PegAudit

/-!
# Which grammars are refused, and why

A grammar is refused exactly if it has no rules, two rules share a name, or some
node of some rule is flawed.  A refusal lists every reason once: the names that
occurred earlier, in the order of the rules, and then rule by rule the flawed
nodes as they are visited, each with its name.  The bodies of rules with a
repeated name are looked at like all others.
-/

namespace Expr

/-- A node is flawed by itself, whatever its parts, given the names of the rules. -/
inductive Flawed
    (known : List String)
    (name : String) :
    Expr →
    Defect →
    Prop
  /-- A reference to a name that no rule has. -/
  | undefinedRule
      {target : String}
      (undefined : target ∉ known) :
      Flawed known name (.reference target) (.undefinedRule target name)
  /-- A choice or sequence of fewer than two parts. -/
  | emptyExpression
      {grouping : Grouping}
      {parts : List Expr}
      (few : parts.length < 2) :
      Flawed known name (.group grouping parts) (.emptyExpression name)
  /-- A literal without characters. -/
  | emptyLiteral :
      Flawed known name (.literal "") (.emptyLiteral name)
  /-- A class without characters, negated or not. -/
  | emptyClass
      (negated : Bool) :
      Flawed known name (.terminal (.charClass "" negated))
        (.emptyClass name)
  /-- A range that runs backwards. -/
  | invertedRange
      {low high : Char}
      (inverted : high < low) :
      Flawed known name (.range low high) (.invertedRange name low high)

/-- The defects of a node by itself, without those of its parts. -/
def ownDefects
    (known : List String)
    (name : String) :
    Expr →
    List Defect
  | .terminal item =>
      item.defects name
  | .reference target =>
      if known.contains target then
        []
      else
        [.undefinedRule target name]
  | .unary _ _ =>
      []
  | .group _ parts =>
      if parts.length < 2 then
        [.emptyExpression name]
      else
        []

section Own

variable
  {known : List String}
  {name : String}

/-- The defects of a terminal are what is wrong with it. -/
theorem mem_defects_terminal_iff
    {item : Terminal}
    {defect : Defect} :
    defect ∈ item.defects name ↔
      (Expr.terminal item).Flawed known name defect := by
  constructor
  · intro member
    unfold Terminal.defects at member
    split at member
    case h_1 text =>
      split at member
      case isTrue isEmpty =>
        cases String.isEmpty_iff.mp isEmpty
        cases List.mem_singleton.mp member
        exact .emptyLiteral
      case isFalse =>
        cases member
    case h_2 members negated =>
      split at member
      case isTrue isEmpty =>
        cases String.isEmpty_iff.mp isEmpty
        cases List.mem_singleton.mp member
        exact .emptyClass negated
      case isFalse =>
        cases member
    case h_3 low high =>
      split at member
      case isTrue inverted =>
        cases List.mem_singleton.mp member
        exact .invertedRange inverted
      case isFalse =>
        cases member
    case h_4 | h_5 =>
      cases member
  · intro flawed
    cases flawed with
    | emptyLiteral =>
        exact List.mem_singleton.mpr rfl
    | emptyClass negated =>
        exact List.mem_singleton.mpr rfl
    | invertedRange inverted =>
        simp [Terminal.defects, inverted]

/-- The defects of a node by itself are what is wrong with it. -/
theorem mem_ownDefects_iff
    {node : Expr}
    {defect : Defect} :
    defect ∈ node.ownDefects known name ↔
      node.Flawed known name defect := by
  cases node with
  | terminal item =>
      exact mem_defects_terminal_iff
  | reference target =>
      constructor
      · intro member
        by_cases isKnown : target ∈ known
        · simp [ownDefects, isKnown] at member
        · simp only [ownDefects, List.contains_iff_mem, isKnown, if_false,
            List.mem_singleton] at member
          subst member
          exact .undefinedRule isKnown
      · intro flawed
        cases flawed with
        | undefinedRule undefined =>
            simp [ownDefects, undefined]
  | unary operator body =>
      exact ⟨nofun, nofun⟩
  | group grouping parts =>
      constructor
      · intro member
        by_cases few : parts.length < 2
        · simp only [ownDefects, few, if_true,
            List.mem_singleton] at member
          subst member
          exact .emptyExpression few
        · simp [ownDefects, few] at member
      · intro flawed
        cases flawed with
        | emptyExpression few =>
            simp [ownDefects, few]

/-- A node has at most one defect by itself. -/
theorem length_ownDefects_le
    (node : Expr) :
    (node.ownDefects known name).length ≤ 1 := by
  cases node with
  | terminal item =>
      rw [ownDefects, Terminal.defects.eq_def]
      split
      case h_1 | h_2 | h_3 =>
        split <;> simp
      case h_4 | h_5 =>
        exact Nat.zero_le 1
  | reference target =>
      rw [ownDefects]
      split <;> simp
  | unary operator body =>
      exact Nat.zero_le 1
  | group grouping parts =>
      rw [ownDefects]
      split <;> simp

/-- The defects of the parts come first, that of the expression itself last. -/
theorem defects_eq
    (expression : Expr) :
    expression.defects known name =
      partDefects known name 1 expression.parts ++
        expression.ownDefects known name := by
  cases expression with
  | terminal item =>
      rfl
  | reference target =>
      rfl
  | unary operator body =>
      simp [defects, parts, partDefects, ownDefects]
  | group grouping members =>
      rfl

end Own

/-- The defects of parts are those of their nodes if this holds of each part. -/
theorem partDefects_eq_flatMap_partNodes
    {known : List String}
    {parts : List Expr}
    (each :
      ∀ part ∈ parts,
        ∀ name : String,
          part.defects known name =
            part.nodes.flatMap fun (path, node) =>
              node.ownDefects known (nodeName name path))
    (name : String)
    (position : Nat) :
    partDefects known name position parts =
      (partNodes position parts).flatMap fun (path, node) =>
        node.ownDefects known (nodeName name path) := by
  induction parts generalizing position with
  | nil =>
      rfl
  | cons part rest inductionHypothesis =>
      rw [partDefects, partNodes, List.flatMap_append, List.flatMap_map,
        each part List.mem_cons_self,
        inductionHypothesis fun later inRest =>
          each later (List.mem_cons_of_mem part inRest)]
      rfl

/-- The defects of an expression are those of its nodes as they are visited. -/
theorem defects_eq_flatMap_nodes
    (known : List String)
    (expression : Expr)
    (name : String) :
    expression.defects known name =
      expression.nodes.flatMap fun (path, node) =>
        node.ownDefects known (nodeName name path) := by
  induction expression using parts_induction generalizing name with
  | step expression inductionHypothesis =>
      rw [defects_eq, nodes_eq, List.flatMap_append,
        partDefects_eq_flatMap_partNodes inductionHypothesis,
        List.flatMap_singleton]
      rfl

/-- The flaws of the nodes of a named expression, each once, as the nodes are visited. -/
structure ListsFlaws
    (known : List String)
    (name : String)
    (expression : Expr)
    (flaws : List (NodePath × Defect)) :
    Prop where
  mem_iff :
    ∀ {path defect},
      (path, defect) ∈ flaws ↔
        ∃ node,
          expression.at? path = some node ∧
            node.Flawed known (nodeName name path) defect
  in_order :
    flaws.Pairwise fun first second => VisitedBefore first.1 second.1

/-- The defects of the nodes of a named expression, with their paths. -/
def flaws
    (known : List String)
    (name : String)
    (expression : Expr) :
    List (NodePath × Defect) :=
  expression.nodes.flatMap fun (path, node) =>
    (node.ownDefects known (nodeName name path)).map fun defect =>
      (path, defect)

/-- Without the paths these are the defects of the expression. -/
theorem map_snd_flaws
    (known : List String)
    (name : String)
    (expression : Expr) :
    (expression.flaws known name).map Prod.snd =
      expression.defects known name := by
  rw [flaws, List.map_flatMap, defects_eq_flatMap_nodes]
  simp [Function.comp_def]

/-- The defects with their paths are the flaws of the nodes. -/
theorem listsFlaws_flaws
    (known : List String)
    (name : String)
    (expression : Expr) :
    expression.ListsFlaws known name (expression.flaws known name) where
  mem_iff := by
    intro path defect
    simp only [flaws, List.mem_flatMap, List.mem_map, Prod.exists,
      Prod.mk.injEq, mem_nodes_iff, mem_ownDefects_iff]
    constructor
    · rintro ⟨_, node, there, _, flawed, rfl, rfl⟩
      exact ⟨node, there, flawed⟩
    · rintro ⟨node, there, flawed⟩
      exact ⟨path, node, there, defect, flawed, rfl, rfl⟩
  in_order := by
    refine List.pairwise_flatMap.mpr ⟨?_, ?_⟩
    · rintro ⟨path, node⟩ _
      have atMostOne :
          (node.ownDefects known (nodeName name path)).length ≤ 1 :=
        node.length_ownDefects_le
      simp only [List.pairwise_map]
      match node.ownDefects known (nodeName name path), atMostOne with
      | [], _ =>
          exact .nil
      | [defect], _ =>
          exact List.pairwise_singleton _ _
    · apply expression.pairwise_nodes.imp
      rintro ⟨path, _⟩ ⟨other, _⟩ before _ isFlaw _ isOther
      obtain ⟨_, _, rfl⟩ := List.mem_map.mp isFlaw
      obtain ⟨_, _, rfl⟩ := List.mem_map.mp isOther
      exact before

end Expr

namespace Grammar

variable {grammar : Grammar}

/-- The names that an earlier rule has, in the order of the rules. -/
def repeatedNames
    (names : List String) :
    List String :=
  (names.zipIdx.filter fun (name, position) =>
    (names.take position).contains name).map Prod.fst

/-- One defect is listed for each name that occurred before. -/
theorem duplicates_eq_of_earlier
    {earlier before : List String}
    (sameNames : ∀ name, name ∈ earlier ↔ name ∈ before)
    (names : List String) :
    duplicates earlier names =
      (((names.zipIdx before.length).filter fun (name, position) =>
          ((before ++ names).take position).contains name).map
        Prod.fst).map Defect.duplicateRule := by
  induction names generalizing earlier before with
  | nil =>
      rfl
  | cons name rest inductionHypothesis =>
      have onward
          {others : List String}
          (sameOthers : ∀ other, other ∈ others ↔ other ∈ before ++ [name]) :
          duplicates others rest =
            (((rest.zipIdx (before.length + 1)).filter
                fun (other, position) =>
                  ((before ++ name :: rest).take position).contains
                    other).map
              Prod.fst).map Defect.duplicateRule := by
        have later := inductionHypothesis sameOthers
        rwa [List.length_append, List.length_singleton,
          ← List.append_cons] at later
      rw [duplicates, List.zipIdx_cons, List.filter_cons]
      simp only [List.take_left, List.contains_iff_mem, ← sameNames]
      split
      case isTrue occurred =>
        rw [onward fun other => ?_]
        · rfl
        · simp only [List.mem_append, List.mem_singleton, ← sameNames]
          grind
      case isFalse =>
        apply onward
        intro other
        simp only [List.mem_cons, List.mem_append, List.not_mem_nil,
          or_false, ← sameNames]
        exact or_comm

/-- Repeated names are reported in the order of the rules. -/
theorem duplicates_eq_map_repeatedNames
    (names : List String) :
    duplicates [] names =
      (repeatedNames names).map Defect.duplicateRule :=
  duplicates_eq_of_earlier (fun _ => Iff.rfl) names

/-- A grammar that no layout can be made of. -/
inductive Unresolvable
    (grammar : Grammar) :
    Prop
  | noRules
      (none : grammar.rules = [])
  | sharedName
      (shared : ¬ grammar.names.Nodup)
  | flawedNode
      {rule : Rule}
      {path : NodePath}
      {node : Expr}
      {defect : Defect}
      (declared : rule ∈ grammar.rules)
      (there : rule.body.at? path = some node)
      (flawed :
        node.Flawed grammar.names (nodeName rule.name path) defect)

/-- The defects of a grammar with rules: repeated names, then the flaws of each rule. -/
theorem defects_eq_append
    (nonempty : grammar.rules ≠ []) :
    grammar.defects =
      (repeatedNames grammar.names).map .duplicateRule ++
        grammar.rules.flatMap fun rule =>
          (rule.body.flaws grammar.names rule.name).map Prod.snd := by
  have hasRules : grammar.rules.isEmpty = false := by
    simpa using nonempty
  simp only [defects, hasRules, Bool.false_eq_true, if_false,
    duplicates_eq_map_repeatedNames, Expr.map_snd_flaws]

/-- A body without defects has no flawed node. -/
theorem defects_body_eq_nil_iff
    {rule : Rule} :
    rule.body.defects grammar.names rule.name = [] ↔
      ∀ path node defect,
        rule.body.at? path = some node →
        ¬ node.Flawed grammar.names (nodeName rule.name path) defect := by
  rw [← Expr.map_snd_flaws, List.map_eq_nil_iff,
    List.eq_nil_iff_forall_not_mem]
  constructor
  · intro none path node defect there flawed
    exact
      none (path, defect)
        ((rule.body.listsFlaws_flaws grammar.names rule.name).mem_iff.mpr
          ⟨node, there, flawed⟩)
  · rintro none ⟨path, defect⟩ listed
    obtain ⟨node, there, flawed⟩ :=
      (rule.body.listsFlaws_flaws grammar.names rule.name).mem_iff.mp listed
    exact none path node defect there flawed

/-- A grammar has defects exactly if no layout can be made of it. -/
theorem defects_ne_nil_iff :
    grammar.defects ≠ [] ↔ grammar.Unresolvable := by
  rw [ne_eq, defects_eq_nil_iff]
  simp only [defects_body_eq_nil_iff]
  constructor
  · intro refused
    apply Classical.byContradiction
    intro resolvable
    have nonempty : grammar.rules ≠ [] :=
      fun none => resolvable (.noRules none)
    have distinct : grammar.names.Nodup :=
      Decidable.byContradiction fun shared =>
        resolvable (.sharedName shared)
    refine refused ⟨nonempty, distinct, ?_⟩
    intro rule declared path node defect there flawed
    exact resolvable (.flawedNode declared there flawed)
  · rintro refused ⟨nonempty, distinct, sound⟩
    cases refused with
    | noRules none =>
        exact nonempty none
    | sharedName shared =>
        exact shared distinct
    | flawedNode declared there flawed =>
        exact sound _ declared _ _ _ there flawed

/-- Only a grammar with defects is refused, with all of them. -/
theorem toLayout_eq_error_iff
    {batch : List Defect} :
    grammar.toLayout = .error batch ↔
      grammar.defects = batch ∧ batch ≠ [] := by
  unfold toLayout
  split
  case h_1 clean =>
    constructor
    · intro refused
      cases refused
    · rintro ⟨rfl, some⟩
      exact (some clean).elim
  case h_2 defects some =>
    constructor
    · intro refused
      cases refused
      exact ⟨rfl, some⟩
    · rintro ⟨rfl, _⟩
      rfl

/--
A grammar is refused exactly if it has no rules, two rules share a name, or a node
of a rule is flawed, and every reason is reported once and in order: without rules
there is just that one; otherwise the names that occurred earlier come first, and
then, rule by rule, the flaws of the nodes as they are visited.
-/
theorem refused_exactly
    (grammar : Grammar) :
    ((∃ batch, grammar.toLayout = .error batch) ↔
        grammar.Unresolvable) ∧
      (grammar.rules = [] → grammar.toLayout = .error [.noRules]) ∧
      ∀ {batch : List Defect},
        grammar.rules ≠ [] →
        grammar.toLayout = .error batch →
        ∃ flaws : Rule → List (NodePath × Defect),
          (∀ rule ∈ grammar.rules,
            rule.body.ListsFlaws grammar.names rule.name (flaws rule)) ∧
          batch =
            (repeatedNames grammar.names).map .duplicateRule ++
              grammar.rules.flatMap fun rule =>
                (flaws rule).map Prod.snd := by
  refine ⟨?_, ?_, ?_⟩
  · simp only [toLayout_eq_error_iff, exists_eq_left']
    exact defects_ne_nil_iff
  · intro none
    rw [toLayout_eq_error_iff]
    simp [defects, none]
  · intro batch nonempty refused
    obtain ⟨rfl, _⟩ := toLayout_eq_error_iff.mp refused
    exact
      ⟨fun rule => rule.body.flaws grammar.names rule.name,
        fun rule _ => rule.body.listsFlaws_flaws grammar.names rule.name,
        defects_eq_append nonempty⟩

/-- Two rules of one name, and something wrong in every body. -/
def troubled : Grammar :=
  { rules :=
      [{ name := "S"
         body :=
           .group .choice
             [.group .choice [.reference "missing"], .literal ""] },
        { name := "A"
          body := .optional (.range 'z' 'a') },
        { name := "A"
          body := .charClass "" }] }

/-- What is wrong with it, in order. -/
def troubledDefects : List Defect :=
  [.duplicateRule "A", .undefinedRule "missing" "S.1.1",
    .emptyExpression "S.1", .emptyLiteral "S.2",
    .invertedRange "A.1" 'z' 'a', .emptyClass "A"]

/-- A choice of one part is reported behind its part; the second `A` is looked at too. -/
theorem refused_exactly_troubled :
    troubled.rules ≠ [] ∧
      troubled.toLayout = .error troubledDefects ∧
      troubled.Unresolvable ∧
      ∃ flaws : Rule → List (NodePath × Defect),
        (∀ rule ∈ troubled.rules,
          rule.body.ListsFlaws troubled.names rule.name (flaws rule)) ∧
        troubledDefects =
          (repeatedNames troubled.names).map .duplicateRule ++
            troubled.rules.flatMap fun rule =>
              (flaws rule).map Prod.snd := by
  have nonempty : troubled.rules ≠ [] := by
    decide
  have refused : troubled.toLayout = .error troubledDefects :=
    toLayout_eq_error_iff.mpr ⟨by decide, by decide⟩
  obtain ⟨isRefused, _, reported⟩ := refused_exactly troubled
  exact
    ⟨nonempty, refused, isRefused.mp ⟨_, refused⟩,
      reported nonempty refused⟩

end Grammar

end PegAudit
