import Mathlib.Data.List.Find
import Mathlib.Data.List.Nodup
import PegAudit.Proofs.Expr.Paths
import PegAudit.Proofs.Layout.ReadBack

namespace PegAudit

/-!
# Names of nodes

The names of the nodes in a layout are the names of its rules with the paths in
their bodies.  Behind the name of a rule a path can be read off: digits run up
to the next dot, and a number has one decimal notation.  So two nodes have one
name only if a rule is called by the name of another with a dot behind it, and
as long as none is, a name finds its node.
-/

/-- The text of a path, a dot before each position. -/
def pathText
    (path : NodePath) :
    List Char :=
  path.flatMap fun position => '.' :: Nat.toDigits 10 position

/-- The name of a node is the text of its path behind the name it is counted from. -/
theorem toList_nodeName
    (name : String)
    (path : NodePath) :
    (nodeName name path).toList = name.toList ++ pathText path := by
  induction path generalizing name with
  | nil =>
      simp [nodeName, pathText]
  | cons position path inductionHypothesis =>
      have onward := inductionHypothesis (partName name position)
      simp only [nodeName, List.foldl_cons] at onward ⊢
      rw [onward, partName, Nat.toString_eq_ofList_toDigits]
      simp [pathText]

/-- The digits of a number end where a path goes on. -/
theorem takeWhile_isDigit
    (position : Nat)
    (path : NodePath) :
    (Nat.toDigits 10 position ++ pathText path).takeWhile Char.isDigit =
      Nat.toDigits 10 position := by
  rw [List.takeWhile_append_of_pos fun _ isDigit =>
    Nat.isDigit_of_mem_toDigits (by decide) (by decide) isDigit]
  cases path <;> simp [pathText]

/-- A path can be read off its text. -/
theorem pathText_injective
    {path other : NodePath}
    (same : pathText path = pathText other) :
    path = other := by
  induction path generalizing other with
  | nil =>
      cases other with
      | nil =>
          rfl
      | cons later other =>
          cases same
  | cons position path inductionHypothesis =>
      cases other with
      | nil =>
          cases same
      | cons later other =>
          have behindDot :
              Nat.toDigits 10 position ++ pathText path =
                Nat.toDigits 10 later ++ pathText other :=
            (List.cons.inj same).2
          have sameDigits :
              Nat.toDigits 10 position = Nat.toDigits 10 later := by
            rw [← takeWhile_isDigit position path, behindDot,
              takeWhile_isDigit]
          have samePosition : position = later := by
            simpa using
              congrArg (fun digits => Nat.ofDigitChars 10 digits 0) sameDigits
          rw [samePosition] at behindDot ⊢
          rw [inductionHypothesis (List.append_cancel_left behindDot)]

/-- Different paths from one name lead to different names. -/
theorem nodeName_injective
    (name : String) :
    Function.Injective (nodeName name) := by
  intro path other same
  have texts := congrArg String.toList same
  rw [toList_nodeName, toList_nodeName] at texts
  exact pathText_injective (List.append_cancel_left texts)

/--
A name that is longer than another goes on with a dot if it begins a name that
the other begins.
-/
theorem name_eq_of_append
    {name other : String}
    {path otherPath : NodePath}
    {between : List Char}
    (apart : ¬ (name ++ ".").toList <+: other.toList)
    (longer : other.toList = name.toList ++ between)
    (text : pathText path = between ++ pathText otherPath) :
    name = other := by
  rcases between with _ | ⟨character, between⟩
  · exact String.toList_injective (by simpa using longer.symm)
  · have isDot : character = '.' := by
      cases path with
      | nil =>
          cases text
      | cons position path =>
          exact (List.cons.inj text).1.symm
    subst isDot
    exact (apart ⟨between, by simp [longer]⟩).elim

/-- Names of which neither goes on from the other with a dot begin different names. -/
theorem name_eq_of_nodeName_eq
    {name other : String}
    {path otherPath : NodePath}
    (apart : ¬ (name ++ ".").toList <+: other.toList)
    (otherApart : ¬ (other ++ ".").toList <+: name.toList)
    (same : nodeName name path = nodeName other otherPath) :
    name = other := by
  have texts := congrArg String.toList same
  rw [toList_nodeName, toList_nodeName, List.append_eq_append_iff] at texts
  rcases texts with ⟨between, longer, rest⟩ | ⟨between, longer, rest⟩
  · exact name_eq_of_append apart longer rest
  · exact (name_eq_of_append otherApart longer rest).symm

namespace Expr

/-- The number of an expression stands in front of those of its parts. -/
theorem numbers_eq
    (expression : Expr)
    (cursor : Cursor) :
    expression.numbers cursor =
      expression.topId cursor ::
        numbersOf cursor.skipCompound expression.parts := by
  cases expression <;> simp [numbers, numbersOf, topId, parts]

/--
The numbers of consecutive parts have the names of their nodes if those of each
part have, counted from its position.
-/
theorem perm_map_numbersOf
    {named : NodeId → String}
    {name : String}
    {parts : List Expr}
    {cursor : Cursor}
    {position : Nat}
    (each :
      ∀ before part after,
        parts = before ++ part :: after →
        ((part.numbers (skipParts cursor before)).map named).Perm
          (part.nodes.map fun (path, _) =>
            nodeName (partName name (position + before.length)) path)) :
    ((numbersOf cursor parts).map named).Perm
      ((partNodes position parts).map fun (path, _) =>
        nodeName name path) := by
  induction parts generalizing cursor position with
  | nil =>
      exact .nil
  | cons part rest inductionHypothesis =>
      rw [numbersOf, partNodes, List.map_append, List.map_append,
        List.map_map]
      apply (each [] part rest rfl).append
      apply inductionHypothesis
      intro before later after same
      have inRest := each (part :: before) later after (congrArg _ same)
      rwa [List.length_cons, ← Nat.add_assoc, Nat.add_right_comm] at inRest

end Expr

namespace Grammar

variable {grammar : Grammar}

namespace Places

variable
  {site : Site}
  {cursor : Cursor}
  {expression : Expr}

/-- The parts of a placed expression are placed behind each other. -/
theorem of_parts
    (places : grammar.Places site cursor expression)
    {before after : List Expr}
    {part : Expr}
    (split : expression.parts = before ++ part :: after) :
    grammar.Places (site.part (1 + before.length))
      (Expr.skipParts cursor.skipCompound before) part := by
  cases expression with
  | terminal item =>
      cases before <;> cases split
  | reference target =>
      cases before <;> cases split
  | unary operator body =>
      obtain ⟨rfl, same⟩ | ⟨_, none⟩ :=
        List.singleton_eq_append_iff.mp split
      · cases same
        exact places.body
      · cases none
  | group grouping parts =>
      subst split
      exact places.part

/-- The node of a placed expression is called as the site is. -/
theorem name_topId
    (places : grammar.Places site cursor expression) :
    grammar.layOut.name (expression.topId cursor) = site.name := by
  rw [Layout.name, places.node?]
  rfl

/-- The nodes of a placed expression are called by their paths from it. -/
theorem perm_names
    (places : grammar.Places site cursor expression) :
    ((expression.numbers cursor).map grammar.layOut.name).Perm
      (expression.nodes.map fun (path, _) => nodeName site.name path) := by
  induction expression using Expr.parts_induction
    generalizing site cursor with
  | step expression inductionHypothesis =>
      have parts :=
        Expr.perm_map_numbersOf
          fun before part after (split : expression.parts = _) =>
            inductionHypothesis part (by simp [split])
              (places.of_parts split)
      rw [Expr.numbers_eq, Expr.nodes_eq, List.map_cons, List.map_append,
        places.name_topId]
      exact (parts.cons _).trans (List.perm_append_singleton _ _).symm

end Places

/-- The names of all nodes: those of the rules with the paths in their bodies. -/
def nodeNames
    (grammar : Grammar) :
    List String :=
  grammar.rules.flatMap fun rule =>
    rule.body.nodes.map fun (path, _) => nodeName rule.name path

/-- The numbers of consecutive bodies have the names of the nodes in their rules. -/
theorem perm_map_numbersOf_bodies
    {before after : List Rule}
    (rules : grammar.rules = before ++ after) :
    ((Expr.numbersOf
        (Expr.skipParts grammar.cursor (before.map Rule.body))
        (after.map Rule.body)).map grammar.layOut.name).Perm
      (after.flatMap fun rule =>
        rule.body.nodes.map fun (path, _) => nodeName rule.name path) := by
  induction after generalizing before with
  | nil =>
      exact .nil
  | cons rule rest inductionHypothesis =>
      have first := (Places.rule rules rfl).perm_names
      rw [List.append_cons] at rules
      have later := inductionHypothesis rules
      rw [List.map_append, Expr.skipParts_append, List.map_singleton,
        Expr.skipParts, Expr.skipParts] at later
      rw [List.map_cons, Expr.numbersOf, List.map_append, List.flatMap_cons]
      exact first.append later

/-- The nodes of a layout are called by the rules and the paths in their bodies. -/
theorem perm_nodeNames
    (grammar : Grammar) :
    (grammar.layOut.ids.map grammar.layOut.name).Perm grammar.nodeNames := by
  have listed := grammar.perm_preorder.map grammar.layOut.name
  rw [preorder_layOut] at listed
  exact
    listed.symm.trans
      (perm_map_numbersOf_bodies (List.nil_append grammar.rules).symm)

/-- A node is called by a rule and a path in its body. -/
theorem mem_nodeNames_iff
    {text : String} :
    text ∈ grammar.nodeNames ↔
      ∃ rule ∈ grammar.rules,
        ∃ path node,
          rule.body.at? path = some node ∧ text = nodeName rule.name path := by
  simp only [nodeNames, List.mem_flatMap, List.mem_map, Prod.exists,
    Expr.mem_nodes_iff, eq_comm]

/-- No name is followed by a dot in another. -/
def NamesApart
    (grammar : Grammar) :
    Prop :=
  ∀ name ∈ grammar.names,
    ∀ other ∈ grammar.names,
      ¬ (other ++ ".").toList <+: name.toList

/-- Names that are apart lead to different names of nodes. -/
theorem nodup_nodeNames
    (distinct : grammar.names.Nodup)
    (apart : grammar.NamesApart) :
    grammar.nodeNames.Nodup := by
  have isName {rule : Rule} (member : rule ∈ grammar.rules) :
      rule.name ∈ grammar.names :=
    List.mem_map_of_mem member
  rw [nodeNames, List.nodup_iff_pairwise_ne, List.pairwise_flatMap]
  constructor
  · intro rule _
    have named :=
      rule.body.nodup_paths.map (nodeName_injective rule.name)
    rwa [List.map_map] at named
  · have rules : grammar.rules.Pairwise fun first second =>
        first.name ≠ second.name :=
      List.pairwise_map.mp distinct
    apply rules.imp_of_mem
    intro first second inFirst inSecond different _ isFirst _ isSecond same
    obtain ⟨⟨path, _⟩, _, rfl⟩ := List.mem_map.mp isFirst
    obtain ⟨⟨later, _⟩, _, rfl⟩ := List.mem_map.mp isSecond
    exact
      different
        (name_eq_of_nodeName_eq
          (apart _ (isName inSecond) _ (isName inFirst))
          (apart _ (isName inFirst) _ (isName inSecond))
          same)

end Grammar

namespace Layout

variable {layout : Layout}

/-- With a node for each number, finding a name is finding a number with it. -/
theorem find?_eq
    (present : layout.exprCount ≤ layout.nodes.size)
    (text : String) :
    layout.find? text =
      layout.ids.find? fun id => layout.name id == text := by
  apply List.find?_congr
  intro id member
  have inside : id < layout.nodes.size :=
    Nat.lt_of_lt_of_le (List.mem_range.mp member) present
  simp [node?, name, inside]

/-- A name is not found if no expression has it. -/
theorem find?_eq_none_iff
    (present : layout.exprCount ≤ layout.nodes.size)
    {text : String} :
    layout.find? text = none ↔ text ∉ layout.ids.map layout.name := by
  simp [find?_eq present]

/-- A name that only one expression has is found there. -/
theorem find?_name
    (present : layout.exprCount ≤ layout.nodes.size)
    (distinct : (layout.ids.map layout.name).Nodup)
    {id : NodeId}
    (member : id ∈ layout.ids) :
    layout.find? (layout.name id) = some id := by
  cases found : layout.find? (layout.name id) with
  | none =>
      exact
        ((find?_eq_none_iff present).mp found
          (List.mem_map_of_mem member)).elim
  | some other =>
      rw [find?_eq present] at found
      have isOther := List.mem_of_find?_eq_some found
      have sameName : layout.name other = layout.name id := by
        simpa using List.find?_some found
      rw [List.inj_on_of_nodup_map distinct isOther member sameName]

/-- The node for remaining input is not found by its name. -/
theorem find?_withRemainder
    (present : layout.exprCount ≤ layout.nodes.size)
    (text : String) :
    layout.withRemainder.find? text = layout.find? text := by
  apply List.find?_congr
  intro id member
  have inside : id < layout.nodes.size :=
    Nat.lt_of_lt_of_le (List.mem_range.mp member) present
  rw [layout.node?_withRemainder_of_lt inside]

end Layout

namespace Grammar

/--
If no rule is called by the name of another with a dot behind it, then the
names of nodes are distinct and each is found at its node; a text is found just
if it is the name of a rule with a path that leads to a node in its body.  The
node for remaining input changes nothing of this.
-/
theorem names_identify_nodes
    {grammar : Grammar}
    {layout : Layout}
    (laidOut : grammar.toLayout = .ok layout)
    (apart : grammar.NamesApart) :
    (layout.ids.map layout.name).Nodup ∧
      (∀ id ∈ layout.ids, layout.find? (layout.name id) = some id) ∧
      (∀ text : String,
        layout.find? text = none ↔
          ¬ ∃ rule ∈ grammar.rules,
              ∃ path node,
                rule.body.at? path = some node ∧
                  text = nodeName rule.name path) ∧
      ∀ text : String,
        layout.withRemainder.find? text = layout.find? text := by
  obtain ⟨clean, rfl⟩ := toLayout_eq_ok_iff.mp laidOut
  have present := Nat.le_of_eq grammar.size_nodes_layOut.symm
  have distinct : (grammar.layOut.ids.map grammar.layOut.name).Nodup :=
    grammar.perm_nodeNames.nodup_iff.mpr
      (nodup_nodeNames (nodup_names clean) apart)
  refine
    ⟨distinct, fun id => Layout.find?_name present distinct, ?_,
      Layout.find?_withRemainder present⟩
  intro text
  rw [Layout.find?_eq_none_iff present, grammar.perm_nodeNames.mem_iff,
    mem_nodeNames_iff]

/-- In brackets the closing one is the third part of the first part, and there is no fourth. -/
theorem names_identify_nodes_brackets :
    brackets.toLayout = .ok brackets.layOut ∧
      brackets.NamesApart ∧
      brackets.layOut.name 1 = "brackets.1.3" ∧
      brackets.layOut.find? "brackets.1.3" = some 1 ∧
      ¬ ∃ rule ∈ brackets.rules,
          ∃ path node,
            rule.body.at? path = some node ∧
              "brackets.1.4" = nodeName rule.name path := by
  have laidOut : brackets.toLayout = .ok brackets.layOut :=
    toLayout_eq_ok_iff.mpr ⟨defects_brackets, rfl⟩
  have apart : brackets.NamesApart := by
    unfold NamesApart
    decide
  have named : brackets.layOut.name 1 = "brackets.1.3" := by
    decide
  obtain ⟨_, found, foundIff, _⟩ := names_identify_nodes laidOut apart
  refine ⟨laidOut, apart, named, ?_, ?_⟩
  · rw [← named]
    exact found 1 (by decide)
  · exact (foundIff "brackets.1.4").mp (by decide)

end Grammar

end PegAudit
