import PegAudit.Expr.Path
import PegAudit.Proofs.Layout.Placement

namespace PegAudit

/-!
# The nodes of an expression

The listed nodes are those that paths lead to, each once: a node is visited
before another exactly as their paths say, and no path is visited before
itself.
-/

/-- No node is visited before itself. -/
theorem VisitedBefore.irrefl
    (path : NodePath) :
    ¬ VisitedBefore path path := by
  induction path with
  | nil =>
      intro before
      cases before
  | cons position path inductionHypothesis =>
      intro before
      cases before with
      | aside _ _ earlier =>
          exact Nat.lt_irrefl _ earlier
      | within _ before =>
          exact inductionHypothesis before

namespace Expr

/-- Induction over expressions by their parts. -/
theorem parts_induction
    {motive : Expr → Prop}
    (step :
      ∀ expression : Expr,
        (∀ part ∈ expression.parts, motive part) →
        motive expression)
    (expression : Expr) :
    motive expression := by
  induction expression with
  | terminal item =>
      exact step _ (by simp [parts])
  | reference target =>
      exact step _ (by simp [parts])
  | unary operator body bodyHolds =>
      exact step _ (by simpa [parts] using bodyHolds)
  | group grouping parts partsHold =>
      exact step _ partsHold

/-- The nodes of the parts come first, the expression itself last. -/
theorem nodes_eq
    (expression : Expr) :
    expression.nodes =
      partNodes 1 expression.parts ++ [([], expression)] := by
  cases expression <;> simp [nodes, partNodes, parts]

/-- A node of the parts is a node of one of them, by its position. -/
theorem mem_partNodes_iff
    {position : Nat}
    {parts : List Expr}
    {path : NodePath}
    {node : Expr} :
    (path, node) ∈ partNodes position parts ↔
      ∃ index part inner,
        parts[index]? = some part ∧
          path = (index + position) :: inner ∧
          (inner, node) ∈ part.nodes := by
  induction parts generalizing position with
  | nil =>
      simp [partNodes]
  | cons part rest inductionHypothesis =>
      rw [partNodes, List.mem_append, inductionHypothesis]
      constructor
      · rintro (inFirst | ⟨index, later, inner, found, rfl, inLater⟩)
        · obtain ⟨⟨inner, _⟩, inPart, same⟩ := List.mem_map.mp inFirst
          cases same
          exact ⟨0, part, inner, rfl, by rw [Nat.zero_add], inPart⟩
        · refine ⟨index + 1, later, inner, found, ?_, inLater⟩
          rw [Nat.add_right_comm, Nat.add_assoc]
      · rintro ⟨_ | index, later, inner, found, rfl, inLater⟩
        · cases found
          rw [Nat.zero_add]
          exact .inl (List.mem_map.mpr ⟨(inner, node), inLater, rfl⟩)
        · refine .inr ⟨index, later, inner, found, ?_, inLater⟩
          rw [Nat.add_right_comm, Nat.add_assoc]

/-- The listed nodes are those that paths lead to. -/
theorem mem_nodes_iff
    {expression node : Expr}
    {path : NodePath} :
    (path, node) ∈ expression.nodes ↔ expression.at? path = some node := by
  induction expression using parts_induction generalizing path with
  | step expression inductionHypothesis =>
      rw [nodes_eq, List.mem_append, mem_partNodes_iff]
      rcases path with _ | ⟨_ | index, path⟩
      · simp only [at?, Option.some.injEq]
        constructor
        · rintro (⟨_, _, _, _, same, _⟩ | isWhole)
          · cases same
          · cases List.mem_singleton.mp isWhole
            rfl
        · rintro rfl
          exact .inr (List.mem_singleton.mpr rfl)
      · -- Positions are counted from 1.
        constructor
        · rintro (⟨_, _, _, _, same, _⟩ | isWhole)
          · cases same
          · cases List.mem_singleton.mp isWhole
        · intro leads
          cases leads
      · simp only [at?, part?, Option.bind_eq_some_iff]
        constructor
        · rintro (⟨_, part, _, found, same, inPart⟩ | isWhole)
          · cases same
            exact
              ⟨part, found,
                (inductionHypothesis part
                  (List.mem_of_getElem? found)).mp inPart⟩
          · cases List.mem_singleton.mp isWhole
        · rintro ⟨part, found, leads⟩
          exact
            .inl
              ⟨index, part, path, found, rfl,
                (inductionHypothesis part
                  (List.mem_of_getElem? found)).mpr leads⟩

/-- Nodes of parts are visited part by part. -/
theorem pairwise_partNodes
    {parts : List Expr}
    (each :
      ∀ part ∈ parts,
        part.nodes.Pairwise fun first second =>
          VisitedBefore first.1 second.1)
    (position : Nat) :
    (partNodes position parts).Pairwise fun first second =>
      VisitedBefore first.1 second.1 := by
  induction parts generalizing position with
  | nil =>
      exact .nil
  | cons part rest inductionHypothesis =>
      rw [partNodes, List.pairwise_append]
      refine
        ⟨?_,
          inductionHypothesis
            (fun later inRest => each later (List.mem_cons_of_mem part inRest))
            (position + 1),
          ?_⟩
      · exact (each part List.mem_cons_self).map _ fun _ _ => .within position
      · rintro ⟨_, first⟩ inFirst ⟨_, second⟩ inRest
        obtain ⟨_, _, same⟩ := List.mem_map.mp inFirst
        cases same
        obtain ⟨index, _, inner, _, rfl, _⟩ := mem_partNodes_iff.mp inRest
        exact .aside _ _ (by lia)

/-- Nodes are listed in the order in which they are visited. -/
theorem pairwise_nodes
    (expression : Expr) :
    expression.nodes.Pairwise fun first second =>
      VisitedBefore first.1 second.1 := by
  induction expression using parts_induction with
  | step expression inductionHypothesis =>
      rw [nodes_eq, List.pairwise_append]
      refine
        ⟨pairwise_partNodes inductionHypothesis 1,
          List.pairwise_singleton _ _, ?_⟩
      rintro ⟨_, below⟩ inParts last isLast
      obtain ⟨_, _, _, _, rfl, _⟩ := mem_partNodes_iff.mp inParts
      cases List.mem_singleton.mp isLast
      exact .descendant _ _

/-- No path is listed twice. -/
theorem nodup_paths
    (expression : Expr) :
    (expression.nodes.map Prod.fst).Nodup := by
  rw [List.nodup_iff_pairwise_ne, List.pairwise_map]
  apply expression.pairwise_nodes.imp
  rintro first second before same
  rw [same] at before
  exact VisitedBefore.irrefl _ before

end Expr

end PegAudit
