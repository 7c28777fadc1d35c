import Mathlib.Data.Finset.Card
import PegAudit.Proofs.IndexRelation.Closure
import PegAudit.Proofs.Layout.WellNumbered
import PegAudit.Relations

namespace PegAudit

/-!
# Calls and their cycles

The computed relations have exactly the pairs that the shapes give.  A chain of
calls goes to later numbers and ends at a terminal unless it passes through the
top node of a rule, so if no rule calls itself in some steps then no node does,
and the nodes can be ranked by what they may call.
-/

/-- An element is reached where none that stops stands before it. -/
theorem mem_upTo_iff
    {stops : α → Bool}
    {elements : List α}
    {element : α} :
    element ∈ upTo stops elements ↔
      ∃ before after,
        elements = before ++ element :: after ∧
          ∀ passed ∈ before, stops passed = false := by
  induction elements with
  | nil =>
      simp [upTo]
  | cons first rest inductionHypothesis =>
      -- What stands before the element is nothing, or goes on after the first.
      simp only [upTo, List.cons_eq_append_iff]
      by_cases stopsHere : stops first = true
      · rw [if_pos stopsHere, List.mem_singleton]
        constructor
        · rintro rfl
          exact ⟨[], rest, .inl ⟨rfl, rfl⟩, by simp⟩
        · rintro ⟨before, after, ⟨_, same⟩ | ⟨others, rfl, _⟩, noneStops⟩
          · exact (List.cons.inj same).1
          · simp [noneStops first List.mem_cons_self] at stopsHere
      · rw [if_neg stopsHere, List.mem_cons, inductionHypothesis]
        constructor
        · rintro (rfl | ⟨before, after, rfl, noneStops⟩)
          · exact ⟨[], rest, .inl ⟨rfl, rfl⟩, by simp⟩
          · exact
              ⟨first :: before, after, .inr ⟨before, rfl, rfl⟩,
                List.forall_mem_cons.mpr
                  ⟨Bool.eq_false_of_not_eq_true stopsHere, noneStops⟩⟩
        · rintro ⟨before, after, ⟨_, same⟩ | ⟨others, rfl, split⟩, noneStops⟩
          · exact .inl (List.cons.inj same).1
          · exact
              .inr
                ⟨others, after, split, (List.forall_mem_cons.mp noneStops).2⟩

/-- The reached elements are elements. -/
theorem mem_of_mem_upTo
    {stops : α → Bool}
    {elements : List α}
    {element : α}
    (reached : element ∈ upTo stops elements) :
    element ∈ elements := by
  obtain ⟨before, after, rfl, _⟩ := mem_upTo_iff.mp reached
  exact List.mem_append_right before List.mem_cons_self

/-- Tests that agree on the elements stop at the same one. -/
theorem upTo_congr
    {stops others : α → Bool}
    {elements : List α}
    (agree : ∀ element ∈ elements, stops element = others element) :
    upTo stops elements = upTo others elements := by
  induction elements with
  | nil =>
      rfl
  | cons element rest inductionHypothesis =>
      have first := agree element List.mem_cons_self
      have later :=
        inductionHypothesis fun other member =>
          agree other (List.mem_cons_of_mem element member)
      rw [upTo, upTo, first, later]

namespace AttrTable

variable {table : AttrTable}

/-- An element is reached where only transparent ones stand before it. -/
theorem mem_reachable_iff
    {id : NodeId}
    {elements : List NodeId} :
    id ∈ table.reachable elements ↔
      ∃ before after,
        elements = before ++ id :: after ∧
          ∀ passed ∈ before, (table.of passed).transparent = true := by
  simp [reachable, mem_upTo_iff]

/-- The first element is reached. -/
theorem mem_reachable_cons_self
    {id : NodeId}
    {others : List NodeId} :
    id ∈ table.reachable (id :: others) :=
  mem_reachable_iff.mpr ⟨[], others, rfl, by simp⟩

/-- What is reached in two consecutive lists. -/
theorem mem_reachable_append
    {first later : List NodeId}
    {id : NodeId} :
    id ∈ table.reachable (first ++ later) ↔
      id ∈ table.reachable first ∨
        ((∀ element ∈ first, (table.of element).transparent = true) ∧
          id ∈ table.reachable later) := by
  induction first with
  | nil =>
      simp [reachable, upTo]
  | cons element others inductionHypothesis =>
      rw [List.cons_append, List.forall_mem_cons]
      simp only [reachable, upTo] at inductionHypothesis ⊢
      by_cases passed : (table.of element).transparent = true
      · simp [passed, inductionHypothesis, or_assoc]
      · simp [passed]

/-- What is reached after a transparent element is reached. -/
theorem mem_reachable_cons_of_transparent
    {id other : NodeId}
    {others : List NodeId}
    (transparent : (table.of id).transparent = true)
    (isReached : other ∈ table.reachable others) :
    other ∈ table.reachable (id :: others) :=
  mem_reachable_append.mpr
    (.inr ⟨List.forall_mem_singleton.mpr transparent, isReached⟩)

end AttrTable

namespace Shape

/-- A shape calls only nodes it mentions. -/
theorem mentioned_of_mem_callees
    {table : AttrTable}
    {shape : Shape NodeId}
    {other : NodeId}
    (called : other ∈ shape.callees table) :
    other ∈ shape.mentioned := by
  cases shape with
  | group grouping parts =>
      cases grouping with
      | choice =>
          exact called
      | sequence =>
          exact mem_of_mem_upTo called
  | _ =>
      exact called

/-- Only nodes that a shape calls open its matches. -/
theorem mem_callees_of_mem_openers
    {table : AttrTable}
    {shape : Shape NodeId}
    {other : NodeId}
    (opens : other ∈ shape.openers table) :
    other ∈ shape.callees table := by
  unfold openers at opens
  split at opens
  · exact opens
  · cases opens
  · cases opens
  · exact (List.mem_filter.mp opens).1

end Shape

namespace Layout

/-- The relation made from shapes has exactly the pairs they give. -/
theorem relates_relate_iff
    {layout : Layout}
    (wellNumbered : layout.WellNumbered)
    {related : Shape NodeId → List NodeId}
    (mentions :
      ∀ {shape other},
        other ∈ related shape →
        other ∈ shape.mentioned)
    {id other : NodeId} :
    (layout.relate related).Relates id other ↔
      ∃ shape, layout.shape? id = some shape ∧ other ∈ related shape := by
  rw [IndexRelation.Relates, relate, IndexRelation.contains_ofRows]
  simp only [Bool.and_eq_true, decide_eq_true_eq]
  constructor
  · rintro ⟨⟨_, member⟩, _⟩
    split at member
    case h_1 shape found =>
      exact ⟨shape, found, member⟩
    case h_2 =>
      cases member
  · rintro ⟨shape, found, member⟩
    have counted := wellNumbered.exists_shape_iff.mp ⟨shape, found⟩
    have otherCounted := wellNumbered.mentioned_lt found (mentions member)
    refine ⟨⟨counted, by simpa [found] using member⟩, ?_⟩
    exact Nat.lt_of_lt_of_le otherCounted
      (IndexSet.le_room_empty layout.exprCount)

/-- The rows of a relation made from shapes all have the same room. -/
theorem uniform_relate
    (layout : Layout)
    (related : Shape NodeId → List NodeId) :
    (layout.relate related).Uniform
      (IndexSet.empty layout.exprCount).room := by
  rw [relate]
  exact IndexRelation.Uniform.ofRows _ _

/-- Matching the first node may begin by matching the second at the same place. -/
def Calls
    (layout : Layout)
    (id other : NodeId) :
    Prop :=
  ∃ shape,
    layout.shape? id = some shape ∧
      other ∈ shape.callees layout.attrs

/-- The computed relation of calls has exactly the calls. -/
theorem relates_calls
    {layout : Layout}
    (wellNumbered : layout.WellNumbered) :
    (layout.relations layout.attrs).calls.Relates = layout.Calls := by
  funext id other
  exact propext
    (relates_relate_iff wellNumbered Shape.mentioned_of_mem_callees)

namespace WellNumbered

variable {layout : Layout}

/-- A call leads to a counted node. -/
theorem calls_lt
    (wellNumbered : layout.WellNumbered)
    {id other : NodeId}
    (call : layout.Calls id other) :
    id < layout.exprCount ∧ other < layout.exprCount := by
  obtain ⟨shape, found, called⟩ := call
  exact
    ⟨wellNumbered.exists_shape_iff.mp ⟨shape, found⟩,
      wellNumbered.mentioned_lt found
        (Shape.mentioned_of_mem_callees called)⟩

/-- A call leads to a rule, to a terminal, or to a later number. -/
theorem calls_later
    (wellNumbered : layout.WellNumbered)
    {id other : NodeId}
    (call : layout.Calls id other) :
    other ∈ layout.rules ∨
      other < layout.terminalCount ∨ id < other := by
  obtain ⟨shape, found, called⟩ := call
  have mentioned := Shape.mentioned_of_mem_callees called
  cases shape with
  | reference target rule =>
      left
      rw [List.mem_singleton.mp mentioned]
      exact wellNumbered.reference_rule found
  | _ =>
      exact .inr (wellNumbered.children_later found mentioned)

/-- Terminals call nothing. -/
theorem not_calls_of_terminal
    (wellNumbered : layout.WellNumbered)
    {id other : NodeId}
    (isTerminal : id < layout.terminalCount) :
    ¬ layout.Calls id other := by
  rintro ⟨shape, found, called⟩
  have terminalShape := (wellNumbered.isTerminal_iff found).mpr isTerminal
  cases shape with
  | terminal item =>
      cases called
  | remainingInput =>
      cases called
  | _ =>
      cases terminalShape

/-- A chain of calls passes through a rule, or ends at a terminal or a later number. -/
theorem calls_chain
    (wellNumbered : layout.WellNumbered)
    {id other : NodeId}
    (chain : Relation.TransGen layout.Calls id other) :
    (∃ rule ∈ layout.rules,
        Relation.TransGen layout.Calls id rule ∧
          Relation.ReflTransGen layout.Calls rule other) ∨
      other < layout.terminalCount ∨ id < other := by
  induction chain with
  | single call =>
      rcases wellNumbered.calls_later call with isRule | later
      · exact .inl ⟨_, isRule, .single call, .refl⟩
      · exact .inr later
  | @tail middle other chain call beforeLast =>
      rcases beforeLast with ⟨rule, isRule, toRule, onward⟩ | later
      · exact .inl ⟨rule, isRule, toRule, onward.tail call⟩
      rcases wellNumbered.calls_later call with isRule | further
      · exact .inl ⟨other, isRule, chain.tail call, .refl⟩
      rcases later with isTerminal | afterStart
      · exact (wellNumbered.not_calls_of_terminal isTerminal call).elim
      · right
        rcases further with otherTerminal | afterMiddle
        · exact .inl otherTerminal
        · exact .inr (Nat.lt_trans afterStart afterMiddle)

/-- If no rule calls itself in some steps then no node does. -/
theorem calls_acyclic
    (wellNumbered : layout.WellNumbered)
    (noRule :
      ∀ rule ∈ layout.rules,
        ¬ Relation.TransGen layout.Calls rule rule)
    (id : NodeId) :
    ¬ Relation.TransGen layout.Calls id id := by
  intro cycle
  rcases wellNumbered.calls_chain cycle with
    ⟨rule, isRule, toRule, onward⟩ | isTerminal | later
  · exact noRule rule isRule
      (Relation.TransGen.trans_right onward toRule)
  · obtain ⟨next, call, _⟩ := Relation.TransGen.head'_iff.mp cycle
    exact wellNumbered.not_calls_of_terminal isTerminal call
  · exact Nat.lt_irrefl id later

/-- Without cycles the nodes have ranks that fall with every call. -/
theorem exists_rank
    (wellNumbered : layout.WellNumbered)
    (acyclic : ∀ id, ¬ Relation.TransGen layout.Calls id id) :
    ∃ rank : NodeId → Nat,
      ∀ {id other}, layout.Calls id other → rank other < rank id := by
  classical
  -- The rank of a node is the number of nodes it leads to.
  refine
    ⟨fun id =>
      ((Finset.range layout.exprCount).filter
        (Relation.TransGen layout.Calls id)).card, ?_⟩
  intro id other call
  apply Finset.card_lt_card
  apply Finset.ssubset_iff_subset_ne.mpr
  constructor
  · intro reached member
    have ⟨counted, chain⟩ := Finset.mem_filter.mp member
    exact Finset.mem_filter.mpr ⟨counted, chain.head call⟩
  · intro same
    have leads :
        other ∈ (Finset.range layout.exprCount).filter
          (Relation.TransGen layout.Calls id) :=
      Finset.mem_filter.mpr
        ⟨Finset.mem_range.mpr (wellNumbered.calls_lt call).2,
          .single call⟩
    rw [← same] at leads
    exact acyclic other (Finset.mem_filter.mp leads).2

end WellNumbered

end Layout

end PegAudit
