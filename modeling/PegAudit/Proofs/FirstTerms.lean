import PegAudit.Proofs.Attrs.Soundness
import PegAudit.Proofs.IndexSet.Order
import PegAudit.Proofs.Matching.Leaves
import PegAudit.Proofs.Relations.Calls
import PegAudit.Proofs.Terminal.Disjoint

namespace PegAudit

/-!
# First terminals are sound

The first leaf of a match that consumes is a terminal that the matched
expression reaches by openings, each of which may contribute the first
character.  The induction is over the run; the cuts at elements that are not
transparent are justified by the attributes being sound.
-/

namespace Attempt

/-- The nodes of an attempt that may contribute the first character. -/
def openers
    (table : AttrTable) :
    Attempt NodeId →
    List NodeId
  | .node id => [id]
  | .anyOf alternatives =>
      alternatives.filter fun id => (table.of id).advances
  | .inTurn elements =>
      (table.reachable elements).filter fun id => (table.of id).advances
  | .rounds body =>
      [body].filter fun id => (table.of id).advances

end Attempt

/-- First terminals are the terminals that the closure leads to. -/
theorem Relations.contains_firstTerms_iff
    {relations : Relations}
    {terminalCount : Nat}
    {id terminal : NodeId} :
    (relations.firstTerms terminalCount id).contains terminal = true ↔
      relations.firstClosure.Relates id terminal ∧
        terminal < terminalCount := by
  have listed :
      terminal ∈
          (relations.firstClosure.row id).toList.takeWhile
            (· < terminalCount) ↔
        relations.firstClosure.Relates id terminal ∧
          terminal < terminalCount := by
    rw [mem_takeWhile_lt_iff (IndexSet.pairwise_toList _),
      IndexSet.mem_toList_iff]
    rfl
  have covered := IndexSet.le_room_empty terminalCount
  rw [firstTerms, IndexSet.contains_ofList, ← listed]
  simp only [Bool.and_eq_true, decide_eq_true_eq]
  constructor
  · exact And.left
  · intro member
    exact ⟨member, Nat.lt_of_lt_of_le (listed.mp member).2 covered⟩

namespace Layout

/-- The number is that of a terminal that consumes on the input. -/
def Consumes
    (layout : Layout)
    (id : NodeId)
    (input : List Char) :
    Prop :=
  ∃ item, layout.terminal? id = some item ∧ item.Consumes input

/-- The terminal at a node is the one its shape is made of. -/
theorem terminal?_eq_some_iff
    {layout : Layout}
    {id : NodeId}
    {item : Terminal} :
    layout.terminal? id = some item ↔
      layout.shape? id = some (.terminal item) := by
  unfold terminal?
  constructor
  · intro found
    split at found
    case h_1 shape =>
      rw [shape, Option.some.inj found]
    case h_2 =>
      cases found
  · intro found
    rw [found]

/-- Only terminals consume directly. -/
theorem WellNumbered.lt_of_consumes
    {layout : Layout}
    (wellNumbered : layout.WellNumbered)
    {id : NodeId}
    {input : List Char}
    (consumes : layout.Consumes id input) :
    id < layout.terminalCount := by
  obtain ⟨item, found, _⟩ := consumes
  exact
    (wellNumbered.isTerminal_iff (terminal?_eq_some_iff.mp found)).mp rfl

/-- The second node may contribute the first character to a match of the first. -/
def Opens
    (layout : Layout)
    (id other : NodeId) :
    Prop :=
  ∃ shape,
    layout.shape? id = some shape ∧
      other ∈ shape.openers layout.attrs

/-- The computed relation of openings has exactly the openings. -/
theorem relates_first
    {layout : Layout}
    (wellNumbered : layout.WellNumbered) :
    (layout.relations layout.attrs).first.Relates = layout.Opens := by
  funext id other
  apply propext
  apply relates_relate_iff wellNumbered
  intro shape opener opens
  exact Shape.mentioned_of_mem_callees
    (Shape.mem_callees_of_mem_openers opens)

/-- A terminal that a node reaches by openings is one of its first terminals. -/
theorem WellNumbered.contains_firstTerms
    {layout : Layout}
    (wellNumbered : layout.WellNumbered)
    {id terminal : NodeId}
    (isTerminal : terminal < layout.terminalCount)
    (path : Relation.ReflTransGen layout.Opens id terminal) :
    ((layout.relations layout.attrs).firstTerms
      layout.terminalCount id).contains terminal = true := by
  have counted : id < layout.exprCount := by
    rcases Relation.ReflTransGen.cases_head path with
      rfl | ⟨next, ⟨shape, found, _⟩, _⟩
    · exact Nat.lt_of_lt_of_le isTerminal wellNumbered.terminalCount_le
    · exact wellNumbered.exists_shape_iff.mp ⟨shape, found⟩
  rw [← relates_first wellNumbered] at path
  have covered := IndexSet.le_room_empty layout.exprCount
  exact Relations.contains_firstTerms_iff.mpr
    ⟨IndexRelation.relates_star_of_reflTransGen
      (layout.uniform_relate _) counted covered path, isTerminal⟩

end Layout

/--
The first leaf of a success that consumes does so where the input begins, and
some opener of the attempt leads to it.
-/
def Outcome.OpensSoundly
    (layout : Layout)
    (attempt : Attempt NodeId)
    (input : List Char) :
    Outcome NodeId →
    Prop
  | .success trees _ =>
      ∀ leaf,
        ParseTree.firstConsuming (ParseTree.leavesOf trees) = some leaf →
        layout.Consumes leaf.1 input ∧
          ∃ opener ∈ attempt.openers layout.attrs,
            Relation.ReflTransGen layout.Opens opener leaf.1
  | .failure =>
      True

namespace Layout.WellNumbered

variable {layout : Layout}

/-- A node whose match consumes advances. -/
theorem advances_of_firstConsuming
    (wellNumbered : layout.WellNumbered)
    {id : NodeId}
    {input rest : List Char}
    {trees : List (ParseTree NodeId)}
    (run : Runs layout.view (.node id) input (.success trees rest))
    {leaf : NodeId × List Char}
    (consuming :
      ParseTree.firstConsuming (ParseTree.leavesOf trees) = some leaf) :
    (layout.attrs.of id).advances = true :=
  (wellNumbered.permitted run).2 (run.rest_ne_of_firstConsuming consuming)

/-- A node that matches nothing before the end of the input is transparent. -/
theorem transparent_of_runs
    (wellNumbered : layout.WellNumbered)
    {id : NodeId}
    {input : List Char}
    {trees : List (ParseTree NodeId)}
    (run : Runs layout.view (.node id) input (.success trees input))
    (notAtEnd : input ≠ []) :
    (layout.attrs.of id).transparent = true := by
  have nullable : (layout.attrs.of id).nullable = true :=
    (wellNumbered.permitted run).1 rfl
  have goesOn : (layout.attrs.of id).endsInput = false := by
    apply Bool.eq_false_iff.mpr
    intro ends
    exact notAtEnd (layout.endsSoundly_attrs id ends ⟨trees, run⟩)
  simp [Attrs.transparent, nullable, goesOn]

/-- What a consuming match of a node says about the node. -/
theorem opens_of_firstConsuming
    (wellNumbered : layout.WellNumbered)
    {id : NodeId}
    {input rest : List Char}
    {trees : List (ParseTree NodeId)}
    (run : Runs layout.view (.node id) input (.success trees rest))
    (sound :
      (Outcome.success trees rest).OpensSoundly layout (.node id) input)
    {leaf : NodeId × List Char}
    (consuming :
      ParseTree.firstConsuming (ParseTree.leavesOf trees) = some leaf) :
    layout.Consumes leaf.1 input ∧
      (layout.attrs.of id).advances = true ∧
        Relation.ReflTransGen layout.Opens id leaf.1 := by
  obtain ⟨consumes, opener, member, path⟩ := sound leaf consuming
  rw [List.mem_singleton.mp member] at path
  exact
    ⟨consumes, wellNumbered.advances_of_firstConsuming run consuming, path⟩

/-- A node reaches whatever the attempt that its shape calls for reaches. -/
theorem opensSoundly_branch
    {id : NodeId}
    {shape : Shape NodeId}
    (found : layout.shape? id = some shape)
    (inner : Attempt NodeId)
    (same : inner.openers layout.attrs = shape.openers layout.attrs)
    {input rest : List Char}
    {trees : List (ParseTree NodeId)}
    (sound :
      (Outcome.success trees rest).OpensSoundly layout inner input) :
    (Outcome.success [.branch id trees] rest).OpensSoundly layout
      (.node id) input := by
  intro leaf consuming
  rw [ParseTree.leavesOf_branch] at consuming
  obtain ⟨consumes, opener, member, path⟩ := sound leaf consuming
  rw [same] at member
  exact
    ⟨consumes, id, List.mem_singleton_self id,
      path.head ⟨shape, found, member⟩⟩

/-- One round and the rounds after it open with the body. -/
theorem opensSoundly_rounds
    (wellNumbered : layout.WellNumbered)
    {body : NodeId}
    {input middle rest : List Char}
    {trees laterTrees : List (ParseTree NodeId)}
    (once : Runs layout.view (.node body) input (.success trees middle))
    (onceSound :
      (Outcome.success trees middle).OpensSoundly layout
        (.node body) input)
    (moreSound :
      (Outcome.success laterTrees rest).OpensSoundly layout
        (.rounds body) middle) :
    (Outcome.success (trees ++ laterTrees) rest).OpensSoundly layout
      (.rounds body) input := by
  intro leaf consuming
  rw [ParseTree.leavesOf_append,
    ParseTree.firstConsuming_append] at consuming
  rcases Option.or_eq_some_iff.mp consuming with
    inFirst | ⟨nothing, inLater⟩
  · obtain ⟨consumes, advances, path⟩ :=
      wellNumbered.opens_of_firstConsuming once onceSound inFirst
    exact
      ⟨consumes, body, by simp [Attempt.openers, advances], path⟩
  · rw [once.rest_eq_of_firstConsuming_eq_none nothing] at moreSound
    exact moreSound leaf inLater

/-- Every run opens soundly. -/
theorem opensSoundly
    (wellNumbered : layout.WellNumbered)
    {attempt : Attempt NodeId}
    {input : List Char}
    {outcome : Outcome NodeId}
    (run : Runs layout.view attempt input outcome) :
    outcome.OpensSoundly layout attempt input := by
  induction run with
  | @terminal id item text input rest shape matched consumed =>
      intro leaf consuming
      rw [ParseTree.leavesOf_leaf,
        ParseTree.firstConsuming_singleton_eq_some_iff] at consuming
      obtain ⟨rfl, nonempty⟩ := consuming
      refine
        ⟨⟨item, terminal?_eq_some_iff.mpr shape, rest, matched, ?_⟩,
          id, List.mem_singleton_self id, .refl⟩
      rintro rfl
      exact nonempty (List.self_eq_append_left.mp consumed)
  | @reference id rule target input rest trees shape body bodySound =>
      exact opensSoundly_branch shape (.node rule) rfl bodySound
  | andPredicate shape ahead =>
      intro leaf consuming
      cases consuming
  | notPredicate shape ahead =>
      intro leaf consuming
      cases consuming
  | @oneOrMore id body input middle rest trees laterTrees shape once more
      onceSound moreSound =>
      exact opensSoundly_branch shape (.rounds body) rfl
        (wellNumbered.opensSoundly_rounds once onceSound moreSound)
  | @zeroOrMore id body input rest trees shape more roundsSound =>
      exact opensSoundly_branch shape (.rounds body) rfl roundsSound
  | @optional id body input rest trees shape once bodySound =>
      refine opensSoundly_branch shape (.rounds body) rfl ?_
      intro leaf consuming
      obtain ⟨consumes, advances, path⟩ :=
        wellNumbered.opens_of_firstConsuming once bodySound consuming
      exact
        ⟨consumes, body, by simp [Attempt.openers, advances], path⟩
  | optionalSkips shape once =>
      intro leaf consuming
      cases consuming
  | @choice id parts input rest trees shape chosen partsSound =>
      exact opensSoundly_branch shape (.anyOf parts) rfl partsSound
  | @sequence id parts input rest trees shape all partsSound =>
      exact opensSoundly_branch shape (.inTurn parts) rfl partsSound
  | remainingInput shape =>
      exact (wellNumbered.isWritten _ shape).elim
  | @anyOfFirst id others input rest trees first firstSound =>
      intro leaf consuming
      obtain ⟨consumes, advances, path⟩ :=
        wellNumbered.opens_of_firstConsuming first firstSound consuming
      exact
        ⟨consumes, id, by simp [Attempt.openers, advances], path⟩
  | @anyOfLater id others input outcome first later firstSound laterSound =>
      cases outcome with
      | success trees rest =>
          intro leaf consuming
          obtain ⟨consumes, opener, member, path⟩ := laterSound leaf consuming
          obtain ⟨inOthers, advances⟩ := List.mem_filter.mp member
          exact
            ⟨consumes, opener,
              List.mem_filter.mpr
                ⟨List.mem_cons_of_mem id inOthers, advances⟩, path⟩
      | failure =>
          trivial
  | inTurnNone =>
      intro leaf consuming
      cases consuming
  | @inTurnAll id others input middle rest trees laterTrees first later
      firstSound laterSound =>
      intro leaf consuming
      rw [ParseTree.leavesOf_append,
        ParseTree.firstConsuming_append] at consuming
      rcases Option.or_eq_some_iff.mp consuming with
        inFirst | ⟨nothing, inLater⟩
      · obtain ⟨consumes, advances, path⟩ :=
          wellNumbered.opens_of_firstConsuming first firstSound inFirst
        exact
          ⟨consumes, id,
            List.mem_filter.mpr ⟨AttrTable.mem_reachable_cons_self, advances⟩, path⟩
      · obtain rfl := first.rest_eq_of_firstConsuming_eq_none nothing
        obtain ⟨consumes, opener, member, path⟩ := laterSound leaf inLater
        have ⟨_, _, itemConsumes⟩ := consumes
        have transparent :=
          wellNumbered.transparent_of_runs first
            itemConsumes.input_ne_nil
        obtain ⟨isReached, advances⟩ := List.mem_filter.mp member
        exact
          ⟨consumes, opener,
            List.mem_filter.mpr
              ⟨AttrTable.mem_reachable_cons_of_transparent transparent
                isReached,
                advances⟩, path⟩
  | roundsStop last =>
      intro leaf consuming
      cases consuming
  | roundsMore once more onceSound moreSound =>
      exact wellNumbered.opensSoundly_rounds once onceSound moreSound
  | _ =>
      trivial

/--
If a match of an expression consumes then its first leaf that does is one of
the expression's first terminals, and consumes where the match begins.
-/
theorem firstTerms_sound
    (wellNumbered : layout.WellNumbered)
    {id : NodeId}
    {input rest : List Char}
    {trees : List (ParseTree NodeId)}
    (run : Runs layout.view (.node id) input (.success trees rest))
    {leaf : NodeId × List Char}
    (consuming :
      ParseTree.firstConsuming (ParseTree.leavesOf trees) = some leaf) :
    layout.Consumes leaf.1 input ∧
      ((layout.relations layout.attrs).firstTerms
        layout.terminalCount id).contains leaf.1 = true := by
  obtain ⟨consumes, _, path⟩ :=
    wellNumbered.opens_of_firstConsuming run
      (wellNumbered.opensSoundly run) consuming
  exact
    ⟨consumes,
      wellNumbered.contains_firstTerms
        (wellNumbered.lt_of_consumes consumes) path⟩

end Layout.WellNumbered

namespace Grammar

/--
In an accepted grammar, a match that consumes has a first leaf that does, and
this leaf is one of the first terminals of the matched expression.
-/
theorem exists_firstTerms_of_consuming
    {grammar : Grammar}
    {layout : Layout}
    (laidOut : grammar.toLayout = .ok layout)
    {id : NodeId}
    {input rest : List Char}
    {trees : List (ParseTree NodeId)}
    (run : Runs layout.view (.node id) input (.success trees rest))
    (moved : rest ≠ input) :
    ∃ leaf,
      ParseTree.firstConsuming (ParseTree.leavesOf trees) = some leaf ∧
        ((layout.relations layout.attrs).firstTerms
          layout.terminalCount id).contains leaf.1 = true ∧
        layout.Consumes leaf.1 input := by
  obtain ⟨clean, rfl⟩ := toLayout_eq_ok_iff.mp laidOut
  obtain ⟨leaf, consuming⟩ := run.exists_firstConsuming moved
  obtain ⟨consumes, isFirst⟩ :=
    (wellNumbered_layOut clean).firstTerms_sound run consuming
  exact ⟨leaf, consuming, isFirst, consumes⟩

/-- A `b` is read as the second way of the choice, which is one of its first terminals. -/
theorem exists_firstTerms_of_consuming_letters :
    letters.toLayout = .ok letters.layOut ∧
      Runs letters.layOut.view (.node 5) ['b']
        (.success [.branch 5 [.leaf 1 ['b']]] []) ∧
      ((letters.layOut.relations letters.layOut.attrs).firstTerms
        letters.layOut.terminalCount 5).contains 1 = true ∧
      letters.layOut.Consumes 1 ['b'] := by
  have laidOut : letters.toLayout = .ok letters.layOut :=
    toLayout_eq_ok_iff.mpr ⟨defects_letters, rfl⟩
  have literal :
      letters.layOut.view 0 = some (.terminal (.literal "a")) :=
    rfl
  have range :
      letters.layOut.view 1 = some (.terminal (.range 'a' 'z')) :=
    rfl
  have run :
      Runs letters.layOut.view (.node 5) ['b']
        (.success [.branch 5 [.leaf 1 ['b']]] []) :=
    .choice rfl
      (.anyOfLater (.terminalFails literal rfl)
        (.anyOfFirst (.terminal range rfl rfl)))
  obtain ⟨leaf, isLeaf, isFirst, consumes⟩ :=
    exists_firstTerms_of_consuming laidOut run (by simp)
  have same : (1, ['b']) = leaf := Option.some.inj isLeaf
  subst same
  exact ⟨laidOut, run, isFirst, consumes⟩

end Grammar

end PegAudit
