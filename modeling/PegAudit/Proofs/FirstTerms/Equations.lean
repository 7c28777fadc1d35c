import Mathlib.Data.Set.Basic
import PegAudit.Proofs.FirstTerms

namespace PegAudit

/-!
# The equations of first terminals

The first terminals are read off a closure, and the closed relation leaves out
what cannot consume.  They are the sets that the usual equations over the
shapes determine all the same: no path to a terminal begins with a node that
cannot consume, so nothing is lost, and a family of sets to which no shape can
add has the terminals of every path.
-/

namespace Shape

/-- The nodes a match of the shape may begin with to consume by them. -/
def leaders
    (table : AttrTable)
    (shape : Shape NodeId) :
    List NodeId :=
  match shape with
  | .unary .andPredicate _ => []
  | .unary .notPredicate _ => []
  | _ => shape.callees table

/-- The set of first terminals of a shape, given those of its parts and of its rule. -/
def firstSet
    (table : AttrTable)
    (known : NodeId → Set NodeId)
    (id : NodeId) :
    Shape NodeId →
    Set NodeId
  | .terminal _ =>
      {id}
  | .reference _ rule =>
      known rule
  | .unary .andPredicate _ =>
      ∅
  | .unary .notPredicate _ =>
      ∅
  | .unary _ body =>
      known body
  | .group .choice parts =>
      {terminal | ∃ part ∈ parts, terminal ∈ known part}
  | .group .sequence parts =>
      {terminal |
        ∃ before part after,
          parts = before ++ part :: after ∧
            (∀ passed ∈ before, (table.of passed).transparent = true) ∧
            terminal ∈ known part}
  | .remainingInput =>
      ∅

variable
  {table : AttrTable}
  {shape : Shape NodeId}
  {other : NodeId}

/-- A shape mentions its leaders. -/
theorem mentioned_of_mem_leaders
    (leads : other ∈ shape.leaders table) :
    other ∈ shape.mentioned := by
  unfold leaders at leads
  split at leads
  · cases leads
  · cases leads
  · exact mentioned_of_mem_callees leads

/-- Openers are leaders. -/
theorem mem_leaders_of_mem_openers
    (opens : other ∈ shape.openers table) :
    other ∈ shape.leaders table := by
  have called := mem_callees_of_mem_openers opens
  unfold leaders
  split
  · cases opens
  · cases opens
  · exact called

/-- Only leaders that cannot consume are no openers. -/
theorem mem_openers_of_mem_leaders
    (leads : other ∈ shape.leaders table)
    (advances : (table.of other).advances = true) :
    other ∈ shape.openers table := by
  cases shape with
  | reference target rule =>
      exact leads
  | unary operator body =>
      cases operator with
      | andPredicate => cases leads
      | notPredicate => cases leads
      | _ => exact List.mem_filter.mpr ⟨leads, advances⟩
  | _ =>
      exact List.mem_filter.mpr ⟨leads, advances⟩

/-- A shape with a leader that advances advances. -/
theorem advances_attrs_of_mem_leaders
    (leads : other ∈ shape.leaders table)
    (advances : (table.of other).advances = true) :
    (shape.attrs table.of).advances = true := by
  have called : other ∈ shape.mentioned := mentioned_of_mem_leaders leads
  cases shape with
  | terminal item =>
      cases called
  | reference target rule =>
      rwa [← List.mem_singleton.mp called]
  | unary operator body =>
      cases List.mem_singleton.mp called
      cases operator with
      | andPredicate => cases leads
      | notPredicate => cases leads
      | _ => exact advances
  | group grouping parts =>
      have some : (parts.map table.of).any Attrs.advances = true :=
        List.any_eq_true.mpr
          ⟨table.of other, List.mem_map_of_mem called, advances⟩
      cases grouping <;> exact some
  | remainingInput =>
      cases called

/-- The set of a shape that is no terminal is the union over its leaders. -/
theorem mem_firstSet_iff
    (isCompound : shape.isTerminal = false)
    {known : NodeId → Set NodeId}
    {id terminal : NodeId} :
    terminal ∈ shape.firstSet table known id ↔
      ∃ leader ∈ shape.leaders table, terminal ∈ known leader := by
  cases shape with
  | terminal item =>
      cases isCompound
  | reference target rule =>
      simp [firstSet, leaders, callees]
  | unary operator body =>
      cases operator <;> simp [firstSet, leaders, callees]
  | group grouping parts =>
      cases grouping with
      | choice =>
          simp [firstSet, leaders, callees]
      | sequence =>
          simp only [firstSet, leaders, callees, Set.mem_ofPred_eq,
            AttrTable.mem_reachable_iff]
          grind
  | remainingInput =>
      cases isCompound

end Shape

namespace Layout

/-- The second node is a leader of the first. -/
def Leads
    (layout : Layout)
    (id other : NodeId) :
    Prop :=
  ∃ shape,
    layout.shape? id = some shape ∧
      other ∈ shape.leaders layout.attrs

/-- The relation of openings as it is without regard to what can consume. -/
def unfilteredFirst
    (layout : Layout) :
    IndexRelation :=
  layout.relate (Shape.leaders layout.attrs)

/-- The computed first terminals of every node, as sets. -/
def firstFamily
    (layout : Layout)
    (id : NodeId) :
    Set NodeId :=
  {terminal |
    ((layout.relations layout.attrs).firstTerms
      layout.terminalCount id).contains terminal = true}

namespace WellNumbered

variable {layout : Layout}

/-- The shape of a number below that of all other expressions is a terminal. -/
theorem exists_terminal
    (wellNumbered : layout.WellNumbered)
    {id : NodeId}
    (isTerminal : id < layout.terminalCount) :
    ∃ item, layout.shape? id = some (.terminal item) := by
  obtain ⟨shape, found⟩ :=
    wellNumbered.exists_shape_iff.mpr
      (Nat.lt_of_lt_of_le isTerminal wellNumbered.terminalCount_le)
  have terminalShape := (wellNumbered.isTerminal_iff found).mpr isTerminal
  cases shape with
  | terminal item =>
      exact ⟨item, found⟩
  | remainingInput =>
      exact (wellNumbered.isWritten id found).elim
  | _ =>
      cases terminalShape

/-- A node advances if its leaders lead to a terminal. -/
theorem advances_of_leads
    (wellNumbered : layout.WellNumbered)
    {id terminal : NodeId}
    (isTerminal : terminal < layout.terminalCount)
    (path : Relation.ReflTransGen layout.Leads id terminal) :
    (layout.attrs.of id).advances = true := by
  induction path using Relation.ReflTransGen.head_induction_on with
  | refl =>
      obtain ⟨item, found⟩ := wellNumbered.exists_terminal isTerminal
      apply (attrs_closed wellNumbered found).2.1
      cases item <;> rfl
  | head leads _ inductionHypothesis =>
      obtain ⟨shape, found, isLeader⟩ := leads
      exact
        (attrs_closed wellNumbered found).2.1
          (Shape.advances_attrs_of_mem_leaders isLeader inductionHypothesis)

/-- Leaders lead to the same terminals as openings. -/
theorem reflTransGen_leads_iff
    (wellNumbered : layout.WellNumbered)
    {id terminal : NodeId}
    (isTerminal : terminal < layout.terminalCount) :
    Relation.ReflTransGen layout.Leads id terminal ↔
      Relation.ReflTransGen layout.Opens id terminal := by
  constructor
  · intro path
    induction path using Relation.ReflTransGen.head_induction_on with
    | refl =>
        exact .refl
    | head leads onward inductionHypothesis =>
        obtain ⟨shape, found, isLeader⟩ := leads
        have advances := wellNumbered.advances_of_leads isTerminal onward
        exact
          inductionHypothesis.head
            ⟨shape, found,
              Shape.mem_openers_of_mem_leaders isLeader advances⟩
  · apply Relation.ReflTransGen.mono
    rintro id other ⟨shape, found, opens⟩
    exact ⟨shape, found, Shape.mem_leaders_of_mem_openers opens⟩

/-- The star of a relation made from shapes leads to a terminal by its paths. -/
theorem relates_star_relate_iff
    (wellNumbered : layout.WellNumbered)
    {related : Shape NodeId → List NodeId}
    (mentions :
      ∀ {shape other},
        other ∈ related shape →
        other ∈ shape.mentioned)
    {id terminal : NodeId}
    (isTerminal : terminal < layout.terminalCount) :
    (layout.relate related).star.Relates id terminal ↔
      Relation.ReflTransGen
        (fun id other =>
          ∃ shape, layout.shape? id = some shape ∧ other ∈ related shape)
        id terminal := by
  have links :
      (layout.relate related).Relates =
        fun id other =>
          ∃ shape,
            layout.shape? id = some shape ∧ other ∈ related shape := by
    funext id other
    exact propext (relates_relate_iff wellNumbered mentions)
  have covered := IndexSet.le_room_empty layout.exprCount
  have counted :=
    Nat.lt_of_lt_of_le isTerminal wellNumbered.terminalCount_le
  rw [(layout.uniform_relate related).relates_star_iff covered, links,
    Relation.reflTransGen_iff_eq_or_transGen]
  constructor
  · rintro (path | ⟨rfl, _⟩)
    · exact .inr path
    · exact .inl rfl
  · rintro (rfl | path)
    · exact .inr ⟨rfl, counted⟩
    · exact .inl path

/-- First terminals are the terminals that leaders lead to. -/
theorem mem_firstFamily_iff
    (wellNumbered : layout.WellNumbered)
    {id terminal : NodeId} :
    terminal ∈ layout.firstFamily id ↔
      terminal < layout.terminalCount ∧
        Relation.ReflTransGen layout.Leads id terminal := by
  rw [firstFamily, Set.mem_ofPred_eq, Relations.contains_firstTerms_iff,
    and_comm]
  refine and_congr_right fun isTerminal => ?_
  rw [wellNumbered.reflTransGen_leads_iff isTerminal]
  apply wellNumbered.relates_star_relate_iff _ isTerminal
  intro shape other opens
  exact
    Shape.mentioned_of_mem_leaders (Shape.mem_leaders_of_mem_openers opens)

/-- First terminals of a node are those of its shape. -/
theorem firstFamily_of_shape
    (wellNumbered : layout.WellNumbered)
    {id : NodeId}
    {shape : Shape NodeId}
    (found : layout.shape? id = some shape) :
    layout.firstFamily id =
      shape.firstSet layout.attrs layout.firstFamily id := by
  ext terminal
  rw [wellNumbered.mem_firstFamily_iff, Relation.ReflTransGen.cases_head_iff]
  by_cases isTerminal : id < layout.terminalCount
  · obtain ⟨item, isItem⟩ := wellNumbered.exists_terminal isTerminal
    cases found.symm.trans isItem
    have noLeader (other : NodeId) : ¬ layout.Leads id other := by
      rintro ⟨shape, alsoFound, leads⟩
      cases found.symm.trans alsoFound
      cases leads
    simp only [Shape.firstSet, Set.mem_singleton_iff, noLeader, false_and,
      exists_false, or_false]
    constructor
    · exact fun ⟨_, same⟩ => same.symm
    · rintro rfl
      exact ⟨isTerminal, rfl⟩
  · have isCompound : shape.isTerminal = false := by
      rw [← Bool.not_eq_true, wellNumbered.isTerminal_iff found]
      exact isTerminal
    rw [Shape.mem_firstSet_iff isCompound]
    constructor
    · rintro ⟨below, rfl | ⟨leader, ⟨_, alsoFound, leads⟩, path⟩⟩
      · exact (isTerminal below).elim
      · cases found.symm.trans alsoFound
        exact
          ⟨leader, leads,
            wellNumbered.mem_firstFamily_iff.mpr ⟨below, path⟩⟩
    · rintro ⟨leader, leads, member⟩
      obtain ⟨below, path⟩ := wellNumbered.mem_firstFamily_iff.mp member
      exact ⟨below, .inr ⟨leader, ⟨shape, found, leads⟩, path⟩⟩

/-- A family of sets to which no shape can add has all first terminals. -/
theorem firstFamily_subset
    (wellNumbered : layout.WellNumbered)
    {known : NodeId → Set NodeId}
    (closed :
      ∀ {id shape},
        layout.shape? id = some shape →
        shape.firstSet layout.attrs known id ⊆ known id)
    (id : NodeId) :
    layout.firstFamily id ⊆ known id := by
  intro terminal member
  obtain ⟨isTerminal, path⟩ := wellNumbered.mem_firstFamily_iff.mp member
  induction path using Relation.ReflTransGen.head_induction_on with
  | refl =>
      obtain ⟨item, found⟩ := wellNumbered.exists_terminal isTerminal
      exact closed found rfl
  | @head id leader leads onward inductionHypothesis =>
      obtain ⟨shape, found, isLeader⟩ := leads
      apply closed found
      apply (Shape.mem_firstSet_iff _).mpr
      · exact
          ⟨leader, isLeader,
            inductionHypothesis
              (wellNumbered.mem_firstFamily_iff.mpr ⟨isTerminal, onward⟩)⟩
      · cases shape with
        | terminal item => cases isLeader
        | remainingInput => cases isLeader
        | _ => rfl

end WellNumbered

/-- The first terminals solve the usual equations, and no filter matters. -/
structure SolvedByFirstTerms
    (layout : Layout) :
    Prop where
  /-- First terminals are terminals. -/
  terminals :
    ∀ id, ∀ terminal ∈ layout.firstFamily id, terminal ∈ layout.terminalIds
  /-- The set of every expression is the one that its parts give it. -/
  solves :
    ∀ id ∈ layout.ids,
      ∃ shape,
        layout.shape? id = some shape ∧
          layout.firstFamily id =
            shape.firstSet layout.attrs layout.firstFamily id
  /-- Every family that has what the parts give has all first terminals. -/
  least :
    ∀ known : NodeId → Set NodeId,
      (∀ id shape,
        layout.shape? id = some shape →
        shape.firstSet layout.attrs known id ⊆ known id) →
      ∀ id, layout.firstFamily id ⊆ known id
  /-- Without regard to what can consume the first terminals are the same. -/
  unfiltered :
    ∀ id,
      Relations.firstTerms
          { layout.relations layout.attrs with
            firstClosure := layout.unfilteredFirst.star }
          layout.terminalCount id =
        (layout.relations layout.attrs).firstTerms layout.terminalCount id
  /-- An expression with a first terminal advances. -/
  advances :
    ∀ id,
      (layout.firstFamily id).Nonempty →
      (layout.attrs.of id).advances = true

end Layout

namespace Grammar

/-- The first terminals of an accepted grammar are the least solution of the equations. -/
theorem solvedByFirstTerms
    {grammar : Grammar}
    {layout : Layout}
    (laidOut : grammar.toLayout = .ok layout) :
    layout.SolvedByFirstTerms := by
  obtain ⟨clean, rfl⟩ := toLayout_eq_ok_iff.mp laidOut
  have wellNumbered := wellNumbered_layOut clean
  refine
    { terminals := ?_
      solves := ?_
      least := ?_
      unfiltered := ?_
      advances := ?_ }
  · intro id terminal member
    exact
      List.mem_range.mpr (wellNumbered.mem_firstFamily_iff.mp member).1
  · intro id isExpression
    obtain ⟨shape, found⟩ :=
      wellNumbered.exists_shape_iff.mpr (List.mem_range.mp isExpression)
    exact ⟨shape, found, wellNumbered.firstFamily_of_shape found⟩
  · intro known closed
    exact wellNumbered.firstFamily_subset (closed _ _)
  · intro id
    apply IndexSet.eq_of_contains_eq
    · rw [Relations.firstTerms, Relations.firstTerms, IndexSet.room_ofList,
        IndexSet.room_ofList]
    · funext terminal
      rw [Bool.eq_iff_iff, Relations.contains_firstTerms_iff]
      change _ ↔ terminal ∈ grammar.layOut.firstFamily id
      rw [wellNumbered.mem_firstFamily_iff, and_comm]
      exact
        and_congr_right fun isTerminal =>
          wellNumbered.relates_star_relate_iff
            Shape.mentioned_of_mem_leaders isTerminal
  · rintro id ⟨terminal, member⟩
    obtain ⟨isTerminal, path⟩ := wellNumbered.mem_firstFamily_iff.mp member
    exact wellNumbered.advances_of_leads isTerminal path

/-- The rule that begins with itself may begin with what stands behind it. -/
theorem solvedByFirstTerms_leftRecursive :
    leftRecursive.toLayout = .ok leftRecursive.layOut ∧
      leftRecursive.layOut.SolvedByFirstTerms ∧
      0 ∈ leftRecursive.layOut.firstFamily 2 ∧
      (leftRecursive.layOut.attrs.of 2).advances = true := by
  have laidOut : leftRecursive.toLayout = .ok leftRecursive.layOut :=
    toLayout_eq_ok_iff.mpr ⟨defects_leftRecursive, rfl⟩
  have solved := solvedByFirstTerms laidOut
  have member : 0 ∈ leftRecursive.layOut.firstFamily 2 := by
    rw [Layout.firstFamily, Set.mem_ofPred_eq]
    decide +kernel
  exact ⟨laidOut, solved, member, solved.advances 2 ⟨0, member⟩⟩

end Grammar

end PegAudit
