import PegAudit.Proofs.Analysis.View
import PegAudit.Proofs.Follow.Closed

namespace PegAudit

/-!
# What follows a match is announced

The leaves to the right of a subtree come from the elements after a call, from
further rounds of an iteration, or from whatever follows an enclosing match.
The induction is over the run; its invariant is that the terminals that may
follow each node of an attempt announce whatever is to the right of the whole
attempt.  Where a node ends the input nothing to the right of it consumes, so
the tails that leave such nodes out miss nothing.
-/

/-- The first of the leaves that consumes, if any, is one of the terminals. -/
def IndexSet.Announces
    (terminals : IndexSet)
    (leaves : List (NodeId × List Char)) :
    Prop :=
  ∀ leaf,
    ParseTree.firstConsuming leaves = some leaf →
    terminals.contains leaf.1 = true

/-- Leaves that match nothing need no announcement. -/
theorem IndexSet.announces_of_text_eq_nil
    {terminals : IndexSet}
    {leaves : List (NodeId × List Char)}
    (noText : leaves.flatMap Prod.snd = []) :
    terminals.Announces leaves := by
  intro leaf consuming
  rw [ParseTree.firstConsuming_eq_none_iff.mpr noText] at consuming
  cases consuming

namespace Layout

/--
At a site that goes on, the called node announces the elements after it and,
where those may all be passed, the leaves to the right of the caller.
-/
def SiteAnnounced
    (layout : Layout)
    (follow : NodeId → IndexSet)
    (right : List (NodeId × List Char))
    (site : NodeId × List NodeId) :
    Prop :=
  (layout.attrs.of site.1).endsInput = false →
    (∀ element ∈ layout.attrs.reachable site.2,
        ∀ terminal,
          ((layout.relations layout.attrs).firstTerms
            layout.terminalCount element).contains terminal = true →
          (follow site.1).contains terminal = true) ∧
      ((∀ element ∈ site.2,
          (layout.attrs.of element).transparent = true) →
        (follow site.1).Announces right)

/-- Announced callers announce at all their sites. -/
def FollowsCallers
    (layout : Layout)
    (follow : NodeId → IndexSet) :
    Prop :=
  ∀ {id shape right},
    layout.shape? id = some shape →
    (follow id).Announces right →
    ∀ site ∈ shape.sites id, layout.SiteAnnounced follow right site

/-- The nodes of an attempt announce what is to the right of the attempt. -/
def Announced
    (layout : Layout)
    (follow : NodeId → IndexSet)
    (right : List (NodeId × List Char)) :
    Attempt NodeId →
    Prop
  | .node id =>
      layout.SiteAnnounced follow right (id, [])
  | .anyOf alternatives =>
      ∀ id ∈ alternatives, layout.SiteAnnounced follow right (id, [])
  | .inTurn elements =>
      ∀ site ∈ withRest elements, layout.SiteAnnounced follow right site
  | .rounds body =>
      layout.SiteAnnounced follow right (body, []) ∧
        ∃ owner operator,
          layout.shape? owner = some (.unary operator body) ∧
            (operator = .oneOrMore ∨ operator = .zeroOrMore) ∧
            layout.SiteAnnounced follow right (body, [owner])

end Layout

/-- In a success every subtree announces the leaves to the right of it. -/
def Outcome.Announced
    (layout : Layout)
    (follow : NodeId → IndexSet)
    (attempt : Attempt NodeId) :
    Outcome NodeId →
    Prop
  | .success trees rest =>
      ∀ right,
        right.flatMap Prod.snd <+: rest →
        layout.Announced follow right attempt →
        ∀ subtree inner,
          ParseTree.Occurs trees subtree inner →
          (follow subtree.expression).Announces (inner ++ right)
  | .failure =>
      True

namespace Layout

variable
  {layout : Layout}
  {follow : NodeId → IndexSet}
  {right : List (NodeId × List Char)}

/-- A node announces at a site without elements what is to its right. -/
theorem SiteAnnounced.announces
    {id : NodeId}
    (announced : layout.SiteAnnounced follow right (id, []))
    (goesOn : (layout.attrs.of id).endsInput = false) :
    (follow id).Announces right :=
  (announced goesOn).2 (by simp)

/-- A site without elements only has to announce what is to its right. -/
theorem SiteAnnounced.of_announces
    {id : NodeId}
    (announces :
      (layout.attrs.of id).endsInput = false →
      (follow id).Announces right) :
    layout.SiteAnnounced follow right (id, []) := by
  intro goesOn
  constructor
  · intro element isReached
    cases isReached
  · intro _
    exact announces goesOn

/-- Elements that match nothing before the end of the input are transparent. -/
theorem WellNumbered.transparent_of_inTurn
    (wellNumbered : layout.WellNumbered)
    {elements : List NodeId}
    {input : List Char}
    {trees : List (ParseTree NodeId)}
    (run : Runs layout.view (.inTurn elements) input (.success trees input))
    (notAtEnd : input ≠ []) :
    ∀ element ∈ elements,
      (layout.attrs.of element).transparent = true := by
  induction elements generalizing trees with
  | nil =>
      simp
  | cons first others inductionHypothesis =>
      cases run with
      | @inTurnAll _ _ _ middle _ _ _ firstRun laterRun =>
          have same : middle = input :=
            firstRun.rest_suffix.eq_of_length_le
              laterRun.rest_suffix.length_le
          subst middle
          intro element member
          rcases List.mem_cons.mp member with rfl | inOthers
          · exact wellNumbered.transparent_of_runs firstRun notAtEnd
          · exact inductionHypothesis laterRun element inOthers

/-- A called node announces the elements after it and what is to their right. -/
theorem WellNumbered.announces_inTurn
    (wellNumbered : layout.WellNumbered)
    {called : NodeId}
    {elements : List NodeId}
    (announced : layout.SiteAnnounced follow right (called, elements))
    (goesOn : (layout.attrs.of called).endsInput = false)
    {middle rest : List Char}
    {trees : List (ParseTree NodeId)}
    (run :
      Runs layout.view (.inTurn elements) middle (.success trees rest))
    (fits : right.flatMap Prod.snd <+: rest) :
    (follow called).Announces (ParseTree.leavesOf trees ++ right) := by
  obtain ⟨ofElements, ofRight⟩ := announced goesOn
  intro leaf consuming
  rw [ParseTree.firstConsuming_append] at consuming
  rcases Option.or_eq_some_iff.mp consuming with
    inElements | ⟨nothing, inRight⟩
  · obtain ⟨consumes, opener, member, path⟩ :=
      wellNumbered.opensSoundly run leaf inElements
    obtain ⟨isReached, _⟩ := List.mem_filter.mp member
    exact ofElements opener isReached leaf.1
      (wellNumbered.contains_firstTerms
        (wellNumbered.lt_of_consumes consumes) path)
  · obtain rfl := run.rest_eq_of_firstConsuming_eq_none nothing
    apply ofRight _ leaf inRight
    apply wellNumbered.transparent_of_inTurn run
    rintro rfl
    rw [ParseTree.firstConsuming_eq_none_iff.mpr
      (List.prefix_nil.mp fits)] at inRight
    cases inRight

/-- One round announces the rounds after it and what is to their right. -/
theorem WellNumbered.announces_rounds
    (wellNumbered : layout.WellNumbered)
    {body : NodeId}
    (announced : layout.Announced follow right (.rounds body))
    (goesOn : (layout.attrs.of body).endsInput = false)
    {middle rest : List Char}
    {trees : List (ParseTree NodeId)}
    (run :
      Runs layout.view (.rounds body) middle (.success trees rest)) :
    (follow body).Announces (ParseTree.leavesOf trees ++ right) := by
  obtain ⟨ofRight, owner, operator, found, isIteration, ofRounds⟩ :=
    announced
  intro leaf consuming
  rw [ParseTree.firstConsuming_append] at consuming
  rcases Option.or_eq_some_iff.mp consuming with
    inRounds | ⟨_, inRight⟩
  · obtain ⟨consumes, opener, member, path⟩ :=
      wellNumbered.opensSoundly run leaf inRounds
    -- The iteration opens with its body, so it is followed by itself.
    have opens : layout.Opens owner opener := by
      refine ⟨_, found, ?_⟩
      rcases isIteration with rfl | rfl <;> exact member
    apply (ofRounds goesOn).1 owner AttrTable.mem_reachable_cons_self
    exact wellNumbered.contains_firstTerms
      (wellNumbered.lt_of_consumes consumes) (path.head opens)
  · exact ofRight.announces goesOn leaf inRight

/-- A matched node announces what is to the right of it. -/
theorem announces_of_runs
    {id : NodeId}
    {input rest : List Char}
    {trees : List (ParseTree NodeId)}
    (run : Runs layout.view (.node id) input (.success trees rest))
    (fits : right.flatMap Prod.snd <+: rest)
    (announced : layout.Announced follow right (.node id)) :
    (follow id).Announces right := by
  cases ends : (layout.attrs.of id).endsInput with
  | false =>
      exact announced.announces ends
  | true =>
      -- Nothing is left to the right of what ends the input.
      obtain rfl := layout.endsSoundly_attrs id ends ⟨trees, run⟩
      exact IndexSet.announces_of_text_eq_nil (List.prefix_nil.mp fits)

/-- A match that is a single leaf announces. -/
theorem announced_leaf
    {id : NodeId}
    {text input rest : List Char}
    (run :
      Runs layout.view (.node id) input (.success [.leaf id text] rest)) :
    (Outcome.success [.leaf id text] rest).Announced layout follow
      (.node id) := by
  intro right fits announced subtree inner occurs
  obtain ⟨rfl, rfl⟩ := occurs.of_leaf
  exact announces_of_runs run fits announced

/-- A match of a node announces if the match of what its shape calls for does. -/
theorem announced_branch
    (callers : layout.FollowsCallers follow)
    {id : NodeId}
    {shape : Shape NodeId}
    (found : layout.shape? id = some shape)
    (inner : Attempt NodeId)
    (passedOn :
      ∀ {right},
        (∀ site ∈ shape.sites id, layout.SiteAnnounced follow right site) →
        layout.Announced follow right inner)
    {input rest : List Char}
    {trees : List (ParseTree NodeId)}
    (run :
      Runs layout.view (.node id) input
        (.success [.branch id trees] rest))
    (innerAnnounced :
      (Outcome.success trees rest).Announced layout follow inner) :
    (Outcome.success [.branch id trees] rest).Announced layout follow
      (.node id) := by
  intro right fits announced subtree leaves occurs
  have here := announces_of_runs run fits announced
  rcases occurs.of_branch with ⟨rfl, rfl⟩ | inParts
  · exact here
  · exact innerAnnounced right fits (passedOn (callers found here))
      subtree leaves inParts

/-- A first match and what is matched after it announce together. -/
theorem announces_append
    {id : NodeId}
    {later : Attempt NodeId}
    {middle rest : List Char}
    {trees laterTrees : List (ParseTree NodeId)}
    (firstAnnounced :
      (Outcome.success trees middle).Announced layout follow (.node id))
    (laterRun :
      Runs layout.view later middle (.success laterTrees rest))
    (laterAnnounced :
      (Outcome.success laterTrees rest).Announced layout follow later)
    (fits : right.flatMap Prod.snd <+: rest)
    (beforeLater :
      (layout.attrs.of id).endsInput = false →
      (follow id).Announces (ParseTree.leavesOf laterTrees ++ right))
    (announced : layout.Announced follow right later)
    {subtree : ParseTree NodeId}
    {inner : List (NodeId × List Char)}
    (occurs : ParseTree.Occurs (trees ++ laterTrees) subtree inner) :
    (follow subtree.expression).Announces (inner ++ right) := by
  rcases occurs.of_append with ⟨leaves, inFirst, rfl⟩ | inLater
  · have split : middle = ParseTree.textOf laterTrees ++ rest :=
      laterRun.splits
    have bothFit :
        (ParseTree.leavesOf laterTrees ++ right).flatMap Prod.snd <+:
          middle := by
      rw [List.flatMap_append, split, ParseTree.textOf,
        List.prefix_append_right_inj]
      exact fits
    rw [List.append_assoc]
    exact firstAnnounced _ bothFit (.of_announces beforeLater)
      subtree leaves inFirst
  · exact laterAnnounced right fits announced subtree inner inLater

/-- Every success announces. -/
theorem WellNumbered.announced
    (wellNumbered : layout.WellNumbered)
    (callers : layout.FollowsCallers follow)
    {attempt : Attempt NodeId}
    {input : List Char}
    {outcome : Outcome NodeId}
    (run : Runs layout.view attempt input outcome) :
    outcome.Announced layout follow attempt := by
  induction run with
  | terminal shape matched consumed =>
      exact announced_leaf (.terminal shape matched consumed)
  | @reference id rule target input rest trees shape body bodyAnnounced =>
      refine announced_branch callers shape (.node rule) ?_
        (.reference shape body) bodyAnnounced
      intro right ofSites
      exact ofSites _ List.mem_cons_self
  | andPredicate shape ahead =>
      exact announced_leaf (.andPredicate shape ahead)
  | notPredicate shape ahead =>
      exact announced_leaf (.notPredicate shape ahead)
  | @oneOrMore id body input middle rest trees laterTrees shape once more
      onceAnnounced moreAnnounced =>
      refine announced_branch callers shape (.rounds body) ?_
        (.oneOrMore shape once more) ?_
      · intro right ofSites
        exact
          ⟨ofSites _ (List.mem_cons_of_mem _ List.mem_cons_self),
            id, .oneOrMore, shape, .inl rfl,
            ofSites _ List.mem_cons_self⟩
      · intro right fits announced subtree inner occurs
        exact announces_append onceAnnounced more moreAnnounced fits
          (fun goesOn =>
            wellNumbered.announces_rounds announced goesOn more)
          announced occurs
  | @zeroOrMore id body input rest trees shape more roundsAnnounced =>
      refine announced_branch callers shape (.rounds body) ?_
        (.zeroOrMore shape more) roundsAnnounced
      intro right ofSites
      exact
        ⟨ofSites _ (List.mem_cons_of_mem _ List.mem_cons_self),
          id, .zeroOrMore, shape, .inr rfl,
          ofSites _ List.mem_cons_self⟩
  | @optional id body input rest trees shape once bodyAnnounced =>
      refine announced_branch callers shape (.node body) ?_
        (.optional shape once) bodyAnnounced
      intro right ofSites
      exact ofSites _ List.mem_cons_self
  | @optionalSkips id body input shape once =>
      refine announced_branch callers shape (.node body) ?_
        (.optionalSkips shape once) ?_
      · intro right ofSites
        exact ofSites _ List.mem_cons_self
      · intro right fits announced subtree inner occurs
        exact (ParseTree.Occurs.not_nil occurs).elim
  | @choice id parts input rest trees shape chosen partsAnnounced =>
      refine announced_branch callers shape (.anyOf parts) ?_
        (.choice shape chosen) partsAnnounced
      intro right ofSites part member
      exact ofSites (part, []) (List.mem_map_of_mem member)
  | @sequence id parts input rest trees shape all partsAnnounced =>
      refine announced_branch callers shape (.inTurn parts) ?_
        (.sequence shape all) partsAnnounced
      intro right ofSites
      exact ofSites
  | remainingInput shape =>
      exact (wellNumbered.isWritten _ shape).elim
  | anyOfFirst first firstAnnounced =>
      intro right fits announced
      exact firstAnnounced right fits (announced _ List.mem_cons_self)
  | @anyOfLater id others input outcome first later firstAnnounced
      laterAnnounced =>
      cases outcome with
      | success trees rest =>
          intro right fits announced
          apply laterAnnounced right fits
          intro part member
          exact announced part (List.mem_cons_of_mem id member)
      | failure =>
          trivial
  | inTurnNone =>
      intro right fits announced subtree inner occurs
      exact (ParseTree.Occurs.not_nil occurs).elim
  | @inTurnAll id others input middle rest trees laterTrees first later
      firstAnnounced laterAnnounced =>
      intro right fits announced subtree inner occurs
      have ofOthers : layout.Announced follow right (.inTurn others) :=
        fun site member =>
          announced site (List.mem_cons_of_mem (id, others) member)
      exact announces_append firstAnnounced later laterAnnounced fits
        (fun goesOn =>
          wellNumbered.announces_inTurn
            (announced (id, others) List.mem_cons_self) goesOn later fits)
        ofOthers occurs
  | roundsStop last =>
      intro right fits announced subtree inner occurs
      exact (ParseTree.Occurs.not_nil occurs).elim
  | roundsMore once more onceAnnounced moreAnnounced =>
      intro right fits announced subtree inner occurs
      exact announces_append onceAnnounced more moreAnnounced fits
        (fun goesOn =>
          wellNumbered.announces_rounds announced goesOn more)
        announced occurs
  | _ =>
      trivial

/-- The computed first terminals of tails follow the callers. -/
theorem WellNumbered.followsCallers
    (wellNumbered : layout.WellNumbered)
    (options : Options) :
    layout.FollowsCallers
      (layout.openChart options).fillFollow.followOf := by
  intro id shape right found announces
  rintro ⟨called, elements⟩ isSite goesOn
  constructor
  · intro element isReached terminal opens
    exact wellNumbered.contains_followOf_of_mem_sites options found isSite
      goesOn (.inl ⟨element, isReached, opens⟩)
  · intro passed leaf consuming
    exact wellNumbered.contains_followOf_of_mem_sites options found isSite
      goesOn (.inr ⟨passed, announces leaf consuming⟩)

end Layout

namespace Grammar

/--
In the tree of every match of the start rule, the first leaf that consumes to
the right of a subtree is a first terminal of the tail of its expression.
-/
theorem followOf_sound
    {grammar : Grammar}
    {options : Options}
    {analysis : Analysis}
    (analyzed : grammar.analyze options = .ok analysis)
    (wellFormed : analysis.wellFormed = true)
    {input rest : List Char}
    {trees : List (ParseTree NodeId)}
    (run :
      Runs analysis.layout.view (.node analysis.layout.start) input
        (.success trees rest))
    {subtree : ParseTree NodeId}
    {right : List (NodeId × List Char)}
    (occurs : ParseTree.Occurs trees subtree right)
    {leaf : NodeId × List Char}
    (consuming : ParseTree.firstConsuming right = some leaf) :
    (analysis.chart.followOf subtree.expression).contains leaf.1 =
      true := by
  obtain ⟨clean, rfl⟩ := analyze_eq_ok_iff.mp analyzed
  have wellNumbered := wellNumbered_layOut clean
  have noFaults := Layout.faults_eq_nil_of_wellFormed wellFormed
  rw [Layout.start_analyze,
    Layout.runs_analyze_iff wellNumbered wellNumbered.start_lt] at run
  have announced :=
    wellNumbered.announced (wellNumbered.followsCallers options) run
  rw [Layout.analyze_eq_of_faults_eq_nil noFaults]
  -- Nothing is to the right of the whole match.
  have announces :=
    announced [] List.nil_prefix
      (.of_announces fun _ => IndexSet.announces_of_text_eq_nil rfl)
      subtree right occurs
  rw [List.append_nil] at announces
  exact announces leaf consuming

/-- After the first letter the next one is announced. -/
theorem followOf_sound_letters :
    letters.analyze {} = .ok (letters.layOut.analyze {}) ∧
      (letters.layOut.analyze {}).wellFormed = true ∧
      ((letters.layOut.analyze {}).chart.followOf 5).contains 1 =
        true := by
  obtain ⟨analyzed, wellFormed⟩ := analyze_letters
  have literal :
      letters.layOut.view 0 = some (.terminal (.literal "a")) :=
    rfl
  have range :
      letters.layOut.view 1 = some (.terminal (.range 'a' 'z')) :=
    rfl
  have ending : letters.layOut.view 2 = some (.terminal .endOfInput) :=
    rfl
  have choice : letters.layOut.view 5 = some (.group .choice [0, 1]) :=
    rfl
  have first :
      Runs letters.layOut.view (.node 5) ['a', 'b']
        (.success [.branch 5 [.leaf 0 ['a']]] ['b']) :=
    .choice choice (.anyOfFirst (.terminal literal rfl rfl))
  have second :
      Runs letters.layOut.view (.node 5) ['b']
        (.success [.branch 5 [.leaf 1 ['b']]] []) :=
    .choice choice
      (.anyOfLater (.terminalFails literal rfl)
        (.anyOfFirst (.terminal range rfl rfl)))
  have last : Runs letters.layOut.view (.node 5) [] .failure :=
    .choiceFails choice
      (.anyOfLater (.terminalFails literal rfl)
        (.anyOfLater (.terminalFails range rfl) .anyOfNone))
  have both :
      Runs letters.layOut.view (.node 4) ['a', 'b']
        (.success
          [.branch 4
            [.branch 5 [.leaf 0 ['a']], .branch 5 [.leaf 1 ['b']]]]
          []) :=
    .oneOrMore rfl first (.roundsMore second (.roundsStop last))
  have atEnd :
      Runs letters.layOut.view (.inTurn [2]) []
        (.success [.leaf 2 []] []) :=
    .inTurnAll
      (.terminal ending rfl (List.nil_append []).symm) .inTurnNone
  have run :
      Runs (letters.layOut.analyze {}).layout.view
        (.node (letters.layOut.analyze {}).layout.start) ['a', 'b']
        (.success
          [.branch 3
            [.branch 4
              [.branch 5 [.leaf 0 ['a']], .branch 5 [.leaf 1 ['b']]],
              .leaf 2 []]]
          []) := by
    have wellNumbered := wellNumbered_layOut defects_letters
    rw [Layout.start_analyze,
      Layout.runs_analyze_iff wellNumbered wellNumbered.start_lt]
    exact .sequence rfl (.inTurnAll both atEnd)
  exact
    ⟨analyzed, wellFormed,
      followOf_sound analyzed wellFormed run
        (.inside (.inside .here)) rfl⟩

end Grammar

end PegAudit
