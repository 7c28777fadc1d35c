import PegAudit.Proofs.Checked.Relations
import PegAudit.Proofs.Conflicts
import PegAudit.Proofs.Diagnosis.Faults
import PegAudit.Proofs.Terminal.Overlap
import PegAudit.Proofs.Termination

namespace PegAudit

/-!
# The relation of disjoint terminals is exact

Terminals without defects are related as disjoint exactly if no input begins
with both, apart from two ends of the input and from negated classes that leave
no character over.  The relation is symmetric, and its complement stays among
the terminals.
-/

/-- A terminal succeeds where it matches. -/
theorem exists_succeeds_terminal_iff
    {view : View ι}
    {id : ι}
    {item : Terminal}
    (shape : view id = some (.terminal item))
    {input : List Char} :
    (∃ rest, Succeeds view id input rest) ↔ item.Matches input := by
  constructor
  · rintro ⟨rest, trees, run⟩
    cases run with
    | terminal here matched _ =>
        cases shape.symm.trans here
        exact ⟨rest, matched⟩
    | _ =>
        simp_all
  · rintro ⟨rest, matched⟩
    obtain ⟨text, consumed⟩ := Terminal.remainder?_suffix matched
    exact ⟨rest, _, .terminal shape matched consumed⟩

namespace Analysis

variable
  (analysis : Analysis)

/-- The input begins with a match of the expression. -/
def Begins
    (id : NodeId)
    (input : List Char) :
    Prop :=
  ∃ rest, Succeeds analysis.layout.view id input rest

/-- What the relation of disjoint terminals and its complement say. -/
structure DisjointnessExact :
    Prop where
  /-- Taking every disjoint pair both ways makes the relation. -/
  disjointTerminals?_eq :
    analysis.layout.disjointTerminals? = some analysis.relations.disjoint
  terminal_iff :
    ∀ id,
      (∃ item, analysis.layout.terminal? id = some item) ↔
        id < analysis.layout.terminalCount
  lt_of_relates :
    ∀ left right,
      analysis.relations.disjoint.Relates left right →
      left < analysis.layout.terminalCount ∧
        right < analysis.layout.terminalCount
  symmetric :
    ∀ left right,
      analysis.relations.disjoint.Relates left right →
      analysis.relations.disjoint.Relates right left
  nonDisjoint_iff :
    ∀ left right,
      analysis.relations.nonDisjoint.Relates left right ↔
        left < analysis.layout.terminalCount ∧
          right < analysis.layout.terminalCount ∧
            ¬ analysis.relations.disjoint.Relates left right
  /-- The terminals are compared in either order. -/
  relates_iff :
    ∀ {left right leftItem rightItem},
      analysis.layout.terminal? left = some leftItem →
      analysis.layout.terminal? right = some rightItem →
      (analysis.relations.disjoint.Relates left right ↔
          leftItem.disjoint rightItem = true) ∧
        (analysis.relations.disjoint.Relates left right ↔
          rightItem.disjoint leftItem = true)
  never_both :
    ∀ {left right leftItem rightItem},
      analysis.layout.terminal? left = some leftItem →
      analysis.layout.terminal? right = some rightItem →
      ¬ (leftItem = .endOfInput ∧ rightItem = .endOfInput) →
      analysis.relations.disjoint.Relates left right →
      ∀ input, ¬ (analysis.Begins left input ∧ analysis.Begins right input)
  /-- No common beginning is left only where negated classes list everything. -/
  both_iff :
    ∀ {left right leftItem rightItem},
      analysis.layout.terminal? left = some leftItem →
      analysis.layout.terminal? right = some rightItem →
      ¬ analysis.relations.disjoint.Relates left right →
      ((∃ input, analysis.Begins left input ∧ analysis.Begins right input) ↔
        ∃ character,
          ¬ leftItem.Excludes character ∧ ¬ rightItem.Excludes character)

end Analysis

namespace Layout

variable
  {layout : Layout}
  {options : Options}

/-- An analysis has as many terminals as its layout. -/
@[simp] theorem terminalCount_analyze :
    (layout.analyze options).layout.terminalCount =
      layout.terminalCount := by
  rcases layout.layout_analyze options with same | extended
  · rw [same]
  · rw [extended]
    rfl

/-- The numbers below the count of terminals are those with a terminal. -/
theorem WellNumbered.exists_terminal?_iff
    (wellNumbered : layout.WellNumbered)
    {id : NodeId} :
    (∃ item, layout.terminal? id = some item) ↔
      id < layout.terminalCount := by
  constructor
  · rintro ⟨item, found⟩
    exact
      (wellNumbered.isTerminal_iff (terminal?_eq_some_iff.mp found)).mp rfl
  · intro isTerminal
    obtain ⟨shape, found⟩ :=
      wellNumbered.exists_shape_iff.mpr
        (Nat.lt_of_lt_of_le isTerminal wellNumbered.terminalCount_le)
    have terminalShape := (wellNumbered.isTerminal_iff found).mpr isTerminal
    cases shape with
    | terminal item =>
        exact ⟨item, terminal?_eq_some_iff.mpr found⟩
    | remainingInput =>
        exact (wellNumbered.isWritten id found).elim
    | _ =>
        cases terminalShape

/-- Disjoint terminals are related, and nothing else is. -/
theorem WellNumbered.relates_disjointTerminals_iff
    (wellNumbered : layout.WellNumbered)
    {left right : NodeId} :
    layout.disjointTerminals.Relates left right ↔
      ∃ leftItem rightItem,
        layout.terminal? left = some leftItem ∧
          layout.terminal? right = some rightItem ∧
            leftItem.disjoint rightItem = true := by
  rw [IndexRelation.Relates, disjointTerminals, IndexRelation.contains_ofRows]
  simp only [Bool.and_eq_true, decide_eq_true_eq, List.mem_filter]
  constructor
  · rintro ⟨⟨_, _, areDisjoint⟩, _⟩
    split at areDisjoint
    case h_1 leftItem rightItem leftFound rightFound =>
      exact ⟨leftItem, rightItem, leftFound, rightFound, areDisjoint⟩
    case h_2 =>
      cases areDisjoint
  · rintro ⟨leftItem, rightItem, leftFound, rightFound, areDisjoint⟩
    have leftIn := wellNumbered.exists_terminal?_iff.mp ⟨_, leftFound⟩
    have rightIn := wellNumbered.exists_terminal?_iff.mp ⟨_, rightFound⟩
    refine
      ⟨⟨leftIn, List.mem_range.mpr rightIn, ?_⟩,
        Nat.lt_of_lt_of_le rightIn (IndexSet.le_room_empty _)⟩
    simpa only [leftFound, rightFound] using areDisjoint

/-- Two terminals are related if the comparison of them says so. -/
theorem WellNumbered.relates_disjointTerminals_iff_disjoint
    (wellNumbered : layout.WellNumbered)
    {left right : NodeId}
    {leftItem rightItem : Terminal}
    (leftFound : layout.terminal? left = some leftItem)
    (rightFound : layout.terminal? right = some rightItem) :
    layout.disjointTerminals.Relates left right ↔
      leftItem.disjoint rightItem = true := by
  rw [wellNumbered.relates_disjointTerminals_iff]
  constructor
  · rintro ⟨_, _, leftSame, rightSame, areDisjoint⟩
    cases leftFound.symm.trans leftSame
    cases rightFound.symm.trans rightSame
    exact areDisjoint
  · exact fun areDisjoint =>
      ⟨leftItem, rightItem, leftFound, rightFound, areDisjoint⟩

/-- Terminals of which the relation does not say that they are disjoint. -/
theorem relates_complement_disjointTerminals_iff
    {left right : NodeId} :
    layout.disjointTerminals.complement.Relates left right ↔
      left < layout.terminalCount ∧
        right < layout.terminalCount ∧
          ¬ layout.disjointTerminals.Relates left right := by
  have size : layout.disjointTerminals.size = layout.terminalCount :=
    rfl
  have covered := IndexSet.le_room_empty layout.terminalCount
  rw [IndexRelation.Relates, IndexRelation.complement,
    IndexRelation.contains_ofRows, size]
  simp only [Bool.and_eq_true, decide_eq_true_eq, List.mem_filter,
    List.mem_range, Bool.not_eq_true', IndexRelation.Relates,
    Bool.not_eq_true]
  constructor
  · rintro ⟨⟨leftIn, rightIn, apart⟩, _⟩
    exact ⟨leftIn, rightIn, apart⟩
  · rintro ⟨leftIn, rightIn, apart⟩
    exact
      ⟨⟨leftIn, rightIn, apart⟩, Nat.lt_of_lt_of_le rightIn covered⟩

/-- Disjoint terminals are related both ways. -/
theorem WellNumbered.relates_disjointTerminals_symm
    (wellNumbered : layout.WellNumbered)
    {left right : NodeId}
    (related : layout.disjointTerminals.Relates left right) :
    layout.disjointTerminals.Relates right left := by
  rw [wellNumbered.relates_disjointTerminals_iff] at *
  obtain ⟨leftItem, rightItem, leftFound, rightFound, areDisjoint⟩ :=
    related
  rw [Terminal.disjoint_comm] at areDisjoint
  exact ⟨rightItem, leftItem, rightFound, leftFound, areDisjoint⟩

/-- The disjoint terminals of an analysis are those of its layout. -/
theorem disjoint_analyze :
    (layout.analyze options).relations.disjoint =
      layout.disjointTerminals := by
  rw [relations_analyze]
  rfl

/-- The colliding terminals of an analysis are those of its layout. -/
theorem nonDisjoint_analyze :
    (layout.analyze options).relations.nonDisjoint =
      layout.disjointTerminals.complement := by
  rw [relations_analyze]
  rfl

/-- In an analysis an input begins with a terminal where this matches. -/
theorem WellNumbered.begins_analyze_iff
    (wellNumbered : layout.WellNumbered)
    {id : NodeId}
    {item : Terminal}
    (found : layout.terminal? id = some item)
    {input : List Char} :
    (layout.analyze options).Begins id input ↔ item.Matches input := by
  rw [← terminal?_analyze wellNumbered, terminal?_eq_some_iff] at found
  exact exists_succeeds_terminal_iff found

/-- Comparing the terminals of an analysis relates those of its layout. -/
theorem WellNumbered.disjointTerminals?_analyze
    (wellNumbered : layout.WellNumbered) :
    (layout.analyze options).layout.disjointTerminals? =
      some layout.disjointTerminals := by
  have sameTerminals :
      (layout.analyze options).layout.terminal? = layout.terminal? :=
    funext (terminal?_analyze wellNumbered)
  have sameIds :
      (layout.analyze options).layout.terminalIds = layout.terminalIds := by
    rw [terminalIds, terminalCount_analyze, terminalIds]
  have samePairs :
      (layout.analyze options).layout.disjointPairs =
        layout.disjointPairs := by
    simp only [disjointPairs, disjointAt, sameTerminals, sameIds]
  have visited
      {some : Layout}
      (enough : layout.nodes.size ≤ some.nodes.size) :
      some.visit? layout.terminalIds = .some () := by
    apply Layout.visit?_eq_some
    intro id isTerminal
    rw [wellNumbered.size_nodes] at enough
    exact Nat.lt_of_lt_of_le (List.mem_range.mp isTerminal)
      (Nat.le_trans wellNumbered.terminalCount_le enough)
  have enough :
      layout.nodes.size ≤ (layout.analyze options).layout.nodes.size := by
    rcases layout.layout_analyze options with same | extended
    · rw [same]
    · rw [extended, withRemainder, Array.size_push]
      exact Nat.le_succ _
  have compared := wellNumbered.disjointTerminals?_eq_some
  rw [disjointTerminals?, visited (Nat.le_refl _)] at compared
  rw [disjointTerminals?, sameIds, visited enough, samePairs,
    terminalCount_analyze]
  exact compared

/-- Between terminals without defects the relation is exact. -/
theorem WellNumbered.disjointnessExact
    (wellNumbered : layout.WellNumbered)
    (clean :
      ∀ {id item},
        layout.terminal? id = some item →
        ∃ name, item.defects name = []) :
    (layout.analyze options).DisjointnessExact := by
  have terminal_eq (id : NodeId) :
      (layout.analyze options).layout.terminal? id = layout.terminal? id :=
    terminal?_analyze wellNumbered id
  refine
    { disjointTerminals?_eq := ?_
      terminal_iff := ?_
      lt_of_relates := ?_
      symmetric := ?_
      nonDisjoint_iff := ?_
      relates_iff := ?_
      never_both := ?_
      both_iff := ?_ }
  · rw [disjoint_analyze]
    exact wellNumbered.disjointTerminals?_analyze
  · intro id
    rw [terminal_eq, terminalCount_analyze]
    exact wellNumbered.exists_terminal?_iff
  · intro left right related
    rw [disjoint_analyze,
      wellNumbered.relates_disjointTerminals_iff] at related
    obtain ⟨_, _, leftFound, rightFound, _⟩ := related
    rw [terminalCount_analyze]
    exact
      ⟨wellNumbered.exists_terminal?_iff.mp ⟨_, leftFound⟩,
        wellNumbered.exists_terminal?_iff.mp ⟨_, rightFound⟩⟩
  · intro left right
    rw [disjoint_analyze]
    exact wellNumbered.relates_disjointTerminals_symm
  · intro left right
    rw [disjoint_analyze, nonDisjoint_analyze, terminalCount_analyze]
    exact relates_complement_disjointTerminals_iff
  · intro left right leftItem rightItem leftFound rightFound
    rw [terminal_eq] at leftFound rightFound
    rw [disjoint_analyze, rightItem.disjoint_comm, and_self]
    exact
      wellNumbered.relates_disjointTerminals_iff_disjoint leftFound
        rightFound
  · intro left right leftItem rightItem leftFound rightFound notEnds related
    rw [terminal_eq] at leftFound rightFound
    rw [disjoint_analyze,
      wellNumbered.relates_disjointTerminals_iff_disjoint leftFound
        rightFound] at related
    obtain ⟨_, leftClean⟩ := clean leftFound
    obtain ⟨_, rightClean⟩ := clean rightFound
    intro input
    rw [wellNumbered.begins_analyze_iff leftFound,
      wellNumbered.begins_analyze_iff rightFound]
    exact
      Terminal.not_matches_of_disjoint leftClean rightClean notEnds related
        input
  · intro left right leftItem rightItem leftFound rightFound apart
    rw [terminal_eq] at leftFound rightFound
    rw [disjoint_analyze,
      wellNumbered.relates_disjointTerminals_iff_disjoint leftFound
        rightFound, Bool.not_eq_true] at apart
    obtain ⟨_, leftClean⟩ := clean leftFound
    obtain ⟨_, rightClean⟩ := clean rightFound
    simp only [wellNumbered.begins_analyze_iff leftFound,
      wellNumbered.begins_analyze_iff rightFound]
    exact Terminal.exists_matches_both_iff leftClean rightClean apart

end Layout

namespace Grammar

/-- The terminals of a grammar without defects have none. -/
theorem exists_defects_eq_nil
    {grammar : Grammar}
    (clean : grammar.defects = [])
    {id : NodeId}
    {item : Terminal}
    (found : grammar.layOut.terminal? id = some item) :
    ∃ name, item.defects name = [] := by
  obtain ⟨site, cursor, expression, places, rfl, isTerminal⟩ :=
    exists_places_of_shape? (Layout.terminal?_eq_some_iff.mp found)
  have noDefect := places.defects_eq_nil clean
  cases expression with
  | terminal written =>
      cases isTerminal
      exact ⟨site.name, noDefect⟩
  | _ =>
      cases isTerminal

/--
The relation of disjoint terminals says exactly which terminals can begin one
input, for every grammar that is analyzed.
-/
theorem disjointness_exact
    {grammar : Grammar}
    {options : Options}
    {analysis : Analysis}
    (analyzed : grammar.analyze options = .ok analysis) :
    analysis.DisjointnessExact := by
  obtain ⟨clean, rfl⟩ := analyze_eq_ok_iff.mp analyzed
  exact
    (wellNumbered_layOut clean).disjointnessExact
      (exists_defects_eq_nil clean)

/-- A grammar with a terminal of each kind, the classes with and without negation. -/
def assorted : Grammar :=
  { rules :=
      [{ name := "token"
         body :=
           .group .choice
             [.literal "if", .literal "i", .range 'a' 'm',
              .terminal (.charClass "xyz" false),
              .terminal (.charClass "ai" true), .terminal .anyChar,
              .terminal .endOfInput] }] }

/-- The related terminals of the assortment are exactly the disjoint ones. -/
theorem disjointness_exact_assorted :
    ∃ analysis,
      assorted.analyze {} = .ok analysis ∧
        analysis.relations.disjoint.pairs =
          [(0, 3), (0, 4), (0, 6), (1, 3), (1, 4), (1, 6), (2, 3), (2, 6),
           (3, 0), (3, 1), (3, 2), (3, 6), (4, 0), (4, 1), (4, 6), (5, 6),
           (6, 0), (6, 1), (6, 2), (6, 3), (6, 4), (6, 5), (6, 6)] ∧
        analysis.DisjointnessExact := by
  have analyzed :
      assorted.analyze {} = .ok (assorted.layOut.analyze {}) :=
    analyze_eq_ok_iff.mpr ⟨by decide, rfl⟩
  exact ⟨_, analyzed, by decide +kernel, disjointness_exact analyzed⟩

end Grammar

end PegAudit
