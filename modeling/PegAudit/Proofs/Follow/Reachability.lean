import Mathlib.Logic.Relation
import PegAudit.Proofs.Follow.Exact
import PegAudit.Proofs.Sweeps.Reported

namespace PegAudit

/-!
# First terminals of tails as reachability

The equations between the tails have a graph behind them: where a strand can be
passed without consuming, what follows the calling node follows the called one
too.  So a terminal may come first after a node exactly if a path of such
strands leads to a node one of whose strands opens with it.  Sweeping from the
empty sets ends there by its own reports of changes.
-/

namespace Chart

/-- A strand of the first node's tail can be passed into the tail of the other. -/
def PassesTo
    (chart : Chart)
    (id outer : NodeId) :
    Prop :=
  ∃ strand ∈ chart.tailOf id,
    strand.outer = outer ∧
      strand.hasTail = true ∧
      ∀ element ∈ strand.elements,
        (chart.attrsOf element).transparent = true

/-- An element that a strand of the tail may reach can begin with the terminal. -/
def OpensAfter
    (chart : Chart)
    (id terminal : NodeId) :
    Prop :=
  ∃ strand ∈ chart.tailOf id,
    ∃ before element after,
      strand.elements = before ++ element :: after ∧
        (∀ passed ∈ before, (chart.attrsOf passed).transparent = true) ∧
        (chart.firstOf element).contains terminal = true

/-- One sweep over all expressions, with a report of changes. -/
def sweepFollowReporting
    (chart : Chart) :
    Array IndexSet →
    Array IndexSet × Bool :=
  sweepReporting chart.updateFollow chart.layout.ids

variable {chart : Chart}

/-- What a strand contributes, in terms of the elements that it may reach. -/
theorem exists_contains_firstTermsIn_iff
    {follow : Array IndexSet}
    {id terminal : NodeId} :
    (∃ strand ∈ chart.tailOf id,
        (strand.firstTermsIn chart follow).contains terminal = true) ↔
      terminal < chart.noTerminals.room ∧
        (chart.OpensAfter id terminal ∨
          ∃ outer,
            chart.PassesTo id outer ∧
              (follow[outer]?.getD chart.noTerminals).contains terminal =
                true) := by
  simp only [Strand.contains_firstTermsIn, Strand.opening,
    AttrTable.mem_reachable_iff, Strand.passesThrough, Bool.and_eq_true,
    List.all_eq_true, OpensAfter, PassesTo, attrsOf]
  constructor
  · rintro ⟨strand, inTail, inRoom, opens | passes⟩
    · obtain ⟨element, ⟨before, after, split, passed⟩, begins⟩ := opens
      exact
        ⟨inRoom,
          .inl
            ⟨strand, inTail, before, element, after, split, passed,
              begins⟩⟩
    · obtain ⟨passable, follows⟩ := passes
      exact
        ⟨inRoom,
          .inr ⟨strand.outer, ⟨strand, inTail, rfl, passable⟩, follows⟩⟩
  · rintro ⟨inRoom, opens | passes⟩
    · obtain ⟨strand, inTail, before, element, after, split, passed, begins⟩ :=
        opens
      exact
        ⟨strand, inTail, inRoom,
          .inl ⟨element, ⟨before, after, split, passed⟩, begins⟩⟩
    · obtain ⟨_, ⟨strand, inTail, rfl, passable⟩, follows⟩ := passes
      exact ⟨strand, inTail, inRoom, .inr ⟨passable, follows⟩⟩

/-- A path of passable strands leads to a strand that opens with the terminal. -/
def Follows
    (chart : Chart)
    (id terminal : NodeId) :
    Prop :=
  ∃ last,
    Relation.ReflTransGen chart.PassesTo id last ∧
      chart.OpensAfter last terminal

/-- Every member of an entry is one that a path leads to. -/
def AlongPaths
    (chart : Chart)
    (follow : Array IndexSet) :
    Prop :=
  ∀ {id terminal : NodeId},
    (follow[id]?.getD chart.noTerminals).contains terminal = true →
    chart.Follows id terminal

/-- An update adds only members that a path leads to. -/
theorem AlongPaths.updateEntry
    {follow : Array IndexSet}
    (alongPaths : chart.AlongPaths follow)
    (visited : NodeId) :
    chart.AlongPaths (updateEntry chart.updateFollow follow visited) := by
  intro id terminal member
  rcases contains_or_of_contains_updateEntry member with wasThere | added
  · exact alongPaths wasThere
  · obtain ⟨_, opens | ⟨outer, passes, follows⟩⟩ :=
      exists_contains_firstTermsIn_iff.mp added
    · exact ⟨id, .refl, opens⟩
    · obtain ⟨last, path, opens⟩ := alongPaths follows
      exact ⟨last, path.head passes, opens⟩

/-- A sweep takes nothing away. -/
theorem contains_sweepFollowReporting_of_contains
    {follow : Array IndexSet}
    {id terminal : NodeId}
    (member :
      (follow[id]?.getD chart.noTerminals).contains terminal = true) :
    ((chart.sweepFollowReporting follow).1[id]?.getD
        chart.noTerminals).contains terminal = true := by
  rw [sweepFollowReporting, fst_sweepReporting]
  exact
    sweep_preserves
      (fun later =>
        (later[id]?.getD chart.noTerminals).contains terminal = true)
      (fun _ isMember => contains_updateEntry_of_contains isMember)
      chart.layout.ids member

/-- Sweeping by the reports stops in time, with the first terminals of tails. -/
theorem Prepared.quiets_fillFollow
    (prepared : chart.Prepared) :
    Quiets chart.sweepFollowReporting chart.follow
        chart.settleFollow.sweeps chart.fillFollow.follow ∧
      chart.settleFollow.sweeps ≤
        chart.layout.exprCount * chart.layout.terminalCount + 1 := by
  have length : chart.layout.ids.length = chart.layout.exprCount :=
    List.length_range
  have settled :=
    prepared.growing.quiets_settle chart.layout.terminalCount
      (fun holds found => IndexSet.count_le (holds.lt found))
      (fun _ => rfl)
      (Nat.lt_succ_self
        (chart.layout.ids.length * chart.layout.terminalCount))
      prepared.holds
  rwa [length] at settled

end Chart

namespace Layout

variable {layout : Layout}

/-- Sweeping starts from sets to whose members paths lead: they are empty. -/
theorem alongPaths_follow_openChart
    (layout : Layout)
    (options : Options) :
    (layout.openChart options).AlongPaths
      (layout.openChart options).follow := by
  intro id terminal member
  rw [layout.follow_openChart, Chart.contains_emptyFollow] at member
  cases member

/-- A terminal may come first after a node exactly if a path leads to it. -/
theorem WellNumbered.contains_followOf_iff_follows
    (wellNumbered : layout.WellNumbered)
    (options : Options)
    {id terminal : NodeId} :
    ((layout.openChart options).fillFollow.followOf id).contains terminal =
        true ↔
      (layout.openChart options).fillFollow.Follows id terminal := by
  constructor
  · intro member
    have alongPaths :
        (layout.openChart options).AlongPaths
          (layout.openChart options).fillFollow.follow :=
      settle_sweep_preserves (layout.openChart options).AlongPaths
        (fun visited before => before.updateEntry visited) _ _
        (layout.alongPaths_follow_openChart options)
    exact alongPaths member
  · rintro ⟨last, path, opens⟩
    have exact := wellNumbered.exact_fillFollow options
    have prepared := wellNumbered.prepared_openChart options
    have inRoom :
        terminal < (layout.openChart options).fillFollow.noTerminals.room := by
      obtain ⟨_, _, _, element, _, _, _, begins⟩ := opens
      exact
        Nat.lt_of_lt_of_le (prepared.firstOf_lt begins)
          (IndexSet.le_room_empty _)
    induction path using Relation.ReflTransGen.head_induction_on with
    | refl =>
        exact
          exact.contains_followOf.mpr
            (Chart.exists_contains_firstTermsIn_iff.mpr
              ⟨inRoom, .inl opens⟩)
    | head passes _ inductionHypothesis =>
        exact
          exact.contains_followOf.mpr
            (Chart.exists_contains_firstTermsIn_iff.mpr
              ⟨inRoom, .inr ⟨_, passes, inductionHypothesis⟩⟩)

end Layout

namespace Grammar

/--
In a well-formed analysis a terminal may come first after an expression exactly
if it opens a strand at the end of a path of strands that can be passed.  The
sweeps that find these terminals take nothing away and stop in time.
-/
theorem followOf_reachable
    {grammar : Grammar}
    {options : Options}
    {analysis : Analysis}
    (analyzed : grammar.analyze options = .ok analysis)
    (wellFormed : analysis.wellFormed = true) :
    (∀ id ∈ analysis.layout.ids,
        ∀ terminal,
          (analysis.chart.followOf id).contains terminal = true ↔
            analysis.chart.Follows id terminal) ∧
      (∀ (follow : Array IndexSet) (id terminal : NodeId),
        (follow[id]?.getD analysis.chart.noTerminals).contains terminal =
            true →
          ((analysis.chart.sweepFollowReporting follow).1[id]?.getD
            analysis.chart.noTerminals).contains terminal = true) ∧
      ∃ sweeps ≤
          analysis.layout.exprCount * analysis.layout.terminalCount + 1,
        Quiets analysis.chart.sweepFollowReporting
          analysis.chart.emptyFollow sweeps analysis.chart.follow := by
  obtain ⟨clean, rfl⟩ := analyze_eq_ok_iff.mp analyzed
  have wellNumbered := wellNumbered_layOut clean
  have isFilled := Layout.chart_analyze wellFormed
  obtain ⟨quiets, within⟩ :=
    (wellNumbered.prepared_openChart options).quiets_fillFollow
  rw [Layout.follow_openChart] at quiets
  rw [Analysis.layout, isFilled]
  refine ⟨?_, ?_, _, within, quiets⟩
  · intro id _ terminal
    exact wellNumbered.contains_followOf_iff_follows options
  · intro follow id terminal member
    exact Chart.contains_sweepFollowReporting_of_contains member

/-- Behind the digit in brackets stands the closing bracket. -/
theorem followOf_reachable_brackets :
    brackets.analyze {} = .ok (brackets.layOut.analyze {}) ∧
      (brackets.layOut.analyze {}).wellFormed = true ∧
      (brackets.layOut.analyze {}).chart.Follows 2 1 := by
  have analyzed :
      brackets.analyze {} = .ok (brackets.layOut.analyze {}) :=
    analyze_eq_ok_iff.mpr ⟨defects_brackets, rfl⟩
  have wellFormed : (brackets.layOut.analyze {}).wellFormed = true := by
    decide +kernel
  obtain ⟨reachable, _, _⟩ := followOf_reachable analyzed wellFormed
  exact
    ⟨analyzed, wellFormed,
      (reachable 2 (by decide +kernel) 1).mp (by decide +kernel)⟩

end Grammar

end PegAudit
