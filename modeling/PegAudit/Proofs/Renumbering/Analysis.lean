import PegAudit.Proofs.Renumbering.Conflicts
import PegAudit.Proofs.Renumbering.Findings
import PegAudit.Proofs.Renumbering.Reordering

namespace PegAudit

/-!
# Findings do not depend on the order of rules

The order in which a grammar lists its rules decides in which order numbers are
given out and tables are swept.  The results keep none of it: what is found for
a sub-expression is found for the same sub-expression of the reordered grammar.
-/

/-- The other analysis found the same under other numbers. -/
structure Analysis.Renumbers
    (renumber : Equiv.Perm NodeId)
    (analysis other : Analysis) :
    Prop where
  layout :
    analysis.layout.Renumbers renumber other.layout
  chart :
    analysis.chart.Renumbers renumber other.chart
  relations :
    analysis.relations.Renumbers renumber other.relations
  wellFormed_eq :
    other.wellFormed = analysis.wellFormed
  faults :
    Fault.SameFaults analysis.faults other.faults
  mem_notes_iff :
    ∀ note, note ∈ other.notes ↔ note ∈ analysis.notes
  /-- The same conflicts as often, each with the same set of pairs. -/
  conflicts_perm :
    (other.conflicts.map (Conflict.outline id)).Perm
      (analysis.conflicts.map (Conflict.outline renumber))

namespace Layout

/-- An opened chart adds the remaining input if a strand leads there. -/
theorem layout_openChart
    (layout : Layout)
    (options : Options) :
    (layout.openChart options).layout =
      if (layout.remainderStrands options).isEmpty then
        layout
      else
        layout.withRemainder := by
  unfold openChart remainderStrands Chart.withRemainder
  dsimp only
  by_cases wanted : options.remainingInputTail = true
  · by_cases ends : (layout.attrs.of layout.start).endsInput = true <;>
      simp [wanted, ends, Chart.attrsOf, Chart.fillTails,
        Chart.fillFirst, Chart.ofAttrs]
  · simp [wanted, Chart.fillTails, Chart.fillFirst, Chart.ofAttrs]

namespace Renumbers

variable
  {renumber : Equiv.Perm NodeId}
  {layout other : Layout}
  (renumbers : layout.Renumbers renumber other)
  (wellNumbered : layout.WellNumbered)
  (otherNumbered : other.WellNumbered)

include renumbers wellNumbered otherNumbered

/-- The nodes for the remaining input correspond. -/
theorem withRemainder :
    layout.withRemainder.Renumbers renumber other.withRemainder := by
  refine { renumbers with node?_eq := ?_ }
  intro id
  have behind :
      renumber id = layout.exprCount ↔ id = layout.exprCount := by
    rw [← renumbers.fixed (Nat.le_refl _), renumber.injective.eq_iff,
      renumbers.fixed (Nat.le_refl _)]
  rw [node?, node?, Layout.withRemainder, Layout.withRemainder,
    Array.getElem?_push, Array.getElem?_push, otherNumbered.size_nodes,
    wellNumbered.size_nodes, renumbers.exprCount_eq]
  simp only [behind]
  split
  · simp [remainderNode, Node.renumbered, Shape.renumbered,
      renumbers.start_eq]
  · exact renumbers.node?_eq id

/-- The nodes of opened charts correspond. -/
theorem layout_openChart
    (options : Options) :
    (layout.openChart options).layout.Renumbers renumber
      (other.openChart options).layout := by
  rw [Layout.layout_openChart, Layout.layout_openChart,
    renumbers.remainderStrands_eq wellNumbered otherNumbered,
    List.isEmpty_map]
  split
  · exact renumbers
  · exact renumbers.withRemainder wellNumbered otherNumbered

/-- Layouts that differ in their numbers only have the same findings. -/
theorem analyze
    (options : Options) :
    (layout.analyze options).Renumbers renumber
      (other.analyze options) := by
  have sameFaults := renumbers.sameFaults wellNumbered otherNumbered
  have related := renumbers.relations wellNumbered otherNumbered
  unfold Layout.analyze
  dsimp only
  rw [sameFaults.isEmpty_eq]
  split
  case isTrue noFaults =>
    exact
      { layout :=
          renumbers.layout_openChart wellNumbered otherNumbered options
        chart := renumbers.fillFollow wellNumbered otherNumbered options
        relations := related
        wellFormed_eq := rfl
        faults :=
          { iterations := by simp
            recursions := by simp
            otherRecursions := by simp }
        mem_notes_iff := by
          cases options.styleNotes
          · simp
          · exact renumbers.mem_notes_iff wellNumbered otherNumbered
        conflicts_perm := by
          cases options.conflicts
          · exact .nil
          · exact
              renumbers.conflicts_perm wellNumbered otherNumbered options }
  case isFalse hasFaults =>
    exact
      { layout := renumbers
        chart := renumbers.ofAttrs wellNumbered otherNumbered
        relations := related
        wellFormed_eq := sameFaults.isEmpty_eq
        faults := sameFaults
        mem_notes_iff := by simp
        conflicts_perm := .nil }

end Renumbers

end Layout

namespace Grammar

/--
A grammar that lists the same rules in another order, the same one first, is
laid out if and only if the grammar is.  Then a single renumbering takes each
sub-expression to itself and all findings to the findings of the reordered
grammar, whatever is to be computed.
-/
theorem analyze_reordered
    {grammar other : Grammar}
    (reorders : grammar.Reorders other) :
    ((∃ otherLayout, other.toLayout = .ok otherLayout) ↔
        ∃ layout, grammar.toLayout = .ok layout) ∧
      ∀ {layout otherLayout : Layout},
        grammar.toLayout = .ok layout →
        other.toLayout = .ok otherLayout →
        ∃ renumber : Equiv.Perm NodeId,
          (∀ id < layout.exprCount,
            grammar.Corresponds other id (renumber id)) ∧
            ∀ options,
              (layout.analyze options).Renumbers renumber
                (otherLayout.analyze options) := by
  simp only [toLayout_eq_ok_iff]
  constructor
  · constructor
    · rintro ⟨_, otherClean, _⟩
      exact ⟨_, reorders.symm.defects_eq_nil otherClean, rfl⟩
    · rintro ⟨_, clean, _⟩
      exact ⟨_, reorders.defects_eq_nil clean, rfl⟩
  · rintro _ _ ⟨clean, rfl⟩ ⟨otherClean, rfl⟩
    obtain ⟨renumber, renumbers, corresponds⟩ :=
      reorders.exists_renumbers clean
    exact
      ⟨renumber, corresponds,
        renumbers.analyze (wellNumbered_layOut clean)
          (wellNumbered_layOut otherClean)⟩

/-- Words of letters. -/
def word : Rule :=
  { name := "word"
    body := .unary .oneOrMore (.range 'a' 'z') }

/-- Numbers of digits. -/
def number : Rule :=
  { name := "number"
    body := .unary .oneOrMore (.range '0' '9') }

/-- Words and numbers, whose rules are declared in the given order. -/
def tokens
    (declared : List Rule) :
    Grammar :=
  { rules :=
      { name := "tokens"
        body :=
          .unary .oneOrMore
            (.group .choice [.reference "word", .reference "number"]) } ::
        declared }

/-- Declaring numbers before words exchanges the numbers of the terminals. -/
theorem analyze_reordered_tokens :
    (tokens [word, number]).Reorders (tokens [number, word]) ∧
      ∃ layout otherLayout,
        (tokens [word, number]).toLayout = .ok layout ∧
          (tokens [number, word]).toLayout = .ok otherLayout ∧
          ∃ renumber : Equiv.Perm NodeId,
            renumber 0 = 1 ∧
              ∀ options,
                (layout.analyze options).Renumbers renumber
                  (otherLayout.analyze options) := by
  have reorders :
      (tokens [word, number]).Reorders (tokens [number, word]) :=
    { head?_eq := rfl
      perm := (List.Perm.swap _ _ _).cons _ }
  obtain ⟨accepted, sameFindings⟩ := analyze_reordered reorders
  have laidOut :
      (tokens [word, number]).toLayout =
        .ok (tokens [word, number]).layOut :=
    toLayout_eq_ok_iff.mpr ⟨by decide, rfl⟩
  obtain ⟨otherLayout, otherLaidOut⟩ := accepted.mpr ⟨_, laidOut⟩
  obtain ⟨renumber, corresponds, renumbers⟩ :=
    sameFindings laidOut otherLaidOut
  refine
    ⟨reorders, _, otherLayout, laidOut, otherLaidOut, renumber, ?_,
      renumbers⟩
  obtain ⟨rule, isRule, position, here, there⟩ :=
    corresponds 0 (by decide)
  have exchanged :
      ∀ rule ∈ (tokens [word, number]).rules,
        ∀ position < ((tokens [word, number]).numbersAt rule).length,
          ((tokens [word, number]).numbersAt rule)[position]? = some 0 →
          ((tokens [number, word]).numbersAt rule)[position]? =
            some 1 := by
    decide
  have inside := (List.getElem?_eq_some_iff.mp here).1
  have same := exchanged rule isRule position inside here
  exact Option.some.inj (there.symm.trans same)

end Grammar

end PegAudit
