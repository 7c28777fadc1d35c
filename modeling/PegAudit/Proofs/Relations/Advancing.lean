import PegAudit.Proofs.Diagnosis.Faults
import PegAudit.Proofs.FirstTerms

namespace PegAudit

/-!
# Openings and the calls that may consume

An opening is a call of a node that may consume, by anything but a predicate.
There is one exception: a reference opens its rule even if that cannot consume.
Openings of this kind make chains of references that all cannot consume, and
nothing else leads to a node that cannot, so where every reference is to a rule
that may consume there are no others.
-/

namespace Shape

/-- Does the shape look ahead and consume nothing? -/
def isPredicate :
    Shape ι →
    Bool
  | .unary .andPredicate _ => true
  | .unary .notPredicate _ => true
  | _ => false

/-- Openers are called, not by a predicate, and may consume or are referred to. -/
theorem mem_openers_iff
    {table : AttrTable}
    {shape : Shape NodeId}
    {other : NodeId} :
    other ∈ shape.openers table ↔
      other ∈ shape.callees table ∧
        shape.isPredicate = false ∧
          ((table.of other).advances = true ∨
            ∃ target, shape = .reference target other) := by
  cases shape with
  | reference target rule =>
      simp only [openers, callees, isPredicate, List.mem_singleton, true_and,
        Shape.reference.injEq, exists_eq_left', iff_self_and]
      exact fun same => .inr same.symm
  | unary operator body =>
      cases operator <;> simp [openers, callees, isPredicate]
  | _ =>
      simp [openers, isPredicate]

end Shape

namespace Layout

/-- The node is a predicate. -/
def IsPredicate
    (layout : Layout)
    (id : NodeId) :
    Prop :=
  ∃ shape,
    layout.shape? id = some shape ∧ shape.isPredicate = true

/-- The first node is a reference to the second. -/
def Refers
    (layout : Layout)
    (id rule : NodeId) :
    Prop :=
  ∃ target, layout.shape? id = some (.reference target rule)

/-- The first node is a reference to the second, and that cannot consume. -/
def RefersIdly
    (layout : Layout)
    (id rule : NodeId) :
    Prop :=
  layout.Refers id rule ∧ (layout.attrs.of rule).advances = false

section

variable
  {layout : Layout}
  {id other : NodeId}

/-- Openings are calls, not by a predicate, of what may consume or is referred to. -/
theorem opens_iff :
    layout.Opens id other ↔
      layout.Calls id other ∧
        ¬ layout.IsPredicate id ∧
          ((layout.attrs.of other).advances = true ∨
            layout.Refers id other) := by
  simp only [Opens, Calls, IsPredicate, Refers]
  cases found : layout.shape? id with
  | none =>
      simp
  | some shape =>
      simp [Shape.mem_openers_iff]

/-- What opens a node that cannot consume refers to it. -/
theorem opens_idle_iff :
    layout.Opens id other ∧ (layout.attrs.of other).advances = false ↔
      layout.RefersIdly id other := by
  constructor
  · rintro ⟨opens, idle⟩
    obtain ⟨_, _, advances | refers⟩ := opens_iff.mp opens
    · exact (Bool.false_ne_true (idle.symm.trans advances)).elim
    · exact ⟨refers, idle⟩
  · rintro ⟨⟨target, found⟩, idle⟩
    exact ⟨⟨_, found, List.mem_cons_self⟩, idle⟩

namespace WellNumbered

variable (wellNumbered : layout.WellNumbered)

include wellNumbered

/-- A reference to a rule that cannot consume cannot consume. -/
theorem idle_of_refersIdly
    (refers : layout.RefersIdly id other) :
    (layout.attrs.of id).advances = false := by
  obtain ⟨⟨target, found⟩, idle⟩ := refers
  rw [wellNumbered.attrs_of_shape found]
  exact idle

/-- Openings lead to a node that cannot consume through references that cannot. -/
theorem transGen_refersIdly
    (path : Relation.TransGen layout.Opens id other)
    (idle : (layout.attrs.of other).advances = false) :
    Relation.TransGen layout.RefersIdly id other := by
  induction path with
  | single opens =>
      exact .single (opens_idle_iff.mp ⟨opens, idle⟩)
  | tail _ opens inductionHypothesis =>
      have refers := opens_idle_iff.mp ⟨opens, idle⟩
      exact
        (inductionHypothesis
          (wellNumbered.idle_of_refersIdly refers)).tail refers

/-- The closure of the openings has what they lead to and every expression itself. -/
theorem relates_firstClosure_iff :
    (layout.relations layout.attrs).firstClosure.Relates id other ↔
      Relation.TransGen layout.Opens id other ∨
        (id = other ∧ id < layout.exprCount) := by
  have covered := IndexSet.le_room_empty layout.exprCount
  rw [← relates_first wellNumbered]
  exact (layout.uniform_relate _).relates_star_iff covered

end WellNumbered

end

end Layout

namespace Analysis

variable (analysis : Analysis)

/-- The first node is a reference to the second, and that cannot consume. -/
def RefersIdly
    (id rule : NodeId) :
    Prop :=
  analysis.layout.Refers id rule ∧
    (analysis.chart.attrsOf rule).advances = false

/-- The openings are the calls that may consume, predicates apart. -/
structure FirstAdvances :
    Prop where
  first_iff :
    ∀ id other,
      analysis.relations.first.Relates id other ↔
        analysis.relations.calls.Relates id other ∧
          ¬ analysis.layout.IsPredicate id ∧
            (analysis.chart.attrsOf other).advances = true
  /-- One or more openings lead to nodes that may consume. -/
  closure_ends :
    ∀ id other,
      analysis.relations.firstClosure.Relates id other →
      id ≠ other →
      (analysis.chart.attrsOf other).advances = true

/-- What the openings are, references to rules that cannot consume included. -/
structure FirstExact :
    Prop where
  /-- A reference opens its rule; all else opens what it calls and may consume. -/
  first_iff :
    ∀ id other,
      analysis.relations.first.Relates id other ↔
        analysis.relations.calls.Relates id other ∧
          ¬ analysis.layout.IsPredicate id ∧
            ((analysis.chart.attrsOf other).advances = true ∨
              analysis.layout.Refers id other)
  /-- Only references lead to a node that cannot consume. -/
  closure_idle_iff :
    ∀ id other,
      (analysis.chart.attrsOf other).advances = false →
      (analysis.relations.firstClosure.Relates id other ↔
        Relation.TransGen analysis.RefersIdly id other ∨
          (id = other ∧ id < analysis.layout.exprCount))
  /-- Where all references are to rules that may consume, there are no other openings. -/
  firstAdvances_iff :
    analysis.FirstAdvances ↔
      ∀ id rule, ¬ analysis.RefersIdly id rule

end Analysis

namespace Layout

variable
  {layout : Layout}
  {options : Options}

namespace WellNumbered

variable (wellNumbered : layout.WellNumbered)

include wellNumbered

/-- References are the same in an analysis. -/
theorem refers_analyze :
    (layout.analyze options).layout.Refers = layout.Refers := by
  funext id rule
  apply propext
  constructor
  · rintro ⟨target, found⟩
    exact ⟨target, shape?_of_shape?_analyze found nofun⟩
  · rintro ⟨target, found⟩
    have counted := wellNumbered.exists_shape_iff.mp ⟨_, found⟩
    exact ⟨target, (shape?_analyze wellNumbered counted).trans found⟩

/-- Predicates are the same in an analysis. -/
theorem isPredicate_analyze
    {id : NodeId}
    (counted : id < layout.exprCount) :
    (layout.analyze options).layout.IsPredicate id ↔
      layout.IsPredicate id := by
  rw [IsPredicate, shape?_analyze wellNumbered counted, IsPredicate]

/-- References to rules that cannot consume are the same in an analysis. -/
theorem refersIdly_analyze :
    (layout.analyze options).RefersIdly = layout.RefersIdly := by
  funext id rule
  rw [Analysis.RefersIdly, wellNumbered.refers_analyze, RefersIdly]
  refine propext (and_congr_right fun refers => ?_)
  obtain ⟨target, found⟩ := refers
  have counted :=
    wellNumbered.mentioned_lt found (List.mem_singleton_self rule)
  rw [wellNumbered.attrsOf_analyze counted]

/-- The openings of an analysis are those of its layout. -/
theorem relates_first_analyze :
    (layout.analyze options).relations.first.Relates = layout.Opens := by
  rw [relations_analyze, relates_first wellNumbered]

/-- The calls of an analysis are those of its layout. -/
theorem relates_calls_analyze :
    (layout.analyze options).relations.calls.Relates = layout.Calls := by
  rw [relations_analyze, relates_calls wellNumbered]

/-- The openings of an analysis, read off its calls and attributes. -/
theorem first_analyze_iff
    (id other : NodeId) :
    (layout.analyze options).relations.first.Relates id other ↔
      (layout.analyze options).relations.calls.Relates id other ∧
        ¬ (layout.analyze options).layout.IsPredicate id ∧
          (((layout.analyze options).chart.attrsOf other).advances = true ∨
            (layout.analyze options).layout.Refers id other) := by
  rw [wellNumbered.relates_first_analyze, wellNumbered.relates_calls_analyze,
    wellNumbered.refers_analyze, opens_iff]
  refine and_congr_right fun call => ?_
  obtain ⟨counted, otherCounted⟩ := wellNumbered.calls_lt call
  rw [wellNumbered.isPredicate_analyze counted,
    wellNumbered.attrsOf_analyze otherCounted]

/-- What leads by openings to a node that cannot consume. -/
theorem firstClosure_analyze_iff
    {id other : NodeId}
    (idle :
      ((layout.analyze options).chart.attrsOf other).advances = false) :
    (layout.analyze options).relations.firstClosure.Relates id other ↔
      Relation.TransGen (layout.analyze options).RefersIdly id other ∨
        (id = other ∧ id < (layout.analyze options).layout.exprCount) := by
  rw [relations_analyze, wellNumbered.relates_firstClosure_iff,
    wellNumbered.refersIdly_analyze, exprCount_analyze]
  refine or_congr_left ?_
  constructor
  · intro path
    obtain ⟨last, _, opens⟩ := Relation.TransGen.tail'_iff.mp path
    have counted := (wellNumbered.calls_lt (opens_iff.mp opens).1).2
    rw [wellNumbered.attrsOf_analyze counted] at idle
    exact wellNumbered.transGen_refersIdly path idle
  · exact
      Relation.TransGen.mono
        (fun _ _ refers => (opens_idle_iff.mpr refers).1) _ _

end WellNumbered

end Layout

namespace Grammar

/--
Openings are exactly the calls that may consume and the references, for every
grammar that is analyzed.
-/
theorem first_exact
    {grammar : Grammar}
    {options : Options}
    {analysis : Analysis}
    (analyzed : grammar.analyze options = .ok analysis) :
    analysis.FirstExact := by
  obtain ⟨clean, rfl⟩ := analyze_eq_ok_iff.mp analyzed
  have wellNumbered := wellNumbered_layOut clean
  refine
    { first_iff := wellNumbered.first_analyze_iff
      closure_idle_iff := fun _ _ => wellNumbered.firstClosure_analyze_iff
      firstAdvances_iff := ⟨?_, ?_⟩ }
  · intro advances id rule refers
    have opens :
        (grammar.layOut.analyze options).relations.first.Relates id rule := by
      rw [wellNumbered.refersIdly_analyze] at refers
      rw [wellNumbered.relates_first_analyze]
      exact (Layout.opens_idle_iff.mpr refers).1
    have consumes := ((advances.first_iff id rule).mp opens).2.2
    exact Bool.false_ne_true (refers.2.symm.trans consumes)
  · intro noneIdle
    refine { first_iff := ?_, closure_ends := ?_ }
    · intro id other
      rw [wellNumbered.first_analyze_iff]
      refine and_congr_right fun _ => and_congr_right fun _ => ?_
      refine or_iff_left_of_imp fun refers => ?_
      apply Bool.eq_true_of_not_eq_false
      exact fun idle => noneIdle id other ⟨refers, idle⟩
    · intro id other related different
      apply Bool.eq_true_of_not_eq_false
      intro idle
      rcases (wellNumbered.firstClosure_analyze_iff idle).mp related with
        path | ⟨same, _⟩
      · obtain ⟨last, _, refers⟩ := Relation.TransGen.tail'_iff.mp path
        exact noneIdle last other refers
      · exact different same

/-- A rule begins with a reference to a reference to a rule that only looks ahead. -/
def lookingAhead : Grammar :=
  { rules :=
      [{ name := "S"
         body := .group .sequence [.reference "A", .literal "b"] },
       { name := "A"
         body := .reference "P" },
       { name := "P"
         body := .unary .andPredicate (.literal "a") }] }

theorem analyze_lookingAhead :
    lookingAhead.analyze {} = .ok (lookingAhead.layOut.analyze {}) :=
  analyze_eq_ok_iff.mpr ⟨by decide, rfl⟩

/-- Two openings are references to rules that cannot consume, and they make a chain. -/
theorem first_exact_lookingAhead :
    ∃ analysis,
      lookingAhead.analyze {} = .ok analysis ∧
        analysis.relations.first.pairs = [(2, 0), (3, 4), (4, 5)] ∧
        analysis.relations.firstClosure.Relates 3 5 ∧
        analysis.FirstExact := by
  have joined :
      (lookingAhead.layOut.analyze {}).relations.firstClosure.Relates 3 5 := by
    rw [IndexRelation.Relates]
    decide +kernel
  exact
    ⟨_, analyze_lookingAhead, by decide +kernel, joined,
      first_exact analyze_lookingAhead⟩

/-- A rule that only looks ahead is opened by what refers to it. -/
theorem not_firstAdvances_lookingAhead :
    ∃ analysis,
      lookingAhead.analyze {} = .ok analysis ∧
        analysis.relations.first.Relates 3 4 ∧
        (analysis.chart.attrsOf 4).advances = false ∧
        ¬ analysis.FirstAdvances := by
  have opened :
      (lookingAhead.layOut.analyze {}).relations.first.Relates 3 4 := by
    rw [IndexRelation.Relates]
    decide +kernel
  have idle :
      ((lookingAhead.layOut.analyze {}).chart.attrsOf 4).advances = false := by
    decide +kernel
  refine ⟨_, analyze_lookingAhead, opened, idle, fun advances => ?_⟩
  have consumes := ((advances.first_iff 3 4).mp opened).2.2
  exact Bool.false_ne_true (idle.symm.trans consumes)

end Grammar

end PegAudit
