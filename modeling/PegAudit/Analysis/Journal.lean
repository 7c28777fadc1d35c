import PegAudit.Analysis

namespace PegAudit

/-!
# The journal of an analysis

Each stage of an analysis notes what it did.  An event is a fact about one
stage; its severity, wording and numbers follow from it.
-/

/-- The stage of the analysis an event belongs to. -/
inductive Stage where
  | layout
  | analysis
  | attributes
  | relations
  | diagnosis
  | tails
  | conflicts
  deriving Repr, DecidableEq, Inhabited

/-- How much attention an event deserves. -/
inductive Severity where
  | warning
  | debug
  | trace
  deriving Repr, DecidableEq, Inhabited

/-- Something that happened during an analysis. -/
inductive Event where
  | unusedRule (name : String)
  | laidOut (rules expressions terminals : Nat)
  | attributesSettled (sweeps flags : Nat)
  | relationsBuilt (calls first disjoint : Nat)
  | faultFound (fault : Fault)
  | abandoned (faults : Nat)
  | wellFormed (notes : Nat)
  | tailsBuilt (strands : Nat)
  | followSettled (sweeps : Nat)
  | conflictFound (text : String) (pairs : Nat)
  | conflictsChecked (conflicts : Nat)
  deriving Repr, DecidableEq, Inhabited

namespace Event

/-- The stage an event belongs to. -/
def stage :
    Event →
    Stage
  | .unusedRule _ => .layout
  | .laidOut _ _ _ => .analysis
  | .attributesSettled _ _ => .attributes
  | .relationsBuilt _ _ _ => .relations
  | .faultFound _ => .diagnosis
  | .abandoned _ => .analysis
  | .wellFormed _ => .diagnosis
  | .tailsBuilt _ => .tails
  | .followSettled _ => .tails
  | .conflictFound _ _ => .conflicts
  | .conflictsChecked _ => .conflicts

/-- The severity of an event. -/
def severity :
    Event →
    Severity
  | .unusedRule _ => .warning
  | .laidOut _ _ _ => .debug
  | .attributesSettled _ _ => .debug
  | .relationsBuilt _ _ _ => .debug
  | .faultFound _ => .warning
  | .abandoned _ => .warning
  | .wellFormed _ => .debug
  | .tailsBuilt _ => .debug
  | .followSettled _ => .debug
  | .conflictFound _ _ => .trace
  | .conflictsChecked _ => .debug

/-- The wording of an event. -/
def message :
    Event →
    String
  | .unusedRule name =>
      "rule " ++ quoted name ++ " is not used"
  | .laidOut _ _ _ =>
      "grammar lowered"
  | .attributesSettled _ _ =>
      "attributes reached fixpoint"
  | .relationsBuilt _ _ _ =>
      "relations built"
  | .faultFound fault =>
      fault.message
  | .abandoned _ =>
      "grammar is not well-formed, tails and conflicts skipped"
  | .wellFormed _ =>
      "grammar is well-formed"
  | .tailsBuilt _ =>
      "tails built"
  | .followSettled _ =>
      "first tail terminals reached fixpoint"
  | .conflictFound text pairs =>
      text ++ " (" ++ toString pairs ++ " pair(s))"
  | .conflictsChecked _ =>
      "LL(1) check done"

/-- The numbers of an event by name. -/
def numbers :
    Event →
    List (String × Nat)
  | .unusedRule _ =>
      []
  | .laidOut rules expressions terminals =>
      [("rules", rules), ("exprs", expressions), ("terms", terminals)]
  | .attributesSettled sweeps flags =>
      [("sweeps", sweeps), ("true_attrs", flags)]
  | .relationsBuilt calls first disjoint =>
      [("calls", calls), ("first", first), ("disjoint", disjoint)]
  | .faultFound _ =>
      []
  | .abandoned faults =>
      [("errors", faults)]
  | .wellFormed notes =>
      [("notes", notes)]
  | .tailsBuilt strands =>
      [("strands", strands)]
  | .followSettled sweeps =>
      [("sweeps", sweeps)]
  | .conflictFound _ _ =>
      []
  | .conflictsChecked conflicts =>
      [("conflicts", conflicts)]

end Event

namespace Layout

/-- The events of the stages that every analysis goes through. -/
def commonEvents
    (layout : Layout)
    (relations : Relations) :
    List Event :=
  let settled := layout.settleAttrs
  let flags :=
    layout.ids.foldl
      (fun counted id => counted + (settled.state.of id).count) 0
  layout.unused.map Event.unusedRule ++
    [.laidOut layout.rules.length layout.exprCount
        layout.terminalCount,
      .attributesSettled settled.sweeps flags,
      .relationsBuilt relations.calls.weight
        relations.first.weight relations.disjoint.weight]

/-- The events of the search for conflicts, in the order of discovery. -/
def conflictEvents
    (analysis : Analysis) :
    List Event :=
  let found := analysis.chart.foundConflicts analysis.relations
  found.map (fun conflict =>
      .conflictFound (conflict.text analysis.layout)
        conflict.pairs.length) ++
    [.conflictsChecked found.length]

/-- The events of the stages after a diagnosis without faults. -/
def laterEvents
    (layout : Layout)
    (options : Options)
    (analysis : Analysis) :
    List Event :=
  [.wellFormed analysis.notes.length,
    .tailsBuilt (layout.strands layout.attrs).length,
    .followSettled (layout.openChart options).settleFollow.sweeps] ++
    if options.conflicts then
      conflictEvents analysis
    else
      []

/-- What happens during the analysis of a layout, in order. -/
def journal
    (layout : Layout)
    (options : Options) :
    List Event :=
  let analysis := layout.analyze options
  layout.commonEvents analysis.relations ++
    if analysis.faults.isEmpty then
      layout.laterEvents options analysis
    else
      analysis.faults.map Event.faultFound ++
        [.abandoned analysis.faults.length]

end Layout

namespace Grammar

/-- What happens during the analysis of a grammar; nothing if it has defects. -/
def journal
    (grammar : Grammar)
    (options : Options) :
    List Event :=
  match grammar.toLayout with
  | .ok layout => layout.journal options
  | .error _ => []

end Grammar

end PegAudit
