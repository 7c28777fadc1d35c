import PegAudit.IndexSet.Commands
import PegAudit.IndexRelation.Commands
import PegAudit.Strand.Checked
import PegAudit.Analysis.Journal
import PegAudit.Layout.ReadBack
import PegAudit.Matching.Deterministic
import PegAudit.IndexRelation.Members
import PegAudit.Proofs.Sweeps
import PegAudit.Fixpoint.Reported
import PegAudit.Proofs.Sweeps.Reported
import PegAudit.Proofs.Sweeps.Orders
import PegAudit.Proofs.IndexSet.Order
import PegAudit.Proofs.IndexRelation.Closure
import PegAudit.Proofs.Terminal.Disjoint
import PegAudit.Proofs.Layout.Placement
import PegAudit.Proofs.Layout.WellNumbered
import PegAudit.Proofs.Matching.Runs
import PegAudit.Proofs.Matching.Leaves
import PegAudit.Proofs.Attrs.Closed
import PegAudit.Proofs.Attrs.Least
import PegAudit.Proofs.Attrs.Settling
import PegAudit.Proofs.Attrs.Soundness
import PegAudit.Proofs.Relations.Calls
import PegAudit.Proofs.FirstTerms
import PegAudit.Proofs.Analysis.View
import PegAudit.Proofs.Analysis.Describes
import PegAudit.Proofs.Termination
import PegAudit.Proofs.Conflicts
import PegAudit.Proofs.Follow.Closed
import PegAudit.Proofs.Follow.Soundness
import PegAudit.Layout.Filling
import PegAudit.Proofs.Layout.Numbers
import PegAudit.Proofs.Layout.Filling
import PegAudit.Proofs.Layout.ReadBack
import PegAudit.Proofs.Layout.Arrangement
import PegAudit.Proofs.Relations.Starts
import PegAudit.Proofs.Analysis.Tails
import PegAudit.Proofs.Follow.Exact
import PegAudit.Proofs.Diagnosis.FirstSeen
import PegAudit.Proofs.Diagnosis.Occasions
import PegAudit.Proofs.Diagnosis.Notes
import PegAudit.Fixpoint.Checked
import PegAudit.Proofs.Checked.Sweeps
import PegAudit.Layout.Checked
import PegAudit.IndexRelation.Checked
import PegAudit.Proofs.Checked.Layout
import PegAudit.Diagnosis.Checked
import PegAudit.Proofs.Checked.IndexRelation
import PegAudit.Proofs.Checked.Relations
import PegAudit.Analysis.Checked
import PegAudit.Proofs.Checked.Diagnosis
import PegAudit.Strand.Stepwise
import PegAudit.Proofs.Checked.Chart
import PegAudit.Proofs.Checked.Conflicts
import PegAudit.Proofs.Checked.Strands
import PegAudit.Proofs.Checked.Analysis
import PegAudit.Proofs.Renumbering.Layout
import PegAudit.Proofs.Renumbering.Relations
import PegAudit.Proofs.Renumbering.Findings
import PegAudit.Proofs.Analysis.Terminals
import PegAudit.Proofs.Renumbering.Chart
import PegAudit.Proofs.Renumbering.Rules
import PegAudit.Proofs.Renumbering.Conflicts
import PegAudit.Proofs.Renumbering.Reordering
import PegAudit.Proofs.Renumbering.Analysis
import PegAudit.Proofs.Follow.Reachability
import PegAudit.Proofs.FirstTerms.Equations
import PegAudit.Proofs.IndexRelation.Laws
import PegAudit.Proofs.Diagnosis.Faults
import PegAudit.Proofs.Terminal.Overlap
import PegAudit.Proofs.Relations.Disjointness
import PegAudit.Proofs.Conflicts.Listing
import PegAudit.Proofs.Conflicts.Places
import PegAudit.Proofs.Strand.Refinement
import PegAudit.Proofs.Analysis.CallSites
import PegAudit.Proofs.Strand.Continuation
import PegAudit.Proofs.Source.Reader
import PegAudit.Proofs.Source.Terminals
import PegAudit.Proofs.Source.Expressions
import PegAudit.Proofs.Matching.Alike
import PegAudit.Proofs.Source.Unambiguous
import PegAudit.Proofs.Analysis.ReadBack
import PegAudit.Proofs.Source.Lines
import PegAudit.Proofs.Strand.Elements
import PegAudit.Proofs.Strand.Alignment
import PegAudit.Proofs.Strand.Lookalikes
import PegAudit.Expr.Path
import PegAudit.Proofs.Expr.Paths
import PegAudit.Proofs.Matching.Until
import PegAudit.Proofs.Grammar.Resolution
import PegAudit.Proofs.Layout.Names
import PegAudit.Proofs.Analysis.Options
import PegAudit.IndexSet.Operations
import PegAudit.IndexSet.Scan
import PegAudit.IndexSet.Words
import PegAudit.IndexSet.Extension
import PegAudit.Proofs.Registers
import PegAudit.Proofs.IndexSet.Words
import PegAudit.Proofs.IndexSet.Transcripts
import PegAudit.IndexRelation.Operations
import PegAudit.IndexRelation.Pairwise
import PegAudit.IndexRelation.Extension
import PegAudit.Proofs.IndexRelation.Lockstep
import PegAudit.Proofs.IndexRelation.Extension
import PegAudit.Proofs.IndexRelation.Transcripts
import PegAudit.Proofs.IndexRelation.Algebra
import PegAudit.Proofs.Relations.Advancing
