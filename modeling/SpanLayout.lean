import SpanLayout.Attempt
import SpanLayout.Block
import SpanLayout.Diagnostics
import SpanLayout.Directive
import SpanLayout.Emission
import SpanLayout.Error
import SpanLayout.Expr.Basic
import SpanLayout.Expr.Distance
import SpanLayout.Expr.Eval
import SpanLayout.Expr.Expand
import SpanLayout.Expr.Simplify
import SpanLayout.Fragment
import SpanLayout.Image
import SpanLayout.Interval
import SpanLayout.Layout
import SpanLayout.Leb128
import SpanLayout.Location
import SpanLayout.Object
import SpanLayout.Proofs.Assembly
import SpanLayout.Proofs.Build
import SpanLayout.Proofs.Bytes
import SpanLayout.Proofs.Coding
import SpanLayout.Proofs.Cycle
import SpanLayout.Proofs.Cyclic
import SpanLayout.Proofs.Decoding
import SpanLayout.Proofs.Edits
import SpanLayout.Proofs.Expr.Definitions
import SpanLayout.Proofs.Expr.Difference
import SpanLayout.Proofs.Expr.Distance
import SpanLayout.Proofs.Expr.Meaning
import SpanLayout.Proofs.Expr.Mentions
import SpanLayout.Proofs.Expr.Normal
import SpanLayout.Proofs.Expr.NormalForm
import SpanLayout.Proofs.Expr.Overflow
import SpanLayout.Proofs.Expr.Pairing
import SpanLayout.Proofs.Expr.Residue
import SpanLayout.Proofs.Expr.Simplify
import SpanLayout.Proofs.Extent
import SpanLayout.Proofs.External
import SpanLayout.Proofs.FieldValues
import SpanLayout.Proofs.Fields
import SpanLayout.Proofs.Finalize
import SpanLayout.Proofs.Image
import SpanLayout.Proofs.Interval
import SpanLayout.Proofs.Lay
import SpanLayout.Proofs.Leb128
import SpanLayout.Proofs.Linking
import SpanLayout.Proofs.Monotone
import SpanLayout.Proofs.Placement
import SpanLayout.Proofs.Provenance
import SpanLayout.Proofs.Reach
import SpanLayout.Proofs.Refinalize
import SpanLayout.Proofs.Relaxation.Alone
import SpanLayout.Proofs.Relaxation.Approach
import SpanLayout.Proofs.Relaxation.Awaits
import SpanLayout.Proofs.Relaxation.Beneath
import SpanLayout.Proofs.Relaxation.Branches
import SpanLayout.Proofs.Relaxation.Budget
import SpanLayout.Proofs.Relaxation.Candidates
import SpanLayout.Proofs.Relaxation.Chart
import SpanLayout.Proofs.Relaxation.Circular
import SpanLayout.Proofs.Relaxation.Convergence
import SpanLayout.Proofs.Relaxation.Coverage
import SpanLayout.Proofs.Relaxation.Direct
import SpanLayout.Proofs.Relaxation.Feeding
import SpanLayout.Proofs.Relaxation.Fitting
import SpanLayout.Proofs.Relaxation.FixedPoint
import SpanLayout.Proofs.Relaxation.Growth
import SpanLayout.Proofs.Relaxation.Guarded
import SpanLayout.Proofs.Relaxation.History
import SpanLayout.Proofs.Relaxation.Incremental
import SpanLayout.Proofs.Relaxation.Isolation
import SpanLayout.Proofs.Relaxation.Least
import SpanLayout.Proofs.Relaxation.Limits
import SpanLayout.Proofs.Relaxation.LongBranches
import SpanLayout.Proofs.Relaxation.Mirror
import SpanLayout.Proofs.Relaxation.Overlap
import SpanLayout.Proofs.Relaxation.Persistence
import SpanLayout.Proofs.Relaxation.Phases
import SpanLayout.Proofs.Relaxation.Plan
import SpanLayout.Proofs.Relaxation.Potential
import SpanLayout.Proofs.Relaxation.Renumber
import SpanLayout.Proofs.Relaxation.Reports
import SpanLayout.Proofs.Relaxation.Rest
import SpanLayout.Proofs.Relaxation.Ripple
import SpanLayout.Proofs.Relaxation.Rounds
import SpanLayout.Proofs.Relaxation.Run
import SpanLayout.Proofs.Relaxation.Settled
import SpanLayout.Proofs.Relaxation.Sinks
import SpanLayout.Proofs.Relaxation.Solution
import SpanLayout.Proofs.Relaxation.Solvable
import SpanLayout.Proofs.Relaxation.Step
import SpanLayout.Proofs.Relaxation.Survey
import SpanLayout.Proofs.Relaxation.Swelling
import SpanLayout.Proofs.Relaxation.Tight
import SpanLayout.Proofs.Relaxation.Towards
import SpanLayout.Proofs.Relaxation.Under
import SpanLayout.Proofs.Relaxation.Upkeep
import SpanLayout.Proofs.Relaxation.Watch
import SpanLayout.Proofs.Relaxation.Words
import SpanLayout.Proofs.Relocs
import SpanLayout.Proofs.Reshape
import SpanLayout.Proofs.Spelling
import SpanLayout.Proofs.Stability
import SpanLayout.Proofs.Tail.Deeply
import SpanLayout.Proofs.Tail.Emit
import SpanLayout.Proofs.Tail.Expand
import SpanLayout.Proofs.Tail.Grown
import SpanLayout.Proofs.Tail.Headroom
import SpanLayout.Proofs.Tail.Measure
import SpanLayout.Proofs.Tail.Parts
import SpanLayout.Proofs.Tail.Remeasure
import SpanLayout.Proofs.Tail.Requests
import SpanLayout.Proofs.Tail.Routing
import SpanLayout.Proofs.Targets
import SpanLayout.Proofs.Telling
import SpanLayout.Proofs.Text
import SpanLayout.Proofs.Verdict
import SpanLayout.Proofs.Widening
import SpanLayout.Relaxation.Config
import SpanLayout.Relaxation.Cycle
import SpanLayout.Relaxation.Run
import SpanLayout.Relaxation.Span
import SpanLayout.Relaxation.State
import SpanLayout.Source
import SpanLayout.Symbol
import SpanLayout.Tail.Align
import SpanLayout.Tail.Basic
import SpanLayout.Tail.Branch
import SpanLayout.Tail.Emit
import SpanLayout.Tail.Expand
import SpanLayout.Tail.Finalize
import SpanLayout.Tail.Gap
import SpanLayout.Tail.Leb128
import SpanLayout.Tail.Measure
import SpanLayout.Tail.Origin
import SpanLayout.Tail.Repeat
import SpanLayout.Value
import SpanLayout.Wire
import SpanLayout.Wire.Forms
import SpanLayout.Word
