import SpanLayout.Interval
import SpanLayout.Relaxation.Cycle
import SpanLayout.Relaxation.Span
import SpanLayout.Tail.Measure

/-!
# The state of a relaxation

Relaxation starts from the smallest form of every fragment. It measures the fragments, computes every span on the
offsets of the smallest forms and expands those out of their window at once, lays the sections out, and computes every
span again on the real offsets. What is out of its window now is queued.
-/

namespace SpanLayout

/-- A fragment whose length follows its offset, and the offset of its tail. -/
structure Setter where
  ref : FragmentRef
  tailOffset : Nat
deriving DecidableEq, Repr

/-- A relaxation under way. -/
structure Relaxation (κ : Type) where
  config : Config
  sections : Sections κ
  spans : List Span
  /-- The numbers of the counts that wait to be looked at. -/
  counts : List Nat
  /-- The numbers of the other spans that wait, and of those that have waited since the beginning. -/
  others : List Nat
  /-- Which terms extend over a fragment: the number of the span and that of the term in it. -/
  index : IntervalIndex (Nat × Nat)
  setters : List Setter
  stats : Stats
  diags : Diagnostics

namespace Relaxation

variable {κ : Type}

/-! ## Parts of the state -/

/-- Reports an error. -/
def report (s : Relaxation κ) (e : Error) : Relaxation κ := { s with diags := s.diags.report e }

/-- Reports the error of an outcome, if it is one. -/
def reportFailure {α : Type} (s : Relaxation κ) (r : Except Error α) : Relaxation κ :=
  { s with diags := s.diags.reportFailure r }

/-- Puts another fragment in the place of the one called `r`. -/
def setFragment (s : Relaxation κ) (r : FragmentRef) (f : Fragment (Tail κ)) : Relaxation κ :=
  { s with sections := s.sections.setFragment r f }

/-- Puts another span in the place of number `i`. -/
def setSpan (s : Relaxation κ) (i : Nat) (span : Span) : Relaxation κ := { s with spans := s.spans.set i span }

/-- Counts the computations of span values. -/
def countRecalcs (n : Nat) (s : Relaxation κ) : Relaxation κ :=
  { s with stats := { s.stats with recalcs := s.stats.recalcs + n } }

variable [Directive κ]

/-! ## Measuring -/

/-- What measuring a run of fragments finds. -/
structure Survey (α : Type) where
  measured : List α
  seeds : List Seed
  setters : List FragmentRef
  diags : Diagnostics

/-- Numbers and measures the fragments of a section, the first of them number `index` at `offset`, after `setters`
fragments whose length follows their offset. -/
def surveyFragments (index offset setters : Nat) (diags : Diagnostics) :
    List (Fragment (Tail κ)) → Survey (Fragment (Tail κ))
  | [] => ⟨[], [], [], diags⟩
  | f :: fs =>
    let x := { f with index }.measureAt offset
    let g := x.state.1
    let seeds := x.state.2.map fun r => ⟨g.ref, index, g.source, r, setters⟩
    let isSetter := x.result.isOk && g.setsOffset
    let rest := surveyFragments (index + 1) (if x.result.isOk then g.nextOffset else offset)
      (if isSetter then setters + 1 else setters) (diags.reportFailure x.result) fs
    ⟨g :: rest.measured, seeds ++ rest.seeds, if isSetter then g.ref :: rest.setters else rest.setters, rest.diags⟩

/-- Numbers and measures the fragments of all sections. -/
def surveySections (index setters : Nat) (diags : Diagnostics) : Sections κ → Survey (Section κ)
  | [] => ⟨[], [], [], diags⟩
  | s :: ss =>
    let x := surveyFragments index 0 setters diags s.block.fragments
    let rest := surveySections (index + x.measured.length) (setters + x.setters.length) x.diags ss
    ⟨{ s with block := { s.block with fragments := x.measured } } :: rest.measured, x.seeds ++ rest.seeds,
      x.setters ++ rest.setters, rest.diags⟩

/-! ## First expansions -/

/-- Starts to watch a span. One that is out of its window on the smallest offsets is expanded at once, and forgotten if
that settles it. -/
def watch (s : Relaxation κ) (seed : Seed) : Relaxation κ :=
  match Span.ofSeed s.sections seed with
  | .error e => s.report e
  | .ok span =>
    let span := span.recalc
    let s := { s with stats := { s.stats with distances := s.stats.distances + span.terms.length } }.countRecalcs 1
    let keep (s : Relaxation κ) (span : Span) : Relaxation κ :=
      { s with spans := s.spans ++ [{ span with current := span.latest }] }
    if span.exceeded then
      match s.sections.fragment? seed.ref with
      | none => s
      | some f =>
        let x := f.expand span.id span.current span.latest
        let s := s.setFragment seed.ref x.state
        match x.result with
        | .error e => s.report e
        | .ok ⟨_, none⟩ => s
        | .ok ⟨_, some window⟩ =>
          let s := if span.status = .inactive then s.report (Cause.secondaryExpansion seed.source) else s
          keep s { span with window }
    else keep s span

/-! ## The recheck -/

/-- Computes every span on the real offsets and queues those out of their window. -/
def recheck (s : Relaxation κ) : Relaxation κ :=
  let spans := s.spans.map fun span => { span with terms := span.terms.map (Term.remeasure s.sections) }.recalc
  let queued := (List.range spans.length).filter fun i => spans[i]?.any Span.exceeded
  let spans := spans.map fun span => if span.exceeded then { span with status := .queued } else span
  { s with
    spans, others := s.others ++ queued
    stats := { s.stats with
      rechecked := s.stats.rechecked + spans.length
      recalcs := s.stats.recalcs + spans.length
      queuedFirst := s.stats.queuedFirst + queued.length } }

/-! ## The index -/

/-- The intervals of fragment numbers that the terms of the spans extend over. -/
def termIntervals (spans : List Span) : List (Interval (Nat × Nat)) :=
  spans.zipIdx.flatMap fun (span, i) =>
    (span.terms.zipIdx.filter fun (t, _) => t.originIndex ≠ t.targetIndex).map fun (t, j) =>
      ⟨t.low, t.high - 1, (i, j)⟩

/-- The counts that a change in the size of the fragment of count `i` changes. -/
def dependents (s : Relaxation κ) (i : Nat) : List Nat :=
  match s.spans[i]? with
  | none => []
  | some span =>
    if span.isCount then
      let hits := (s.index.query span.seed.index span.seed.index).map (·.1)
      (hits.filter fun j => j ≠ i && s.spans[j]?.any Span.isCount).eraseDups
    else []

/-- Reports the counts that depend on themselves. -/
def checkCycles (s : Relaxation κ) : Relaxation κ :=
  let counts := (List.range s.spans.length).filter fun i => s.spans[i]?.any Span.isCount
  (Cycle.closingEdges s.spans.length s.dependents counts).foldl
    (fun s i => match s.spans[i]? with
      | some span => s.report (Cause.circularReference span.seed.source)
      | none => s) s

/-- Records where the tails of the setters are, builds the index, and looks for cycles. -/
def prepare (s : Relaxation κ) : Relaxation κ :=
  let setters := s.setters.map fun x =>
    { x with tailOffset := ((s.sections.fragment? x.ref).map (·.tailOffset)).getD x.tailOffset }
  let found := s.setters.filter fun x => (s.sections.fragment? x.ref).isSome
  let intervals := termIntervals s.spans
  { s with
    setters, index := (intervals.foldl IntervalIndex.insert s.index).build
    stats := { s.stats with
      setters := s.stats.setters + found.length
      indexed := s.stats.indexed + intervals.length } }.checkCycles

end Relaxation

end SpanLayout
