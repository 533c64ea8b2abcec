import SpanLayout.Expr.Distance
import SpanLayout.Object

/-!
# Spans

A span watches one value that the length of a fragment depends on. Its distances are measured once and then kept up to
date as fragments grow, so that the value can be computed again without looking at the layout.
-/

namespace SpanLayout

/-- A span as it was asked for. -/
structure Seed where
  /-- The fragment that asked for it, and its number in the whole object. -/
  ref : FragmentRef
  index : Nat
  source : SourcePos
  request : SpanRequest
  /-- How many fragments before it have a length that follows their offset. -/
  settersBefore : Nat
deriving DecidableEq, Repr

/-- A distance that a span depends on, with the numbers of the two fragments and the present length. -/
structure Term where
  distance : Distance
  originIndex : Nat
  targetIndex : Nat
  length : Int
deriving DecidableEq, Repr

namespace Term

/-- The number of the first fragment that the distance extends over. -/
def low (t : Term) : Nat := min t.originIndex t.targetIndex

/-- The number of the first fragment past the distance. -/
def high (t : Term) : Nat := max t.originIndex t.targetIndex

/-- The term after a fragment that it extends over has grown by `d`. -/
def grow (d : Int) (t : Term) : Term :=
  { t with length := if t.originIndex < t.targetIndex then t.length + d else t.length - d }

/-- The term with its distance measured again, as far as that is possible. -/
def remeasure {κ : Type} (sections : Sections κ) (t : Term) : Term :=
  { t with length := (sections.distance? t.distance.origin t.distance.target).getD t.length }

end Term

/-- Whether a span is watched. -/
inductive SpanStatus where
  /-- Its value is not looked at any more. -/
  | inactive
  | active
  /-- It waits to be looked at. -/
  | queued
deriving DecidableEq, Repr

/-- A span and what is known about its value. -/
structure Span where
  seed : Seed
  /-- The absolute part of the value, with a slot for each term. -/
  expr : Option Expr
  terms : List Term
  window : Window
  /-- The value at the last expansion. -/
  current : Int
  /-- The value as last computed. -/
  latest : Int
  status : SpanStatus
deriving DecidableEq, Repr

namespace Span

def id (s : Span) : Int := s.seed.request.id

/-- Whether the span reacts to every change of its value. -/
def isCount (s : Span) : Bool := decide (s.id ≤ 0)

/-- Measures a distance for a span. A count must not depend on a distance over its own fragment. -/
def measureTerm {κ : Type} (sections : Sections κ) (seed : Seed) (d : Distance) : Except Error Term :=
  match sections.distance? d.origin d.target, sections.fragment? d.origin.fragment,
    sections.fragment? d.target.fragment with
  | some length, some f, some g =>
    let t : Term := ⟨d, f.index, g.index, length⟩
    if seed.request.id ≤ 0 ∧ t.low ≤ seed.index ∧ seed.index < t.high then
      .error (Cause.circularReference seed.source)
    else .ok t
  | _, _, _ => .error (Cause.tooComplex "distance" seed.source)

/-- Takes the distances out of the value of a span and measures them. -/
def ofSeed {κ : Type} (sections : Sections κ) (seed : Seed) : Except Error Span :=
  let span : Span := ⟨seed, none, [], seed.request.window, 0, 0, .active⟩
  match seed.request.value.abs with
  | none => .ok span
  | some e => do
    let (expr, distances) := e.distances
    let terms ← distances.mapM (measureTerm sections seed)
    return { span with expr := some expr, terms }

/-- The value of a span, given its terms. -/
def compute (s : Span) : Int :=
  if s.seed.request.value.isRelative then unknownValue
  else
    match s.expr with
    | some e => (e.eval (.ofSlots fun n => s.terms[n]?.map (·.length))).getD unknownValue
    | none => 0

/-- Computes the value again. A span without a value is not watched any more. -/
def recalc (s : Span) : Span :=
  { s with latest := s.compute, status := if s.compute = unknownValue then .inactive else s.status }

/-- Whether the latest value asks for an expansion. -/
def exceeded (s : Span) : Bool :=
  if s.isCount then s.latest != s.current else !s.window.contains s.latest

end Span

end SpanLayout
