import SpanLayout.Relaxation.State

/-!
# Running a relaxation

Spans are taken from the queues one at a time, counts first. One that is out of its window has its fragment expanded;
every term over that fragment follows, and so do the fragments behind it whose length follows their offset. A span that
leaves its window on the way is queued. The run ends when nothing is left to do, or when the budget is used up.
-/

namespace SpanLayout.Relaxation

variable {κ : Type}

/-! ## Following a growth -/

/-- Queues span number `i`. -/
def enqueue (s : Relaxation κ) (i : Nat) (span : Span) : Relaxation κ :=
  let s := s.setSpan i { span with status := .queued }
  if span.isCount then { s with counts := s.counts ++ [i] } else { s with others := s.others ++ [i] }

/-- Term `j` of span `i` extends over a fragment that has grown by `d`. -/
def shiftTerm (d : Int) (s : Relaxation κ) (hit : Nat × Nat) : Relaxation κ :=
  match s.spans[hit.1]? with
  | none => s
  | some span =>
    let shifted := { span with terms := span.terms.modify hit.2 (·.grow d) }
    match span.status with
    | .inactive => s
    | .queued => s.setSpan hit.1 shifted
    | .active =>
      let shifted := shifted.recalc
      let s := s.countRecalcs 1
      if shifted.exceeded then s.enqueue hit.1 shifted else s.setSpan hit.1 shifted

/-- Fragment number `i` has grown by `d`. -/
def shift (s : Relaxation κ) (i : Nat) (d : Int) : Relaxation κ := (s.index.query i i).foldl (shiftTerm d) s

variable [Directive κ]

/-- What lies before setter number `k` of a section has grown by `d`; the setters from there on are `setters`. The
growth goes on to the end of the section, or until a setter takes it up. -/
def ripple (sectionIndex : Nat) : (k : Nat) → (setters : List Setter) → (d : Int) → Relaxation κ → Relaxation κ
  | _, [], _, s => s
  | k, x :: setters, d, s =>
    if d = 0 ∨ x.ref.sectionIndex ≠ sectionIndex then s
    else
      match s.sections.fragment? x.ref with
      | none => s
      | some f =>
        let tailOffset := (x.tailOffset + d).toNat
        let y := f.expand 1 (signed x.tailOffset) (signed tailOffset)
        let g := y.state
        let s := (s.setFragment x.ref g).reportFailure y.result
        let s := { s with setters := s.setters.set k { x with tailOffset } }
        let grown := signed g.tailLen - signed f.tailLen
        let s := if grown = 0 then s else s.shift f.index grown
        ripple sectionIndex (k + 1) setters (signed (tailOffset + g.tailLen) - signed (x.tailOffset + f.tailLen)) s

/-! ## One step -/

/-- Takes the next span from the queues. -/
def pop (s : Relaxation κ) : Option (Nat × Relaxation κ) :=
  match s.counts, s.others with
  | i :: counts, _ => some (i, { s with counts, stats := { s.stats with countPops := s.stats.countPops + 1 } })
  | [], i :: others => some (i, { s with others, stats := { s.stats with otherPops := s.stats.otherPops + 1 } })
  | [], [] => none

/-- Expands the fragment of span `i`, which is out of its window, and follows the growth. -/
def expandSpan (s : Relaxation κ) (i : Nat) (span : Span) : Relaxation κ :=
  let s := { s with stats := { s.stats with expansions := s.stats.expansions + 1 } }
  match s.sections.fragment? span.seed.ref with
  | none => s
  | some f =>
    let x := f.expand span.id span.current span.latest
    let s := s.setFragment span.seed.ref x.state
    match x.result with
    | .error e => (s.report e).setSpan i { span with status := .inactive }
    | .ok ⟨_, window⟩ =>
      let s := s.setSpan i <| match window with
        | some window => { span with current := span.latest, window }
        | none => { span with status := .inactive }
      let grown := signed x.state.totalLen - signed f.totalLen
      if grown = 0 then s
      else
        let k := span.seed.settersBefore
        (s.shift span.seed.index grown).ripple span.seed.ref.sectionIndex k (s.setters.drop k) grown

/-- What looking at one span comes to. -/
inductive Step (κ : Type) where
  /-- Nothing was queued. -/
  | idle
  /-- The span needs no expansion. -/
  | settled (s : Relaxation κ)
  /-- The span was expanded. -/
  | expanded (s : Relaxation κ)
  /-- The span needs an expansion, but the budget is used up. -/
  | exhausted (s : Relaxation κ)

/-- Looks at the next span. -/
def step (s : Relaxation κ) : Step κ :=
  match s.pop with
  | none => .idle
  | some (i, s) =>
    match s.spans[i]? with
    | none => .settled s
    | some span =>
      if span.status = .inactive then .settled s
      else
        -- The value may have come back into the window since the span was queued.
        let span := { span with status := .active }.recalc
        let s := (s.setSpan i span).countRecalcs 1
        if span.exceeded = false then .settled s
        else if s.config.maxExpansions ≤ s.stats.expansions then
          .exhausted (s.report (Cause.relaxationLimit s.config.maxExpansions))
        else .expanded (s.expandSpan i span)

/-! ## The run -/

/-- How many spans are queued. -/
def queued (s : Relaxation κ) : Nat := s.counts.length + s.others.length

/-- Looks at up to `n` spans and goes on with `next` after the first expansion. -/
def drain (next : Relaxation κ → Relaxation κ) : Nat → Relaxation κ → Relaxation κ
  | 0, s => s
  | n + 1, s =>
    match s.step with
    | .idle => s
    | .settled s => drain next n s
    | .expanded s => next s
    | .exhausted s => s

/-- Looks at spans until none is queued, with up to `budget` expansions. -/
def run : (budget : Nat) → Relaxation κ → Relaxation κ
  | 0, s => drain id s.queued s
  | budget + 1, s => drain (run budget) s.queued s

end SpanLayout.Relaxation
