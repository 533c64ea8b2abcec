/-!
# Limits and counters of a relaxation
-/

namespace SpanLayout

/-- How much work a layout may take, and how many errors are kept. -/
structure Config where
  maxExpansions : Nat
  maxErrors : Nat
deriving DecidableEq, Repr

/-- The limits used where none are asked for. -/
def Config.standard : Config := ⟨1000000, 64⟩

/-- What a relaxation did. -/
structure Stats where
  /-- Spans registered while lengths were measured. -/
  spans : Nat
  /-- Distances that the spans depend on. -/
  distances : Nat
  /-- Spans checked again once the first layout was known. -/
  rechecked : Nat
  /-- Distances held in the interval index. -/
  indexed : Nat
  /-- Fragments whose length follows their offset. -/
  setters : Nat
  /-- How often the value of a span was computed. -/
  recalcs : Nat
  /-- Expansions made while the queues were drained. -/
  expansions : Nat
  /-- Spans queued by the recheck. -/
  queuedFirst : Nat
  /-- Spans taken from the queue of repetition counts. -/
  countPops : Nat
  /-- Spans taken from the queue of all others. -/
  otherPops : Nat
deriving DecidableEq, Repr

/-- The counters at the beginning. -/
def Stats.zero : Stats := ⟨0, 0, 0, 0, 0, 0, 0, 0, 0, 0⟩

end SpanLayout
