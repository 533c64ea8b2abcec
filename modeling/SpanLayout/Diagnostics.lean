import SpanLayout.Error

/-!
# Diagnostics

The sink that collects errors and warnings while an object is laid out. It keeps the first `limit` errors in the
order they are reported and counts the rest, so that a run whose limit is zero still knows it failed.
-/

namespace SpanLayout

/-- The errors and warnings reported so far. -/
structure Diagnostics where
  /-- How many errors are kept. -/
  limit : Nat
  errors : List Error
  warnings : List Warning
  /-- How many errors were reported beyond the limit. -/
  dropped : Nat
deriving DecidableEq, Repr

namespace Diagnostics

/-- The limit used where none is asked for. -/
def defaultLimit : Nat := 64

/-- An empty sink that keeps `limit` errors. -/
def empty (limit : Nat) : Diagnostics := ⟨limit, [], [], 0⟩

/-- Keeps one error, or counts it once the limit is reached. -/
def keep (d : Diagnostics) (e : Error) : Diagnostics :=
  if d.errors.length < d.limit then { d with errors := d.errors ++ [e] }
  else { d with dropped := d.dropped + 1 }

/-- Reports an error, each of its parts on its own. -/
def report (d : Diagnostics) (e : Error) : Diagnostics := e.parts.foldl keep d

/-- Reports the error of an outcome, if it is one. -/
def reportFailure {α : Type} (d : Diagnostics) : Except Error α → Diagnostics
  | .ok _ => d
  | .error e => d.report e

/-- Reports a warning. -/
def warn (d : Diagnostics) (text : String) (pos : SourcePos) : Diagnostics :=
  { d with warnings := d.warnings ++ [⟨text, pos⟩] }

/-- Whether any error was reported, kept or not. -/
def hasErrors (d : Diagnostics) : Bool := !d.errors.isEmpty || decide (0 < d.dropped)

theorem hasErrors_keep (d : Diagnostics) (e : Error) : (d.keep e).hasErrors = true := by
  unfold keep
  split <;> simp [hasErrors]

theorem hasErrors_report {d : Diagnostics} (h : d.hasErrors = true) (e : Error) : (d.report e).hasErrors = true := by
  unfold report
  induction e.parts generalizing d with
  | nil => exact h
  | cons e es ih => exact ih (hasErrors_keep d e)

theorem hasErrors_report_one (d : Diagnostics) (c : Cause) : (d.report (.one c)).hasErrors = true := by
  simp [report, Error.parts, hasErrors_keep]

theorem hasErrors_reportFailure {α : Type} {d : Diagnostics} (h : d.hasErrors = true) (r : Except Error α) :
    (d.reportFailure r).hasErrors = true := by
  cases r with
  | ok _ => exact h
  | error e => exact hasErrors_report h e

/-- The kept errors, and the count of the others if there are any. -/
def summary (d : Diagnostics) : List Error :=
  if 0 < d.dropped then d.errors ++ [.one (.suppressed d.dropped)] else d.errors

/-- All that was reported as a single error, if anything was. -/
def toError? (d : Diagnostics) : Option Error :=
  match d.summary with
  | [] => none
  | [e] => some e
  | es => some (.many es)

/-- `a`, unless an error was reported. -/
def toResult {α : Type} (d : Diagnostics) (a : α) : Except Error α :=
  match d.toError? with
  | some e => .error e
  | none => .ok a

theorem hasErrors_iff (d : Diagnostics) : d.hasErrors = true ↔ d.summary ≠ [] := by
  unfold hasErrors summary
  by_cases h : 0 < d.dropped <;> simp [h]

/-- A failed run has an error to show, whatever the limit. -/
theorem toError?_isSome (d : Diagnostics) : d.toError?.isSome = d.hasErrors := by
  rw [Bool.eq_iff_iff, hasErrors_iff]
  unfold toError?
  split <;> simp_all

end Diagnostics

end SpanLayout
