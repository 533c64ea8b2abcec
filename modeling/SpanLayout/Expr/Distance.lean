import SpanLayout.Expr.Basic

/-!
# Distances in expressions

The difference of two locations of one section does not depend on where the section lies. Extraction replaces such
differences by slots, so that the rest of the expression can be evaluated from distances alone: in every sum the
first location of a section is paired with the first negated location of that section, the second with the second,
and so on.
-/

namespace SpanLayout

/-- The distance from `origin` to `target`. -/
structure Distance where
  origin : Location
  target : Location
deriving DecidableEq, Repr

namespace Expr

/-- The locations that a sum subtracts. -/
def subtracted (terms : List Expr) : List Location :=
  terms.filterMap fun
    | .neg (.loc l) => some l
    | _ => none

/-- Replaces each location by a slot, numbered from `next`, for its distance from the first unused location of `origins`
in its section. -/
def pairTerms (next : Nat) (origins : List Location) : List Expr → List Expr × List Distance
  | [] => ([], [])
  | .loc l :: ts =>
    match origins.find? (·.sameSection l) with
    | some o =>
      let (ts, ds) := pairTerms (next + 1) (origins.erase o) ts
      (.slot next :: ts, ⟨o, l⟩ :: ds)
    | none =>
      let (ts, ds) := pairTerms next origins ts
      (.loc l :: ts, ds)
  | t :: ts =>
    let (ts, ds) := pairTerms next origins ts
    (t :: ts, ds)

/-- Drops, for each location of `used`, the first term that subtracts it. -/
def dropSubtracted (used : List Location) (terms : List Expr) : List Expr :=
  used.foldl (fun ts o => ts.erase (.neg (.loc o))) terms

/-- A sum after its distances have been taken out: it loses the locations they start from and its zeros. -/
def pairSum (next : Nat) (terms : List Expr) : Expr × List Distance :=
  match pairTerms next (subtracted terms) terms with
  | (_, []) => (.sum terms, [])
  | (paired, ds) =>
    match (dropSubtracted (ds.map (·.origin)) paired).filter (· ≠ .const 0) with
    | [] => (.const 0, ds)
    | [t] => (t, ds)
    | ts => (.sum ts, ds)

mutual

/-- Takes the distances out of an expression; slots are numbered from `next`, inner sums first. -/
def extract (next : Nat) : Expr → Expr × List Distance
  | .neg e =>
    let (e, ds) := e.extract next
    (.neg e, ds)
  | .mul a b =>
    let (a, ds) := a.extract next
    let (b, es) := b.extract (next + ds.length)
    (.mul a b, ds ++ es)
  | .sum ts =>
    let (ts, ds) := extractAll next ts
    let (e, es) := pairSum (next + ds.length) ts
    (e, ds ++ es)
  | .const v => (.const v, [])
  | .sym s => (.sym s, [])
  | .loc l => (.loc l, [])
  | .slot n => (.slot n, [])

/-- Takes the distances out of the terms of a sum. -/
def extractAll (next : Nat) : List Expr → List Expr × List Distance
  | [] => ([], [])
  | t :: ts =>
    let (t, ds) := t.extract next
    let (ts, es) := extractAll (next + ds.length) ts
    (t :: ts, ds ++ es)

end

/-- Takes the distances out of an expression; slot `n` stands for the `n`-th of them. -/
def distances (e : Expr) : Expr × List Distance := e.extract 0

end Expr

end SpanLayout
