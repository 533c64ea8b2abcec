import SpanLayout.Expr.Basic

/-!
# Normal forms of expressions

Simplifying folds constants modulo `2 ^ 64`, pushes negations into sums, flattens sums, removes the factors `0`, `1`
and `-1`, and lets a symbol or location cancel against its negation. A sum keeps its terms in order, with the constant
last.
-/

namespace SpanLayout.Expr

/-! ## Sums -/

/-- The terms that an expression contributes to a sum it stands in. -/
def addends : Expr → List Expr
  | .sum ts => ts
  | e => [e]

/-- The constant that a term contributes to a sum. -/
def constantPart : Expr → Int64
  | .const v => v
  | _ => 0

/-- Whether a term is a constant. -/
def isConst : Expr → Bool
  | .const _ => true
  | _ => false

/-- The term that cancels a symbol, a location or the negation of one. -/
def opposite? : Expr → Option Expr
  | .sym s => some (.neg (.sym s))
  | .loc l => some (.neg (.loc l))
  | .neg (.sym s) => some (.sym s)
  | .neg (.loc l) => some (.loc l)
  | _ => none

/-- Adds a term to a sum in which nothing cancels: it takes away the first term that it cancels, or goes last. -/
def addTerm (terms : List Expr) (t : Expr) : List Expr :=
  match t.opposite? with
  | some o => if o ∈ terms then terms.erase o else terms ++ [t]
  | none => terms ++ [t]

/-- The terms that remain once opposites have cancelled. -/
def cancel (terms : List Expr) : List Expr := terms.foldl addTerm []

/-- The sum of `terms` and a constant: no constant zero, no sum of one term. -/
def sumWith (terms : List Expr) (c : Int64) : Expr :=
  match if c ≠ 0 ∨ terms = [] then terms ++ [.const c] else terms with
  | [t] => t
  | ts => .sum ts

/-- The sum of simplified terms. -/
def addAll (terms : List Expr) : Expr :=
  let flat := terms.flatMap addends
  sumWith (cancel (flat.filter (!·.isConst))) (flat.foldl (· + constantPart ·) 0)

/-! ## Negation and products -/

mutual

/-- The negation of a simplified expression. -/
def negate : Expr → Expr
  | .const v => .const (-v)
  | .neg e => e
  | .sum ts => addAll (negateAll ts)
  | .sym s => .neg (.sym s)
  | .loc l => .neg (.loc l)
  | .slot n => .neg (.slot n)
  | .mul a b => .neg (.mul a b)

/-- The negations of simplified terms. -/
def negateAll : List Expr → List Expr
  | [] => []
  | t :: ts => t.negate :: negateAll ts

end

/-- The product of simplified factors. -/
def multiply (a b : Expr) : Expr :=
  match a, b with
  | .const x, .const y => .const (x * y)
  | .const x, b =>
    if x = 0 then .const 0 else if x = 1 then b else if x = -1 then b.negate else .mul (.const x) b
  | a, .const y =>
    if y = 0 then .const 0 else if y = 1 then a else if y = -1 then a.negate else .mul a (.const y)
  | a, b => .mul a b

/-! ## Simplification -/

mutual

/-- The normal form of an expression. -/
def simplify : Expr → Expr
  | .neg e => e.simplify.negate
  | .sum ts => addAll (simplifyAll ts)
  | .mul a b => multiply a.simplify b.simplify
  | .const v => .const v
  | .sym s => .sym s
  | .loc l => .loc l
  | .slot n => .slot n

/-- The normal forms of the terms of a sum. -/
def simplifyAll : List Expr → List Expr
  | [] => []
  | t :: ts => t.simplify :: simplifyAll ts

end

end SpanLayout.Expr
