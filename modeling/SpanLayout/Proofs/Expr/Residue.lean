import Mathlib.Data.ZMod.Basic
import SpanLayout.Proofs.Expr.Simplify

/-!
# Expressions modulo `2 ^ 64`

Folding wraps around, so an expression and its normal form need not have the same value as integers. They do have the
same residue, whatever the symbols, locations and slots in them are worth.
-/

namespace SpanLayout.Expr

/-- Simplifying keeps the residue of an expression modulo `2 ^ 64`. -/
theorem simplify_keeps_residue (e : Expr) (ρ : Valuation (ZMod (2 ^ 64))) : e.simplify.value ρ = e.value ρ := by
  apply value_simplify
  exact ZMod.natCast_self (2 ^ 64)

-- The constants add up to `2 ^ 63`, which wraps around, and the sum that is negated cancels the symbol before it.
example :
    (Expr.sum [.sym "a", .const Int64.maxValue, .neg (.sum [.sym "a", .const (-1)])]).simplify =
      .const Int64.minValue := by
  decide +kernel

end SpanLayout.Expr
