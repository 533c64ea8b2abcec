import SpanLayout.Directive

/-!
# Gaps
-/

namespace SpanLayout

/-- A number of zero bytes. -/
structure Gap where
  size : Nat
deriving DecidableEq, Repr

instance : Directive Gap where
  kind _ := "gap"
  setsOffset _ := false
  finalize _ _ diags g := .done (g, diags) ()
  measure _ g := .done (g, []) g.size
  expand info _ _ _ := Directive.cannotExpand "gap" info
  emit _ _ _ g := .ok (.fill 0 g.size)

end SpanLayout
