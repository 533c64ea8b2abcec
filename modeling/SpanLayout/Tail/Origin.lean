import SpanLayout.Directive

/-!
# Origins

Padding up to a given section offset, which the data before it must not have passed.
-/

namespace SpanLayout

/-- Padding up to the section offset `start`. -/
structure Origin where
  start : Nat
  fill : UInt8
deriving DecidableEq, Repr

namespace Origin

/-- How much padding is needed from `offset` on. -/
def padding (o : Origin) (info : FragmentInfo) (offset : Int) : Except Error Nat :=
  let current := offset.toNat
  if o.start < current then .error (Cause.originOverlap o.start current info.source)
  else .ok (o.start - current)

end Origin

instance : Directive Origin where
  kind _ := "org"
  setsOffset _ := true
  finalize _ _ diags o := .done (o, diags) ()
  measure info o := ⟨(o, []), o.padding info (signed info.tailOffset)⟩
  expand info _ _ new o := ⟨o, (o.padding info new).map fun len => .within len 0 (signed o.start)⟩
  emit _ _ info o := .ok (.fill o.fill info.tailLen)

end SpanLayout
