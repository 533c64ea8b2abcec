import SpanLayout.Expr.Eval
import SpanLayout.Image
import SpanLayout.Value

/-!
# Emission

The bytes that a part of a section contributes, with the relocations that belong to them.
-/

namespace SpanLayout

/-- Bytes, and relocations by their offset in the section. -/
structure Emission where
  bytes : List UInt8
  relocs : List Reloc
deriving DecidableEq, Repr

namespace Emission

/-- Nothing. -/
def empty : Emission := ⟨[], []⟩

/-- Bytes without relocations. -/
def ofBytes (bytes : List UInt8) : Emission := ⟨bytes, []⟩

/-- `n` times the byte `b`. -/
def fill (b : UInt8) (n : Nat) : Emission := ofBytes (List.replicate n b)

/-- One emission followed by another. -/
def append (a b : Emission) : Emission := ⟨a.bytes ++ b.bytes, a.relocs ++ b.relocs⟩

instance : Append Emission := ⟨append⟩

@[simp] theorem append_bytes (a b : Emission) : (a ++ b).bytes = a.bytes ++ b.bytes := rfl

@[simp] theorem append_relocs (a b : Emission) : (a ++ b).relocs = a.relocs ++ b.relocs := rfl

/-- How many bytes there are. -/
def length (e : Emission) : Nat := e.bytes.length

@[simp] theorem length_append (a b : Emission) : (a ++ b).length = a.length + b.length := by
  simp [length]

@[simp] theorem length_ofBytes (bytes : List UInt8) : (ofBytes bytes).length = bytes.length := rfl

@[simp] theorem length_fill (b : UInt8) (n : Nat) : (fill b n).length = n := by
  simp [fill]

/-- What `emit` contributes `n` times in a row, the first time at section offset `at_`. -/
def times (emit : Nat → Except Error Emission) : Nat → Nat → Except Error Emission
  | 0, _ => .ok empty
  | n + 1, at_ => do
    let first ← emit at_
    let rest ← times emit n (at_ + first.length)
    return first ++ rest

end Emission

/-- The section that is being written: where it starts, and where locations are. -/
structure Site where
  base : Nat
  address : Location → Option Nat

namespace Site

/-- The value of an expression over addresses. -/
def eval (site : Site) (e : Expr) : Option Int :=
  e.eval (.ofLocs fun l => (site.address l).map SpanLayout.signed)

/-- Whether `x` fits `size` bytes, as a signed or as an unsigned number. -/
def fitsField (size : Nat) (x : Int) : Bool :=
  decide (8 ≤ size) || (decide (-(1 <<< (8 * size - 1) : Nat) ≤ x) && decide (x < (1 <<< (8 * size) : Nat)))

/-- A field of `size` bytes at section offset `at_` that holds a value. A symbol from elsewhere is left to a
relocation. -/
def field (site : Site) (at_ size : Nat) (v : Value) (pos : SourcePos) : Except Error Emission :=
  if size = 0 then .error (Cause.badValue "value field has no size" pos)
  else
    match v.abs.elim (some 0) site.eval with
    | none => .error (Cause.tooComplex "value" pos)
    | some x =>
      if fitsField size x then
        .ok ⟨littleEndian size x, v.rel.toList.map fun symbol => ⟨at_, size % 256, symbol, x, false⟩⟩
      else .error (Cause.valueOverflow x size pos)

end Site

end SpanLayout
