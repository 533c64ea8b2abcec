import SpanLayout.Directive
import SpanLayout.Leb128

/-!
# LEB128 fields

A field whose width follows its value. It starts at one byte and only ever grows.
-/

namespace SpanLayout.Leb128

/-- The value of an expression as LEB128. -/
structure Field where
  value : Expr
  isSigned : Bool
  /-- The present width in bytes. -/
  len : Nat := 1
deriving DecidableEq, Repr

/-- The integers that fit `len` bytes. -/
def window (signed : Bool) (len : Nat) : Window := ⟨lowest signed len, highest signed len⟩

namespace Field

/-- Replaces the symbols of the value. -/
def finalize (symbols : SymbolTable) (info : FragmentInfo) (diags : Diagnostics) (f : Field) :
    Attempt Error (Field × Diagnostics) Unit :=
  match f.value.expand symbols with
  | ⟨e, .error _⟩ => .fail ({ f with value := e }, diags) (Cause.circularReference info.source)
  | ⟨e, .ok _⟩ =>
    let f := { f with value := e.simplify }
    if f.value.mentionsSym then .fail (f, diags) (Cause.notAbsolute "LEB128 value" info.source)
    else
      match f.value.const? with
      | some v =>
        if f.isSigned = false ∧ v < 0 then
          .done (f, diags.warn "negative value in unsigned LEB128" info.source) ()
        else .done (f, diags) ()
      | none => .done (f, diags) ()

/-- The present width, unless the value is a constant. -/
def measure (f : Field) : Attempt Error (Field × List SpanRequest) Nat :=
  match f.value.const? with
  | some v =>
    let len := size f.isSigned v
    .done ({ f with len }, []) len
  | none => .done (f, [⟨1, .ofExpr f.value, window f.isSigned f.len⟩]) f.len

/-- Widens the field for a new value. -/
def expand (info : FragmentInfo) (new : Int) (f : Field) : Attempt Error Field Expansion :=
  if new = unknownValue then .fail f (Cause.notAbsolute "LEB128 value" info.source)
  else
    let len := min (max f.len (size f.isSigned new)) maxLen
    .done { f with len } ⟨len, some (window f.isSigned len)⟩

/-- The bytes of the value, filled up to the width that layout chose. -/
def emit (site : Site) (info : FragmentInfo) (f : Field) : Except Error Emission :=
  match site.eval f.value with
  | none => .error (Cause.tooComplex "LEB128 value" info.source)
  | some v =>
    let bytes := encode f.isSigned info.tailLen v
    if bytes.length = info.tailLen then .ok (.ofBytes bytes)
    else .error (Cause.valueOverflow v (info.tailLen % 256) info.source)

end Field

instance : Directive Field where
  kind _ := "leb128"
  setsOffset _ := false
  finalize := Field.finalize
  measure _ := Field.measure
  expand info _ _ := Field.expand info
  emit site _ := Field.emit site

end SpanLayout.Leb128
