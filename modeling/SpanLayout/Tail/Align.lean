import SpanLayout.Directive

/-!
# Alignment

Padding up to the next multiple of a power of two, unless that would skip more than is allowed.
-/

namespace SpanLayout

/-- What padding consists of. -/
inductive Padding where
  | zeros
  | bytes (b : UInt8)
  | nops
deriving DecidableEq, Repr

/-- The instruction of `n` bytes that does nothing, for `n` up to 9. -/
def nop : Nat → List UInt8
  | 1 => [0x90]
  | 2 => [0x66, 0x90]
  | 3 => [0x0F, 0x1F, 0x00]
  | 4 => [0x0F, 0x1F, 0x40, 0x00]
  | 5 => [0x0F, 0x1F, 0x44, 0x00, 0x00]
  | 6 => [0x66, 0x0F, 0x1F, 0x44, 0x00, 0x00]
  | 7 => [0x0F, 0x1F, 0x80, 0x00, 0x00, 0x00, 0x00]
  | 8 => [0x0F, 0x1F, 0x84, 0x00, 0x00, 0x00, 0x00, 0x00]
  | 9 => [0x66, 0x0F, 0x1F, 0x84, 0x00, 0x00, 0x00, 0x00, 0x00]
  | _ => []

/-- Padding of `n` bytes. -/
def Padding.emit (n : Nat) : Padding → Emission
  | zeros => .fill 0 n
  | bytes b => .fill b n
  | nops => .ofBytes ((List.replicate (n / 9) (nop 9)).flatten ++ nop (n % 9))

/-- Whether `n` is a power of two. -/
def isPowerOfTwo (n : Nat) : Bool := n != 0 && 1 <<< n.log2 == n

/-- An alignment as it was written, and what finalizing made of it. -/
structure Align where
  boundary : Expr
  fill : Option Expr
  maxSkip : Option Expr
  nops : Bool
  /-- The boundary; offsets are aligned to it if it is above one. -/
  boundaryVal : Nat := 0
  padding : Padding := .zeros
  maxSkipVal : Option Nat := none
deriving DecidableEq, Repr

/-- Replaces the symbols of an expression that has to be a constant. -/
def Expr.constant (what : String) (symbols : SymbolTable) (pos : SourcePos) (e : Expr) : Attempt Error Expr Int :=
  match e.expand symbols with
  | ⟨e, .error _⟩ => .fail e (Cause.circularReference pos)
  | ⟨e, .ok _⟩ =>
    match e.simplify.const? with
    | some v => .done e.simplify v
    | none => .fail e.simplify (Cause.notConstant what pos)

namespace Align

/-- Finds the boundary. -/
def resolveBoundary (symbols : SymbolTable) (pos : SourcePos) (a : Align) : Attempt Error Align Unit :=
  match a.boundary.constant "align boundary" symbols pos with
  | ⟨e, .error err⟩ => .fail { a with boundary := e } err
  | ⟨e, .ok v⟩ =>
    if v < 0 ∨ (v ≠ 0 ∧ isPowerOfTwo v.toNat = false) then
      .fail { a with boundary := e } (Cause.badValue s!"alignment boundary {v} is not a power of two" pos)
    else .done { a with boundary := e, boundaryVal := v.toNat } ()

/-- Finds what the padding consists of. -/
def resolveFill (symbols : SymbolTable) (pos : SourcePos) (a : Align) : Attempt Error Align Unit :=
  if a.nops then .done { a with padding := .nops } ()
  else
    match a.fill with
    | none => .done { a with padding := .zeros } ()
    | some e =>
      match e.constant "align fill" symbols pos with
      | ⟨e, .error err⟩ => .fail { a with fill := some e } err
      | ⟨e, .ok v⟩ => .done { a with fill := some e, padding := .bytes (UInt8.ofNat (v % 256).toNat) } ()

/-- Finds how much may be skipped. -/
def resolveMaxSkip (symbols : SymbolTable) (pos : SourcePos) (a : Align) : Attempt Error Align Unit :=
  match a.maxSkip with
  | none => .done a ()
  | some e =>
    match e.constant "align maximum skip" symbols pos with
    | ⟨e, .error err⟩ => .fail { a with maxSkip := some e } err
    | ⟨e, .ok v⟩ =>
      if v < 0 then .fail { a with maxSkip := some e } (Cause.badValue "align maximum skip is negative" pos)
      else .done { a with maxSkip := some e, maxSkipVal := some v.toNat } ()

/-- The least multiple of the boundary that is not below `offset`. -/
def alignUp (boundary offset : Nat) : Nat := (offset + boundary - 1) / boundary * boundary

theorem dvd_alignUp (b n : Nat) : b ∣ alignUp b n := Nat.dvd_mul_left ..

theorem le_alignUp {b : Nat} (hb : 0 < b) (n : Nat) : n ≤ alignUp b n := by
  unfold alignUp
  have h := Nat.div_add_mod (n + b - 1) b
  have hr := Nat.mod_lt (n + b - 1) hb
  rw [Nat.mul_comm] at h
  omega

theorem alignUp_le {b n m : Nat} (hb : 0 < b) (hd : b ∣ m) (h : n ≤ m) : alignUp b n ≤ m := by
  obtain ⟨k, rfl⟩ := hd
  unfold alignUp
  rw [Nat.mul_comm b k] at h ⊢
  apply Nat.mul_le_mul_right
  apply Nat.le_of_lt_succ
  rw [Nat.div_lt_iff_lt_mul hb, Nat.succ_mul]
  omega

theorem alignUp_mono {b n m : Nat} (hb : 0 < b) (h : n ≤ m) : alignUp b n ≤ alignUp b m :=
  alignUp_le hb (dvd_alignUp b m) (Nat.le_trans h (le_alignUp hb m))

/-- How much padding is needed from `offset` on, and up to which offset that is so. -/
def paddingAt (a : Align) (offset : Nat) : Nat × Int :=
  if a.boundaryVal ≤ 1 then (0, unknownValue)
  else
    let next := alignUp a.boundaryVal offset
    match a.maxSkipVal with
    | some m => if m < next - offset then (0, signed next - signed m - 1) else (next - offset, signed next)
    | none => (next - offset, signed next)

end Align

instance : Directive Align where
  kind _ := "align"
  setsOffset _ := true
  finalize symbols info diags a :=
    let x := ((a.resolveBoundary symbols info.source).andThen fun a _ => a.resolveFill symbols info.source).andThen
      fun a _ => a.resolveMaxSkip symbols info.source
    x.mapState (·, diags)
  measure info a := .done (a, []) (a.paddingAt info.tailOffset).1
  expand _ _ _ new a :=
    let (len, last) := a.paddingAt new.toNat
    .done a (.within len 0 last)
  emit _ _ info a := .ok (a.padding.emit info.tailLen)

end SpanLayout
