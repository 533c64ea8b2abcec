import SpanLayout.Directive

/-!
# Branches

A branch holds the distance from its end to its target. It has a long encoding and often a short one, which it keeps
as long as the distance fits.
-/

namespace SpanLayout

/-- An opcode and the size in bytes of the displacement after it. -/
structure Encoding where
  opcode : List UInt8
  dispSize : Nat
deriving DecidableEq, Repr

namespace Encoding

/-- The length in bytes. -/
def len (e : Encoding) : Nat := e.opcode.length + e.dispSize

/-- How many bits of a displacement count. -/
def dispBits (e : Encoding) : Nat := min (max (8 * e.dispSize) 8) 32

/-- The displacements that fit. -/
def range (e : Encoding) : Window :=
  let half : Nat := 1 <<< (e.dispBits - 1)
  ⟨-half, half - 1⟩

end Encoding

/-- Which encoding a branch uses. -/
inductive Form where
  | short
  | long
deriving DecidableEq, Repr

/-- A branch to the location that `target` evaluates to. -/
structure Branch where
  target : Expr
  /-- The target less the branch's own location, once finalized. -/
  value : Option Value
  short : Option Encoding
  long : Encoding
  form : Form
deriving DecidableEq, Repr

namespace Branch

/-- A branch that is short if it can be. -/
def ofEncodings (target : Expr) (short : Option Encoding) (long : Encoding) : Branch :=
  ⟨target, none, short, long, if short.isSome then .short else .long⟩

/-- An unconditional jump. -/
def jump (target : Expr) : Branch := ofEncodings target (some ⟨[0xEB], 1⟩) ⟨[0xE9], 4⟩

/-- A jump on a condition, of which the lowest four bits count. -/
def jumpIf (condition : Nat) (target : Expr) : Branch :=
  let c := UInt8.ofNat (condition % 16)
  ofEncodings target (some ⟨[0x70 + c], 1⟩) ⟨[0x0F, 0x80 + c], 4⟩

/-- A call. -/
def call (target : Expr) : Branch := ofEncodings target none ⟨[0xE8], 4⟩

/-- The branch in its long form. -/
def lengthen (b : Branch) : Branch := { b with form := .long }

/-- The short encoding, if that is the one in use. -/
def shortInUse? (b : Branch) : Option Encoding :=
  match b.form with
  | .short => b.short
  | .long => none

/-- The encoding in use. -/
def encoding (b : Branch) : Encoding := b.shortInUse?.getD b.long

/-- Replaces the symbols of the target. A target from elsewhere needs the long form. -/
def finalize (symbols : SymbolTable) (info : FragmentInfo) (diags : Diagnostics) (b : Branch) :
    Attempt Error (Branch × Diagnostics) Unit :=
  match { Value.ofExpr b.target with isSigned := true }.finalize symbols info.source with
  | ⟨_, .error e⟩ => .fail (b, diags) e
  | ⟨v, .ok _⟩ =>
    let b := if v.isRelative then b.lengthen else b
    .done ({ b with value := some (v.minusLoc info.tailLoc) }, diags) ()

/-- A short branch depends on the distance to its target. -/
def measure (b : Branch) : Attempt Error (Branch × List SpanRequest) Nat :=
  let spans := match b.shortInUse?, b.value with
    | some s, some v => [⟨1, v, ⟨s.range.low + signed s.len, s.range.high + signed s.len⟩⟩]
    | _, _ => []
  .done (b, spans) b.encoding.len

/-- Takes the long form. -/
def expand (b : Branch) : Attempt Error Branch Expansion := .done b.lengthen (.settled b.long.len)

/-- The opcode and the displacement. The branch may be one copy of several, so it is at the section offset `at_`,
wherever its own location is. -/
def emit (site : Site) (at_ : Nat) (info : FragmentInfo) (b : Branch) : Except Error Emission :=
  let e := b.encoding
  match b.value with
  | none => .error (Cause.tooComplex "branch target" info.source)
  | some v =>
    let here := (site.address info.tailLoc).map signed
    let distance := v.abs.bind site.eval
    match v.rel with
    | some symbol =>
      let here := here.getD 0
      let addend := distance.getD (-here) + here - e.dispSize
      .ok ⟨e.opcode ++ List.replicate e.dispSize 0, [⟨at_ + e.opcode.length, e.dispSize, symbol, addend, true⟩]⟩
    | none =>
      match distance, here with
      | some distance, some here =>
        let disp := distance + here - (signed (site.base + at_) + signed e.len)
        if e.range.contains disp then .ok (.ofBytes (e.opcode ++ littleEndian e.dispSize disp))
        else .error (Cause.branchOutOfRange disp e.range.high info.source)
      | _, _ => .error (Cause.tooComplex "branch target" info.source)

end Branch

instance : Directive Branch where
  kind _ := "branch"
  setsOffset _ := false
  finalize := Branch.finalize
  measure _ := Branch.measure
  expand _ _ _ _ := Branch.expand
  emit := Branch.emit

end SpanLayout
