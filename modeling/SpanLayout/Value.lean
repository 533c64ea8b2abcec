import SpanLayout.Expr.Expand
import SpanLayout.Expr.Simplify

/-!
# Values

What is stored in a field or decides a size: an absolute expression, to which the address of at most one symbol from
elsewhere is added.
-/

namespace SpanLayout

/-- A value and the field it is meant for. -/
structure Value where
  /-- The part that is known here; nothing stands for zero. -/
  abs : Option Expr
  /-- The symbol that is known elsewhere. -/
  rel : Option String
  /-- The size of the field in bits. -/
  size : Nat
  isSigned : Bool
deriving DecidableEq, Repr

namespace Value

/-- The value of `e` for a field of `size` bits. -/
def ofField (size : Nat) (e : Expr) : Value := ⟨some e, none, size, false⟩

/-- The value of `e`, for no field in particular. -/
def ofExpr (e : Expr) : Value := ofField 0 e

/-- Whether the value refers to a symbol from elsewhere. -/
def isRelative (v : Value) : Bool := v.rel.isSome

/-- The value less the address of `l`. -/
def minusLoc (v : Value) (l : Location) : Value :=
  { v with abs := some (Expr.minus (v.abs.getD (.const 0)) (.loc l)).simplify }

/-- The value with its locations renamed. -/
def mapLoc (f : Location → Location) (v : Value) : Value :=
  { v with abs := v.abs.map fun e => (e.mapLoc f).simplify }

/-- The value, if it is a constant. -/
def const? (v : Value) : Option Int :=
  if v.isRelative then none
  else match v.abs with
    | some e => e.const?
    | none => some 0

/-- The symbol that a term of a sum consists of. -/
def bareSym? : Expr → Option String
  | .sym name => some name
  | _ => none

/-- Expands the symbols and splits off the one that is known elsewhere. The value has no absolute part left if that
fails. -/
def finalize (symbols : SymbolTable) (pos : SourcePos) (v : Value) : Attempt Error Value Unit :=
  match v.abs with
  | none => .done v ()
  | some e =>
    match e.expand symbols with
    | ⟨_, .error _⟩ => .fail { v with abs := none } (Cause.circularReference pos)
    | ⟨e, .ok _⟩ =>
      let terms := e.simplify.addends
      let externals := terms.filterMap bareSym?
      let rest := terms.filter fun t => (bareSym? t).isNone
      if 1 < externals.length + (if v.isRelative then 1 else 0) ∨ rest.any Expr.mentionsSym then
        .fail { v with abs := none } (Cause.tooComplex "reference to more than one external symbol" pos)
      else
        .done { v with abs := some (Expr.sum rest).simplify, rel := externals.getLast?.or v.rel } ()

end Value

end SpanLayout
