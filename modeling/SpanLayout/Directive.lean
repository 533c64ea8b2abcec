import SpanLayout.Diagnostics
import SpanLayout.Emission

/-!
# Directives

A directive is what decides the part of a fragment whose length depends on the layout. It is finalized once all symbols
are known; it is measured, which fixes its smallest length and says which values it depends on; it is told to expand
when such a value leaves the window that its present form can take; and it is emitted in the end.
-/

namespace SpanLayout

/-- What a directive knows about the fragment it belongs to. -/
structure FragmentInfo where
  ref : FragmentRef
  offset : Nat
  fixedLen : Nat
  tailLen : Nat
  /-- The number of the fragment in the whole object. -/
  index : Nat
  source : SourcePos
deriving DecidableEq, Repr

namespace FragmentInfo

/-- The section offset at which the directive's part begins. -/
def tailOffset (i : FragmentInfo) : Nat := i.offset + i.fixedLen

/-- The location at which the directive's part begins. -/
def tailLoc (i : FragmentInfo) : Location := ⟨i.ref, i.fixedLen⟩

end FragmentInfo

/-- The values that a form can take, both ends included. -/
structure Window where
  low : Int
  high : Int
deriving DecidableEq, Repr

/-- Whether a value lies in a window. -/
def Window.contains (w : Window) (x : Int) : Bool := decide (w.low ≤ x) && decide (x ≤ w.high)

theorem Window.contains_iff {w : Window} {x : Int} : w.contains x = true ↔ w.low ≤ x ∧ x ≤ w.high := by
  simp [Window.contains]

/-- A value that a directive depends on. A positive `id` asks to be told when the value leaves the window, any other
when the value changes at all. -/
structure SpanRequest where
  id : Int
  value : Value
  window : Window
deriving DecidableEq, Repr

/-- The length after an expansion, and the new window unless no further one is needed. -/
structure Expansion where
  len : Nat
  window : Option Window
deriving DecidableEq, Repr

namespace Expansion

/-- The last form has been reached. -/
def settled (len : Nat) : Expansion := ⟨len, none⟩

/-- The present form holds for values from `low` to `high`. -/
def within (len : Nat) (low high : Int) : Expansion := ⟨len, some ⟨low, high⟩⟩

end Expansion

/-- What stands for a value that cannot be computed: the greatest word, which no form can take for certain. -/
def unknownValue : Int := wordBound - 1

/-- What a directive can do. -/
class Directive (δ : Type) where
  /-- What the directive is called in messages. -/
  kind : δ → String
  /-- Whether the length follows the offset: such a directive is expanded with its own offset as the value. -/
  setsOffset : δ → Bool
  /-- Replaces symbols by what they stand for. -/
  finalize : SymbolTable → FragmentInfo → Diagnostics → δ → Attempt Error (δ × Diagnostics) Unit
  /-- The smallest length, and the values it depends on. -/
  measure : FragmentInfo → δ → Attempt Error (δ × List SpanRequest) Nat
  /-- Takes a form for the new value of the span called `id`. -/
  expand : FragmentInfo → (id old new : Int) → δ → Attempt Error δ Expansion
  /-- The bytes, if they begin at the given section offset. -/
  emit : Site → Nat → FragmentInfo → δ → Except Error Emission

/-- The answer of a directive that has only one form. -/
def Directive.cannotExpand {δ : Type} (kind : String) (info : FragmentInfo) (d : δ) : Attempt Error δ Expansion :=
  .fail d (Cause.tooComplex s!"{kind} length" info.source)

instance : Directive Empty where
  kind := nofun
  setsOffset := nofun
  finalize _ _ _ := nofun
  measure _ := nofun
  expand _ _ _ _ := nofun
  emit _ _ _ := nofun

end SpanLayout
