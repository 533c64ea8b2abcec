import SpanLayout.Fragment

/-!
# Blocks

A block is a run of fragments under construction: the contents of a section, or the body of a repetition. It always has
a last fragment. Bytes and fields go to the end of that one as long as it has no tail.
-/

namespace SpanLayout

/-- A run of fragments. -/
structure Block (τ : Type) where
  sectionIndex : Nat
  fragments : List (Fragment τ)
  /-- The size of the gap that the block ends with, if a further one can be merged into it. -/
  lastGap : Option Nat

namespace Block

variable {τ : Type}

/-- The number of the last fragment. -/
def lastIndex (b : Block τ) : Nat := b.fragments.length - 1

/-- Adds a fragment at the end. -/
def push (b : Block τ) (f : Fragment τ) : Block τ :=
  { b with fragments := b.fragments ++ [{ f with ref := ⟨b.sectionIndex, b.fragments.length⟩ }] }

/-- The block with one empty fragment. -/
def empty (sectionIndex : Nat) : Block τ := push ⟨sectionIndex, [], none⟩ .empty

/-- Changes the last fragment. -/
def modifyLast (b : Block τ) (g : Fragment τ → Fragment τ) : Block τ :=
  { b with fragments := b.fragments.modify b.lastIndex g }

/-- Appends a fragment. -/
def appendFragment (b : Block τ) (f : Fragment τ) : Block τ := { b with lastGap := none }.push f

/-- Appends an empty fragment. -/
def start (b : Block τ) : Block τ := b.appendFragment .empty

/-- Sees to it that the last fragment has no tail. -/
def fresh (b : Block τ) : Block τ :=
  match b.fragments.getLast? with
  | some f => if f.tail.isSome then b.start else b
  | none => b.start

/-- Appends bytes. -/
def appendBytes (b : Block τ) (bytes : List UInt8) : Block τ := b.fresh.modifyLast (·.appendBytes bytes)

/-- Appends a field of `size` bits for the value of an expression. -/
def appendValue (b : Block τ) (size : Nat) (e : Expr) (source : SourcePos) : Block τ :=
  b.fresh.modifyLast fun f =>
    let f := if f.fixups.isEmpty && f.fixedLen == 0 then { f with source } else f
    f.appendValue (.ofField size e)

/-- Appends a fragment that consists of a tail. -/
def appendTail (b : Block τ) (t : τ) (source : SourcePos) : Block τ := b.appendFragment (.ofTail t source)

/-- The location just past the fixed bytes of the last fragment. -/
def cursor (b : Block τ) : Location :=
  match b.fragments.getLast? with
  | some f => ⟨f.ref, f.fixedLen⟩
  | none => ⟨⟨b.sectionIndex, 0⟩, 0⟩

/-- The location just past the last fragment, with the length that it has at present. -/
def endLoc (b : Block τ) : Location :=
  match b.fragments.getLast? with
  | some f => ⟨f.ref, f.totalLen⟩
  | none => ⟨⟨b.sectionIndex, 0⟩, 0⟩

/-- The offset at which the last fragment ends. -/
def size (b : Block τ) : Nat :=
  match b.fragments.getLast? with
  | some f => f.nextOffset
  | none => 0

end Block

end SpanLayout
