import SpanLayout.Directive

/-!
# Fragments

The unit of layout: bytes that are known when the fragment is built, with fields in them that are filled in later, and
then the tail, whose length a directive decides.
-/

namespace SpanLayout

/-- A field among the fixed bytes of a fragment. -/
structure Fixup where
  offset : Nat
  value : Value
deriving DecidableEq, Repr

namespace Fixup

/-- The size of the field in bytes. -/
def size (f : Fixup) : Nat := (f.value.size + 7) / 8

/-- Finalizes the values of fields one by one, up to the first that fails. -/
def finalizeAll (symbols : SymbolTable) (pos : SourcePos) : List Fixup → Attempt Error (List Fixup) Unit
  | [] => .done [] ()
  | f :: fs =>
    match f.value.finalize symbols pos with
    | ⟨v, .ok _⟩ => (finalizeAll symbols pos fs).mapState ({ f with value := v } :: ·)
    | ⟨v, .error e⟩ => .fail ({ f with value := v } :: fs) e

/-- Fills fields into the bytes that begin at section offset `at_`. -/
def patch (site : Site) (at_ : Nat) (pos : SourcePos) : List Fixup → List UInt8 → Except Error Emission
  | [], bytes => .ok (.ofBytes bytes)
  | f :: fs, bytes =>
    if bytes.length < f.offset + f.size then .error (Cause.badValue "fixup outside fixed bytes" pos)
    else do
      let field ← site.field (at_ + f.offset) f.size f.value pos
      let rest ← patch site at_ pos fs (bytes.take f.offset ++ field.bytes ++ bytes.drop (f.offset + f.size))
      return { rest with relocs := field.relocs ++ rest.relocs }

end Fixup

/-- A fragment whose tail, if it has one, is decided by a `τ`. -/
structure Fragment (τ : Type) where
  fixed : List UInt8
  fixups : List Fixup
  tail : Option τ
  ref : FragmentRef
  source : SourcePos
  /-- The section offset, as far as it is known. -/
  offset : Nat
  /-- The number of the fragment in the whole object. -/
  index : Nat
  /-- The length of the tail, as far as it is known. -/
  tailLen : Nat

namespace Fragment

variable {τ : Type}

/-- The fragment without bytes. -/
def empty : Fragment τ := ⟨[], [], none, ⟨0, 0⟩, .unknown, 0, 0, 0⟩

/-- A fragment that consists of a tail. -/
def ofTail (t : τ) (source : SourcePos) : Fragment τ := { (empty : Fragment τ) with tail := some t, source }

/-- Gives the fragment another tail. -/
def withTail (f : Fragment τ) (t : τ) : Fragment τ := { f with tail := some t, tailLen := 0 }

/-- Appends fixed bytes. -/
def appendBytes (f : Fragment τ) (bytes : List UInt8) : Fragment τ := { f with fixed := f.fixed ++ bytes }

/-- Appends a field for a value. -/
def appendValue (f : Fragment τ) (v : Value) : Fragment τ :=
  let fixup := ⟨f.fixed.length, v⟩
  { f with fixed := f.fixed ++ List.replicate fixup.size 0, fixups := f.fixups ++ [fixup] }

def fixedLen (f : Fragment τ) : Nat := f.fixed.length

def totalLen (f : Fragment τ) : Nat := f.fixedLen + f.tailLen

/-- The section offset at which the tail begins. -/
def tailOffset (f : Fragment τ) : Nat := f.offset + f.fixedLen

/-- The section offset at which the fragment ends. -/
def nextOffset (f : Fragment τ) : Nat := f.offset + f.totalLen

def info (f : Fragment τ) : FragmentInfo := ⟨f.ref, f.offset, f.fixedLen, f.tailLen, f.index, f.source⟩

/-- The length of a run of fragments. -/
def sumLen : List (Fragment τ) → Nat
  | [] => 0
  | f :: fs => f.totalLen + sumLen fs

/-- Puts fragments one after the other, beginning at `offset`. -/
def placeFrom (offset : Nat) : List (Fragment τ) → List (Fragment τ)
  | [] => []
  | f :: fs => { f with offset } :: placeFrom (offset + f.totalLen) fs

end Fragment

end SpanLayout
