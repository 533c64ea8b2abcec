/-!
# Section images

What layout produces: the bytes of each section, and the places in them that a linker has to fill in.
-/

namespace SpanLayout

/-- A field whose value depends on the address of a symbol from elsewhere. -/
structure Reloc where
  /-- Where the field begins in its section. -/
  offset : Nat
  /-- The size of the field in bytes. -/
  size : Nat
  symbol : String
  addend : Int
  pcRelative : Bool
deriving DecidableEq, Repr

/-- The final bytes of a section. -/
structure Image where
  name : String
  start : Nat
  bytes : List UInt8
  relocs : List Reloc
deriving DecidableEq, Repr

end SpanLayout
