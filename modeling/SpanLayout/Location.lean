/-!
# Locations

A location names a byte by the fragment that holds it and its distance from the fragment's beginning. It stays valid
while fragments grow and move.
-/

namespace SpanLayout

/-- A fragment, named by its section and its place in the section. -/
structure FragmentRef where
  sectionIndex : Nat
  index : Nat
deriving DecidableEq, Repr

/-- The byte `offset` bytes past the beginning of a fragment. -/
structure Location where
  fragment : FragmentRef
  offset : Nat
deriving DecidableEq, Repr

/-- Whether two locations lie in one section, so that their distance does not depend on where sections start. -/
def Location.sameSection (a b : Location) : Bool := a.fragment.sectionIndex == b.fragment.sectionIndex

end SpanLayout
