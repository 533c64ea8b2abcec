import SpanLayout.Relaxation.Config
import SpanLayout.Tail.Emit
import SpanLayout.Tail.Expand
import SpanLayout.Tail.Finalize

/-!
# Objects

An object has sections, each a block of fragments that starts at some address, and symbols. This module builds objects,
finalizes them, and writes them out with the lengths and offsets they have.
-/

namespace SpanLayout

/-- A block of fragments that starts at an address. -/
structure Section (κ : Type) where
  name : String
  start : Nat
  block : Block (Tail κ)

/-- The offset at which the last fragment of a section ends. -/
def Section.size {κ : Type} (s : Section κ) : Nat := s.block.size

/-- The sections of an object, by number. -/
abbrev Sections (κ : Type) := List (Section κ)

namespace Sections

variable {κ : Type}

/-- The fragment called `r`. -/
def fragment? (ss : Sections κ) (r : FragmentRef) : Option (Fragment (Tail κ)) :=
  ss[r.sectionIndex]?.bind (·.block.fragments[r.index]?)

/-- Puts another fragment in the place of the one called `r`. -/
def setFragment (ss : Sections κ) (r : FragmentRef) (f : Fragment (Tail κ)) : Sections κ :=
  ss.modify r.sectionIndex fun s =>
    { s with block := { s.block with fragments := s.block.fragments.set r.index f } }

/-- The section offset of a location. -/
def offset? (ss : Sections κ) (l : Location) : Option Nat :=
  (ss.fragment? l.fragment).map (·.offset + l.offset)

/-- The address of a location. -/
def address? (ss : Sections κ) (l : Location) : Option Nat :=
  ss[l.fragment.sectionIndex]?.bind fun s => (ss.offset? l).map (s.start + ·)

/-- The distance from `a` to `b`, if they lie in one section. -/
def distance? (ss : Sections κ) (a b : Location) : Option Int :=
  if a.sameSection b then (ss.offset? a).bind fun x => (ss.offset? b).map fun y => signed y - signed x
  else none

/-- Lays out every section with the lengths that its fragments have. -/
def lay [Directive κ] (diags : Diagnostics) : Sections κ → Sections κ × Diagnostics
  | [] => ([], diags)
  | s :: ss =>
    let (block, diags) := s.block.lay diags
    let (ss, diags) := lay diags ss
    ({ s with block } :: ss, diags)

end Sections

/-- Sections, symbols, and the limits for laying them out. -/
structure Object (κ : Type) where
  sections : Sections κ
  symbols : SymbolTable
  config : Config

namespace Object

variable {κ : Type}

/-- The object without sections and symbols. -/
def empty (config : Config) : Object κ := ⟨[], .empty, config⟩

/-! ## Building -/

/-- Adds a section at the end. -/
def addSection (o : Object κ) (name : String) (start : Nat) : Object κ :=
  { o with sections := o.sections ++ [⟨name, start, .empty o.sections.length⟩] }

/-- The number of the first section called `name`. -/
def findSection? (o : Object κ) (name : String) : Option Nat := o.sections.findIdx? (·.name == name)

/-- Changes the block of section `i`. -/
def modifyBlock (o : Object κ) (i : Nat) (g : Block (Tail κ) → Block (Tail κ)) : Object κ :=
  { o with sections := o.sections.modify i fun s => { s with block := g s.block } }

/-- Defines a symbol. -/
def define (o : Object κ) (name : String) (s : Symbol) : Attempt Error (Object κ) Unit :=
  match o.symbols.define name s with
  | .ok symbols => .done { o with symbols } ()
  | .error e => .fail o e

/-- Defines a label at the present end of section `i`. -/
def defineLabel (o : Object κ) (i : Nat) (name : String) (pos : SourcePos) : Attempt Error (Object κ) Unit :=
  match o.sections[i]? with
  | none => .fail o (Cause.badValue s!"no section {i}" pos)
  | some s => (o.modifyBlock i Block.fresh).define name (.label s.block.fresh.cursor pos)

/-- Defines a name for an expression. -/
def defineName (o : Object κ) (name : String) (e : Expr) (pos : SourcePos) : Attempt Error (Object κ) Unit :=
  o.define name (.definition e pos)

/-! ## Addresses -/

/-- The address of a location, as the word that it is in. -/
def address? (o : Object κ) (l : Location) : Option Nat :=
  (o.sections.address? l).map (· % 18446744073709551616)

theorem address?_of_lt {o : Object κ} {l : Location} {a : Nat} (h : o.sections.address? l = some a)
    (ha : a < 18446744073709551616) : o.address? l = some a := by
  rw [address?, h, Option.map_some, Nat.mod_eq_of_lt ha]

/-- The addresses of the labels, in the order of their names. -/
def labelTable (o : Object κ) : List (String × Nat) :=
  o.symbols.labels.filterMap fun (name, l) => (o.address? l).map (name, ·)

variable [Directive κ]

/-! ## Finalizing -/

/-- Finalizes every section, each ending with a fragment that has no tail. -/
def finalizeSections (symbols : SymbolTable) (diags : Diagnostics) : Sections κ → Sections κ × Diagnostics
  | [] => ([], diags)
  | s :: ss =>
    let (block, diags) := s.block.fresh.finalize symbols diags
    let (ss, diags) := finalizeSections symbols diags ss
    ({ s with block } :: ss, diags)

/-- Replaces every symbol by what it stands for. -/
def finalize (o : Object κ) (diags : Diagnostics) : Object κ × Diagnostics :=
  let (sections, diags) := finalizeSections o.symbols diags o.sections
  ({ o with sections }, diags)

/-- Lays out every section with the lengths that its fragments have. -/
def lay (o : Object κ) (diags : Diagnostics) : Object κ × Diagnostics :=
  let (sections, diags) := o.sections.lay diags
  ({ o with sections }, diags)

/-! ## Writing -/

/-- The image of a section. -/
def sectionImage (o : Object κ) (s : Section κ) : Except Error Image := do
  let e ← emitFragments ⟨s.start, o.sections.address?⟩ 0 s.block.fragments
  return ⟨s.name, s.start, e.bytes, e.relocs⟩

/-- The image of section `i`. -/
def image (o : Object κ) (i : Nat) : Except Error Image :=
  match o.sections[i]? with
  | none => .error (Cause.badValue s!"no section {i}" .unknown)
  | some s => o.sectionImage s

/-- The images of the sections that can be written; the errors of the others are reported. -/
def images (o : Object κ) (diags : Diagnostics) : List Image × Diagnostics :=
  let results := o.sections.map o.sectionImage
  (results.filterMap Except.toOption, results.foldl Diagnostics.reportFailure diags)

end Object

end SpanLayout
