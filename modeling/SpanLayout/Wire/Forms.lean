import SpanLayout.Error
import SpanLayout.Expr.Basic
import SpanLayout.Image
import SpanLayout.Relaxation.Config
import SpanLayout.Wire

/-!
# Written forms

How positions, locations, expressions, errors, limits, counters and images are written, and how they are read back.
-/

namespace SpanLayout

open Wire (tagged ofNat)

/-! ## Positions and locations -/

def SourcePos.toWire (p : SourcePos) : Wire :=
  .obj [("line", ofNat p.line), ("col", ofNat p.col), ("offset", ofNat p.offset), ("len", ofNat p.len)]

def SourcePos.ofWire? (w : Wire) : Option SourcePos :=
  match w.record? ["line", "col", "offset", "len"] with
  | some [line, col, offset, len] => do
    pure ⟨← line.nat32?, ← col.nat32?, ← offset.nat64?, ← len.nat64?⟩
  | _ => none

def FragmentRef.toWire (r : FragmentRef) : Wire :=
  .obj [("section", ofNat r.sectionIndex), ("index", ofNat r.index)]

def FragmentRef.ofWire? (w : Wire) : Option FragmentRef :=
  match w.record? ["section", "index"] with
  | some [s, i] => do pure ⟨← s.nat64?, ← i.nat64?⟩
  | _ => none

def Location.toWire (l : Location) : Wire :=
  .obj [("bc", l.fragment.toWire), ("off", ofNat l.offset)]

def Location.ofWire? (w : Wire) : Option Location :=
  match w.record? ["bc", "off"] with
  | some [r, o] => do pure ⟨← FragmentRef.ofWire? r, ← o.nat64?⟩
  | _ => none

/-! ## Expressions -/

mutual

def Expr.toWire : Expr → Wire
  | .const v => tagged "Int" (.int v.toInt)
  | .sym name => tagged "Sym" (.str name)
  | .loc l => tagged "Loc" l.toWire
  | .slot n => tagged "Subst" (ofNat n)
  | .neg e => tagged "Neg" e.toWire
  | .sum ts => tagged "Add" (.list (termsToWire ts))
  | .mul a b => tagged "Mul" (.list [a.toWire, b.toWire])

def termsToWire : List Expr → List Wire
  | [] => []
  | t :: ts => t.toWire :: termsToWire ts

end

mutual

def Expr.ofWire? : Wire → Option Expr
  | .obj [("Int", w)] => w.int64?.map fun v => .const (Int64.ofInt v)
  | .obj [("Sym", w)] => w.str?.map .sym
  | .obj [("Loc", w)] => (Location.ofWire? w).map .loc
  | .obj [("Subst", w)] => w.nat64?.map .slot
  | .obj [("Neg", w)] => (Expr.ofWire? w).map .neg
  | .obj [("Add", .list ws)] => (termsOfWire? ws).map .sum
  | .obj [("Mul", .list [a, b])] => do pure (.mul (← Expr.ofWire? a) (← Expr.ofWire? b))
  | _ => none

def termsOfWire? : List Wire → Option (List Expr)
  | [] => some []
  | w :: ws => do pure ((← Expr.ofWire? w) :: (← termsOfWire? ws))

end

/-! ## Errors -/

/-- The name of the kind of a cause. -/
def Cause.tag : Cause → String
  | .notConstant .. => "NotConstant"
  | .tooComplex .. => "TooComplex"
  | .notAbsolute .. => "NotAbsolute"
  | .circularReference .. => "CircularReference"
  | .originOverlap .. => "OrgOverlap"
  | .badValue .. => "Value"
  | .secondaryExpansion .. => "SecondaryExpansion"
  | .duplicateLabel .. => "DuplicateLabel"
  | .valueOverflow .. => "ValueOverflow"
  | .branchOutOfRange .. => "BranchOutOfRange"
  | .relaxationLimit .. => "RelaxationLimit"
  | .suppressed .. => "Suppressed"

/-- The fields of a cause. -/
def Cause.fields : Cause → List (String × Wire)
  | .notConstant detail p | .tooComplex detail p | .notAbsolute detail p | .badValue detail p =>
    [("detail", .str detail), ("loc", p.toWire)]
  | .circularReference p | .secondaryExpansion p => [("loc", p.toWire)]
  | .originOverlap target current p =>
    [("target", ofNat target), ("current", ofNat current), ("loc", p.toWire)]
  | .duplicateLabel label p first =>
    [("label", .str label), ("loc", p.toWire), ("first_loc", first.toWire)]
  | .valueOverflow value size p => [("value", .int value), ("size", ofNat size), ("loc", p.toWire)]
  | .branchOutOfRange disp max p => [("disp", .int disp), ("max", .int max), ("loc", p.toWire)]
  | .relaxationLimit max => [("max", ofNat max)]
  | .suppressed count => [("count", ofNat count)]

/-- Reads the detail and the position of a cause that has these two. -/
def detailed? (make : String → SourcePos → Cause) (w : Wire) : Option Cause :=
  match w.members? ["detail", "loc"] with
  | some [detail, p] => do pure (make (← detail.str?) (← SourcePos.ofWire? p))
  | _ => none

/-- Reads the position of a cause that has nothing else. -/
def positioned? (make : SourcePos → Cause) (w : Wire) : Option Cause :=
  match w.members? ["loc"] with
  | some [p] => (SourcePos.ofWire? p).map make
  | _ => none

/-- Reads a cause of the kind called `tag`. -/
def Cause.ofWire? (tag : String) (w : Wire) : Option Cause :=
  match tag with
  | "NotConstant" => detailed? .notConstant w
  | "TooComplex" => detailed? .tooComplex w
  | "NotAbsolute" => detailed? .notAbsolute w
  | "CircularReference" => positioned? .circularReference w
  | "OrgOverlap" =>
    match w.members? ["target", "current", "loc"] with
    | some [t, c, p] => do pure (.originOverlap (← t.nat64?) (← c.nat64?) (← SourcePos.ofWire? p))
    | _ => none
  | "Value" => detailed? .badValue w
  | "SecondaryExpansion" => positioned? .secondaryExpansion w
  | "DuplicateLabel" =>
    match w.members? ["label", "loc", "first_loc"] with
    | some [l, p, f] => do pure (.duplicateLabel (← l.str?) (← SourcePos.ofWire? p) (← SourcePos.ofWire? f))
    | _ => none
  | "ValueOverflow" =>
    match w.members? ["value", "size", "loc"] with
    | some [v, s, p] => do pure (.valueOverflow (← v.int?) (← s.nat8?) (← SourcePos.ofWire? p))
    | _ => none
  | "BranchOutOfRange" =>
    match w.members? ["disp", "max", "loc"] with
    | some [d, m, p] => do pure (.branchOutOfRange (← d.int64?) (← m.int64?) (← SourcePos.ofWire? p))
    | _ => none
  | "RelaxationLimit" =>
    match w.members? ["max"] with
    | some [m] => m.nat64?.map .relaxationLimit
    | _ => none
  | "Suppressed" =>
    match w.members? ["count"] with
    | some [c] => c.nat64?.map .suppressed
    | _ => none
  | _ => none

/-- The name of the kind of an error. -/
def Error.tag : Error → String
  | .one c => c.tag
  | .many _ => "Multiple"

mutual

def Error.toWire : Error → Wire
  | .one c => tagged c.tag (.obj c.fields)
  | .many es => tagged "Multiple" (.obj [("errors", .list (errorsToWire es))])

def errorsToWire : List Error → List Wire
  | [] => []
  | e :: es => e.toWire :: errorsToWire es

end

mutual

def Error.ofWire? : Wire → Option Error
  | .obj [("Multiple", .obj fields)] => (errorsField? fields).map .many
  | .obj [(tag, w)] => (Cause.ofWire? tag w).map .one
  | _ => none

/-- Reads the list of errors among the fields of an object. -/
def errorsField? : List (String × Wire) → Option (List Error)
  | [] => none
  | ("errors", .list ws) :: _ => errorsOfWire? ws
  | ("errors", _) :: _ => none
  | _ :: fields => errorsField? fields

def errorsOfWire? : List Wire → Option (List Error)
  | [] => some []
  | w :: ws => do pure ((← Error.ofWire? w) :: (← errorsOfWire? ws))

end

def Warning.toWire (x : Warning) : Wire := .obj [("msg", .str x.text), ("loc", x.pos.toWire)]

def Warning.ofWire? (w : Wire) : Option Warning :=
  match w.record? ["msg", "loc"] with
  | some [t, p] => do pure ⟨← t.str?, ← SourcePos.ofWire? p⟩
  | _ => none

/-! ## Limits and counters -/

def Config.toWire (c : Config) : Wire :=
  .obj [("max_expansions", ofNat c.maxExpansions), ("max_errors", ofNat c.maxErrors)]

def Config.ofWire? (w : Wire) : Option Config :=
  match w.record? ["max_expansions", "max_errors"] with
  | some [x, e] => do pure ⟨← x.nat64?, ← e.nat64?⟩
  | _ => none

/-- The names of the counters. -/
def Stats.names : List String :=
  ["spans", "span_terms", "step1d_spans", "itree_terms", "offset_setters", "recalcs", "expansions", "initial_qb",
    "qa_pops", "qb_pops"]

def Stats.toWire (s : Stats) : Wire :=
  .obj (Stats.names.zip ([s.spans, s.distances, s.rechecked, s.indexed, s.setters, s.recalcs, s.expansions,
    s.queuedFirst, s.countPops, s.otherPops].map ofNat))

def Stats.ofWire? (w : Wire) : Option Stats :=
  match (w.record? Stats.names).bind (·.mapM Wire.nat64?) with
  | some [a, b, c, d, e, f, g, h, i, j] => some ⟨a, b, c, d, e, f, g, h, i, j⟩
  | _ => none

/-! ## Images -/

def Reloc.toWire (r : Reloc) : Wire :=
  .obj [("offset", ofNat r.offset), ("size", ofNat r.size), ("symbol", .str r.symbol), ("addend", .int r.addend),
    ("pc_relative", .bool r.pcRelative)]

def Reloc.ofWire? (w : Wire) : Option Reloc :=
  match w.record? ["offset", "size", "symbol", "addend", "pc_relative"] with
  | some [o, s, n, a, p] => do pure ⟨← o.nat64?, ← s.nat8?, ← n.str?, ← a.int64?, ← p.bool?⟩
  | _ => none

def Image.toWire (i : Image) : Wire :=
  .obj [("name", .str i.name), ("start", ofNat i.start), ("bytes", .list (i.bytes.map fun b => ofNat b.toNat)),
    ("relocs", .list (i.relocs.map Reloc.toWire))]

def Image.ofWire? (w : Wire) : Option Image :=
  match w.record? ["name", "start", "bytes", "relocs"] with
  | some [n, s, b, r] => do
    pure ⟨← n.str?, ← s.nat64?, (← b.list? Wire.nat8?).map UInt8.ofNat, ← r.list? Reloc.ofWire?⟩
  | _ => none

end SpanLayout
