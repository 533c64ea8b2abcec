import SpanLayout.Location

/-!
# Expressions

Values that depend on the layout are written as expressions over 64-bit constants, symbols, locations and numbered
slots. A slot stands for a distance that is measured elsewhere.
-/

namespace SpanLayout

/-- An expression. -/
inductive Expr where
  | const (v : Int64)
  | sym (name : String)
  | loc (l : Location)
  | slot (n : Nat)
  | neg (e : Expr)
  | sum (terms : List Expr)
  | mul (a b : Expr)
deriving Repr

/-! ## Equality -/

mutual

/-- Whether two expressions are the same tree. -/
def Expr.same : Expr → Expr → Bool
  | .const a, .const b => a == b
  | .sym a, .sym b => a == b
  | .loc a, .loc b => decide (a = b)
  | .slot a, .slot b => a == b
  | .neg a, .neg b => a.same b
  | .sum as, .sum bs => sameTerms as bs
  | .mul a₁ a₂, .mul b₁ b₂ => a₁.same b₁ && a₂.same b₂
  | _, _ => false

/-- Whether two lists of expressions are the same. -/
def sameTerms : List Expr → List Expr → Bool
  | [], [] => true
  | a :: as, b :: bs => a.same b && sameTerms as bs
  | _, _ => false

end

mutual

theorem Expr.same_iff (a b : Expr) : a.same b = true ↔ a = b := by
  match a, b with
  | .const a, .const b => simp [Expr.same]
  | .sym a, .sym b => simp [Expr.same]
  | .loc a, .loc b => simp [Expr.same]
  | .slot a, .slot b => simp [Expr.same]
  | .neg a, .neg b => simp [Expr.same, Expr.same_iff a b]
  | .sum as, .sum bs => simp [Expr.same, sameTerms_iff as bs]
  | .mul a₁ a₂, .mul b₁ b₂ => simp [Expr.same, Expr.same_iff a₁ b₁, Expr.same_iff a₂ b₂]
  | .const _, .sym _ | .const _, .loc _ | .const _, .slot _ | .const _, .neg _ | .const _, .sum _
  | .const _, .mul _ _ | .sym _, .const _ | .sym _, .loc _ | .sym _, .slot _ | .sym _, .neg _
  | .sym _, .sum _ | .sym _, .mul _ _ | .loc _, .const _ | .loc _, .sym _ | .loc _, .slot _
  | .loc _, .neg _ | .loc _, .sum _ | .loc _, .mul _ _ | .slot _, .const _ | .slot _, .sym _
  | .slot _, .loc _ | .slot _, .neg _ | .slot _, .sum _ | .slot _, .mul _ _ | .neg _, .const _
  | .neg _, .sym _ | .neg _, .loc _ | .neg _, .slot _ | .neg _, .sum _ | .neg _, .mul _ _
  | .sum _, .const _ | .sum _, .sym _ | .sum _, .loc _ | .sum _, .slot _ | .sum _, .neg _
  | .sum _, .mul _ _ | .mul _ _, .const _ | .mul _ _, .sym _ | .mul _ _, .loc _ | .mul _ _, .slot _
  | .mul _ _, .neg _ | .mul _ _, .sum _ => simp [Expr.same]

theorem sameTerms_iff (as bs : List Expr) : sameTerms as bs = true ↔ as = bs := by
  match as, bs with
  | [], [] => simp [sameTerms]
  | a :: as, b :: bs => simp [sameTerms, Expr.same_iff a b, sameTerms_iff as bs]
  | [], _ :: _ => simp [sameTerms]
  | _ :: _, [] => simp [sameTerms]

end

instance : DecidableEq Expr := fun a b => decidable_of_iff _ (Expr.same_iff a b)

namespace Expr

/-- `a + b`, as it is written. -/
def plus (a b : Expr) : Expr := .sum [a, b]

/-- `a - b`, as it is written. -/
def minus (a b : Expr) : Expr := .sum [a, .neg b]

/-- The value of a constant. -/
def const? : Expr → Option Int
  | .const v => some v.toInt
  | _ => none

/-! ## What an expression mentions -/

mutual

/-- Whether a symbol occurs. -/
def mentionsSym : Expr → Bool
  | .sym _ => true
  | .neg e => e.mentionsSym
  | .sum ts => anyMentionsSym ts
  | .mul a b => a.mentionsSym || b.mentionsSym
  | .const _ | .loc _ | .slot _ => false

/-- Whether a symbol occurs in some term. -/
def anyMentionsSym : List Expr → Bool
  | [] => false
  | t :: ts => t.mentionsSym || anyMentionsSym ts

end

mutual

/-- Whether a location occurs. -/
def mentionsLoc : Expr → Bool
  | .loc _ => true
  | .neg e => e.mentionsLoc
  | .sum ts => anyMentionsLoc ts
  | .mul a b => a.mentionsLoc || b.mentionsLoc
  | .const _ | .sym _ | .slot _ => false

/-- Whether a location occurs in some term. -/
def anyMentionsLoc : List Expr → Bool
  | [] => false
  | t :: ts => t.mentionsLoc || anyMentionsLoc ts

end

/-! ## Renaming locations -/

mutual

/-- Replaces every location. -/
def mapLoc (f : Location → Location) : Expr → Expr
  | .loc l => .loc (f l)
  | .neg e => .neg (e.mapLoc f)
  | .sum ts => .sum (mapLocs f ts)
  | .mul a b => .mul (a.mapLoc f) (b.mapLoc f)
  | .const v => .const v
  | .sym s => .sym s
  | .slot n => .slot n

/-- Replaces every location of every term. -/
def mapLocs (f : Location → Location) : List Expr → List Expr
  | [] => []
  | t :: ts => t.mapLoc f :: mapLocs f ts

end

/-! ## Text -/

mutual

/-- An expression as messages show it. -/
def render : Expr → String
  | .const v => toString v.toInt
  | .sym name => name
  | .loc l => s!"\x7b{l.fragment.sectionIndex}:{l.fragment.index}+{l.offset}\x7d"
  | .slot n => s!"[{n}]"
  | .neg e => s!"-({e.render})"
  | .sum ts => "(" ++ String.intercalate " + " (renderAll ts) ++ ")"
  | .mul a b => s!"({a.render} * {b.render})"

/-- The texts of the terms of a sum. -/
def renderAll : List Expr → List String
  | [] => []
  | t :: ts => t.render :: renderAll ts

end

end Expr

end SpanLayout
