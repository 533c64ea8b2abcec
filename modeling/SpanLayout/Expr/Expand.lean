import SpanLayout.Attempt
import SpanLayout.Symbol

/-!
# Expanding symbols

Labels are replaced by their locations and defined names by their definitions, which are expanded in turn. A name
whose definition leads back to itself stops the expansion: what came before it is expanded, what comes after is not.
-/

namespace SpanLayout.Expr

mutual

/-- Replaces the symbols of an expression from left to right, up to the first that cannot be. -/
def replaceSyms (f : String → Attempt String Expr Unit) : Expr → Attempt String Expr Unit
  | .sym name => f name
  | .neg e => (e.replaceSyms f).mapState .neg
  | .sum ts => (replaceAll f ts).mapState .sum
  | .mul a b =>
    match a.replaceSyms f with
    | ⟨a, .ok _⟩ => (b.replaceSyms f).mapState (.mul a)
    | ⟨a, .error name⟩ => .fail (.mul a b) name
  | .const v => .done (.const v) ()
  | .loc l => .done (.loc l) ()
  | .slot n => .done (.slot n) ()

/-- Replaces the symbols of the terms of a sum. -/
def replaceAll (f : String → Attempt String Expr Unit) : List Expr → Attempt String (List Expr) Unit
  | [] => .done [] ()
  | t :: ts =>
    match t.replaceSyms f with
    | ⟨t, .ok _⟩ => (replaceAll f ts).mapState (t :: ·)
    | ⟨t, .error name⟩ => .fail (t :: ts) name

end

/-- Expands an expression inside the definitions of the names in `active`. -/
def expandWithin (table : SymbolTable) (active : List String) (e : Expr) : Attempt String Expr Unit :=
  e.replaceSyms fun name =>
    match h : table.find? name with
    | none => .done (.sym name) ()
    | some (.label l _) => .done (.loc l) ()
    | some (.definition d _) =>
      if hn : name ∈ active then .fail (.sym name) name
      else
        have := SymbolTable.others_cons_lt h hn
        match expandWithin table (name :: active) d with
        | ⟨d, .ok _⟩ => .done d ()
        | ⟨_, .error name'⟩ => .fail (.sym name) name'
termination_by table.others active
decreasing_by assumption

/-- Expands the symbols of an expression; fails with a name that is defined in terms of itself. -/
def expand (table : SymbolTable) (e : Expr) : Attempt String Expr Unit := expandWithin table [] e

end SpanLayout.Expr
