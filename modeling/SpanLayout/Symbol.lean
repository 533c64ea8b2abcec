import SpanLayout.Error
import SpanLayout.Expr.Basic

/-!
# Symbols

A symbol is a label, which names a location, or a definition, which names an expression. A table holds them by name,
in the order of their names, and never replaces one.
-/

namespace SpanLayout

/-- What a name stands for, and where it was said so. -/
inductive Symbol where
  | label (at_ : Location) (pos : SourcePos)
  | definition (e : Expr) (pos : SourcePos)
deriving DecidableEq, Repr

/-- Where a symbol is defined. -/
def Symbol.pos : Symbol → SourcePos
  | label _ p => p
  | definition _ p => p

/-- Symbols by name, in the order of their names. -/
structure SymbolTable where
  entries : List (String × Symbol)
deriving DecidableEq, Repr

namespace SymbolTable

/-- The table without symbols. -/
def empty : SymbolTable := ⟨[]⟩

/-- The symbol called `name`. -/
def find? (t : SymbolTable) (name : String) : Option Symbol := t.entries.lookup name

/-- Puts an entry before the first one whose name is greater. -/
def insertEntry (name : String) (s : Symbol) : List (String × Symbol) → List (String × Symbol)
  | [] => [(name, s)]
  | e :: es => if name < e.1 then (name, s) :: e :: es else e :: insertEntry name s es

/-- Defines a symbol; a name can be defined only once. -/
def define (t : SymbolTable) (name : String) (s : Symbol) : Except Error SymbolTable :=
  match t.find? name with
  | some first => .error (Cause.duplicateLabel name s.pos first.pos)
  | none => .ok ⟨insertEntry name s t.entries⟩

/-- The location of a label. -/
def label? (t : SymbolTable) (name : String) : Option Location :=
  match t.find? name with
  | some (.label l _) => some l
  | _ => none

/-- The labels, in the order of their names. -/
def labels (t : SymbolTable) : List (String × Location) :=
  t.entries.filterMap fun
    | (name, .label l _) => some (name, l)
    | _ => none

/-- How many symbols the table holds. -/
def size (t : SymbolTable) : Nat := t.entries.length

/-- How many symbols of the table are not among `names`. -/
def others (t : SymbolTable) (names : List String) : Nat :=
  (t.entries.filter fun e => e.1 ∉ names).length

theorem mem_of_find? {t : SymbolTable} {name : String} {s : Symbol} (h : t.find? name = some s) :
    ∃ e ∈ t.entries, e.1 = name := by
  unfold find? at h
  generalize t.entries = es at h
  induction es with
  | nil => simp at h
  | cons e es ih =>
    obtain ⟨k, v⟩ := e
    rw [List.lookup_cons] at h
    by_cases hk : name = k
    · exact ⟨(k, v), by simp, hk.symm⟩
    · rw [beq_eq_false_iff_ne.mpr hk] at h
      obtain ⟨e, he, hn⟩ := ih h
      exact ⟨e, by simp [he], hn⟩

theorem others_cons_lt {t : SymbolTable} {names : List String} {name : String} {s : Symbol}
    (h : t.find? name = some s) (hn : name ∉ names) : t.others (name :: names) < t.others names := by
  obtain ⟨e, he, rfl⟩ := mem_of_find? h
  have hsplit : (t.entries.filter fun x => x.1 ∉ e.1 :: names) =
      (t.entries.filter fun x => x.1 ∉ names).filter fun x => x.1 ≠ e.1 := by
    rw [List.filter_filter]
    congr 1
    funext x
    simp
  unfold others
  rw [hsplit]
  exact List.length_filter_lt_length_iff_exists.mpr ⟨e, by simp [he, hn], by simp⟩

end SymbolTable

end SpanLayout
