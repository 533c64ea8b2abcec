import Mathlib.Data.ZMod.Basic
import Mathlib.Logic.Relation
import SpanLayout.Expr.Expand
import SpanLayout.Proofs.Expr.Meaning

/-!
# What symbols stand for

Names that are defined in terms of names make up a graph. Expanding an expression follows its paths, and fails if and
only if one of them leads to a cycle. If it succeeds, what it leaves mentions no symbol of the table and has the value
that the expression had. -/

namespace SpanLayout

open Relation

/-! ## Steps that can fail -/

theorem forM_eq_ok {ε α : Type} {g : α → Except ε Unit} {l : List α} :
    forM l g = .ok () ↔ ∀ x ∈ l, g x = .ok () := by
  induction l with
  | nil => simp [pure, Except.pure]
  | cons x l ih =>
    rw [List.forM_cons, List.forall_mem_cons, ← ih]
    cases hx : g x <;> simp [bind, Except.bind]

theorem exists_of_forM_eq_error {ε α : Type} {g : α → Except ε Unit} {l : List α} {e : ε} (h : forM l g = .error e) :
    ∃ x ∈ l, g x = .error e := by
  induction l with
  | nil => cases h
  | cons x l ih =>
    rw [List.forM_cons] at h
    cases hx : g x with
    | error e' =>
      rw [hx] at h
      exact ⟨x, List.mem_cons_self, hx.trans h⟩
    | ok _ =>
      rw [hx] at h
      obtain ⟨y, hy, hgy⟩ := ih h
      exact ⟨y, List.mem_cons_of_mem x hy, hgy⟩

namespace Expr

/-! ## Symbols -/

mutual

/-- The symbols that occur in an expression. -/
def syms : Expr → List String
  | .sym s => [s]
  | .neg e => e.syms
  | .sum ts => symsAll ts
  | .mul a b => a.syms ++ b.syms
  | .const _ | .loc _ | .slot _ => []

/-- The symbols that occur in the terms of a sum. -/
def symsAll : List Expr → List String
  | [] => []
  | t :: ts => t.syms ++ symsAll ts

end

mutual

/-- Puts an expression in the place of every symbol. -/
def bindSyms (g : String → Expr) : Expr → Expr
  | .sym s => g s
  | .neg e => .neg (e.bindSyms g)
  | .sum ts => .sum (bindAll g ts)
  | .mul a b => .mul (a.bindSyms g) (b.bindSyms g)
  | .const v => .const v
  | .loc l => .loc l
  | .slot n => .slot n

/-- Puts an expression in the place of every symbol of every term. -/
def bindAll (g : String → Expr) : List Expr → List Expr
  | [] => []
  | t :: ts => t.bindSyms g :: bindAll g ts

end

section

variable {f : String → Attempt String Expr Unit} {g : String → Expr}

mutual

theorem replaceSyms_result (e : Expr) : (e.replaceSyms f).result = forM e.syms fun s => (f s).result := by
  match e with
  | .const _ | .loc _ | .slot _ => rfl
  | .sym s =>
    rw [replaceSyms, syms, List.forM_cons, List.forM_nil]
    cases (f s).result <;> rfl
  | .neg e => exact replaceSyms_result e
  | .sum ts => exact replaceAll_result ts
  | .mul a b =>
    rw [replaceSyms, syms, List.forM_append, ← replaceSyms_result a, ← replaceSyms_result b]
    split
    · rename_i ha
      rw [ha]
      rfl
    · rename_i ha
      rw [ha]
      rfl

theorem replaceAll_result (ts : List Expr) : (replaceAll f ts).result = forM (symsAll ts) fun s => (f s).result := by
  match ts with
  | [] => rfl
  | t :: ts =>
    rw [replaceAll, symsAll, List.forM_append, ← replaceSyms_result t, ← replaceAll_result ts]
    split
    · rename_i ht
      rw [ht]
      rfl
    · rename_i ht
      rw [ht]
      rfl

end

mutual

theorem replaceSyms_eq_done (e : Expr) (h : ∀ s ∈ e.syms, f s = .done (g s) ()) :
    e.replaceSyms f = .done (e.bindSyms g) () := by
  match e with
  | .const _ | .loc _ | .slot _ => rfl
  | .sym s => exact h s (by simp [syms])
  | .neg e =>
    rw [replaceSyms, replaceSyms_eq_done e h]
    rfl
  | .sum ts =>
    rw [replaceSyms, replaceAll_eq_done ts h]
    rfl
  | .mul a b =>
    rw [syms, List.forall_mem_append] at h
    rw [replaceSyms, replaceSyms_eq_done a h.1, replaceSyms_eq_done b h.2]
    rfl

theorem replaceAll_eq_done (ts : List Expr) (h : ∀ s ∈ symsAll ts, f s = .done (g s) ()) :
    replaceAll f ts = .done (bindAll g ts) () := by
  match ts with
  | [] => rfl
  | t :: ts =>
    rw [symsAll, List.forall_mem_append] at h
    rw [replaceAll, replaceSyms_eq_done t h.1, replaceAll_eq_done ts h.2]
    rfl

end

mutual

theorem mem_syms_bindSyms {s : String} (e : Expr) : s ∈ (e.bindSyms g).syms ↔ ∃ r ∈ e.syms, s ∈ (g r).syms := by
  match e with
  | .const _ | .loc _ | .slot _ => simp [bindSyms, syms]
  | .sym r => simp [bindSyms, syms]
  | .neg e => exact mem_syms_bindSyms e
  | .sum ts => exact mem_symsAll_bindAll ts
  | .mul a b =>
    rw [bindSyms, syms, syms, List.mem_append, mem_syms_bindSyms a, mem_syms_bindSyms b]
    simp only [List.mem_append, or_and_right, exists_or]

theorem mem_symsAll_bindAll {s : String} (ts : List Expr) :
    s ∈ symsAll (bindAll g ts) ↔ ∃ r ∈ symsAll ts, s ∈ (g r).syms := by
  match ts with
  | [] => simp [bindAll, symsAll]
  | t :: ts =>
    rw [bindAll, symsAll, symsAll, List.mem_append, mem_syms_bindSyms t, mem_symsAll_bindAll ts]
    simp only [List.mem_append, or_and_right, exists_or]

end

mutual

theorem bindSyms_of_fixed (e : Expr) (h : ∀ s ∈ e.syms, g s = .sym s) : e.bindSyms g = e := by
  match e with
  | .const _ | .loc _ | .slot _ => rfl
  | .sym s => exact h s (by simp [syms])
  | .neg e => rw [bindSyms, bindSyms_of_fixed e h]
  | .sum ts => rw [bindSyms, bindAll_of_fixed ts h]
  | .mul a b =>
    rw [syms, List.forall_mem_append] at h
    rw [bindSyms, bindSyms_of_fixed a h.1, bindSyms_of_fixed b h.2]

theorem bindAll_of_fixed (ts : List Expr) (h : ∀ s ∈ symsAll ts, g s = .sym s) : bindAll g ts = ts := by
  match ts with
  | [] => rfl
  | t :: ts =>
    rw [symsAll, List.forall_mem_append] at h
    rw [bindAll, bindSyms_of_fixed t h.1, bindAll_of_fixed ts h.2]

end

variable {R : Type} [CommRing R] {ρ : Valuation R}

mutual

theorem value_bindSyms (e : Expr) (h : ∀ s ∈ e.syms, (g s).value ρ = ρ.sym s) : (e.bindSyms g).value ρ = e.value ρ := by
  match e with
  | .const _ | .loc _ | .slot _ => rfl
  | .sym s => exact h s (by simp [syms])
  | .neg e => rw [bindSyms, value, value, value_bindSyms e h]
  | .sum ts => rw [bindSyms, value, value, total_bindAll ts h]
  | .mul a b =>
    rw [syms, List.forall_mem_append] at h
    rw [bindSyms, value, value, value_bindSyms a h.1, value_bindSyms b h.2]

theorem total_bindAll (ts : List Expr) (h : ∀ s ∈ symsAll ts, (g s).value ρ = ρ.sym s) :
    total ρ (bindAll g ts) = total ρ ts := by
  match ts with
  | [] => rfl
  | t :: ts =>
    rw [symsAll, List.forall_mem_append] at h
    rw [bindAll, total_cons, total_cons, value_bindSyms t h.1, total_bindAll ts h.2]

end

end

end Expr

/-! ## Definitions as a graph -/

/-- The name `a` is defined in terms of `b`. -/
def SymbolTable.Uses (table : SymbolTable) (a b : String) : Prop :=
  ∃ d pos, table.find? a = some (.definition d pos) ∧ b ∈ d.syms

/-- The definition of a name leads back to the name. -/
def SymbolTable.Cyclic (table : SymbolTable) (name : String) : Prop := TransGen table.Uses name name

/-- The symbol has the value that the table gives it: a label that of its location, a defined name that of its
definition. -/
def SymbolTable.Respected {R : Type} [CommRing R] (table : SymbolTable) (ρ : Valuation R) (name : String) : Prop :=
  (∀ l pos, table.find? name = some (.label l pos) → ρ.sym name = ρ.loc l) ∧
    ∀ d pos, table.find? name = some (.definition d pos) → ρ.sym name = d.value ρ

namespace Expr

variable {table : SymbolTable}

/-- The expression mentions the name, or a name that is defined in terms of it. -/
def Reaches (table : SymbolTable) (e : Expr) (name : String) : Prop := ∃ s ∈ e.syms, ReflTransGen table.Uses s name

theorem reaches_of_mem {e : Expr} {s : String} (h : s ∈ e.syms) : e.Reaches table s := ⟨s, h, .refl⟩

theorem reaches_of_definition {e d : Expr} {s name : String} {pos : SourcePos} (hs : s ∈ e.syms)
    (hd : table.find? s = some (.definition d pos)) (h : d.Reaches table name) :
    e.Reaches table name ∧ TransGen table.Uses s name := by
  obtain ⟨r, hr, hpath⟩ := h
  have huse : table.Uses s r := ⟨d, pos, hd, hr⟩
  exact ⟨⟨s, hs, .head huse hpath⟩, .head' huse hpath⟩

/-! ## Expanding names -/

/-- What is put in the place of a symbol inside the definitions of the names in `active`. -/
def expandName (table : SymbolTable) (active : List String) (name : String) : Attempt String Expr Unit :=
  match table.find? name with
  | none => .done (.sym name) ()
  | some (.label l _) => .done (.loc l) ()
  | some (.definition d _) =>
    if name ∈ active then .fail (.sym name) name
    else
      match expandWithin table (name :: active) d with
      | ⟨d, .ok _⟩ => .done d ()
      | ⟨_, .error name'⟩ => .fail (.sym name) name'

theorem expandWithin_eq (active : List String) (e : Expr) :
    expandWithin table active e = e.replaceSyms (expandName table active) := by
  rw [expandWithin]
  congr 1
  funext name
  unfold expandName
  split <;> rename_i h <;> simp only [h]
  rfl

/-- The ways in which a symbol can be expanded. -/
inductive ExpandsName (table : SymbolTable) (active : List String) (name : String) : Attempt String Expr Unit → Prop
  | external (h : table.find? name = none) : ExpandsName table active name (.done (.sym name) ())
  | label {l : Location} {pos : SourcePos} (h : table.find? name = some (.label l pos)) :
    ExpandsName table active name (.done (.loc l) ())
  | repeated {d : Expr} {pos : SourcePos} (h : table.find? name = some (.definition d pos)) (hn : name ∈ active) :
    ExpandsName table active name (.fail (.sym name) name)
  | defined {d : Expr} {pos : SourcePos} (h : table.find? name = some (.definition d pos)) (hn : name ∉ active)
    (hd : (expandWithin table (name :: active) d).result = .ok ()) :
    ExpandsName table active name (.done (expandWithin table (name :: active) d).state ())
  | failed {d : Expr} {pos : SourcePos} {name' : String} (h : table.find? name = some (.definition d pos))
    (hn : name ∉ active) (hd : (expandWithin table (name :: active) d).result = .error name') :
    ExpandsName table active name (.fail (.sym name) name')

theorem expandsName (table : SymbolTable) (active : List String) (name : String) :
    ExpandsName table active name (expandName table active name) := by
  unfold expandName
  split
  · exact .external ‹_›
  · exact .label ‹_›
  · rename_i h
    split
    · exact .repeated h ‹_›
    · split
      · rename_i hd
        have := ExpandsName.defined h ‹_› (by rw [hd])
        rwa [hd] at this
      · rename_i hd
        exact .failed h ‹_› (by rw [hd])

/-- To show something of all expressions, inside whatever definitions, it may be taken to hold of the definitions that
are expanded next: there are fewer of them left. -/
theorem expand_induction (table : SymbolTable) {P : List String → Expr → Prop}
    (step : ∀ active e, (∀ s ∈ e.syms, ∀ d pos, table.find? s = some (.definition d pos) → s ∉ active →
      P (s :: active) d) → P active e) (active : List String) (e : Expr) : P active e := by
  induction hn : table.others active using Nat.strong_induction_on generalizing active e with
  | _ n ih =>
    subst hn
    exact step active e fun s _ d pos hd hs => ih _ (SymbolTable.others_cons_lt hd hs) _ _ rfl

theorem expandName_error {active : List String} {s name : String}
    (h : (expandName table active s).result = .error name) : ∃ d pos, table.find? s = some (.definition d pos) ∧
      (s ∈ active ∧ name = s ∨ s ∉ active ∧ (expandWithin table (s :: active) d).result = .error name) := by
  have hcases := expandsName table active s
  generalize expandName table active s = x at h hcases
  cases hcases with
  | external | label | defined => cases h
  | repeated hd hs =>
    cases h
    exact ⟨_, _, hd, .inl ⟨hs, rfl⟩⟩
  | failed hd hs hfail =>
    cases h
    exact ⟨_, _, hd, .inr ⟨hs, hfail⟩⟩

theorem expandName_ok {active : List String} {s : String} (h : (expandName table active s).result = .ok ()) {d : Expr}
    {pos : SourcePos} (hd : table.find? s = some (.definition d pos)) :
    s ∉ active ∧ (expandWithin table (s :: active) d).result = .ok () := by
  have hcases := expandsName table active s
  generalize expandName table active s = x at h hcases
  cases hcases with
  | external hd' | label hd' =>
    rw [hd] at hd'
    cases hd'
  | repeated | failed => cases h
  | defined hd' hs hok =>
    rw [hd] at hd'
    cases hd'
    exact ⟨hs, hok⟩

/-! ## Failing -/

theorem expandWithin_error (active : List String) (e : Expr) :
    ∀ name, (expandWithin table active e).result = .error name →
      e.Reaches table name ∧ (name ∈ active ∨ table.Cyclic name) := by
  induction active, e using expand_induction table with
  | step active e ih =>
    intro name h
    rw [expandWithin_eq, replaceSyms_result] at h
    obtain ⟨s, hs, hfail⟩ := exists_of_forM_eq_error h
    obtain ⟨d, pos, hd, ⟨hactive, rfl⟩ | ⟨hactive, hfail⟩⟩ := expandName_error hfail
    · exact ⟨reaches_of_mem hs, .inl hactive⟩
    · obtain ⟨hreach, hname⟩ := ih s hs d pos hd hactive name hfail
      obtain ⟨hreach, hpath⟩ := reaches_of_definition hs hd hreach
      refine ⟨hreach, ?_⟩
      rcases hname with hname | hname
      · -- The definition leads back to its own name, or to one around it.
        rcases List.mem_cons.1 hname with rfl | hname
        · exact .inr hpath
        · exact .inl hname
      · exact .inr hname

/-- If expanding succeeds, no chain of definitions goes on for ever. -/
theorem acc_of_expandWithin (active : List String) (e : Expr) :
    (expandWithin table active e).result = .ok () → ∀ s ∈ e.syms, Acc (Function.swap table.Uses) s := by
  induction active, e using expand_induction table with
  | step active e ih =>
    intro h s hs
    rw [expandWithin_eq, replaceSyms_result, forM_eq_ok] at h
    refine Acc.intro s ?_
    rintro r ⟨d, pos, hd, hr⟩
    obtain ⟨hactive, hok⟩ := expandName_ok (h s hs) hd
    exact ih s hs d pos hd hactive hok r hr

theorem not_cyclic_of_acc {s name : String} (h : Acc (Function.swap table.Uses) s)
    (hpath : ReflTransGen table.Uses s name) : ¬ table.Cyclic name := by
  induction h with
  | intro s _ ih =>
    rcases ReflTransGen.cases_head hpath with rfl | ⟨r, huse, hrest⟩
    · -- The first step of the cycle already goes down.
      intro hcycle
      obtain ⟨r, huse, hback⟩ := TransGen.head'_iff.1 hcycle
      exact ih r huse hback hcycle
    · exact ih r huse hrest

theorem cyclic_of_expand_error {e : Expr} {name : String} (h : (e.expand table).result = .error name) :
    e.Reaches table name ∧ table.Cyclic name := by
  obtain ⟨hreach, hname⟩ := expandWithin_error [] e name h
  exact ⟨hreach, hname.resolve_left List.not_mem_nil⟩

/-- Expanding fails exactly if it comes to a cycle of definitions. -/
theorem expand_error_iff {e : Expr} :
    (∃ name, (e.expand table).result = .error name) ↔ ∃ name, e.Reaches table name ∧ table.Cyclic name := by
  constructor
  · rintro ⟨name, h⟩
    exact ⟨name, cyclic_of_expand_error h⟩
  · rintro ⟨name, ⟨s, hs, hpath⟩, hcycle⟩
    cases h : (e.expand table).result with
    | error name => exact ⟨name, rfl⟩
    | ok _ => exact absurd hcycle (not_cyclic_of_acc (acc_of_expandWithin [] e h s hs) hpath)

/-! ## Succeeding -/

theorem expandWithin_eq_done {active : List String} {e : Expr} (h : (expandWithin table active e).result = .ok ()) :
    expandWithin table active e = .done (e.bindSyms fun s => (expandName table active s).state) () := by
  rw [expandWithin_eq, replaceSyms_result, forM_eq_ok] at h
  rw [expandWithin_eq]
  refine replaceSyms_eq_done e fun s hs => ?_
  rw [Attempt.done, ← h s hs]

theorem find?_of_mem_expandWithin (active : List String) (e : Expr) :
    (expandWithin table active e).result = .ok () → ∀ s ∈ (expandWithin table active e).state.syms, table.find? s =
    none := by
  induction active, e using expand_induction table with
  | step active e ih =>
    intro h r hr
    rw [expandWithin_eq_done h] at hr
    rw [expandWithin_eq, replaceSyms_result, forM_eq_ok] at h
    obtain ⟨s, hs, hrs⟩ := (mem_syms_bindSyms e).1 hr
    have hok := h s hs
    have hcases := expandsName table active s
    generalize expandName table active s = x at hok hrs hcases
    cases hcases with
    | external hnone =>
      rw [List.mem_singleton.1 hrs]
      exact hnone
    | label => cases hrs
    | repeated | failed => cases hok
    | defined hd hactive hdef => exact ih s hs _ _ hd hactive hdef r hrs

section

variable {R : Type} [CommRing R] {ρ : Valuation R}

/-- Expanding keeps the value, if the symbols that it comes to have the values that the table gives them. -/
theorem value_expandWithin (active : List String) (e : Expr) :
    (expandWithin table active e).result = .ok () → (∀ s, e.Reaches table s → table.Respected ρ s) →
      (expandWithin table active e).state.value ρ = e.value ρ := by
  induction active, e using expand_induction table with
  | step active e ih =>
    intro h hρ
    rw [expandWithin_eq_done h]
    rw [expandWithin_eq, replaceSyms_result, forM_eq_ok] at h
    refine value_bindSyms e fun s hs => ?_
    have hok := h s hs
    obtain ⟨hlabel, hdefinition⟩ := hρ s (reaches_of_mem hs)
    have hcases := expandsName table active s
    generalize expandName table active s = x at hok hcases ⊢
    cases hcases with
    | external => rfl
    | label hl => exact (hlabel _ _ hl).symm
    | repeated | failed => cases hok
    | defined hd hactive hdef =>
      rw [hdefinition _ _ hd]
      exact ih s hs _ _ hd hactive hdef fun r hr => hρ r (reaches_of_definition hs hd hr).1

end

theorem expand_of_external {e : Expr} (h : ∀ s ∈ e.syms, table.find? s = none) : e.expand table = .done e () := by
  have hname : ∀ s ∈ e.syms, expandName table [] s = .done (.sym s) () := by
    intro s hs
    unfold expandName
    rw [h s hs]
  rw [expand, expandWithin_eq, replaceSyms_eq_done e hname, bindSyms_of_fixed e fun s _ => rfl]

/-- Expanding fails if and only if it comes to a cycle of definitions, and tells a name on it. Otherwise it leaves no
symbol of the table, keeps the value modulo `2 ^ 64` under every assignment that follows the table, and changes nothing
if it is done again. -/
theorem expand_follows_definitions (table : SymbolTable) (e : Expr) :
    ((∃ name, (e.expand table).result = .error name) ↔ ∃ name, e.Reaches table name ∧ table.Cyclic name) ∧
      (∀ name, (e.expand table).result = .error name → e.Reaches table name ∧ table.Cyclic name) ∧
      ((e.expand table).result = .ok () →
        (∀ s ∈ (e.expand table).state.syms, table.find? s = none) ∧
          (∀ ρ : Valuation (ZMod (2 ^ 64)), (∀ s, e.Reaches table s → table.Respected ρ s) →
            (e.expand table).state.value ρ = e.value ρ) ∧
          (e.expand table).state.expand table = .done (e.expand table).state ()) := by
  refine ⟨expand_error_iff, fun name => cyclic_of_expand_error, fun h => ?_⟩
  have hexternal := find?_of_mem_expandWithin [] e h
  exact ⟨hexternal, fun ρ => value_expandWithin [] e h, expand_of_external hexternal⟩

/-- Two names share a definition, which mentions a label and a symbol from elsewhere; two others are defined by each
other. -/
def sharedNames : SymbolTable :=
  ⟨[("down", .definition (.neg (.sym "size")) .unknown), ("ping", .definition (.neg (.sym "pong")) .unknown),
    ("pong", .definition (.neg (.sym "ping")) .unknown),
    ("size", .definition (.sum [.sym "start", .sym "printf"]) .unknown), ("start", .label ⟨⟨0, 1⟩, 4⟩ .unknown),
    ("twice", .definition (.mul (.const 2) (.sym "size")) .unknown)]⟩

/-- Values that follow the definitions. -/
def sharedValues : Valuation (ZMod (2 ^ 64)) where
  sym s :=
    if s = "down" then -7 else if s = "ping" then 1 else if s = "pong" then -1 else if s = "size" then 7
    else if s = "start" then 4 else if s = "twice" then 14 else 3
  loc _ := 4
  slot _ := 0

theorem respected_sharedValues (name : String) : sharedNames.Respected sharedValues name := by
  have hmem {s : Symbol} (h : sharedNames.find? name = some s) : (name, s) ∈ sharedNames.entries := by
    obtain ⟨before, after, hsplit, -⟩ := List.lookup_eq_some_iff.1 h
    rw [hsplit]
    simp
  constructor
  · intro l pos h
    have hentry := hmem h
    simp only [sharedNames, List.mem_cons, Prod.mk.injEq, reduceCtorEq, Symbol.label.injEq, List.not_mem_nil, or_false,
      and_false, false_or] at hentry
    obtain ⟨rfl, -⟩ := hentry
    rfl
  · intro d pos h
    have hentry := hmem h
    simp only [sharedNames, List.mem_cons, Prod.mk.injEq, reduceCtorEq, Symbol.definition.injEq, List.not_mem_nil,
      or_false, and_false, false_or] at hentry
    rcases hentry with ⟨rfl, rfl, -⟩ | ⟨rfl, rfl, -⟩ | ⟨rfl, rfl, -⟩ | ⟨rfl, rfl, -⟩ | ⟨rfl, rfl, -⟩ <;> decide

theorem expand_follows_definitions_sharedNames :
    let shared := Expr.sum [.sym "twice", .sym "down"]
    let circular := Expr.sum [.sym "twice", .sym "pong"]
    (shared.expand sharedNames).result = .ok () ∧
      (shared.expand sharedNames).state.value sharedValues = shared.value sharedValues ∧
      (circular.expand sharedNames).result = .error "pong" ∧ sharedNames.Cyclic "pong" := by
  intro shared circular
  have hok : (shared.expand sharedNames).result = .ok () := by
    simp [shared, expand, expandWithin, replaceSyms, replaceAll, sharedNames, SymbolTable.find?, List.lookup_cons,
      Attempt.done, Attempt.mapState]
  have hfail : (circular.expand sharedNames).result = .error "pong" := by
    simp [circular, expand, expandWithin, replaceSyms, replaceAll, sharedNames, SymbolTable.find?, List.lookup_cons,
      Attempt.done, Attempt.fail, Attempt.mapState]
  obtain ⟨-, hvalue, -⟩ := (expand_follows_definitions sharedNames shared).2.2 hok
  obtain ⟨-, hcyclic⟩ := (expand_follows_definitions sharedNames circular).2.1 "pong" hfail
  exact ⟨hok, hvalue sharedValues fun s _ => respected_sharedValues s, hfail, hcyclic⟩

end Expr

end SpanLayout
