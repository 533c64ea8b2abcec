import SpanLayout.Proofs.Expr.Definitions
import SpanLayout.Proofs.Expr.Simplify
import SpanLayout.Proofs.Refinalize

/-!
# The symbol from elsewhere

Finalizing takes the symbol that is known elsewhere out of an expression. It can do so if no other symbol is left once
the definitions have been followed, and this one is a term of its own; then the symbol and what remains add up to the
value that the expression had. -/

namespace SpanLayout

open Value (bareSym?)

/-! ## Terms that are symbols -/

namespace Expr

mutual

theorem mentionsSym_eq_false_iff (e : Expr) : e.mentionsSym = false ↔ e.syms = [] := by
  match e with
  | .const _ | .loc _ | .slot _ | .sym _ => simp [mentionsSym, syms]
  | .neg e => exact mentionsSym_eq_false_iff e
  | .sum ts => exact anyMentionsSym_eq_false_iff ts
  | .mul a b =>
    rw [mentionsSym, syms, Bool.or_eq_false_iff, List.append_eq_nil_iff, mentionsSym_eq_false_iff a,
      mentionsSym_eq_false_iff b]

theorem anyMentionsSym_eq_false_iff (ts : List Expr) : anyMentionsSym ts = false ↔ symsAll ts = [] := by
  match ts with
  | [] => simp [anyMentionsSym, symsAll]
  | t :: ts =>
    rw [anyMentionsSym, symsAll, Bool.or_eq_false_iff, List.append_eq_nil_iff, mentionsSym_eq_false_iff t,
      anyMentionsSym_eq_false_iff ts]

end

theorem any_mentionsSym_eq_false {ts : List Expr} : ts.any mentionsSym = false ↔ symsAll ts = [] := by
  rw [← anyMentionsSym_eq_false_iff, anyMentionsSym_eq_false, List.any_eq_false]
  simp

theorem symsAll_addends (e : Expr) : symsAll e.addends = e.syms := by
  cases e with
  | sum ts => rfl
  | const _ | sym _ | loc _ | slot _ | neg _ | mul _ _ => exact List.append_nil _

theorem bareSym?_eq_some {t : Expr} {name : String} : bareSym? t = some name ↔ t = .sym name := by
  cases t with
  | sym s => simp [bareSym?]
  | const _ | loc _ | slot _ | neg _ | sum _ | mul _ _ => simp [bareSym?]

theorem symsAll_perm (ts : List Expr) :
    (symsAll ts).Perm (ts.filterMap bareSym? ++ symsAll (ts.filter fun t => (bareSym? t).isNone)) := by
  induction ts with
  | nil => exact .nil
  | cons t ts ih =>
    cases hbare : bareSym? t with
    | some name =>
      rw [List.filterMap_cons_some hbare, List.filter_cons_of_neg (by simp [hbare]), bareSym?_eq_some.1 hbare]
      exact ih.cons name
    | none =>
      rw [List.filterMap_cons_none hbare, List.filter_cons_of_pos (by simp [hbare]), symsAll, symsAll]
      exact (ih.append_left t.syms).trans (List.perm_append_comm_assoc _ _ _)

theorem total_bareSyms {R : Type} [CommRing R] (ρ : Valuation R) (ts : List Expr) :
    total ρ ts =
      total ρ (ts.filter fun t => (bareSym? t).isNone) + ((ts.filterMap bareSym?).map ρ.sym).sum := by
  induction ts with
  | nil => simp
  | cons t ts ih =>
    cases hbare : bareSym? t with
    | some name =>
      rw [List.filterMap_cons_some hbare, List.filter_cons_of_neg (by simp [hbare]), bareSym?_eq_some.1 hbare,
        total_cons, ih, value, List.map_cons, List.sum_cons]
      ring
    | none =>
      rw [List.filterMap_cons_none hbare, List.filter_cons_of_pos (by simp [hbare]), total_cons, total_cons, ih,
        add_assoc]

/-! ## Splitting -/

/-- The expression mentions no symbol but `external`, and this one only once, as a term of its own. -/
def SplitsOff (e : Expr) (external : Option String) : Prop :=
  e.syms = external.toList ∧ ∀ name ∈ external, .sym name ∈ e.addends

theorem splitsOff_iff {e : Expr} {external : Option String} :
    e.SplitsOff external ↔
      e.addends.filterMap bareSym? = external.toList ∧
        (e.addends.filter fun t => (bareSym? t).isNone).any mentionsSym = false := by
  have hperm := symsAll_perm e.addends
  rw [symsAll_addends] at hperm
  rw [any_mentionsSym_eq_false]
  constructor
  · rintro ⟨hsyms, hterm⟩
    rw [hsyms] at hperm
    cases external with
    | none => exact List.append_eq_nil_iff.1 hperm.nil_eq.symm
    | some name =>
      rcases List.append_eq_singleton_iff.1 (List.perm_singleton.1 hperm.symm) with ⟨hnil, -⟩ | h
      · -- The only occurrence is the term, so it cannot lie inside another one.
        have hmem : name ∈ e.addends.filterMap bareSym? := List.mem_filterMap.2 ⟨_, hterm name rfl, rfl⟩
        rw [hnil] at hmem
        cases hmem
      · exact h
  · rintro ⟨hbare, hrest⟩
    rw [hbare, hrest, List.append_nil] at hperm
    constructor
    · cases external with
      | none => exact hperm.eq_nil
      | some name => exact List.perm_singleton.1 hperm
    · intro name hname
      have hmem : name ∈ e.addends.filterMap bareSym? := by
        rw [hbare]
        exact Option.mem_toList.2 hname
      obtain ⟨t, ht, htname⟩ := List.mem_filterMap.1 hmem
      exact bareSym?_eq_some.1 htname ▸ ht

theorem SplitsOff.value_eq {e : Expr} {external : Option String} (h : e.SplitsOff external) {R : Type} [CommRing R]
    (ρ : Valuation R) :
    e.value ρ = total ρ (e.addends.filter fun t => (bareSym? t).isNone) + external.elim 0 ρ.sym := by
  rw [← total_addends, total_bareSyms, (splitsOff_iff.1 h).1]
  cases external <;> simp

theorem exists_splitsOff_iff {e : Expr} :
    (∃ external, e.SplitsOff external) ↔
      (e.addends.filterMap bareSym?).length ≤ 1 ∧
        (e.addends.filter fun t => (bareSym? t).isNone).any mentionsSym = false := by
  simp only [splitsOff_iff, exists_and_right]
  refine and_congr_left fun _ => ?_
  constructor
  · rintro ⟨external, h⟩
    rw [h]
    cases external <;> simp
  · intro h
    rcases hbare : e.addends.filterMap bareSym? with _ | ⟨name, _ | ⟨other, names⟩⟩
    · exact ⟨none, rfl⟩
    · exact ⟨some name, rfl⟩
    · simp [hbare] at h

theorem expand_eq_done {table : SymbolTable} {e : Expr} (hok : (e.expand table).result = .ok ()) :
    e.expand table = .done (e.expand table).state () := by
  rw [Attempt.done, ← hok]

end Expr

/-! ## Finalizing -/

namespace Value

/-- The expression for the part that is known here. -/
def absolute (v : Value) : Expr := v.abs.getD (.const 0)

variable {table : SymbolTable} {v v' : Value} {e e' : Expr}

theorem absolute_of_some (h : v.abs = some e) : v.absolute = e := by
  rw [absolute, h, Option.getD_some]

theorem finalize_of_none (h : v.abs = none) (pos : SourcePos) : v.finalize table pos = .done v () := by
  unfold finalize
  rw [h]

theorem syms_of_finalize {pos : SourcePos} (h : v.finalize table pos = .done v' ()) : v'.absolute.syms = [] := by
  cases hx : v'.abs with
  | none =>
    rw [absolute, hx]
    rfl
  | some x =>
    rw [absolute_of_some hx, ← Expr.mentionsSym_eq_false_iff]
    exact (normal_of_finalize h hx).2

/-- If there is no symbol from elsewhere yet, the terms can be told apart exactly if the expression splits one off. -/
theorem splits_iff (hrel : v.rel = none) :
    ¬ (1 < (e.addends.filterMap bareSym?).length + (if v.isRelative then 1 else 0) ∨
      (e.addends.filter fun t => (bareSym? t).isNone).any Expr.mentionsSym = true) ↔
      ∃ external, e.SplitsOff external := by
  rw [Expr.exists_splitsOff_iff, isRelative, hrel]
  simp

theorem splitsOff_of_finalize {pos : SourcePos} (hrel : v.rel = none) (h : v.finalize table pos = .done v' ()) :
    (v.absolute.expand table).state.simplify.SplitsOff v'.rel := by
  rcases finalize_cases table h with ⟨hnone, rfl⟩ | ⟨e, e', ha, he, hc, rfl⟩
  · rw [absolute, hnone, hrel, Option.getD_none, Expr.expand_of_not_mentionsSym table rfl]
    exact ⟨rfl, by simp⟩
  · rw [absolute_of_some ha, he]
    obtain ⟨external, hsplit⟩ := (splits_iff hrel).1 hc
    have hlast : (e'.simplify.addends.filterMap bareSym?).getLast?.or v.rel = external := by
      rw [(Expr.splitsOff_iff.1 hsplit).1, hrel, Option.or_none]
      cases external <;> rfl
    exact hlast.symm ▸ hsplit

theorem value_of_finalize {R : Type} [CommRing R] (h64 : ((2 ^ 64 : Nat) : R) = 0) {pos : SourcePos}
    (hrel : v.rel = none) (h : v.finalize table pos = .done v' ()) {ρ : Valuation R}
    (hρ : ∀ name, v.absolute.Reaches table name → table.Respected ρ name) :
    v.absolute.value ρ = v'.absolute.value ρ + v'.rel.elim 0 ρ.sym := by
  have hsplit := splitsOff_of_finalize hrel h
  rcases finalize_cases table h with ⟨hnone, rfl⟩ | ⟨e, e', ha, he, -, rfl⟩
  · rw [hrel, Option.elim_none, add_zero]
  · rw [absolute_of_some ha] at hsplit hρ ⊢
    have hexpand : e'.value ρ = e.value ρ := by
      have := Expr.value_expandWithin [] e (congrArg Attempt.result he) hρ
      rwa [show Expr.expandWithin table [] e = .done e' () from he] at this
    rw [he] at hsplit
    calc e.value ρ = e'.simplify.value ρ := by rw [← hexpand, Expr.value_simplify h64 ρ e']
      _ = Expr.total ρ (e'.simplify.addends.filter fun t => (bareSym? t).isNone) + _ := hsplit.value_eq ρ
      _ = _ := congrArg (· + _) (Expr.value_simplify h64 ρ (.sum _)).symm

theorem frame_of_finalize {pos : SourcePos} (h : v.finalize table pos = .done v' ()) :
    v'.size = v.size ∧ v'.isSigned = v.isSigned := by
  rcases finalize_cases table h with ⟨-, rfl⟩ | ⟨e, e', -, -, -, rfl⟩ <;> exact ⟨rfl, rfl⟩

theorem exists_finalize (hok : (v.absolute.expand table).result = .ok ()) (hrel : v.rel = none)
    (h : ∃ external, (v.absolute.expand table).state.simplify.SplitsOff external) (pos : SourcePos) :
    ∃ v', v.finalize table pos = .done v' () := by
  cases ha : v.abs with
  | none => exact ⟨v, finalize_of_none ha pos⟩
  | some e =>
    rw [absolute_of_some ha] at hok h
    exact ⟨_, finalize_of_expand table ha (Expr.expand_eq_done hok) ((splits_iff hrel).2 h) pos⟩

theorem finalize_of_not_splitsOff (hok : (v.absolute.expand table).result = .ok ()) (hrel : v.rel = none)
    (h : ¬ ∃ external, (v.absolute.expand table).state.simplify.SplitsOff external) (pos : SourcePos) :
    v.finalize table pos =
      .fail { v with abs := none } (Cause.tooComplex "reference to more than one external symbol" pos) := by
  cases ha : v.abs with
  | none => exact absurd ⟨v.rel, splitsOff_of_finalize hrel (finalize_of_none ha pos)⟩ h
  | some e =>
    rw [absolute_of_some ha] at hok h
    unfold finalize
    rw [ha]
    dsimp only
    rw [Expr.expand_eq_done hok]
    exact if_pos (not_not.1 (mt (splits_iff hrel).1 h))

/-- If the definitions that a value comes to are not circular and it has no symbol from elsewhere, finalizing succeeds
if and only if its expression, expanded and simplified, splits off one symbol at most. It leaves that symbol and an
expression without symbols, which add up to the value modulo `2 ^ 64` under every assignment that follows the table, and
it changes nothing if it is done again. -/
theorem finalize_splits (table : SymbolTable) (pos : SourcePos) (v : Value) (hrel : v.rel = none)
    (hacyclic : ∀ name, v.absolute.Reaches table name → ¬ table.Cyclic name) :
    let e := (v.absolute.expand table).state.simplify
    ((v.finalize table pos).result = .ok () ↔ ∃ external, e.SplitsOff external) ∧
      ((¬ ∃ external, e.SplitsOff external) → v.finalize table pos =
        .fail { v with abs := none } (Cause.tooComplex "reference to more than one external symbol" pos)) ∧
      ∀ v', v.finalize table pos = .done v' () →
        v'.absolute.syms = [] ∧ e.SplitsOff v'.rel ∧
          (∀ ρ : Valuation (ZMod (2 ^ 64)), (∀ name, v.absolute.Reaches table name → table.Respected ρ name) →
            v.absolute.value ρ = v'.absolute.value ρ + v'.rel.elim 0 ρ.sym) ∧
          v'.size = v.size ∧ v'.isSigned = v.isSigned ∧ ∀ pos', v'.finalize table pos' = .done v' () := by
  intro e
  have hok : (v.absolute.expand table).result = .ok () := by
    cases hx : (v.absolute.expand table).result with
    | ok _ => rfl
    | error name =>
      obtain ⟨hreach, hcyclic⟩ := Expr.cyclic_of_expand_error hx
      exact absurd hcyclic (hacyclic name hreach)
  have hfail (h : ¬ ∃ external, e.SplitsOff external) := finalize_of_not_splitsOff hok hrel h pos
  refine ⟨⟨fun h => ?_, fun h => ?_⟩, hfail, fun v' h => ?_⟩
  · by_contra hn
    rw [hfail hn] at h
    cases h
  · obtain ⟨v', hv'⟩ := exists_finalize hok hrel h pos
    rw [hv']
    rfl
  · obtain ⟨hsize, hsigned⟩ := frame_of_finalize h
    refine ⟨syms_of_finalize h, splitsOff_of_finalize hrel h, fun ρ hρ => ?_, hsize, hsigned, finalize_again h⟩
    exact value_of_finalize (ZMod.natCast_self (2 ^ 64)) hrel h hρ

open SpanLayout.Expr in
/-- Of three mentions of a symbol from elsewhere two cancel out; one that is negated is left where it is. -/
theorem finalize_splits_sharedNames :
    let v := ofField 32 (.sum [.sym "down", .sym "size", .sym "size", .const 5])
    let w := ofField 32 (.sym "down")
    let v' : Value := ⟨some (.sum [.loc ⟨⟨0, 1⟩, 4⟩, .const 5]), some "printf", 32, false⟩
    v.finalize sharedNames .unknown = .done v' () ∧
      v.absolute.value sharedValues = v'.absolute.value sharedValues + sharedValues.sym "printf" ∧
      v'.finalize sharedNames .unknown = .done v' () ∧
      w.finalize sharedNames .unknown =
        .fail { w with abs := none } (Cause.tooComplex "reference to more than one external symbol" .unknown) := by
  intro v w v'
  have hacyclic {x : Value} (hok : (x.absolute.expand sharedNames).result = .ok ()) :
      ∀ name, x.absolute.Reaches sharedNames name → ¬ sharedNames.Cyclic name := by
    rintro name ⟨s, hs, hpath⟩
    exact not_cyclic_of_acc (acc_of_expandWithin [] _ hok s hs) hpath
  have hv : v.absolute.expand sharedNames = .done (.sum [.neg (.sum [.loc ⟨⟨0, 1⟩, 4⟩, .sym "printf"]),
      .sum [.loc ⟨⟨0, 1⟩, 4⟩, .sym "printf"], .sum [.loc ⟨⟨0, 1⟩, 4⟩, .sym "printf"], .const 5]) () := by
    simp [v, absolute, ofField, expand, expandWithin, replaceSyms, replaceAll, sharedNames, SymbolTable.find?,
      List.lookup_cons, Attempt.done, Attempt.mapState]
  have hw : w.absolute.expand sharedNames = .done (.neg (.sum [.loc ⟨⟨0, 1⟩, 4⟩, .sym "printf"])) () := by
    simp [w, absolute, ofField, expand, expandWithin, replaceSyms, replaceAll, sharedNames, SymbolTable.find?,
      List.lookup_cons, Attempt.done, Attempt.mapState]
  have hdone : v.finalize sharedNames .unknown = .done v' () := by
    rw [finalize_of_expand sharedNames rfl hv (by decide +kernel)]
    refine congrArg (fun x => Attempt.done x ()) ?_
    decide +kernel
  obtain ⟨-, -, hsplits⟩ := finalize_splits sharedNames .unknown v rfl (hacyclic (congrArg Attempt.result hv))
  obtain ⟨-, -, hvalue, -, -, hagain⟩ := hsplits v' hdone
  obtain ⟨-, hfail, -⟩ := finalize_splits sharedNames .unknown w rfl (hacyclic (congrArg Attempt.result hw))
  refine ⟨hdone, hvalue sharedValues fun s _ => respected_sharedValues s, hagain .unknown, hfail ?_⟩
  rw [hw, exists_splitsOff_iff]
  decide +kernel

end Value

end SpanLayout
