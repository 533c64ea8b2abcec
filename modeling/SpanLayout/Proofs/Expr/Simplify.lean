import SpanLayout.Expr.Simplify
import SpanLayout.Proofs.Expr.Meaning

/-!
# Simplifying keeps the meaning

Constants are folded modulo `2 ^ 64`, so the value is kept in every ring in which `2 ^ 64` is zero.
-/

namespace SpanLayout.Expr

variable {R : Type} [CommRing R]

/-! ## Words -/

theorem cast_bmod (h64 : ((2 ^ 64 : Nat) : R) = 0) (x : Int) : ((x.bmod (2 ^ 64) : Int) : R) = x := by
  rw [Int.bmod_eq_self_sub_mul_bdiv, Int.cast_sub, Int.cast_mul, Int.cast_natCast, h64, zero_mul, sub_zero]

theorem cast_add (h64 : ((2 ^ 64 : Nat) : R) = 0) (a b : Int64) :
    ((a + b).toInt : R) = a.toInt + b.toInt := by
  rw [Int64.toInt_add, cast_bmod h64, Int.cast_add]

theorem cast_mul (h64 : ((2 ^ 64 : Nat) : R) = 0) (a b : Int64) :
    ((a * b).toInt : R) = a.toInt * b.toInt := by
  rw [Int64.toInt_mul, cast_bmod h64, Int.cast_mul]

theorem cast_neg (h64 : ((2 ^ 64 : Nat) : R) = 0) (a : Int64) : ((-a).toInt : R) = -a.toInt := by
  rw [Int64.toInt_neg, cast_bmod h64, Int.cast_neg]

/-! ## Sums -/

theorem value_opposite {t o : Expr} (h : t.opposite? = some o) (ρ : Valuation R) : o.value ρ = -t.value ρ := by
  unfold opposite? at h
  split at h <;> simp only [Option.some.injEq, reduceCtorEq] at h <;> subst h <;> simp [value]

theorem total_addTerm (ρ : Valuation R) (ts : List Expr) (t : Expr) :
    total ρ (addTerm ts t) = total ρ ts + t.value ρ := by
  unfold addTerm
  split
  · rename_i o ho
    split
    · rename_i hmem
      rw [total_erase ρ hmem, value_opposite ho]
      ring
    · simp
  · simp

theorem total_cancel (ρ : Valuation R) (ts : List Expr) : total ρ (cancel ts) = total ρ ts := by
  have hfold : ∀ (ts acc : List Expr), total ρ (ts.foldl addTerm acc) = total ρ acc + total ρ ts := by
    intro ts
    induction ts with
    | nil => simp
    | cons t ts ih =>
      intro acc
      rw [List.foldl_cons, ih, total_addTerm, total_cons, add_assoc]
  rw [cancel, hfold, total_nil, zero_add]

theorem total_addends (ρ : Valuation R) (e : Expr) : total ρ e.addends = e.value ρ := by
  unfold addends
  split
  · rw [value]
  · simp

theorem total_flatMap_addends (ρ : Valuation R) (ts : List Expr) :
    total ρ (ts.flatMap addends) = total ρ ts := by
  induction ts with
  | nil => simp
  | cons t ts ih => rw [List.flatMap_cons, total_append, total_cons, total_addends, ih]

theorem value_sumWith (ρ : Valuation R) (ts : List Expr) (c : Int64) :
    (sumWith ts c).value ρ = total ρ ts + c.toInt := by
  have hall : total ρ (if c ≠ 0 ∨ ts = [] then ts ++ [.const c] else ts) = total ρ ts + c.toInt := by
    split
    · simp [value]
    · rename_i h
      simp only [not_or, not_not] at h
      simp [h.1]
  unfold sumWith
  split
  · rename_i t ht
    rw [← hall, ht]
    simp
  · rw [value, hall]

theorem cast_foldl_constantPart (h64 : ((2 ^ 64 : Nat) : R) = 0) (ρ : Valuation R) (ts : List Expr) (c : Int64) :
    ((ts.foldl (· + constantPart ·) c).toInt : R) = c.toInt + total ρ (ts.filter isConst) := by
  induction ts generalizing c with
  | nil => simp
  | cons t ts ih =>
    rw [List.foldl_cons, ih, cast_add h64]
    cases t with
    | const v =>
      rw [List.filter_cons_of_pos (by rfl), total_cons, constantPart, value]
      ring
    | sym _ | loc _ | slot _ | neg _ | sum _ | mul _ _ =>
      rw [List.filter_cons_of_neg (by simp [isConst])]
      simp [constantPart]

theorem value_addAll (h64 : ((2 ^ 64 : Nat) : R) = 0) (ρ : Valuation R) (ts : List Expr) :
    (addAll ts).value ρ = total ρ ts := by
  unfold addAll
  rw [value_sumWith, total_cancel, cast_foldl_constantPart h64 ρ]
  have hsplit := total_filter_add ρ isConst (ts.flatMap addends)
  rw [total_flatMap_addends] at hsplit
  rw [← hsplit]
  simp [add_comm]

/-! ## Negation and products -/

mutual

theorem value_negate (h64 : ((2 ^ 64 : Nat) : R) = 0) (ρ : Valuation R) (e : Expr) :
    e.negate.value ρ = -e.value ρ := by
  match e with
  | .const v => rw [negate, value, value, cast_neg h64]
  | .neg e => rw [negate, value, neg_neg]
  | .sum ts => rw [negate, value_addAll h64, total_negateAll h64, value]
  | .sym _ | .loc _ | .slot _ | .mul _ _ => rfl

theorem total_negateAll (h64 : ((2 ^ 64 : Nat) : R) = 0) (ρ : Valuation R) (ts : List Expr) :
    total ρ (negateAll ts) = -total ρ ts := by
  match ts with
  | [] => simp [negateAll]
  | t :: ts =>
    rw [negateAll, total_cons, total_cons, value_negate h64 ρ t, total_negateAll h64 ρ ts]
    ring

end

theorem value_scale (h64 : ((2 ^ 64 : Nat) : R) = 0) (ρ : Valuation R) (x : Int64) (b : Expr) {other : Expr}
    (ho : other.value ρ = x.toInt * b.value ρ) :
    (if x = 0 then Expr.const 0 else if x = 1 then b else if x = -1 then b.negate else other).value ρ =
      x.toInt * b.value ρ := by
  split
  · rename_i h
    simp [h, value]
  · split
    · rename_i h
      simp [h]
    · split
      · rename_i h
        rw [value_negate h64, h, cast_neg h64]
        simp
      · exact ho

theorem value_multiply (h64 : ((2 ^ 64 : Nat) : R) = 0) (ρ : Valuation R) (a b : Expr) :
    (multiply a b).value ρ = a.value ρ * b.value ρ := by
  unfold multiply
  split
  · rw [value, value, value, cast_mul h64]
  · rw [value_scale h64 ρ _ _ (by rw [value, value]), value]
  · rw [value_scale h64 ρ _ _ (by rw [value, value, mul_comm]), value, mul_comm]
  · rw [value]

/-! ## Simplification -/

mutual

theorem value_simplify (h64 : ((2 ^ 64 : Nat) : R) = 0) (ρ : Valuation R) (e : Expr) :
    e.simplify.value ρ = e.value ρ := by
  match e with
  | .const _ | .sym _ | .loc _ | .slot _ => rfl
  | .neg e => rw [simplify, value_negate h64, value_simplify h64 ρ e, value]
  | .sum ts => rw [simplify, value_addAll h64, total_simplifyAll h64 ρ ts, value]
  | .mul a b => rw [simplify, value_multiply h64, value_simplify h64 ρ a, value_simplify h64 ρ b, value]

theorem total_simplifyAll (h64 : ((2 ^ 64 : Nat) : R) = 0) (ρ : Valuation R) (ts : List Expr) :
    total ρ (simplifyAll ts) = total ρ ts := by
  match ts with
  | [] => rw [simplifyAll]
  | t :: ts => rw [simplifyAll, total_cons, total_cons, value_simplify h64 ρ t, total_simplifyAll h64 ρ ts]

end

end SpanLayout.Expr
