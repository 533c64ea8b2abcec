import Mathlib.Data.ZMod.Basic
import SpanLayout.Proofs.Expr.NormalForm

/-!
# Simplifying and overflow

Simplifying wraps around where evaluation gives up, and it changes the order in which a sum is added up. So an
expression and its normal form can differ in whether they have a value. They cannot have two values: what the normal
form comes to is the exact value modulo `2 ^ 64`. And where no order of adding up can overflow, both have the exact
value. -/

namespace SpanLayout

/-- The locations are worth what `locate` says. -/
def Valuation.ofLocs (locate : Location → Int64) : Valuation Int := ⟨fun _ => 0, fun l => (locate l).toInt, fun _ => 0⟩

/-- The same values in another ring. -/
def Valuation.cast {R : Type} [CommRing R] (ρ : Valuation Int) : Valuation R :=
  ⟨fun s => ρ.sym s, fun l => ρ.loc l, fun n => ρ.slot n⟩

namespace Expr

/-- Every location is known. -/
def Env.ofAllLocs (locate : Location → Int64) : Env := .ofLocs fun l => some (locate l).toInt

/-! ## Magnitudes -/

mutual

/-- What an expression comes to if nothing in it counts as negative. -/
def magnitude (locate : Location → Int64) : Expr → Nat
  | .const v => v.toInt.natAbs
  | .loc l => (locate l).toInt.natAbs
  | .sym _ | .slot _ => 0
  | .neg e => e.magnitude locate
  | .sum ts => magnitudes locate ts
  | .mul a b => a.magnitude locate * b.magnitude locate

/-- What the terms of a sum come to if nothing in them counts as negative. -/
def magnitudes (locate : Location → Int64) : List Expr → Nat
  | [] => 0
  | t :: ts => t.magnitude locate + magnitudes locate ts

end

/-- Whether an expression has a value as far as its root goes. -/
def isKnown : Expr → Bool
  | .sym _ | .slot _ => false
  | .const _ | .loc _ | .neg _ | .sum _ | .mul _ _ => true

/-- The expression is made of constants and locations, and nothing in it can overflow, in whatever order its sums are
added up. -/
def Moderate (locate : Location → Int64) (e : Expr) : Prop :=
  ∀ t ∈ e.parts, t.isKnown = true ∧ (t.magnitude locate : Int) < wordBound

instance (locate : Location → Int64) (e : Expr) : Decidable (e.Moderate locate) :=
  inferInstanceAs (Decidable (∀ t ∈ e.parts, t.isKnown = true ∧ (t.magnitude locate : Int) < wordBound))

variable {locate : Location → Int64}

theorem Moderate.root {e : Expr} (h : e.Moderate locate) : e.isKnown = true ∧
    (e.magnitude locate : Int) < wordBound := by
  apply h
  cases e <;> simp [parts]

theorem moderate_const {v : Int64} : (Expr.const v).Moderate locate ↔ (v.toInt.natAbs : Int) < wordBound := by
  simp [Moderate, parts, isKnown, magnitude]

theorem moderate_neg {e : Expr} : (Expr.neg e).Moderate locate ↔ e.Moderate locate := by
  simp only [Moderate, parts, List.forall_mem_cons, isKnown, magnitude, true_and]
  exact and_iff_right_of_imp fun h => (Moderate.root h).2

theorem moderate_sum {ts : List Expr} :
    (Expr.sum ts).Moderate locate ↔ (magnitudes locate ts : Int) < wordBound ∧ ∀ t ∈ ts, t.Moderate locate := by
  simp only [Moderate, parts, List.forall_mem_cons, isKnown, magnitude, forall_mem_partsAll, true_and]

theorem moderate_mul {a b : Expr} :
    (Expr.mul a b).Moderate locate ↔
      ((a.magnitude locate * b.magnitude locate : Nat) : Int) < wordBound ∧ a.Moderate locate ∧ b.Moderate locate := by
  simp only [Moderate, parts, List.forall_mem_cons, List.forall_mem_append, isKnown, magnitude, true_and]

/-! ## Evaluating without overflow -/

mutual

theorem natAbs_value_le (e : Expr) : (e.value (.ofLocs locate)).natAbs ≤ e.magnitude locate := by
  match e with
  | .const _ | .loc _ => exact Nat.le_refl _
  | .sym _ | .slot _ => exact Nat.le_refl 0
  | .neg e =>
    rw [value, magnitude, Int.natAbs_neg]
    exact natAbs_value_le e
  | .sum ts =>
    rw [value, magnitude]
    exact natAbs_total_le ts
  | .mul a b =>
    rw [value, magnitude, Int.natAbs_mul]
    exact Nat.mul_le_mul (natAbs_value_le a) (natAbs_value_le b)

theorem natAbs_total_le (ts : List Expr) : (total (.ofLocs locate) ts).natAbs ≤ magnitudes locate ts := by
  match ts with
  | [] => exact Nat.le_refl 0
  | t :: ts =>
    rw [total_cons, magnitudes]
    exact (Int.natAbs_add_le _ _).trans (Nat.add_le_add (natAbs_value_le t) (natAbs_total_le ts))

end

theorem checked_of_natAbs {x : Int} (h : (x.natAbs : Int) < wordBound) : checked x = some x := by
  apply checked_eq <;> omega

theorem Moderate.checked_value {e : Expr} (h : e.Moderate locate) :
    checked (e.value (.ofLocs locate)) = some (e.value (.ofLocs locate)) := by
  have hlt := h.root.2
  have hle : (e.value (.ofLocs locate)).natAbs ≤ e.magnitude locate := natAbs_value_le e
  exact checked_of_natAbs (by omega)

mutual

theorem Moderate.eval (e : Expr) (h : e.Moderate locate) :
    e.eval (.ofAllLocs locate) = some (e.value (.ofLocs locate)) := by
  match e with
  | .const _ => rw [Expr.eval, value, Int.cast_id]
  | .loc _ => rfl
  | .sym _ | .slot _ => cases h.root.1
  | .neg e =>
    rw [Expr.eval, Moderate.eval e (moderate_neg.1 h), Option.bind_some, ← value]
    exact h.checked_value
  | .sum ts =>
    obtain ⟨hlt, hts⟩ := moderate_sum.1 h
    rw [Expr.eval, Moderate.evalFrom ts hts hlt (Nat.le_of_eq (Nat.zero_add _)), zero_add, value]
  | .mul a b =>
    obtain ⟨-, ha, hb⟩ := moderate_mul.1 h
    rw [Expr.eval, Moderate.eval a ha, Option.bind_some, Moderate.eval b hb, Option.bind_some, ← value]
    exact h.checked_value

theorem Moderate.evalFrom (ts : List Expr) (h : ∀ t ∈ ts, t.Moderate locate) {acc : Int} {n : Nat}
    (hn : (n : Int) < wordBound) (hacc : acc.natAbs + magnitudes locate ts ≤ n) :
    Expr.evalFrom (.ofAllLocs locate) acc ts = some (acc + total (.ofLocs locate) ts) := by
  match ts with
  | [] => rw [Expr.evalFrom, total_nil, add_zero]
  | t :: ts =>
    rw [List.forall_mem_cons] at h
    rw [magnitudes] at hacc
    -- What has been added up so far is no larger than the magnitudes of the terms that went in.
    have hnext : (acc + t.value (.ofLocs locate)).natAbs ≤ acc.natAbs + t.magnitude locate :=
      (Int.natAbs_add_le _ _).trans (Nat.add_le_add_left (natAbs_value_le t) _)
    rw [Expr.evalFrom, Moderate.eval t h.1, Option.bind_some, checked_of_natAbs (by omega), Option.bind_some,
      Moderate.evalFrom ts h.2 hn (by omega), total_cons, add_assoc]

end

/-! ## Simplifying without overflow -/

theorem natAbs_bmod_le (x : Int) : (x.bmod (2 ^ 64)).natAbs ≤ x.natAbs := by
  rw [Int.bmod_def]
  split <;> omega

theorem natAbs_neg_le (v : Int64) : (-v).toInt.natAbs ≤ v.toInt.natAbs := by
  rw [Int64.toInt_neg]
  exact (natAbs_bmod_le _).trans (Nat.le_of_eq (Int.natAbs_neg _))

theorem natAbs_add_le (a b : Int64) : (a + b).toInt.natAbs ≤ a.toInt.natAbs + b.toInt.natAbs := by
  rw [Int64.toInt_add]
  exact (natAbs_bmod_le _).trans (Int.natAbs_add_le _ _)

theorem natAbs_mul_le (a b : Int64) : (a * b).toInt.natAbs ≤ a.toInt.natAbs * b.toInt.natAbs := by
  rw [Int64.toInt_mul]
  exact (natAbs_bmod_le _).trans (Nat.le_of_eq (Int.natAbs_mul _ _))

theorem magnitudes_append (ts us : List Expr) :
    magnitudes locate (ts ++ us) = magnitudes locate ts + magnitudes locate us := by
  induction ts with
  | nil => simp [magnitudes]
  | cons t ts ih => rw [List.cons_append, magnitudes, magnitudes, ih, Nat.add_assoc]

theorem magnitudes_le_of_sublist {ts us : List Expr} (h : ts.Sublist us) :
    magnitudes locate ts ≤ magnitudes locate us := by
  induction h with
  | slnil => exact Nat.le_refl _
  | cons u _ ih =>
    rw [magnitudes]
    omega
  | cons_cons t _ ih =>
    rw [magnitudes, magnitudes]
    omega

theorem magnitudes_cancel_le (locate : Location → Int64) (ts : List Expr) :
    magnitudes locate (cancel ts) ≤ magnitudes locate ts := by
  have hterm (acc : List Expr) (t : Expr) : magnitudes locate (addTerm acc t) ≤ magnitudes locate (acc ++ [t]) := by
    unfold addTerm
    split
    · split
      · exact magnitudes_le_of_sublist (List.erase_sublist.trans (List.sublist_append_left acc [t]))
      · exact Nat.le_refl _
    · exact Nat.le_refl _
  have hfold (acc : List Expr) : magnitudes locate (ts.foldl addTerm acc) ≤ magnitudes locate (acc ++ ts) := by
    induction ts generalizing acc with
    | nil => simp
    | cons t ts ih =>
      calc magnitudes locate ((t :: ts).foldl addTerm acc)
          ≤ magnitudes locate (addTerm acc t ++ ts) := ih (addTerm acc t)
        _ ≤ magnitudes locate ((acc ++ [t]) ++ ts) := by
          rw [magnitudes_append, magnitudes_append _ ts]
          exact Nat.add_le_add_right (hterm acc t) _
        _ = magnitudes locate (acc ++ t :: ts) := by rw [List.append_assoc, List.singleton_append]
  exact hfold []

theorem magnitudes_addends (e : Expr) : magnitudes locate e.addends = e.magnitude locate := by
  cases e with
  | sum ts => rw [addends, magnitude]
  | const _ | sym _ | loc _ | slot _ | neg _ | mul _ _ => simp [addends, magnitudes]

theorem magnitudes_flatMap_addends (ts : List Expr) :
    magnitudes locate (ts.flatMap addends) = magnitudes locate ts := by
  induction ts with
  | nil => rfl
  | cons t ts ih => rw [List.flatMap_cons, magnitudes_append, magnitudes_addends, ih, magnitudes]

theorem natAbs_constants_le (locate : Location → Int64) (ts : List Expr) (c : Int64) :
    (ts.foldl (· + constantPart ·) c).toInt.natAbs + magnitudes locate (ts.filter (!·.isConst)) ≤
      c.toInt.natAbs + magnitudes locate ts := by
  induction ts generalizing c with
  | nil => exact Nat.le_refl _
  | cons t ts ih =>
    have hrest := ih (c + t.constantPart)
    have hadd := natAbs_add_le c t.constantPart
    rw [List.foldl_cons, magnitudes]
    cases t with
    | const v =>
      rw [List.filter_cons_of_neg (by simp [isConst]), magnitude]
      rw [constantPart] at hrest hadd ⊢
      omega
    | sym _ | loc _ | slot _ | neg _ | sum _ | mul _ _ =>
      rw [List.filter_cons_of_pos (by simp [isConst]), magnitudes]
      simp only [constantPart, Int64.add_zero] at hrest ⊢
      omega

theorem magnitude_sumWith (locate : Location → Int64) (us : List Expr) (c : Int64) :
    (sumWith us c).magnitude locate = magnitudes locate us + c.toInt.natAbs := by
  have hwith : magnitudes locate (withConst us c) = magnitudes locate us + c.toInt.natAbs := by
    unfold withConst
    split
    · simp [magnitudes_append, magnitudes, magnitude]
    · rename_i h
      have hc : c = 0 := by
        by_contra hne
        exact h (.inl hne)
      simp [hc]
  rcases sumWith_cases us c with ⟨t, hone, hsum⟩ | ⟨-, hsum⟩
  · rw [hsum, ← hwith, hone, magnitudes, magnitudes, Nat.add_zero]
  · rw [hsum, magnitude, hwith]

theorem magnitude_addAll_le (locate : Location → Int64) (ts : List Expr) :
    (addAll ts).magnitude locate ≤ magnitudes locate ts := by
  have hconst := natAbs_constants_le locate (ts.flatMap addends) 0
  have hcancel := magnitudes_cancel_le locate ((ts.flatMap addends).filter (!·.isConst))
  rw [magnitudes_flatMap_addends] at hconst
  unfold addAll
  dsimp only
  rw [magnitude_sumWith]
  simp only [Int64.toInt_zero, Int.natAbs_zero] at hconst
  omega

theorem Moderate.addends {e t : Expr} (h : e.Moderate locate) (ht : t ∈ e.addends) : t.Moderate locate := by
  cases e with
  | sum ts => exact (moderate_sum.1 h).2 t ht
  | const _ | sym _ | loc _ | slot _ | neg _ | mul _ _ =>
    rw [List.mem_singleton.1 ht]
    exact h

theorem moderate_sumWith {us : List Expr} {c : Int64} (h : ∀ u ∈ us, u.Moderate locate)
    (hlt : ((sumWith us c).magnitude locate : Int) < wordBound) : (sumWith us c).Moderate locate := by
  have hsize := magnitude_sumWith locate us c
  have hterms : ∀ t ∈ withConst us c, t.Moderate locate := by
    intro t ht
    rcases mem_withConst ht with hu | rfl
    · exact h t hu
    · exact moderate_const.2 (by omega)
  rcases sumWith_cases us c with ⟨t, hone, hsum⟩ | ⟨-, hsum⟩
  · rw [hsum]
    exact hterms t (by rw [hone]; exact List.mem_singleton_self t)
  · rw [hsum, magnitude] at hlt
    rw [hsum]
    exact moderate_sum.2 ⟨hlt, hterms⟩

theorem moderate_addAll {ts : List Expr} (h : ∀ t ∈ ts, t.Moderate locate) {n : Nat} (hn : (n : Int) < wordBound)
    (hle : magnitudes locate ts ≤ n) : (addAll ts).Moderate locate ∧ (addAll ts).magnitude locate ≤ n := by
  have hsize := (magnitude_addAll_le locate ts).trans hle
  refine ⟨moderate_sumWith (fun u hu => ?_) ?_, hsize⟩
  · obtain ⟨t, ht, hut⟩ := List.mem_flatMap.1 (List.mem_filter.1 (mem_of_mem_cancel hu)).1
    exact (h t ht).addends hut
  · exact Int.lt_of_le_of_lt (Int.ofNat_le.2 hsize) hn

mutual

theorem moderate_negate (e : Expr) (h : e.Moderate locate) :
    e.negate.Moderate locate ∧ e.negate.magnitude locate ≤ e.magnitude locate := by
  match e with
  | .const v =>
    have hle := natAbs_neg_le v
    have hlt := moderate_const.1 h
    rw [negate, magnitude, magnitude]
    exact ⟨moderate_const.2 (by omega), hle⟩
  | .neg e =>
    rw [negate, magnitude]
    exact ⟨moderate_neg.1 h, Nat.le_refl _⟩
  | .sum ts =>
    obtain ⟨hlt, hts⟩ := moderate_sum.1 h
    obtain ⟨hall, hle⟩ := moderate_negateAll ts hts
    rw [negate, magnitude]
    exact moderate_addAll hall hlt hle
  | .sym _ | .loc _ | .slot _ | .mul _ _ =>
    rw [negate, magnitude]
    exact ⟨moderate_neg.2 h, Nat.le_refl _⟩

theorem moderate_negateAll (ts : List Expr) (h : ∀ t ∈ ts, t.Moderate locate) :
    (∀ u ∈ negateAll ts, u.Moderate locate) ∧ magnitudes locate (negateAll ts) ≤ magnitudes locate ts := by
  match ts with
  | [] => simp [negateAll]
  | t :: ts =>
    rw [List.forall_mem_cons] at h
    obtain ⟨ht, hle⟩ := moderate_negate t h.1
    obtain ⟨hts, hles⟩ := moderate_negateAll ts h.2
    rw [negateAll, List.forall_mem_cons, magnitudes, magnitudes]
    exact ⟨⟨ht, hts⟩, Nat.add_le_add hle hles⟩

end

theorem moderate_scale {x : Int64} {e other : Expr} (he : e.Moderate locate)
    (ho : other.Moderate locate ∧ other.magnitude locate ≤ x.toInt.natAbs * e.magnitude locate) :
    let scaled := if x = 0 then Expr.const 0 else if x = 1 then e else if x = -1 then e.negate else other
    scaled.Moderate locate ∧ scaled.magnitude locate ≤ x.toInt.natAbs * e.magnitude locate := by
  dsimp only
  split
  · exact ⟨moderate_const.2 (by decide), Nat.zero_le _⟩
  · split
    · rename_i hx
      exact ⟨he, by simp [hx]⟩
    · split
      · rename_i hx
        obtain ⟨hneg, hle⟩ := moderate_negate e he
        exact ⟨hneg, by simpa [hx] using hle⟩
      · exact ho

theorem moderate_multiply {a b : Expr} (h : (Expr.mul a b).Moderate locate) :
    (multiply a b).Moderate locate ∧ (multiply a b).magnitude locate ≤ a.magnitude locate * b.magnitude locate := by
  obtain ⟨hlt, ha, hb⟩ := moderate_mul.1 h
  unfold multiply
  split
  · rename_i x y
    have hle := natAbs_mul_le x y
    simp only [magnitude] at hlt ⊢
    exact ⟨moderate_const.2 (by omega), hle⟩
  · exact moderate_scale hb ⟨h, Nat.le_refl _⟩
  · rw [Nat.mul_comm]
    exact moderate_scale ha ⟨h, Nat.le_of_eq (Nat.mul_comm _ _)⟩
  · exact ⟨h, Nat.le_refl _⟩

mutual

theorem moderate_simplify (e : Expr) (h : e.Moderate locate) :
    e.simplify.Moderate locate ∧ e.simplify.magnitude locate ≤ e.magnitude locate := by
  match e with
  | .const _ | .sym _ | .loc _ | .slot _ =>
    rw [simplify]
    exact ⟨h, Nat.le_refl _⟩
  | .neg e =>
    obtain ⟨he, hle⟩ := moderate_simplify e (moderate_neg.1 h)
    obtain ⟨hneg, hle'⟩ := moderate_negate e.simplify he
    rw [simplify, magnitude]
    exact ⟨hneg, hle'.trans hle⟩
  | .sum ts =>
    obtain ⟨hlt, hts⟩ := moderate_sum.1 h
    obtain ⟨hall, hle⟩ := moderate_simplifyAll ts hts
    rw [simplify, magnitude]
    exact moderate_addAll hall hlt hle
  | .mul a b =>
    obtain ⟨hlt, ha, hb⟩ := moderate_mul.1 h
    obtain ⟨ha', hlea⟩ := moderate_simplify a ha
    obtain ⟨hb', hleb⟩ := moderate_simplify b hb
    have hle := Nat.mul_le_mul hlea hleb
    obtain ⟨hmul, hle'⟩ := moderate_multiply (moderate_mul.2 ⟨Int.lt_of_le_of_lt (Int.ofNat_le.2 hle) hlt, ha', hb'⟩)
    rw [simplify, magnitude]
    exact ⟨hmul, hle'.trans hle⟩

theorem moderate_simplifyAll (ts : List Expr) (h : ∀ t ∈ ts, t.Moderate locate) :
    (∀ u ∈ simplifyAll ts, u.Moderate locate) ∧ magnitudes locate (simplifyAll ts) ≤ magnitudes locate ts := by
  match ts with
  | [] => simp [simplifyAll]
  | t :: ts =>
    rw [List.forall_mem_cons] at h
    obtain ⟨ht, hle⟩ := moderate_simplify t h.1
    obtain ⟨hts, hles⟩ := moderate_simplifyAll ts h.2
    rw [simplifyAll, List.forall_mem_cons, magnitudes, magnitudes]
    exact ⟨⟨ht, hts⟩, Nat.add_le_add hle hles⟩

end

/-! ## Residues -/

section Residue

variable {R : Type} [CommRing R]

mutual

theorem value_cast (ρ : Valuation Int) (e : Expr) : e.value (ρ.cast : Valuation R) = (e.value ρ : Int) := by
  match e with
  | .const _ | .sym _ | .loc _ | .slot _ => simp [value, Valuation.cast]
  | .neg e => rw [value, value, value_cast ρ e, Int.cast_neg]
  | .sum ts => rw [value, value, total_cast ρ ts]
  | .mul a b => rw [value, value, value_cast ρ a, value_cast ρ b, Int.cast_mul]

theorem total_cast (ρ : Valuation Int) (ts : List Expr) :
    total (ρ.cast : Valuation R) ts = (total ρ ts : Int) := by
  match ts with
  | [] => simp
  | t :: ts => rw [total_cons, total_cons, value_cast ρ t, total_cast ρ ts, Int.cast_add]

end

theorem value_of_eval_ofAllLocs (e : Expr) {v : Int} (h : e.eval (.ofAllLocs locate) = some v) :
    e.value (Valuation.cast (.ofLocs locate) : Valuation R) = v := by
  refine value_of_eval (fun n x hx => by cases hx) (fun l x hx => ?_) e h
  rw [← Option.some.inj hx]
  rfl

end Residue

theorem bmod_of_eval (e : Expr) {v : Int} (h : e.eval (.ofAllLocs locate) = some v) : v.bmod (2 ^ 64) = v := by
  have hword : -wordBound ≤ v ∧ v < wordBound := by
    refine word_of_eval (fun n x hx => by cases hx) (fun l x hx => ?_) e h
    rw [← Option.some.inj hx]
    exact ⟨(locate l).le_toInt, (locate l).toInt_lt⟩
  unfold wordBound at hword
  apply Int.bmod_eq_of_le <;> omega

theorem bmod_value_of_eval_simplify (e : Expr) {w : Int} (h : e.simplify.eval (.ofAllLocs locate) = some w) :
    w = (e.value (.ofLocs locate)).bmod (2 ^ 64) := by
  have hcast : ((w : Int) : ZMod (2 ^ 64)) = (e.value (.ofLocs locate) : Int) := by
    rw [← value_of_eval_ofAllLocs e.simplify h, value_simplify (ZMod.natCast_self (2 ^ 64)), value_cast]
  rw [← bmod_of_eval e.simplify h, ← Int.emod_bmod, (ZMod.intCast_eq_intCast_iff' _ _ _).1 hcast, Int.emod_bmod]

/-- An expression and its normal form do not have two values. -/
theorem eval_simplify_eq_of_eval (e : Expr) {v w : Int} (hv : e.eval (.ofAllLocs locate) = some v)
    (hw : e.simplify.eval (.ofAllLocs locate) = some w) : w = v := by
  have hvalue := value_of_eval_ofAllLocs (R := Int) e hv
  rw [value_cast, Int.cast_id, Int.cast_id] at hvalue
  rw [bmod_value_of_eval_simplify e hw, hvalue, bmod_of_eval e hv]

/-! ## Constants -/

theorem sumWith_nil (c : Int64) : sumWith [] c = .const c := by simp [sumWith]

theorem addAll_map_const (cs : List Int64) : ∃ c, addAll (cs.map .const) = .const c := by
  have hflat : (cs.map Expr.const).flatMap addends = cs.map .const := flatMap_addends (by simp [addends])
  have hnone : (cs.map Expr.const).filter (!·.isConst) = [] := List.filter_eq_nil_iff.2 (by simp [isConst])
  unfold addAll
  dsimp only
  rw [hflat, hnone]
  exact ⟨_, sumWith_nil _⟩

mutual

theorem simplify_eq_const (e : Expr) (hl : e.mentionsLoc = false) {v : Int} (h : e.eval (.ofAllLocs locate) = some v) :
    ∃ c, e.simplify = .const c := by
  match e with
  | .const c => exact ⟨c, rfl⟩
  | .sym _ | .slot _ => cases h
  | .loc _ => cases hl
  | .neg e =>
    rw [mentionsLoc] at hl
    rw [eval, Option.bind_eq_some_iff] at h
    obtain ⟨x, hx, -⟩ := h
    obtain ⟨c, hc⟩ := simplify_eq_const e hl hx
    exact ⟨-c, by rw [simplify, hc, negate]⟩
  | .sum ts =>
    rw [mentionsLoc] at hl
    obtain ⟨cs, hcs⟩ := simplifyAll_eq_consts ts hl h
    rw [simplify, hcs]
    exact addAll_map_const cs
  | .mul a b =>
    rw [mentionsLoc, Bool.or_eq_false_iff] at hl
    simp only [eval, Option.bind_eq_some_iff] at h
    obtain ⟨x, hx, y, hy, -⟩ := h
    obtain ⟨c, hc⟩ := simplify_eq_const a hl.1 hx
    obtain ⟨d, hd⟩ := simplify_eq_const b hl.2 hy
    exact ⟨c * d, by rw [simplify, hc, hd, multiply]⟩

theorem simplifyAll_eq_consts (ts : List Expr) (hl : anyMentionsLoc ts = false) {acc v : Int}
    (h : evalFrom (.ofAllLocs locate) acc ts = some v) : ∃ cs : List Int64, simplifyAll ts = cs.map .const := by
  match ts with
  | [] => exact ⟨[], rfl⟩
  | t :: ts =>
    rw [anyMentionsLoc, Bool.or_eq_false_iff] at hl
    simp only [evalFrom, Option.bind_eq_some_iff] at h
    obtain ⟨x, hx, y, -, h⟩ := h
    obtain ⟨c, hc⟩ := simplify_eq_const t hl.1 hx
    obtain ⟨cs, hcs⟩ := simplifyAll_eq_consts ts hl.2 h
    exact ⟨c :: cs, by rw [simplifyAll, hc, hcs, List.map_cons]⟩

end

theorem eval_simplify_of_no_locs (e : Expr) (hl : e.mentionsLoc = false) {v : Int}
    (h : e.eval (.ofAllLocs locate) = some v) : e.simplify.eval (.ofAllLocs locate) = some v := by
  obtain ⟨c, hc⟩ := simplify_eq_const e hl h
  have hconst : e.simplify.eval (.ofAllLocs locate) = some c.toInt := by rw [hc, eval]
  rw [hconst, eval_simplify_eq_of_eval e h hconst]

/-! ## Agreement -/

/-- The value of a normal form is the exact value modulo `2 ^ 64`, so an expression and its normal form never have two
values. Both have the exact value if no order of adding up can overflow, and a constant expression that has a value is
simplified to it. -/
theorem eval_simplify_agrees (e : Expr) (locate : Location → Int64) :
    (∀ w, e.simplify.eval (.ofAllLocs locate) = some w → w = (e.value (.ofLocs locate)).bmod (2 ^ 64)) ∧
      (∀ v w, e.eval (.ofAllLocs locate) = some v → e.simplify.eval (.ofAllLocs locate) = some w → w = v) ∧
      (∀ v, e.mentionsLoc = false → e.eval (.ofAllLocs locate) = some v →
        e.simplify.eval (.ofAllLocs locate) = some v) ∧
      (e.Moderate locate →
        e.eval (.ofAllLocs locate) = some (e.value (.ofLocs locate)) ∧
          e.simplify.eval (.ofAllLocs locate) = some (e.value (.ofLocs locate))) := by
  refine ⟨fun w => bmod_value_of_eval_simplify e, fun v w => eval_simplify_eq_of_eval e,
    fun v hl => eval_simplify_of_no_locs e hl, fun h => ⟨Moderate.eval e h, ?_⟩⟩
  have hsimplified := Moderate.eval e.simplify (moderate_simplify e h).1
  rw [hsimplified, eval_simplify_eq_of_eval e (Moderate.eval e h) hsimplified]

/-- A location for each fragment, `2 ^ 40` apart. -/
def farApart (l : Location) : Int64 := Int64.ofNat (l.fragment.index * 1099511627776 + l.offset)

/-- `-(a + 3) + 2 * (b + 1)` -/
def doubledDistance : Expr :=
  .sum [.neg (.sum [.loc ⟨⟨0, 1⟩, 4⟩, .const 3]), .mul (.const 2) (.sum [.loc ⟨⟨0, 2⟩, 0⟩, .const 1])]

theorem eval_simplify_agrees_doubledDistance :
    doubledDistance.Moderate farApart ∧
      doubledDistance.simplify.eval (.ofAllLocs farApart) = doubledDistance.eval (.ofAllLocs farApart) ∧
      doubledDistance.eval (.ofAllLocs farApart) = some 3298534883323 := by
  have hmoderate : doubledDistance.Moderate farApart := by decide +kernel
  obtain ⟨heval, hsimplified⟩ := (eval_simplify_agrees doubledDistance farApart).2.2.2 hmoderate
  exact ⟨hmoderate, hsimplified.trans heval.symm, by decide +kernel⟩

/-- A sum that overflows on the way is folded to a constant, and a sum that does not overflow does so once its constant
is added last. -/
theorem eval_simplify_overflow :
    let folded := Expr.sum [.const Int64.maxValue, .const 1, .const (-1)]
    let reordered := Expr.sum [.const (-1), .loc ⟨⟨0, 1⟩, 0⟩, .loc ⟨⟨0, 2⟩, 0⟩]
    let locate (l : Location) : Int64 := if l.fragment.index = 1 then Int64.maxValue else 1
    (folded.eval (.ofAllLocs locate) = none ∧ folded.simplify.eval (.ofAllLocs locate) = some 9223372036854775807) ∧
      reordered.eval (.ofAllLocs locate) = some 9223372036854775807 ∧
        reordered.simplify.eval (.ofAllLocs locate) = none := by
  decide +kernel

end Expr

end SpanLayout
