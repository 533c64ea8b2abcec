import SpanLayout.Proofs.Expr.Normal

/-!
# What normal forms look like

The shape of a normal form, said of each expression that it consists of and without simplifying anything. Normal forms
are exactly the expressions that simplifying leaves alone, and all that it returns are normal forms.

Where a sum is negated or multiplied by `-1`, its terms may be negated and the new sum simplified in its turn, so that
simplifying goes on with a larger expression than it had. It comes to an end all the same, with the same normal form.
-/

namespace SpanLayout.Expr

/-! ## The shape of a normal form -/

mutual

/-- The expressions that an expression consists of, itself included. -/
def parts : Expr → List Expr
  | .neg e => .neg e :: e.parts
  | .sum ts => .sum ts :: partsAll ts
  | .mul a b => .mul a b :: (a.parts ++ b.parts)
  | .const v => [.const v]
  | .sym s => [.sym s]
  | .loc l => [.loc l]
  | .slot n => [.slot n]

/-- The expressions that the terms of a sum consist of. -/
def partsAll : List Expr → List Expr
  | [] => []
  | t :: ts => t.parts ++ partsAll ts

end

/-- Whether an expression is a sum. -/
def isSum : Expr → Bool
  | .sum _ => true
  | _ => false

/-- Whether the negation of an expression is written with a sign in front of it. -/
def takesSign : Expr → Bool
  | .const _ | .neg _ | .sum _ => false
  | .sym _ | .loc _ | .slot _ | .mul _ _ => true

/-- Whether an expression is a symbol or a location. -/
def isName : Expr → Bool
  | .sym _ | .loc _ => true
  | _ => false

/-- Whether a factor goes away when a product is simplified. -/
def isUnitOrZero (e : Expr) : Bool := e = .const 0 || e = .const 1 || e = .const (-1)

/-- The terms of a sum in normal form. -/
structure TidyTerms (ts : List Expr) : Prop where
  two_le : 2 ≤ ts.length
  flat : ∀ t ∈ ts, t.isSum = false
  const_last : ∀ t ∈ ts.dropLast, t.isConst = false
  last_ne_zero : ts.getLast? ≠ some (.const 0)
  no_opposites : ∀ t ∈ ts, t.isName = true → .neg t ∉ ts

/-- What a normal form looks like at its root. -/
def Tidy : Expr → Prop
  | .neg e => e.takesSign = true
  | .sum ts => TidyTerms ts
  | .mul a b => (a.isConst && b.isConst) = false ∧ a.isUnitOrZero = false ∧ b.isUnitOrZero = false
  | .const _ | .sym _ | .loc _ | .slot _ => True

/-- A normal form looks like one at every depth. -/
def InNormalForm (e : Expr) : Prop := ∀ t ∈ e.parts, t.Tidy

theorem tidyTerms_iff (ts : List Expr) :
    (2 ≤ ts.length ∧ (∀ t ∈ ts, t.isSum = false) ∧ (∀ t ∈ ts.dropLast, t.isConst = false) ∧
      ts.getLast? ≠ some (.const 0) ∧ ∀ t ∈ ts, t.isName = true → .neg t ∉ ts) ↔ TidyTerms ts := by
  constructor
  · rintro ⟨hlen, hflat, hconst, hlast, hopp⟩
    exact ⟨hlen, hflat, hconst, hlast, hopp⟩
  · intro h
    exact ⟨h.two_le, h.flat, h.const_last, h.last_ne_zero, h.no_opposites⟩

instance (ts : List Expr) : Decidable (TidyTerms ts) := decidable_of_iff _ (tidyTerms_iff ts)

instance : DecidablePred Tidy
  | .neg e => inferInstanceAs (Decidable (e.takesSign = true))
  | .sum ts => inferInstanceAs (Decidable (TidyTerms ts))
  | .mul a b => inferInstanceAs
    (Decidable ((a.isConst && b.isConst) = false ∧ a.isUnitOrZero = false ∧ b.isUnitOrZero = false))
  | .const _ | .sym _ | .loc _ | .slot _ => isTrue trivial

instance (e : Expr) : Decidable e.InNormalForm := inferInstanceAs (Decidable (∀ t ∈ e.parts, t.Tidy))

theorem forall_mem_partsAll {P : Expr → Prop} {ts : List Expr} :
    (∀ p ∈ partsAll ts, P p) ↔ ∀ t ∈ ts, ∀ p ∈ t.parts, P p := by
  induction ts with
  | nil => simp [partsAll]
  | cons t ts ih => rw [partsAll, List.forall_mem_append, ih, List.forall_mem_cons]

theorem inNormalForm_neg {e : Expr} : (Expr.neg e).InNormalForm ↔ e.takesSign = true ∧ e.InNormalForm := by
  simp [InNormalForm, parts, Tidy]

theorem inNormalForm_sum {ts : List Expr} :
    (Expr.sum ts).InNormalForm ↔ TidyTerms ts ∧ ∀ t ∈ ts, t.InNormalForm := by
  simp only [InNormalForm, parts, List.forall_mem_cons, Tidy, forall_mem_partsAll]

theorem inNormalForm_mul {a b : Expr} :
    (Expr.mul a b).InNormalForm ↔ Tidy (.mul a b) ∧ a.InNormalForm ∧ b.InNormalForm := by
  simp [InNormalForm, parts, or_imp, forall_and]

/-! ## Normal forms are left alone -/

theorem addends_eq_singleton {e : Expr} : e.addends = [e] ↔ e.isSum = false := by
  cases e with
  | sum ts =>
    refine ⟨fun h => ?_, fun h => by cases h⟩
    -- No list has a sum of all of itself as its only term.
    have hsize := congrArg sizeOf (show ts = [Expr.sum ts] from h)
    simp at hsize
    omega
  | const _ | sym _ | loc _ | slot _ | neg _ | mul _ _ => exact ⟨fun _ => rfl, fun _ => rfl⟩

theorem negate_of_takesSign {e : Expr} (h : e.takesSign = true) : e.negate = .neg e := by
  cases e with
  | const _ | neg _ | sum _ => cases h
  | sym _ | loc _ | slot _ | mul _ _ => rw [negate]

theorem takesSign_of_isName {e : Expr} (h : e.isName = true) : e.takesSign = true := by
  cases e with
  | sym _ | loc _ => rfl
  | const _ | slot _ | neg _ | sum _ | mul _ _ => cases h

theorem opposite?_of_isName {t : Expr} (h : t.isName = true) : t.opposite? = some (.neg t) := by
  cases t with
  | sym _ | loc _ => rfl
  | const _ | slot _ | neg _ | sum _ | mul _ _ => cases h

theorem isName_of_opposite? {t o : Expr} (h : t.opposite? = some o) :
    t.isName = true ∧ o = .neg t ∨ o.isName = true ∧ t = .neg o := by
  unfold opposite? at h
  split at h <;> cases h <;> simp [isName]

theorem uncancelled_iff {ts : List Expr} : Uncancelled ts ↔ ∀ t ∈ ts, t.isName = true → .neg t ∉ ts := by
  constructor
  · intro h t ht hname
    exact h t ht _ (opposite?_of_isName hname)
  · intro h t ht o ho hmem
    rcases isName_of_opposite? ho with ⟨hname, rfl⟩ | ⟨hname, rfl⟩
    · exact h t ht hname hmem
    · exact h o hmem hname ht

theorem TidyTerms.split {ts : List Expr} (h : TidyTerms ts) :
    ∃ us c, ts = withConst us c ∧ ∀ u ∈ us, u ∈ ts ∧ u.isConst = false := by
  obtain ⟨us, l, rfl⟩ : ∃ us l, ts = us ++ [l] := by
    rcases List.eq_nil_or_concat ts with rfl | ⟨us, l, rfl⟩
    · exact absurd h.two_le (by simp)
    · exact ⟨us, l, by simp⟩
  have hus : ∀ u ∈ us, u.isConst = false := fun u hu => h.const_last u (by simpa using hu)
  by_cases hl : l.isConst = true
  · obtain ⟨c, rfl⟩ : ∃ c, l = .const c := by cases l <;> simp_all [isConst]
    have hc : c ≠ 0 := by
      rintro rfl
      exact h.last_ne_zero (by simp)
    exact ⟨us, c, by rw [withConst, if_pos (.inl hc)], fun u hu => ⟨by simp [hu], hus u hu⟩⟩
  · refine ⟨us ++ [l], 0, by simp [withConst], fun u hu => ⟨hu, ?_⟩⟩
    rcases List.mem_append.1 hu with hu | hu
    · exact hus u hu
    · rw [List.mem_singleton.1 hu]
      simpa using hl

theorem normal_of_tidyTerms {ts : List Expr} (h : TidyTerms ts) (hterms : ∀ t ∈ ts, t.Normal) : Normal (.sum ts) := by
  obtain ⟨us, c, hts, hus⟩ := h.split
  refine .sum hts (fun u hu => hterms u (hus u hu).1) (fun u hu => ?_) ?_ ?_
  · exact ⟨addends_eq_singleton.2 (h.flat u (hus u hu).1), (hus u hu).2⟩
  · exact uncancelled_iff.2 fun t ht hname hneg => h.no_opposites t (hus t ht).1 hname (hus _ hneg).1
  · rcases sumWith_cases us c with ⟨t, hone, -⟩ | ⟨-, hsum⟩
    · have hlen := h.two_le
      rw [hts, hone] at hlen
      simp at hlen
    · rw [hsum, hts]

theorem multiply_of_tidy {a b : Expr} (h : Tidy (.mul a b)) : multiply a b = .mul a b := by
  obtain ⟨hconst, ha, hb⟩ := h
  unfold multiply
  split
  · cases hconst
  · simp_all [isUnitOrZero]
  · simp_all [isUnitOrZero]
  · rfl

mutual

theorem InNormalForm.normal (e : Expr) (h : e.InNormalForm) : e.Normal := by
  match e with
  | .const v => exact .const v
  | .sym s => exact .sym s
  | .loc l => exact .loc l
  | .slot n => exact .slot n
  | .neg e =>
    obtain ⟨hsign, he⟩ := inNormalForm_neg.1 h
    exact .neg (InNormalForm.normal e he) (negate_of_takesSign hsign)
  | .mul a b =>
    obtain ⟨htidy, ha, hb⟩ := inNormalForm_mul.1 h
    exact .mul (InNormalForm.normal a ha) (InNormalForm.normal b hb) (multiply_of_tidy htidy)
  | .sum ts =>
    obtain ⟨htidy, hts⟩ := inNormalForm_sum.1 h
    exact normal_of_tidyTerms htidy (InNormalForm.normal_terms ts hts)

theorem InNormalForm.normal_terms (ts : List Expr) (h : ∀ t ∈ ts, t.InNormalForm) : ∀ t ∈ ts, t.Normal := by
  match ts with
  | [] => simp
  | t :: ts =>
    rw [List.forall_mem_cons] at h ⊢
    exact ⟨InNormalForm.normal t h.1, InNormalForm.normal_terms ts h.2⟩

end

/-! ## Negating normal forms -/

theorem InNormalForm.negate_term {t : Expr} (h : t.InNormalForm) (hflat : t.isSum = false) :
    t.negate.InNormalForm ∧ t.negate.isSum = false ∧ t.negate.negate = t := by
  cases t with
  | sum _ => cases hflat
  | const v => simp [negate, isSum, InNormalForm, parts, Tidy]
  | sym _ | loc _ | slot _ | mul _ _ =>
    rw [negate_of_takesSign rfl]
    exact ⟨inNormalForm_neg.2 ⟨rfl, h⟩, rfl, by rw [negate]⟩
  | neg e =>
    obtain ⟨hsign, he⟩ := inNormalForm_neg.1 h
    rw [negate, negate_of_takesSign hsign]
    refine ⟨he, ?_, rfl⟩
    cases e with
    | const _ | neg _ | sum _ => cases hsign
    | sym _ | loc _ | slot _ | mul _ _ => rfl

theorem TidyTerms.negate {ts : List Expr} (h : TidyTerms ts) (hterms : ∀ t ∈ ts, t.InNormalForm) :
    TidyTerms (ts.map Expr.negate) := by
  have hterm {t : Expr} (ht : t ∈ ts) := (hterms t ht).negate_term (h.flat t ht)
  -- What a term is negated to tells the term.
  have hback {t u : Expr} (ht : t ∈ ts) (htu : t.negate = u) : t = u.negate := by rw [← htu, (hterm ht).2.2]
  constructor
  · simpa using h.two_le
  · intro u hu
    obtain ⟨t, ht, rfl⟩ := List.mem_map.1 hu
    exact (hterm ht).2.1
  · intro u hu
    rw [← List.map_dropLast] at hu
    obtain ⟨t, ht, rfl⟩ := List.mem_map.1 hu
    cases hu : t.negate with
    | const c =>
      have hconst := h.const_last t ht
      rw [hback (List.dropLast_subset ts ht) hu, Expr.negate] at hconst
      cases hconst
    | sym _ | loc _ | slot _ | neg _ | sum _ | mul _ _ => rfl
  · rw [List.getLast?_map]
    intro hlast
    obtain ⟨t, ht, hzero⟩ := Option.map_eq_some_iff.1 hlast
    rw [hback (List.mem_of_getLast? ht) hzero, Expr.negate] at ht
    exact h.last_ne_zero ht
  · intro u hu hname hneg
    obtain ⟨t, ht, htu⟩ := List.mem_map.1 hu
    obtain ⟨w, hw, hwu⟩ := List.mem_map.1 hneg
    rw [hback ht htu, negate_of_takesSign (takesSign_of_isName hname)] at ht
    rw [hback hw hwu, Expr.negate] at hw
    exact h.no_opposites u hw hname ht

theorem InNormalForm.negate_sum {ts : List Expr} (h : (Expr.sum ts).InNormalForm) :
    (Expr.sum ts).negate = .sum (ts.map Expr.negate) ∧ (Expr.sum (ts.map Expr.negate)).InNormalForm := by
  obtain ⟨htidy, hterms⟩ := inNormalForm_sum.1 h
  have hnegated : ∀ u ∈ ts.map Expr.negate, u.InNormalForm := by
    intro u hu
    obtain ⟨t, ht, rfl⟩ := List.mem_map.1 hu
    exact ((hterms t ht).negate_term (htidy.flat t ht)).1
  have hsum := inNormalForm_sum.2 ⟨htidy.negate hterms, hnegated⟩
  refine ⟨?_, hsum⟩
  have hfixed := hsum.normal.simplify
  rw [simplify, simplifyAll_of_fixed fun u hu => (hnegated u hu).normal.simplify] at hfixed
  rw [Expr.negate, negateAll_eq_map, hfixed]

theorem InNormalForm.takesSign {e : Expr} (h : e.InNormalForm) (hn : e.negate = .neg e) : e.takesSign = true := by
  cases e with
  | const _ => cases hn
  | neg e =>
    have hsize := congrArg sizeOf (show e = .neg (.neg e) from hn)
    simp at hsize
    omega
  | sum ts =>
    rw [h.negate_sum.1] at hn
    cases hn
  | sym _ | loc _ | slot _ | mul _ _ => rfl

theorem InNormalForm.eq_neg_of_negate {e a b : Expr} (h : e.InNormalForm) (hn : e.negate = .mul a b) :
    e = .neg (.mul a b) := by
  cases e with
  | const _ | sym _ | loc _ | slot _ | mul _ _ => cases hn
  | neg e => rw [show e = .mul a b from hn]
  | sum ts =>
    rw [h.negate_sum.1] at hn
    cases hn

/-! ## Normal forms are what simplifying leaves -/

theorem withConst_ne_nil (us : List Expr) (c : Int64) : withConst us c ≠ [] := by
  unfold withConst
  split
  · simp
  · rename_i h
    exact fun hus => h (.inr hus)

theorem two_le_length_withConst {us : List Expr} {c : Int64} (h : ∀ t, withConst us c ≠ [t]) :
    2 ≤ (withConst us c).length := by
  match hws : withConst us c with
  | [] => exact absurd hws (withConst_ne_nil us c)
  | [t] => exact absurd hws (h t)
  | _ :: _ :: _ => simp

theorem tidyTerms_withConst {us : List Expr} {c : Int64} (hone : ∀ t, withConst us c ≠ [t])
    (hterms : ∀ u ∈ us, u.addends = [u] ∧ u.isConst = false) (hc : Uncancelled us) : TidyTerms (withConst us c) where
  two_le := two_le_length_withConst hone
  flat := by
    intro t ht
    rcases mem_withConst ht with hu | rfl
    · exact addends_eq_singleton.1 (hterms t hu).1
    · rfl
  const_last := by
    intro t ht
    unfold withConst at ht
    split at ht
    · exact (hterms t (by simpa using ht)).2
    · exact (hterms t (List.dropLast_subset us ht)).2
  last_ne_zero := by
    unfold withConst
    split
    · rename_i hif
      rw [List.getLast?_concat]
      intro hzero
      obtain rfl : c = 0 := by simpa using hzero
      have hus : us = [] := hif.resolve_left fun h => h rfl
      exact hone (.const 0) (by simp [withConst, hus])
    · intro hlast
      have := (hterms _ (List.mem_of_getLast? hlast)).2
      cases this
  no_opposites := by
    intro t ht hname hneg
    have hus : t ∈ us := (mem_withConst ht).resolve_right fun h => by rw [h] at hname; cases hname
    exact uncancelled_iff.1 hc t hus hname ((mem_withConst hneg).resolve_right (by simp))

theorem InNormalForm.factor {e a b : Expr} (h : e.InNormalForm) (hab : a = e ∨ b = e) :
    e ≠ .mul a b ∧ e.negate ≠ .mul a b := by
  -- A factor is not a product that it is a factor of, and neither is its negation.
  have hsize : sizeOf e < sizeOf (Expr.mul a b) := by
    rcases hab with rfl | rfl
    · simp
      omega
    · simp
  constructor
  · intro heq
    rw [← heq] at hsize
    exact Nat.lt_irrefl _ hsize
  · intro hneg
    have hlarger := congrArg sizeOf (h.eq_neg_of_negate hneg)
    simp only [neg.sizeOf_spec] at hlarger
    omega

theorem isUnitOrZero_of_kept {x : Int64} {e a b : Expr} (he : e ≠ .mul a b ∧ e.negate ≠ .mul a b)
    (h : (if x = 0 then .const 0 else if x = 1 then e else if x = -1 then e.negate else .mul a b) = .mul a b) :
    (Expr.const x).isUnitOrZero = false := by
  have h0 : x ≠ 0 := by
    rintro rfl
    simp at h
  have h1 : x ≠ 1 := by
    rintro rfl
    exact he.1 (by simpa using h)
  have h2 : x ≠ -1 := by
    rintro rfl
    exact he.2 (by simpa using h)
  simp [isUnitOrZero, h0, h1, h2]

theorem tidy_of_multiply {a b : Expr} (ha : a.InNormalForm) (hb : b.InNormalForm) (h : multiply a b = .mul a b) :
    Tidy (.mul a b) := by
  have hconst {e : Expr} (he : ∀ c, e = .const c → False) : e.isConst = false ∧ e.isUnitOrZero = false := by
    cases e with
    | const c => exact absurd rfl (he c)
    | sym _ | loc _ | slot _ | neg _ | sum _ | mul _ _ => simp [isConst, isUnitOrZero]
  unfold multiply at h
  split at h
  · cases h
  · rename_i x hne
    exact ⟨by simp [(hconst hne).1], isUnitOrZero_of_kept (hb.factor (.inr rfl)) h, (hconst hne).2⟩
  · rename_i y hne
    exact ⟨by simp [(hconst hne).1], (hconst hne).2, isUnitOrZero_of_kept (ha.factor (.inl rfl)) h⟩
  · rename_i hna hnb _
    exact ⟨by simp [(hconst hna).1], (hconst hna).2, (hconst hnb).2⟩

theorem Normal.inNormalForm {e : Expr} (h : e.Normal) : e.InNormalForm := by
  induction h with
  | const | sym | loc | slot => simp [InNormalForm, parts, Tidy]
  | neg _ hn ih => exact inNormalForm_neg.2 ⟨ih.takesSign hn, ih⟩
  | mul _ _ hm iha ihb => exact inNormalForm_mul.2 ⟨tidy_of_multiply iha ihb hm, iha, ihb⟩
  | @sum ts us c hts _ hterms hc hs ih =>
    have hone : ∀ t, withConst us c ≠ [t] := by
      intro t ht
      rcases sumWith_cases us c with ⟨t', ht', hsum⟩ | ⟨hne, -⟩
      · -- The sum would be its own only term.
        rcases mem_withConst (show t' ∈ withConst us c by rw [ht']; exact List.mem_singleton_self t') with hu | hconst
        · have hflat := addends_eq_singleton.1 (hterms t' hu).1
          rw [← hsum, hs] at hflat
          cases hflat
        · rw [← hsum, hs] at hconst
          cases hconst
      · exact hne t ht
    subst hts
    refine inNormalForm_sum.2 ⟨tidyTerms_withConst hone hterms hc, fun t ht => ?_⟩
    rcases mem_withConst ht with hu | rfl
    · exact ih t hu
    · simp [InNormalForm, parts, Tidy]

/-- The normal forms are the expressions that simplifying leaves alone. -/
theorem inNormalForm_iff {e : Expr} : e.InNormalForm ↔ e.simplify = e := by
  constructor
  · intro h
    exact h.normal.simplify
  · intro h
    rw [← h]
    exact (normal_simplify e).inNormalForm

/-! ## Simplifying again and again -/

/-- Simplifying by rules that simplify in their turn a negated sum, term by term, and what a factor `-1` negates. A
derivation is a run that comes to an end. -/
inductive Simplifies : Expr → Expr → Prop
  | const (v : Int64) : Simplifies (.const v) (.const v)
  | sym (s : String) : Simplifies (.sym s) (.sym s)
  | loc (l : Location) : Simplifies (.loc l) (.loc l)
  | slot (n : Nat) : Simplifies (.slot n) (.slot n)
  | negConst {e : Expr} {v : Int64} (h : Simplifies e (.const v)) : Simplifies (.neg e) (.const (-v))
  | negNeg {e r : Expr} (h : Simplifies e (.neg r)) : Simplifies (.neg e) r
  | negSum {e r : Expr} {ts : List Expr} (h : Simplifies e (.sum ts)) (hr : Simplifies (.sum (ts.map .neg)) r) :
    Simplifies (.neg e) r
  | negSign {e r : Expr} (h : Simplifies e r) (hr : r.takesSign = true) : Simplifies (.neg e) (.neg r)
  | minusLeft {a b b' r : Expr} (ha : Simplifies a (.const (-1))) (hb : Simplifies b b') (hc : b'.isConst = false)
    (hr : Simplifies (.neg b') r) : Simplifies (.mul a b) r
  | minusRight {a a' b r : Expr} (ha : Simplifies a a') (hb : Simplifies b (.const (-1))) (hc : a'.isConst = false)
    (hr : Simplifies (.neg a') r) : Simplifies (.mul a b) r
  | mul {a a' b b' : Expr} (ha : Simplifies a a') (hb : Simplifies b b')
    (hc : (a'.isConst && b'.isConst) = true ∨ a' ≠ .const (-1) ∧ b' ≠ .const (-1)) :
    Simplifies (.mul a b) (multiply a' b')
  | sum {ts us : List Expr} (hlen : ts.length = us.length) (h : ∀ p ∈ ts.zip us, Simplifies p.1 p.2) :
    Simplifies (.sum ts) (addAll us)

theorem simplifyAll_eq_map (ts : List Expr) : simplifyAll ts = ts.map simplify := by
  induction ts with
  | nil => rw [simplifyAll, List.map_nil]
  | cons t ts ih => rw [simplifyAll, ih, List.map_cons]

theorem multiply_minus_one_left {e : Expr} (h : e.isConst = false) : multiply (.const (-1)) e = e.negate := by
  cases e with
  | const _ => cases h
  | sym _ | loc _ | slot _ | neg _ | sum _ | mul _ _ => rfl

theorem multiply_minus_one_right {e : Expr} (h : e.isConst = false) : multiply e (.const (-1)) = e.negate := by
  cases e with
  | const _ => cases h
  | sym _ | loc _ | slot _ | neg _ | sum _ | mul _ _ => rfl

theorem simplify_sum_map_neg {ts : List Expr} (h : ∀ t ∈ ts, t.simplify = t) :
    (Expr.sum (ts.map .neg)).simplify = (Expr.sum ts).negate := by
  have hterms : (ts.map Expr.neg).map simplify = ts.map negate := by
    rw [List.map_map]
    exact List.map_congr_left fun t ht => by rw [Function.comp_apply, simplify, h t ht]
  rw [simplify, simplifyAll_eq_map, hterms, negate, negateAll_eq_map]

theorem Simplifies.eq {e r : Expr} (h : Simplifies e r) : r = e.simplify := by
  induction h with
  | const | sym | loc | slot => rw [simplify]
  | negConst _ ih => rw [simplify, ← ih, negate]
  | negNeg _ ih => rw [simplify, ← ih, negate]
  | @negSum e r ts _ _ ih ihr =>
    have hterms : ∀ t ∈ ts, t.simplify = t := by
      intro t ht
      have hsum := (normal_simplify e).inNormalForm
      rw [← ih] at hsum
      exact inNormalForm_iff.1 ((inNormalForm_sum.1 hsum).2 t ht)
    rw [ihr, simplify_sum_map_neg hterms, simplify, ← ih]
  | negSign _ hr ih => rw [simplify, ← ih, negate_of_takesSign hr]
  | minusLeft _ _ hc _ iha ihb ihr =>
    rw [ihr, simplify, ihb, simplify_simplify, simplify, ← iha, ← ihb, multiply_minus_one_left hc]
  | minusRight _ _ hc _ iha ihb ihr =>
    rw [ihr, simplify, iha, simplify_simplify, simplify, ← ihb, ← iha, multiply_minus_one_right hc]
  | mul _ _ _ iha ihb => rw [simplify, ← iha, ← ihb]
  | @sum ts us hlen _ ih =>
    have hus : us = ts.map simplify := by
      calc us = (ts.zip us).map (·.2) := (List.map_snd_zip hlen.ge).symm
        _ = (ts.zip us).map (simplify ·.1) := List.map_congr_left ih
        _ = ((ts.zip us).map (·.1)).map simplify := by rw [List.map_map]; rfl
        _ = ts.map simplify := by rw [List.map_fst_zip hlen.le]
    rw [simplify, simplifyAll_eq_map, hus]

theorem simplifies_map {ts : List Expr} {f g : Expr → Expr} (h : ∀ t ∈ ts, Simplifies (f t) (g t)) :
    Simplifies (.sum (ts.map f)) (addAll (ts.map g)) := by
  refine .sum (by simp) fun p hp => ?_
  rw [List.zip_map'] at hp
  obtain ⟨t, ht, rfl⟩ := List.mem_map.1 hp
  exact h t ht

theorem Normal.simplifies {e : Expr} (h : e.Normal) : Simplifies e e := by
  induction h with
  | const v => exact .const v
  | sym s => exact .sym s
  | loc l => exact .loc l
  | slot n => exact .slot n
  | neg h hn ih => exact .negSign ih (h.inNormalForm.takesSign hn)
  | mul ha hb hm iha ihb =>
    obtain ⟨-, hunita, hunitb⟩ := tidy_of_multiply ha.inNormalForm hb.inNormalForm hm
    have hne {e : Expr} (he : e.isUnitOrZero = false) : e ≠ .const (-1) := by
      rintro rfl
      simp [isUnitOrZero] at he
    have hrun := Simplifies.mul iha ihb (.inr ⟨hne hunita, hne hunitb⟩)
    rwa [hm] at hrun
  | @sum ts us c hts h hterms hc hs ih =>
    have hself : ∀ t ∈ ts, Simplifies t t := by
      intro t ht
      rcases mem_withConst (hts ▸ ht) with hu | rfl
      · exact ih t hu
      · exact .const c
    have hfixed := (Normal.sum hts h hterms hc hs).simplify
    rw [Expr.simplify, simplifyAll_of_fixed fun t ht => (hself t ht).eq.symm] at hfixed
    have hrun := simplifies_map (f := id) (g := id) hself
    rwa [List.map_id, hfixed] at hrun

/-- The rules negate a normal form. Those that negate a sum come to its terms, which are no sums themselves. -/
theorem InNormalForm.simplifies_neg {e r : Expr} (h : r.InNormalForm) (hrun : Simplifies e r) :
    Simplifies (.neg e) r.negate := by
  have hterm {e t : Expr} (hrun : Simplifies e t) (hflat : t.isSum = false) : Simplifies (.neg e) t.negate := by
    cases t with
    | const v => exact .negConst hrun
    | neg r => exact .negNeg hrun
    | sum _ => cases hflat
    | sym _ | loc _ | slot _ | mul _ _ => exact .negSign hrun rfl
  cases r with
  | sum ts =>
    obtain ⟨htidy, hterms⟩ := inNormalForm_sum.1 h
    rw [negate, negateAll_eq_map]
    exact .negSum hrun (simplifies_map fun t ht => hterm (hterms t ht).normal.simplifies (htidy.flat t ht))
  | const _ | sym _ | loc _ | slot _ | neg _ | mul _ _ => exact hterm hrun rfl

theorem simplifies_mul {a a' b b' : Expr} (ha : Simplifies a a') (hb : Simplifies b b') (ha' : a'.InNormalForm)
    (hb' : b'.InNormalForm) : Simplifies (.mul a b) (multiply a' b') := by
  by_cases hconst : (a'.isConst && b'.isConst) = true
  · exact .mul ha hb (.inl hconst)
  · by_cases hleft : a' = .const (-1)
    · subst hleft
      have hc : b'.isConst = false := by simpa [isConst] using hconst
      rw [multiply_minus_one_left hc]
      exact .minusLeft ha hb hc (hb'.simplifies_neg hb'.normal.simplifies)
    · by_cases hright : b' = .const (-1)
      · subst hright
        have hc : a'.isConst = false := by simpa [isConst] using hconst
        rw [multiply_minus_one_right hc]
        exact .minusRight ha hb hc (ha'.simplifies_neg ha'.normal.simplifies)
      · exact .mul ha hb (.inr ⟨hleft, hright⟩)

mutual

theorem simplifies_simplify (e : Expr) : Simplifies e e.simplify := by
  match e with
  | .const v =>
    rw [simplify]
    exact .const v
  | .sym s =>
    rw [simplify]
    exact .sym s
  | .loc l =>
    rw [simplify]
    exact .loc l
  | .slot n =>
    rw [simplify]
    exact .slot n
  | .neg e =>
    rw [simplify]
    exact (normal_simplify e).inNormalForm.simplifies_neg (simplifies_simplify e)
  | .sum ts =>
    rw [simplify, simplifyAll_eq_map]
    have hrun := simplifies_map (f := id) (simplifies_terms ts)
    rwa [List.map_id] at hrun
  | .mul a b =>
    rw [simplify]
    exact simplifies_mul (simplifies_simplify a) (simplifies_simplify b) (normal_simplify a).inNormalForm
      (normal_simplify b).inNormalForm

theorem simplifies_terms (ts : List Expr) : ∀ t ∈ ts, Simplifies t t.simplify := by
  match ts with
  | [] => simp
  | t :: ts =>
    rw [List.forall_mem_cons]
    exact ⟨simplifies_simplify t, simplifies_terms ts⟩

end

theorem simplifies_iff {e r : Expr} : Simplifies e r ↔ r = e.simplify := by
  constructor
  · exact Simplifies.eq
  · rintro rfl
    exact simplifies_simplify e

/-- Simplifying comes to an end on every expression, and with a normal form. The normal forms are the expressions that
it leaves alone, so to simplify again changes nothing. -/
theorem simplify_ends_in_normal_form (e : Expr) :
    (∀ r, Simplifies e r ↔ r = e.simplify) ∧ e.simplify.InNormalForm ∧ (e.InNormalForm ↔ e.simplify = e) ∧
      e.simplify.simplify = e.simplify := by
  refine ⟨fun r => simplifies_iff, ?_, inNormalForm_iff, simplify_simplify e⟩
  exact (normal_simplify e).inNormalForm

-- The sum that is negated has a sum among its terms, and one of its names is cancelled by what stands beside it.
example :
    (Expr.sum [.neg (.sum [.sym "a", .sum [.const 3, .mul (.const (-1)) (.sym "b")]]), .sym "a"]).simplify =
      .sum [.sym "b", .const (-3)] ∧ (Expr.sum [.sym "b", .const (-3)]).InNormalForm := by
  decide +kernel

end SpanLayout.Expr
