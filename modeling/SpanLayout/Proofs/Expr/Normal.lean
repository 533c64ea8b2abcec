import SpanLayout.Proofs.Expr.Mentions
import SpanLayout.Proofs.Expr.Simplify

/-!
# Normal forms

What simplifying leaves is left alone if it is simplified again. No constants of it are added up any more, so to
subtract a location from it is exact, whatever overflowed before. -/

namespace SpanLayout.Expr

/-! ## Cancelling -/

/-- No term cancels another. -/
def Uncancelled (ts : List Expr) : Prop := ∀ t ∈ ts, ∀ o, t.opposite? = some o → o ∉ ts

theorem opposite?_symm {t o : Expr} (h : t.opposite? = some o) : o.opposite? = some t := by
  unfold opposite? at h
  split at h <;> cases h <;> rfl

theorem opposite?_ne {t o : Expr} (h : t.opposite? = some o) : o ≠ t := by
  unfold opposite? at h
  split at h <;> cases h <;> simp

theorem Uncancelled.addTerm {ts : List Expr} (h : Uncancelled ts) (t : Expr) : Uncancelled (addTerm ts t) := by
  have happend (ho : ∀ o, t.opposite? = some o → o ∉ ts) : Uncancelled (ts ++ [t]) := by
    intro u hu o hopp hmem
    rcases List.mem_append.1 hu with hu | hu <;> rcases List.mem_append.1 hmem with hmem | hmem
    · exact h u hu o hopp hmem
    · cases List.mem_singleton.1 hmem
      exact ho u (opposite?_symm hopp) hu
    · cases List.mem_singleton.1 hu
      exact ho o hopp hmem
    · cases List.mem_singleton.1 hu
      exact opposite?_ne hopp (List.mem_singleton.1 hmem)
  unfold Expr.addTerm
  cases hopp : t.opposite? with
  | none => exact happend fun o ho => by rw [hopp] at ho; cases ho
  | some o =>
    dsimp only
    split
    · exact fun u hu o' ho' hmem => h u (List.mem_of_mem_erase hu) o' ho' (List.mem_of_mem_erase hmem)
    · rename_i hmem
      refine happend fun o' ho' => ?_
      rw [hopp] at ho'
      cases ho'
      exact hmem

theorem uncancelled_cancel (ts : List Expr) : Uncancelled (cancel ts) := by
  have hfold (acc : List Expr) (hacc : Uncancelled acc) : Uncancelled (ts.foldl addTerm acc) := by
    induction ts generalizing acc with
    | nil => exact hacc
    | cons t ts ih => exact ih _ (hacc.addTerm t)
  exact hfold [] (by simp [Uncancelled])

theorem cancel_of_uncancelled {ts : List Expr} (h : Uncancelled ts) : cancel ts = ts := by
  have hfold (acc : List Expr) (hacc : Uncancelled (acc ++ ts)) : ts.foldl addTerm acc = acc ++ ts := by
    clear h
    induction ts generalizing acc with
    | nil => simp
    | cons t ts ih =>
      have ht : addTerm acc t = acc ++ [t] := by
        unfold addTerm
        cases hopp : t.opposite? with
        | none => rfl
        | some o => exact if_neg fun hmem => hacc t (by simp) o hopp (by simp [hmem])
      rw [List.foldl_cons, ht, ih _ (by simpa using hacc)]
      simp
  exact hfold [] h

theorem cancel_singleton (u : Expr) : cancel [u] = [u] := by
  unfold cancel addTerm
  cases hu : u.opposite? <;> simp [hu]

/-! ## Normal forms -/

/-- The terms of a sum and its constant, which is left out if it is zero and not alone. -/
def withConst (us : List Expr) (c : Int64) : List Expr := if c ≠ 0 ∨ us = [] then us ++ [.const c] else us

/-- What simplifying leaves. -/
inductive Normal : Expr → Prop
  | const (v : Int64) : Normal (.const v)
  | sym (s : String) : Normal (.sym s)
  | loc (l : Location) : Normal (.loc l)
  | slot (n : Nat) : Normal (.slot n)
  | neg {e : Expr} (h : Normal e) (hn : e.negate = .neg e) : Normal (.neg e)
  | mul {a b : Expr} (ha : Normal a) (hb : Normal b) (hm : multiply a b = .mul a b) : Normal (.mul a b)
  | sum {ts us : List Expr} {c : Int64} (hts : ts = withConst us c) (h : ∀ u ∈ us, Normal u)
    (hterms : ∀ u ∈ us, u.addends = [u] ∧ u.isConst = false) (hc : Uncancelled us) (hs : sumWith us c = .sum ts) :
    Normal (.sum ts)

theorem mem_withConst {us : List Expr} {c : Int64} {t : Expr} (h : t ∈ withConst us c) : t ∈ us ∨ t = .const c := by
  unfold withConst at h
  split at h
  · simpa using h
  · exact .inl h

theorem filter_isConst_withConst {us : List Expr} {c : Int64} (h : ∀ u ∈ us, u.isConst = false) :
    (withConst us c).filter (!·.isConst) = us ∧
      (withConst us c).filter isConst = if c ≠ 0 ∨ us = [] then [.const c] else [] := by
  have hus : us.filter (!·.isConst) = us := List.filter_eq_self.2 fun u hu => by simp [h u hu]
  have hus' : us.filter isConst = [] := List.filter_eq_nil_iff.2 fun u hu => by simp [h u hu]
  unfold withConst
  split
  · rw [List.filter_append, List.filter_append, hus, hus']
    exact ⟨List.append_nil us, rfl⟩
  · exact ⟨hus, hus'⟩

theorem foldl_constantPart (c : Int64) (ts : List Expr) :
    ts.foldl (· + constantPart ·) c = (ts.filter isConst).foldl (· + constantPart ·) c := by
  induction ts generalizing c with
  | nil => rfl
  | cons t ts ih =>
    cases ht : t.isConst with
    | true => rw [List.filter_cons_of_pos ht, List.foldl_cons, List.foldl_cons, ih]
    | false =>
      have hpart : constantPart t = 0 := by
        cases t <;> simp_all [isConst, constantPart]
      rw [List.filter_cons_of_neg (by simp [ht]), List.foldl_cons, hpart, ih]
      simp

theorem simplifyAll_of_fixed {ts : List Expr} (h : ∀ t ∈ ts, t.simplify = t) : simplifyAll ts = ts := by
  induction ts with
  | nil => rw [simplifyAll]
  | cons t ts ih => rw [simplifyAll, h t (by simp), ih fun u hu => h u (by simp [hu])]

theorem flatMap_addends {ts : List Expr} (h : ∀ t ∈ ts, t.addends = [t]) : ts.flatMap addends = ts := by
  induction ts with
  | nil => rfl
  | cons t ts ih => rw [List.flatMap_cons, h t (by simp), ih fun u hu => h u (by simp [hu]), List.singleton_append]

theorem foldl_constantPart_withConst {us : List Expr} {c : Int64} (h : ∀ u ∈ us, u.isConst = false) :
    (withConst us c).foldl (· + constantPart ·) 0 = c := by
  rw [foldl_constantPart, (filter_isConst_withConst h).2]
  split
  · simp [constantPart]
  · rename_i hzero
    have : c = 0 := by
      by_contra hne
      exact hzero (.inl hne)
    simp [this]

theorem simplify_sumWith {us : List Expr} {c : Int64} (h : ∀ u ∈ us, u.simplify = u)
    (hterms : ∀ u ∈ us, u.addends = [u] ∧ u.isConst = false) : (sumWith us c).simplify = sumWith (cancel us) c := by
  have hfixed : ∀ t ∈ withConst us c, t.simplify = t ∧ t.addends = [t] := by
    intro t ht
    rcases mem_withConst ht with hu | rfl
    · exact ⟨h t hu, (hterms t hu).1⟩
    · exact ⟨by rw [Expr.simplify], rfl⟩
  have hsum : addAll (withConst us c) = sumWith (cancel us) c := by
    unfold addAll
    dsimp only
    rw [flatMap_addends fun t ht => (hfixed t ht).2, foldl_constantPart_withConst fun u hu => (hterms u hu).2,
      (filter_isConst_withConst fun u hu => (hterms u hu).2).1]
  have hall := simplifyAll_of_fixed fun t ht => (hfixed t ht).1
  rw [sumWith, show (if c ≠ 0 ∨ us = [] then us ++ [.const c] else us) = withConst us c from rfl]
  split
  · -- A single term is the constant, or there is no constant.
    rename_i t ht
    rw [(hfixed t (by rw [ht]; exact List.mem_singleton_self t)).1]
    unfold withConst at ht
    match us with
    | [] =>
      rw [if_pos (.inr rfl)] at ht
      simpa [cancel, sumWith] using (List.singleton_inj.1 ht).symm
    | [u] =>
      by_cases hc : c = 0
      · subst hc
        rw [cancel_singleton]
        simpa [sumWith] using ht.symm
      · simp [hc] at ht
    | _ :: _ :: _ =>
      have := congrArg List.length ht
      split at this <;> simp at this
  · rw [Expr.simplify, hall, hsum]

theorem Normal.simplify {e : Expr} (h : Normal e) : e.simplify = e := by
  induction h with
  | const | sym | loc | slot => rw [Expr.simplify]
  | neg _ hn ih => rw [Expr.simplify, ih, hn]
  | mul _ _ hm iha ihb => rw [Expr.simplify, iha, ihb, hm]
  | sum _ _ hterms hc hs ih => rw [← hs, simplify_sumWith ih hterms, cancel_of_uncancelled hc]

theorem Normal.addends {e : Expr} (h : Normal e) : ∀ t ∈ e.addends, Normal t ∧ t.addends = [t] := by
  cases h with
  | sum hts h hterms _ _ =>
    intro t ht
    rcases mem_withConst (hts ▸ ht) with hu | rfl
    · exact ⟨h t hu, (hterms t hu).1⟩
    · exact ⟨.const _, rfl⟩
  | const | sym | loc | slot | neg | mul =>
    intro t ht
    cases List.mem_singleton.1 ht
    exact ⟨by constructor <;> assumption, rfl⟩

theorem sumWith_cases (us : List Expr) (c : Int64) :
    (∃ t, withConst us c = [t] ∧ sumWith us c = t) ∨
      (∀ t, withConst us c ≠ [t]) ∧ sumWith us c = .sum (withConst us c) := by
  unfold sumWith
  split
  · rename_i t ht
    exact .inl ⟨t, ht, rfl⟩
  · rename_i hne
    exact .inr ⟨hne, rfl⟩

theorem normal_sumWith {us : List Expr} (h : ∀ u ∈ us, Normal u)
    (hterms : ∀ u ∈ us, u.addends = [u] ∧ u.isConst = false) (hc : Uncancelled us) (c : Int64) :
    Normal (sumWith us c) := by
  rcases sumWith_cases us c with ⟨t, ht, hsum⟩ | ⟨-, hsum⟩
  · rw [hsum]
    rcases mem_withConst (show t ∈ withConst us c by rw [ht]; simp) with hu | rfl
    · exact h t hu
    · exact .const c
  · rw [hsum]
    exact .sum rfl h hterms hc hsum

theorem normal_addAll {ts : List Expr} (h : ∀ t ∈ ts, Normal t) : Normal (addAll ts) := by
  have hflat : ∀ t ∈ ts.flatMap addends, Normal t ∧ t.addends = [t] := by
    intro t ht
    obtain ⟨u, hu, ht⟩ := List.mem_flatMap.1 ht
    exact (h u hu).addends t ht
  have hmem {u : Expr} (hu : u ∈ cancel ((ts.flatMap addends).filter (!·.isConst))) :
      u ∈ ts.flatMap addends ∧ u.isConst = false := by
    simpa using List.mem_filter.1 (mem_of_mem_cancel hu)
  exact normal_sumWith (fun u hu => (hflat u (hmem hu).1).1) (fun u hu => ⟨(hflat u (hmem hu).1).2, (hmem hu).2⟩)
    (uncancelled_cancel _) _

theorem negateAll_eq_map (ts : List Expr) : negateAll ts = ts.map negate := by
  induction ts with
  | nil => rw [negateAll, List.map_nil]
  | cons t ts ih => rw [negateAll, ih, List.map_cons]

theorem normal_negate {e : Expr} (h : Normal e) : Normal e.negate := by
  induction h with
  | const v =>
    rw [negate]
    exact .const _
  | sym s =>
    rw [negate]
    exact .neg (.sym s) (by rw [negate])
  | loc l =>
    rw [negate]
    exact .neg (.loc l) (by rw [negate])
  | slot n =>
    rw [negate]
    exact .neg (.slot n) (by rw [negate])
  | neg h _ _ =>
    rw [negate]
    exact h
  | mul ha hb hm _ _ =>
    rw [negate]
    exact .neg (.mul ha hb hm) (by rw [negate])
  | sum hts _ _ _ _ ih =>
    rw [negate, negateAll_eq_map]
    refine normal_addAll fun t ht => ?_
    obtain ⟨u, hu, rfl⟩ := List.mem_map.1 ht
    rcases mem_withConst (hts ▸ hu) with hu | rfl
    · exact ih u hu
    · rw [negate]
      exact .const _

theorem normal_scale {x : Int64} {b other : Expr} (hb : Normal b)
    (ho : x ≠ 0 → x ≠ 1 → x ≠ -1 → Normal other) :
    Normal (if x = 0 then .const 0 else if x = 1 then b else if x = -1 then b.negate else other) := by
  split
  · exact .const 0
  · split
    · exact hb
    · split
      · exact normal_negate hb
      · exact ho ‹_› ‹_› ‹_›

theorem normal_multiply {a b : Expr} (ha : Normal a) (hb : Normal b) : Normal (multiply a b) := by
  unfold multiply
  split
  · exact .const _
  · refine normal_scale hb fun h0 h1 h2 => .mul ha hb ?_
    simp_all [multiply]
  · refine normal_scale ha fun h0 h1 h2 => .mul ha hb ?_
    simp_all [multiply]
  · refine .mul ha hb ?_
    simp_all [multiply]

mutual

theorem normal_simplify (e : Expr) : Normal e.simplify := by
  match e with
  | .const v =>
    rw [simplify]
    exact .const v
  | .sym s =>
    rw [simplify]
    exact .sym s
  | .loc l =>
    rw [simplify]
    exact .loc l
  | .slot n =>
    rw [simplify]
    exact .slot n
  | .neg e =>
    rw [simplify]
    exact normal_negate (normal_simplify e)
  | .sum ts =>
    rw [simplify]
    exact normal_addAll (normal_simplifyAll ts)
  | .mul a b =>
    rw [simplify]
    exact normal_multiply (normal_simplify a) (normal_simplify b)

theorem normal_simplifyAll (ts : List Expr) : ∀ t ∈ simplifyAll ts, Normal t := by
  match ts with
  | [] =>
    rw [simplifyAll]
    simp
  | t :: ts =>
    rw [simplifyAll]
    intro u hu
    rcases List.mem_cons.1 hu with rfl | hu
    · exact normal_simplify t
    · exact normal_simplifyAll ts u hu

end

theorem simplify_simplify (e : Expr) : e.simplify.simplify = e.simplify := (normal_simplify e).simplify

/-! ## Exact differences -/

variable {R : Type} [CommRing R]

theorem Normal.constants {e : Expr} (h : Normal e) :
    e.addends.filter isConst = [] ∨ ∃ c, e.addends.filter isConst = [.const c] := by
  cases h with
  | @sum ts us c hts _ hterms _ _ =>
    have := (filter_isConst_withConst (c := c) fun u hu => (hterms u hu).2).2
    rw [Expr.addends, hts, this]
    split
    · exact .inr ⟨c, rfl⟩
    · exact .inl rfl
  | const v => exact .inr ⟨v, rfl⟩
  | sym | loc | slot | neg | mul => exact .inl rfl

theorem Normal.cancel_terms {e : Expr} (h : Normal e) :
    cancel (e.addends.filter (!·.isConst)) = e.addends.filter (!·.isConst) := by
  cases h with
  | @sum ts us c hts _ hterms hc _ =>
    rw [Expr.addends, hts, (filter_isConst_withConst (c := c) fun u hu => (hterms u hu).2).1, cancel_of_uncancelled hc]
  | const v => rfl
  | sym | loc | slot | neg | mul => exact cancel_singleton _

theorem Normal.minus_loc {e : Expr} (h : Normal e) (l : Location) :
    (Expr.minus e (.loc l)).simplify =
      sumWith (cancel (e.addends.filter (!·.isConst) ++ [.neg (.loc l)])) (e.addends.foldl (· + constantPart ·) 0) := by
  have hsimp : (Expr.minus e (.loc l)).simplify = addAll [e, .neg (.loc l)] := by
    rw [minus, Expr.simplify, simplifyAll, h.simplify, simplifyAll, Expr.simplify, Expr.simplify, negate, simplifyAll]
  have hflat : [e, .neg (.loc l)].flatMap Expr.addends = e.addends ++ [Expr.neg (.loc l)] := by
    simp [Expr.addends]
  rw [hsimp]
  unfold addAll
  dsimp only
  rw [hflat, List.filter_append, List.foldl_append]
  simp [isConst, constantPart]

/-- Subtracting a location from a normal form is exact in every ring. -/
theorem Normal.value_minus_loc {e : Expr} (h : Normal e) (ρ : Valuation R) (l : Location) :
    (Expr.minus e (.loc l)).simplify.value ρ = e.value ρ - ρ.loc l := by
  have hconst : ((e.addends.foldl (· + constantPart ·) 0).toInt : R) = total ρ (e.addends.filter isConst) := by
    rw [foldl_constantPart]
    rcases h.constants with hc | ⟨c, hc⟩
    · rw [hc]
      simp
    · rw [hc]
      simp [constantPart, value]
  rw [h.minus_loc, value_sumWith, total_cancel, hconst, total_append, total_cons, total_nil, value, value]
  have hsplit := total_filter_add ρ isConst e.addends
  rw [total_addends] at hsplit
  rw [← hsplit]
  ring

/-! ## Moving the location -/

mutual

theorem mapLoc_of_not_mentions {r : FragmentRef} {f : Location → Location} (hf : ∀ l, l.fragment ≠ r → f l = l)
    (e : Expr) (h : e.mentionsFragment r = false) : e.mapLoc f = e := by
  match e with
  | .loc l =>
    rw [mapLoc, hf l (by simpa [mentionsFragment] using h)]
  | .neg e =>
    rw [mentionsFragment] at h
    rw [mapLoc, mapLoc_of_not_mentions hf e h]
  | .sum ts =>
    rw [mentionsFragment] at h
    rw [mapLoc, mapLocs_of_not_mentions hf ts h]
  | .mul a b =>
    rw [mentionsFragment, Bool.or_eq_false_iff] at h
    rw [mapLoc, mapLoc_of_not_mentions hf a h.1, mapLoc_of_not_mentions hf b h.2]
  | .const _ | .sym _ | .slot _ => rfl

theorem mapLocs_of_not_mentions {r : FragmentRef} {f : Location → Location} (hf : ∀ l, l.fragment ≠ r → f l = l)
    (ts : List Expr) (h : anyMentionsFragment r ts = false) : mapLocs f ts = ts := by
  match ts with
  | [] => rfl
  | t :: ts =>
    rw [anyMentionsFragment, Bool.or_eq_false_iff] at h
    rw [mapLocs, mapLoc_of_not_mentions hf t h.1, mapLocs_of_not_mentions hf ts h.2]

end

theorem mapLocs_eq_map (f : Location → Location) (ts : List Expr) : mapLocs f ts = ts.map (mapLoc f) := by
  induction ts with
  | nil => rfl
  | cons t ts ih => rw [mapLocs, ih, List.map_cons]

theorem mentionsFragment_of_mem_addends {r : FragmentRef} {e t : Expr} (h : e.mentionsFragment r = false)
    (ht : t ∈ e.addends) : t.mentionsFragment r = false := by
  cases e with
  | sum ts =>
    rw [mentionsFragment] at h
    rw [Expr.addends] at ht
    induction ts with
    | nil => cases ht
    | cons u ts ih =>
      rw [anyMentionsFragment, Bool.or_eq_false_iff] at h
      rcases List.mem_cons.1 ht with rfl | ht
      · exact h.1
      · exact ih h.2 ht
  | const _ | sym _ | loc _ | slot _ | neg _ | mul _ _ =>
    rw [List.mem_singleton.1 ht]
    exact h

theorem mapLoc_sumWith (f : Location → Location) (us : List Expr) (c : Int64) :
    (sumWith us c).mapLoc f = sumWith (us.map (mapLoc f)) c := by
  have hwith : (withConst us c).map (mapLoc f) = withConst (us.map (mapLoc f)) c := by
    by_cases hc : c ≠ 0 ∨ us = []
    · rw [withConst, if_pos hc, withConst, if_pos (hc.imp_right (by rintro rfl; rfl)), List.map_append,
        List.map_cons, mapLoc]
      rfl
    · rw [withConst, if_neg hc, withConst, if_neg fun h => hc (h.imp_right List.map_eq_nil_iff.1)]
  rcases sumWith_cases us c with ⟨t, ht, hsum⟩ | ⟨hne, hsum⟩ <;>
    rcases sumWith_cases (us.map (mapLoc f)) c with ⟨u, hu, hsum'⟩ | ⟨hne', hsum'⟩ <;> rw [hsum, hsum']
  · rw [← hwith, ht, List.map_singleton, List.singleton_inj] at hu
    exact hu
  · exact absurd (by rw [← hwith, ht, List.map_singleton]) (hne' (t.mapLoc f))
  · rw [← hwith, List.map_eq_singleton_iff] at hu
    obtain ⟨t, ht, -⟩ := hu
    exact absurd ht (hne t)
  · rw [mapLoc, mapLocs_eq_map, hwith]

theorem Normal.mapLoc_minus_loc {e : Expr} (h : Normal e) {r : FragmentRef} (he : e.mentionsFragment r = false)
    {f : Location → Location} (hf : ∀ l, l.fragment ≠ r → f l = l) {l : Location} (hl : l.fragment = r) :
    ((Expr.minus e (.loc l)).simplify.mapLoc f).simplify = (Expr.minus e (.loc (f l))).simplify := by
  have hmem {t : Expr} (ht : t ∈ e.addends.filter (!·.isConst)) :
      (Normal t ∧ t.addends = [t]) ∧ t.isConst = false ∧ t.mentionsFragment r = false := by
    obtain ⟨ht, hc⟩ := List.mem_filter.1 ht
    exact ⟨h.addends t ht, by simpa using hc, mentionsFragment_of_mem_addends he ht⟩
  -- The location is not among the terms, so it cancels nothing.
  have hcancel : cancel (e.addends.filter (!·.isConst) ++ [.neg (.loc l)]) =
      e.addends.filter (!·.isConst) ++ [.neg (.loc l)] := by
    have hnot : Expr.loc l ∉ cancel (e.addends.filter (!·.isConst)) := by
      rw [h.cancel_terms]
      intro hl'
      have := (hmem hl').2.2
      simp [mentionsFragment, hl] at this
    rw [cancel, List.foldl_append, ← cancel, List.foldl_cons, List.foldl_nil, addTerm]
    simp only [opposite?]
    rw [if_neg hnot, h.cancel_terms]
  have hmap : (e.addends.filter (!·.isConst)).map (mapLoc f) = e.addends.filter (!·.isConst) := by
    conv_rhs => rw [← List.map_id (e.addends.filter (!·.isConst))]
    exact List.map_congr_left fun t ht => mapLoc_of_not_mentions hf t (hmem ht).2.2
  rw [h.minus_loc, hcancel, mapLoc_sumWith, List.map_append, hmap, simplify_sumWith]
  · exact (h.minus_loc (f l)).symm
  · intro u hu
    rcases List.mem_append.1 hu with hu | hu
    · exact (hmem hu).1.1.simplify
    · rw [List.mem_singleton.1 hu]
      rfl
  · intro u hu
    rcases List.mem_append.1 hu with hu | hu
    · exact ⟨(hmem hu).1.2, (hmem hu).2.1⟩
    · rw [List.mem_singleton.1 hu]
      exact ⟨rfl, rfl⟩

end SpanLayout.Expr
