import SpanLayout.Expr.Simplify
import SpanLayout.Proofs.Expr.Distance

/-!
# What an expression mentions

Simplifying and taking distances out bring no new locations into an expression.
-/

namespace SpanLayout.Expr

mutual

/-- The locations that occur in an expression. -/
def locs : Expr → List Location
  | .loc l => [l]
  | .neg e => e.locs
  | .sum ts => locsAll ts
  | .mul a b => a.locs ++ b.locs
  | .const _ | .sym _ | .slot _ => []

/-- The locations that occur in the terms of a sum. -/
def locsAll : List Expr → List Location
  | [] => []
  | t :: ts => t.locs ++ locsAll ts

end

theorem mem_locsAll {l : Location} {ts : List Expr} : l ∈ locsAll ts ↔ ∃ t ∈ ts, l ∈ t.locs := by
  induction ts with
  | nil => simp [locsAll]
  | cons t ts ih => simp [locsAll, ih]

/-! ## Simplifying -/

theorem mem_addTerm {t u : Expr} {ts : List Expr} (h : u ∈ addTerm ts t) : u ∈ ts ∨ u = t := by
  unfold addTerm at h
  split at h
  · split at h
    · exact .inl (List.mem_of_mem_erase h)
    · simpa using h
  · simpa using h

theorem mem_foldl_addTerm {u : Expr} {ts acc : List Expr} (h : u ∈ ts.foldl addTerm acc) : u ∈ acc ∨ u ∈ ts := by
  induction ts generalizing acc with
  | nil => exact .inl h
  | cons t ts ih =>
    rcases ih h with hu | hu
    · rcases mem_addTerm hu with hu | rfl
      · exact .inl hu
      · exact .inr List.mem_cons_self
    · exact .inr (List.mem_cons_of_mem _ hu)

theorem mem_of_mem_cancel {u : Expr} {ts : List Expr} (h : u ∈ cancel ts) : u ∈ ts :=
  (mem_foldl_addTerm h).resolve_left List.not_mem_nil

theorem locs_addends (e : Expr) : locsAll e.addends = e.locs := by
  unfold addends
  split
  · rfl
  · simp [locsAll]

theorem locs_sumWith {l : Location} {ts : List Expr} {c : Int64} (h : l ∈ (sumWith ts c).locs) : l ∈ locsAll ts := by
  have hall : ∀ u ∈ (if c ≠ 0 ∨ ts = [] then ts ++ [.const c] else ts), l ∈ u.locs → l ∈ locsAll ts := by
    intro u hu hl
    split at hu
    · rcases List.mem_append.mp hu with hu | hu
      · exact mem_locsAll.mpr ⟨u, hu, hl⟩
      · rw [List.mem_singleton.mp hu] at hl
        cases hl
    · exact mem_locsAll.mpr ⟨u, hu, hl⟩
  unfold sumWith at h
  split at h
  · rename_i t ht
    exact hall t (by rw [ht]; exact List.mem_cons_self) h
  · obtain ⟨u, hu, hl⟩ := mem_locsAll.mp h
    exact hall u hu hl

theorem locs_addAll {l : Location} {ts : List Expr} (h : l ∈ (addAll ts).locs) : l ∈ locsAll ts := by
  obtain ⟨u, hu, hl⟩ := mem_locsAll.mp (locs_sumWith h)
  obtain ⟨t, ht, hut⟩ := List.mem_flatMap.mp (List.mem_filter.mp (mem_of_mem_cancel hu)).1
  refine mem_locsAll.mpr ⟨t, ht, ?_⟩
  rw [← locs_addends]
  exact mem_locsAll.mpr ⟨u, hut, hl⟩

mutual

theorem locs_negate {l : Location} (e : Expr) (h : l ∈ e.negate.locs) : l ∈ e.locs := by
  match e with
  | .const _ => exact h
  | .sym _ | .loc _ | .slot _ | .mul _ _ => exact h
  | .neg e => exact h
  | .sum ts =>
    rw [negate] at h
    exact locs_negateAll ts (locs_addAll h)

theorem locs_negateAll {l : Location} (ts : List Expr) (h : l ∈ locsAll (negateAll ts)) : l ∈ locsAll ts := by
  match ts with
  | [] => exact h
  | t :: ts =>
    rcases List.mem_append.mp h with h | h
    · exact List.mem_append_left _ (locs_negate t h)
    · exact List.mem_append_right _ (locs_negateAll ts h)

end

theorem locs_multiply {l : Location} {a b : Expr} (h : l ∈ (multiply a b).locs) : l ∈ a.locs ∨ l ∈ b.locs := by
  have hscale : ∀ (x : Int64) (e other : Expr), (l ∈ other.locs → l ∈ e.locs) →
      l ∈ (if x = 0 then const 0 else if x = 1 then e else if x = -1 then e.negate else other).locs → l ∈ e.locs := by
    intro x e other hother h
    split at h
    · cases h
    · split at h
      · exact h
      · split at h
        · exact locs_negate e h
        · exact hother h
  unfold multiply at h
  split at h
  · exact .inl h
  · exact .inr (hscale _ _ _ (fun h => by simpa [locs] using h) h)
  · exact .inl (hscale _ _ _ (fun h => by simpa [locs] using h) h)
  · simpa [locs] using h

mutual

theorem locs_simplify {l : Location} (e : Expr) (h : l ∈ e.simplify.locs) : l ∈ e.locs := by
  match e with
  | .const _ | .sym _ | .loc _ | .slot _ => exact h
  | .neg e => exact locs_simplify e (locs_negate _ h)
  | .sum ts => exact locs_simplifyAll ts (locs_addAll h)
  | .mul a b =>
    rcases locs_multiply h with h | h
    · exact List.mem_append_left _ (locs_simplify a h)
    · exact List.mem_append_right _ (locs_simplify b h)

theorem locs_simplifyAll {l : Location} (ts : List Expr) (h : l ∈ locsAll (simplifyAll ts)) : l ∈ locsAll ts := by
  match ts with
  | [] => exact h
  | t :: ts =>
    rcases List.mem_append.mp h with h | h
    · exact List.mem_append_left _ (locs_simplify t h)
    · exact List.mem_append_right _ (locs_simplifyAll ts h)

end

mutual

theorem locs_mapLoc (f : Location → Location) (e : Expr) : (e.mapLoc f).locs = e.locs.map f := by
  match e with
  | .const _ | .sym _ | .loc _ | .slot _ => rfl
  | .neg e => exact locs_mapLoc f e
  | .sum ts => exact locsAll_mapLocs f ts
  | .mul a b => rw [mapLoc, locs, locs, List.map_append, locs_mapLoc f a, locs_mapLoc f b]

theorem locsAll_mapLocs (f : Location → Location) (ts : List Expr) : locsAll (mapLocs f ts) = (locsAll ts).map f := by
  match ts with
  | [] => rfl
  | t :: ts => rw [mapLocs, locsAll, locsAll, List.map_append, locs_mapLoc f t, locsAll_mapLocs f ts]

end

/-! ## Distances -/

theorem mem_pairTerms {d : Distance} {next : Nat} {origins : List Location} {ts : List Expr}
    (h : d ∈ (pairTerms next origins ts).2) : d.origin ∈ origins ∧ Expr.loc d.target ∈ ts := by
  fun_induction pairTerms next origins ts with
  | case1 => cases h
  | case2 next origins l ts o ho us ds hds ih =>
    rcases List.mem_cons.mp h with rfl | h
    · exact ⟨List.mem_of_find?_eq_some ho, List.mem_cons_self⟩
    · obtain ⟨horigin, htarget⟩ := ih (by rw [hds]; exact h)
      exact ⟨List.mem_of_mem_erase horigin, List.mem_cons_of_mem _ htarget⟩
  | case3 next origins l ts ho us ds hds ih | case4 next origins t ts hloc us ds hds ih =>
    obtain ⟨horigin, htarget⟩ := ih (by rw [hds]; exact h)
    exact ⟨horigin, List.mem_cons_of_mem _ htarget⟩

theorem mem_pairSum {d : Distance} {next : Nat} {ts : List Expr} (h : d ∈ (pairSum next ts).2) :
    Expr.neg (.loc d.origin) ∈ ts ∧ Expr.loc d.target ∈ ts := by
  have hpair : d ∈ (pairTerms next (subtracted ts) ts).2 := by
    unfold pairSum at h
    split at h
    · cases h
    · rename_i hp
      rw [hp]
      split at h <;> exact h
  obtain ⟨horigin, htarget⟩ := mem_pairTerms hpair
  exact ⟨mem_of_mem_subtracted horigin, htarget⟩

theorem locs_pairTerms {l : Location} {next : Nat} {origins : List Location} {ts : List Expr} {t : Expr}
    (h : t ∈ (pairTerms next origins ts).1) (hl : l ∈ t.locs) : l ∈ locsAll ts := by
  fun_induction pairTerms next origins ts with
  | case1 => cases h
  | case2 next origins l' ts o ho us ds hds ih =>
    rcases List.mem_cons.mp h with rfl | h
    · cases hl
    · exact List.mem_append_right _ (ih (by rw [hds]; exact h))
  | case3 next origins l' ts ho us ds hds ih | case4 next origins t' ts hloc us ds hds ih =>
    rcases List.mem_cons.mp h with rfl | h
    · exact List.mem_append_left _ hl
    · exact List.mem_append_right _ (ih (by rw [hds]; exact h))

theorem mem_of_mem_dropSubtracted {t : Expr} {used : List Location} {ts : List Expr} (h : t ∈ dropSubtracted used ts) :
    t ∈ ts := by
  induction used generalizing ts with
  | nil => exact h
  | cons o used ih => exact List.mem_of_mem_erase (ih h)

theorem locs_pairSum {l : Location} {next : Nat} {ts : List Expr} (h : l ∈ (pairSum next ts).1.locs) :
    l ∈ locsAll ts := by
  unfold pairSum at h
  split at h
  · exact h
  · rename_i paired ds hne hp
    have hall : ∀ t ∈ (dropSubtracted (ds.map (·.origin)) paired).filter (· ≠ .const 0), l ∈ t.locs →
        l ∈ locsAll ts := by
      intro t ht hl
      exact locs_pairTerms (by rw [hp]; exact mem_of_mem_dropSubtracted (List.mem_filter.mp ht).1) hl
    split at h
    · cases h
    · rename_i t ht
      exact hall t (by rw [ht]; exact List.mem_cons_self) h
    · obtain ⟨t, ht, hl⟩ := mem_locsAll.mp h
      exact hall t ht hl

mutual

theorem locs_extract {l : Location} (next : Nat) (e : Expr) (h : l ∈ (e.extract next).1.locs) : l ∈ e.locs := by
  match e with
  | .const _ | .sym _ | .loc _ | .slot _ => exact h
  | .neg e => exact locs_extract next e h
  | .mul a b =>
    rcases List.mem_append.mp h with h | h
    · exact List.mem_append_left _ (locs_extract next a h)
    · exact List.mem_append_right _ (locs_extract _ b h)
  | .sum ts => exact locs_extractAll next ts (locs_pairSum h)

theorem locs_extractAll {l : Location} (next : Nat) (ts : List Expr) (h : l ∈ locsAll (extractAll next ts).1) :
    l ∈ locsAll ts := by
  match ts with
  | [] => exact h
  | t :: ts =>
    rcases List.mem_append.mp h with h | h
    · exact List.mem_append_left _ (locs_extract next t h)
    · exact List.mem_append_right _ (locs_extractAll _ ts h)

end

mutual

theorem mem_extract {d : Distance} (next : Nat) (e : Expr) (h : d ∈ (e.extract next).2) :
    d.origin ∈ e.locs ∧ d.target ∈ e.locs := by
  match e with
  | .const _ | .sym _ | .loc _ | .slot _ => cases h
  | .neg e => exact mem_extract next e h
  | .mul a b =>
    rcases List.mem_append.mp h with h | h
    · obtain ⟨ho, ht⟩ := mem_extract next a h
      exact ⟨List.mem_append_left _ ho, List.mem_append_left _ ht⟩
    · obtain ⟨ho, ht⟩ := mem_extract _ b h
      exact ⟨List.mem_append_right _ ho, List.mem_append_right _ ht⟩
  | .sum ts =>
    rcases List.mem_append.mp h with h | h
    · exact mem_extractAll next ts h
    · -- Sums inside have lost their own distances, but no location is new in them.
      obtain ⟨ho, ht⟩ := mem_pairSum h
      exact ⟨locs_extractAll next ts (mem_locsAll.mpr ⟨_, ho, List.mem_singleton.mpr rfl⟩),
        locs_extractAll next ts (mem_locsAll.mpr ⟨_, ht, List.mem_singleton.mpr rfl⟩)⟩

theorem mem_extractAll {d : Distance} (next : Nat) (ts : List Expr) (h : d ∈ (extractAll next ts).2) :
    d.origin ∈ locsAll ts ∧ d.target ∈ locsAll ts := by
  match ts with
  | [] => cases h
  | t :: ts =>
    rcases List.mem_append.mp h with h | h
    · obtain ⟨ho, ht⟩ := mem_extract next t h
      exact ⟨List.mem_append_left _ ho, List.mem_append_left _ ht⟩
    · obtain ⟨ho, ht⟩ := mem_extractAll _ ts h
      exact ⟨List.mem_append_right _ ho, List.mem_append_right _ ht⟩

end

theorem mem_distances {d : Distance} {e : Expr} (h : d ∈ e.distances.2) : d.origin ∈ e.locs ∧ d.target ∈ e.locs :=
  mem_extract 0 e h

/-! ## Values -/

variable {R : Type} [CommRing R]

mutual

theorem value_locs_congr {ρ ρ' : Valuation R} (hs : ρ.sym = ρ'.sym) (hn : ρ.slot = ρ'.slot) (e : Expr)
    (hl : ∀ l ∈ e.locs, ρ.loc l = ρ'.loc l) : e.value ρ = e.value ρ' := by
  match e with
  | .const _ => rfl
  | .sym s => rw [value, value, hs]
  | .slot n => rw [value, value, hn]
  | .loc l =>
    rw [value, value]
    exact hl l (by simp [locs])
  | .neg e =>
    rw [locs] at hl
    rw [value, value, value_locs_congr hs hn e hl]
  | .sum ts =>
    rw [locs] at hl
    rw [value, value, total_locs_congr hs hn ts hl]
  | .mul a b =>
    rw [locs] at hl
    rw [value, value, value_locs_congr hs hn a fun l h => hl l (List.mem_append_left _ h),
      value_locs_congr hs hn b fun l h => hl l (List.mem_append_right _ h)]

theorem total_locs_congr {ρ ρ' : Valuation R} (hs : ρ.sym = ρ'.sym) (hn : ρ.slot = ρ'.slot) (ts : List Expr)
    (hl : ∀ l ∈ locsAll ts, ρ.loc l = ρ'.loc l) : total ρ ts = total ρ' ts := by
  match ts with
  | [] => rfl
  | t :: ts =>
    rw [locsAll] at hl
    rw [total_cons, total_cons, value_locs_congr hs hn t fun l h => hl l (List.mem_append_left _ h),
      total_locs_congr hs hn ts fun l h => hl l (List.mem_append_right _ h)]

end

theorem value_of_eval_ofLocs {loc : Location → Option Int} {ρ : Valuation R} (e : Expr) {v : Int}
    (h : e.eval (.ofLocs loc) = some v) (hl : ∀ l ∈ e.locs, ∀ x, loc l = some x → ρ.loc l = x) : e.value ρ = v := by
  let ρ' : Valuation R := { ρ with loc := fun l => ((loc l).map (Int.cast : Int → R)).getD (ρ.loc l) }
  have hρ' : e.value ρ' = v := by
    refine value_of_eval (fun n x hx => by cases hx) (fun l x hx => ?_) e h
    show ((loc l).map (Int.cast : Int → R)).getD (ρ.loc l) = x
    rw [show loc l = some x from hx]
    rfl
  have hloc : ∀ l ∈ e.locs, ρ.loc l = ρ'.loc l := by
    intro l hle
    show ρ.loc l = ((loc l).map (Int.cast : Int → R)).getD (ρ.loc l)
    cases hx : loc l with
    | none => rfl
    | some x => exact hl l hle x hx
  rw [← hρ']
  exact value_locs_congr (show ρ.sym = ρ'.sym from rfl) (show ρ.slot = ρ'.slot from rfl) e hloc

end SpanLayout.Expr
