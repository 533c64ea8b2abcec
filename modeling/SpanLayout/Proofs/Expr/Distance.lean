import SpanLayout.Expr.Distance
import SpanLayout.Proofs.Expr.Meaning

/-!
# Taking distances out keeps the meaning

If every slot is worth the distance it stands for, an expression has the value it had before.
-/

namespace SpanLayout.Expr

variable {R : Type} [CommRing R]

/-- The slots from `next` on are worth the distances `ds`. -/
def SlotsHold (ρ : Valuation R) (next : Nat) (ds : List Distance) : Prop :=
  ∀ (i : Nat) (d : Distance), ds[i]? = some d → ρ.slot (next + i) = ρ.loc d.target - ρ.loc d.origin

theorem slotsHold_cons {ρ : Valuation R} {next : Nat} {d : Distance} {ds : List Distance}
    (h : SlotsHold ρ next (d :: ds)) :
    ρ.slot next = ρ.loc d.target - ρ.loc d.origin ∧ SlotsHold ρ (next + 1) ds := by
  refine ⟨h 0 d rfl, fun i d' hi => ?_⟩
  rw [Nat.add_assoc, Nat.add_comm 1 i]
  exact h (i + 1) d' (by simpa using hi)

theorem slotsHold_append {ρ : Valuation R} {next : Nat} {ds es : List Distance}
    (h : SlotsHold ρ next (ds ++ es)) : SlotsHold ρ next ds ∧ SlotsHold ρ (next + ds.length) es := by
  constructor
  · intro i d hi
    apply h i d
    rw [List.getElem?_append_left (List.getElem?_eq_some_iff.mp hi).1, hi]
  · intro i d hi
    rw [Nat.add_assoc]
    apply h (ds.length + i) d
    rw [List.getElem?_append_right (by omega), Nat.add_sub_cancel_left, hi]

/-! ## Dropping the origins -/

theorem subtracted_erase (o : Location) (ts : List Expr) :
    subtracted (ts.erase (.neg (.loc o))) = (subtracted ts).erase o := by
  induction ts with
  | nil => rfl
  | cons t ts ih =>
    by_cases ht : t = .neg (.loc o)
    · subst ht
      simp [subtracted]
    · rw [List.erase_cons_tail (by simpa using ht)]
      unfold subtracted at ih ⊢
      rw [List.filterMap_cons, List.filterMap_cons]
      split
      · exact ih
      · rename_i l hl
        have hlo : l ≠ o := by
          rintro rfl
          split at hl
          · exact ht (by rw [Option.some.inj hl])
          · simp at hl
        rw [List.erase_cons_tail (by simpa using hlo), ih]

theorem mem_of_mem_subtracted {o : Location} {ts : List Expr} (h : o ∈ subtracted ts) : Expr.neg (.loc o) ∈ ts := by
  obtain ⟨t, ht, ho⟩ := List.mem_filterMap.mp h
  split at ho
  · rw [← Option.some.inj ho]
    exact ht
  · simp at ho

theorem total_dropSubtracted (ρ : Valuation R) (used : List Location) (ts : List Expr)
    (h : ∀ o, used.count o ≤ (subtracted ts).count o) :
    total ρ (dropSubtracted used ts) = total ρ ts + (used.map ρ.loc).sum := by
  induction used generalizing ts with
  | nil => simp [dropSubtracted]
  | cons o used ih =>
    have hmem : Expr.neg (.loc o) ∈ ts := by
      apply mem_of_mem_subtracted
      apply List.count_pos_iff.mp
      have := h o
      rw [List.count_cons_self] at this
      omega
    have hrest : ∀ o', used.count o' ≤ (subtracted (ts.erase (.neg (.loc o)))).count o' := by
      intro o'
      have := h o'
      rw [List.count_cons] at this
      rw [subtracted_erase, List.count_erase]
      by_cases ho : o = o'
      · simp only [ho, beq_self_eq_true, if_true] at this ⊢
        omega
      · simp only [beq_eq_false_iff_ne.mpr ho] at this ⊢
        simpa using this
    have hstep : dropSubtracted (o :: used) ts = dropSubtracted used (ts.erase (.neg (.loc o))) := rfl
    rw [hstep, ih _ hrest, total_erase ρ hmem, List.map_cons, List.sum_cons, value, value]
    ring

/-! ## Pairing in one sum -/

theorem count_origins_pairTerms (next : Nat) (origins : List Location) (ts : List Expr) (o : Location) :
    ((pairTerms next origins ts).2.map (·.origin)).count o ≤ origins.count o := by
  fun_induction pairTerms next origins ts with
  | case1 => simp
  | case2 next origins l ts a ha us ds hds ih =>
    rw [hds] at ih
    rw [List.count_erase] at ih
    rw [List.map_cons, List.count_cons]
    by_cases hao : a = o
    · have hpos := List.count_pos_iff.mpr (List.mem_of_find?_eq_some ha)
      simp only [hao, beq_self_eq_true, if_true] at ih hpos ⊢
      omega
    · simp only [beq_eq_false_iff_ne.mpr hao] at ih ⊢
      simpa using ih
  | case3 next origins l ts ha us ds hds ih => simpa [hds] using ih
  | case4 next origins t ts hloc us ds hds ih => simpa [hds] using ih

theorem subtracted_pairTerms (next : Nat) (origins : List Location) (ts : List Expr) :
    subtracted (pairTerms next origins ts).1 = subtracted ts := by
  fun_induction pairTerms next origins ts with
  | case1 => rfl
  | case2 next origins l ts a ha us ds hds ih =>
    rw [hds] at ih
    simpa [subtracted] using ih
  | case3 next origins l ts ha us ds hds ih =>
    rw [hds] at ih
    simpa [subtracted] using ih
  | case4 next origins t ts hloc us ds hds ih =>
    rw [hds] at ih
    unfold subtracted at ih ⊢
    rw [List.filterMap_cons, List.filterMap_cons, ih]

theorem total_pairTerms {ρ : Valuation R} (next : Nat) (origins : List Location) (ts : List Expr)
    (h : SlotsHold ρ next (pairTerms next origins ts).2) :
    total ρ (pairTerms next origins ts).1 =
      total ρ ts - ((pairTerms next origins ts).2.map fun d => ρ.loc d.origin).sum := by
  fun_induction pairTerms next origins ts with
  | case1 => simp
  | case2 next origins l ts a ha us ds hds ih =>
    obtain ⟨hslot, hrest⟩ := slotsHold_cons h
    rw [hds] at ih
    simp only [total_cons, value, List.map_cons, List.sum_cons, ih hrest, hslot]
    ring
  | case3 next origins l ts ha us ds hds ih =>
    rw [hds] at ih
    simp only [total_cons, ih h]
    ring
  | case4 next origins t ts hloc us ds hds ih =>
    rw [hds] at ih
    simp only [total_cons, ih h]
    ring

theorem total_filter_ne_zero (ρ : Valuation R) (ts : List Expr) :
    total ρ (ts.filter (· ≠ .const 0)) = total ρ ts := by
  induction ts with
  | nil => rfl
  | cons t ts ih =>
    by_cases ht : t = .const 0
    · rw [List.filter_cons_of_neg (by simpa using ht), ih, total_cons, ht, value]
      simp
    · rw [List.filter_cons_of_pos (by simpa using ht), total_cons, total_cons, ih]

theorem value_pairSum {ρ : Valuation R} (next : Nat) (ts : List Expr) (h : SlotsHold ρ next (pairSum next ts).2) :
    (pairSum next ts).1.value ρ = total ρ ts := by
  unfold pairSum at h ⊢
  split
  · rw [value]
  · rename_i paired ds hne hp
    have hds : (pairTerms next (subtracted ts) ts).2 = ds := by rw [hp]
    have hslots : SlotsHold ρ next ds := by
      split at h
      · simp_all
      · split at h <;> simp_all
    have htotal : total ρ ((dropSubtracted (ds.map (·.origin)) paired).filter (· ≠ .const 0)) = total ρ ts := by
      have hcount : ∀ o, (ds.map (·.origin)).count o ≤ (subtracted paired).count o := by
        intro o
        have hsub := subtracted_pairTerms next (subtracted ts) ts
        rw [hp] at hsub
        rw [hsub, ← hds]
        exact count_origins_pairTerms next _ ts o
      have hpair := total_pairTerms next (subtracted ts) ts (by rw [hds]; exact hslots)
      rw [hp] at hpair
      rw [total_filter_ne_zero, total_dropSubtracted ρ _ _ hcount, hpair, List.map_map]
      simp [Function.comp_def]
    split
    · rename_i hnil
      rw [← htotal, hnil, value]
      simp
    · rename_i t hone
      rw [← htotal, hone]
      simp
    · rw [value, htotal]

/-! ## Whole expressions -/

mutual

theorem value_extract {ρ : Valuation R} (next : Nat) (e : Expr) (h : SlotsHold ρ next (e.extract next).2) :
    (e.extract next).1.value ρ = e.value ρ := by
  match e with
  | .const _ | .sym _ | .loc _ | .slot _ => rfl
  | .neg e => rw [extract, value, value, value_extract next e h]
  | .mul a b =>
    rw [extract] at h ⊢
    obtain ⟨ha, hb⟩ := slotsHold_append h
    rw [value, value, value_extract next a ha, value_extract _ b hb]
  | .sum ts =>
    rw [extract] at h ⊢
    obtain ⟨hts, hsum⟩ := slotsHold_append h
    rw [value_pairSum _ _ hsum, total_extractAll next ts hts, value]

theorem total_extractAll {ρ : Valuation R} (next : Nat) (ts : List Expr)
    (h : SlotsHold ρ next (extractAll next ts).2) : total ρ (extractAll next ts).1 = total ρ ts := by
  match ts with
  | [] => rw [extractAll]
  | t :: ts =>
    rw [extractAll] at h ⊢
    obtain ⟨ht, hts⟩ := slotsHold_append h
    rw [total_cons, total_cons, value_extract next t ht, total_extractAll _ ts hts]

end

theorem value_distances {ρ : Valuation R} (e : Expr) (h : SlotsHold ρ 0 e.distances.2) :
    e.distances.1.value ρ = e.value ρ :=
  value_extract 0 e h

end SpanLayout.Expr
