import Mathlib.Algebra.BigOperators.Group.Finset.Basic
import Mathlib.Algebra.Order.BigOperators.Group.Finset
import SpanLayout.Proofs.Cycle
import SpanLayout.Proofs.Relaxation.Limits
import SpanLayout.Proofs.Relaxation.Potential
import SpanLayout.Proofs.Relaxation.Reports
import SpanLayout.Proofs.Relaxation.Words

/-!
# Convergence

Where no count measures a distance over a setter that lies behind a repetition with a count, a run makes only so many
expansions: the cycle check finds weights for the counts, each greater than those of the counts that it changes
together. -/

namespace SpanLayout

/-! ## Weights for the counts -/

/-- A count does not extend over its own fragment. -/
def Span.Apart (span : Span) : Prop :=
  span.isCount = true → ∀ t ∈ span.terms, ¬ (t.low ≤ span.seed.index ∧ span.seed.index < t.high)

theorem Span.apart_outline {span : Span} : span.outline.Apart ↔ span.Apart := by
  constructor
  · intro h hc t ht
    exact h hc t.outline (List.mem_map_of_mem ht)
  · intro h hc t ht
    obtain ⟨u, hu, rfl⟩ := List.mem_map.mp ht
    exact h hc u hu

theorem Span.measureTerm_apart {ss : Sections Empty} {seed : Seed} {d : Distance} {t : Term}
    (h : measureTerm ss seed d = .ok t) (hid : seed.request.id ≤ 0) : ¬ (t.low ≤ seed.index ∧ seed.index < t.high) := by
  unfold measureTerm at h
  split at h
  · dsimp only at h
    split at h
    · cases h
    · rename_i hno
      obtain rfl := Except.ok.inj h
      exact fun hover => hno ⟨hid, hover⟩
  · cases h

theorem Span.apart_ofSeed {ss : Sections Empty} {seed : Seed} {span : Span} (h : ofSeed ss seed = .ok span) :
    span.Apart := by
  obtain ⟨hseed, -, -, -, -, hterms⟩ := ofSeed_ok h
  intro hc t ht
  obtain ⟨d, -, hd⟩ := exists_of_forall₂_right hterms ht
  rw [hseed]
  refine measureTerm_apart hd ?_
  rw [← hseed]
  exact of_decide_eq_true hc

/-- No count measures a distance over a setter that lies behind the repetition of a count. -/
def Plan.Clear (p : Plan) : Prop :=
  ∀ x ∈ p.spans, x.isCount = true → ∀ r ∈ p.setters.drop x.seed.settersBefore,
    r.sectionIndex = x.seed.ref.sectionIndex → ∀ a, p.frame? r = some a →
      ∀ y ∈ p.spans, y.isCount = true → ∀ t ∈ y.terms, ¬ (t.low ≤ a.index ∧ a.index < t.high)

theorem Plan.Clear.rippled_eq_zero {p : Plan} (h : p.Clear) (hi : p.Indexed) (weight : Nat → Nat) {x : Span}
    (hx : x ∈ p.spans) (hc : x.isCount = true) :
    p.rippled weight x.seed.ref.sectionIndex (p.setters.drop x.seed.settersBefore) = 0 := by
  refine List.sum_eq_zero fun w hw => ?_
  obtain ⟨r, hr, rfl⟩ := List.mem_map.mp hw
  split
  · rename_i hsec
    cases ha : p.frame? r with
    | none => rfl
    | some a =>
      show p.burden weight a.index = 0
      refine Finset.sum_eq_zero fun n _ => if_neg ?_
      rintro ⟨hcount, hhit⟩
      obtain ⟨⟨m, j⟩, hmem, rfl⟩ := List.mem_map.mp hhit
      obtain ⟨y, t, hy, ht, hover⟩ := (hi.mem _ _ _).mp hmem
      rw [hy] at hcount
      exact h x hx hc r hr hsec a ha y (List.mem_of_getElem? hy) hcount t (List.mem_of_getElem? ht) hover
  · rfl

namespace Relaxation

/-- The numbers of the counts. -/
def countNumbers (s : Relaxation Empty) : List Nat :=
  (List.range s.spans.length).filter fun i => s.spans[i]?.any Span.isCount

theorem hasErrors_foldl {α : Type} {f : Relaxation Empty → α → Relaxation Empty}
    (hf : ∀ t a, t.diags.hasErrors = true → (f t a).diags.hasErrors = true) (l : List α) {s : Relaxation Empty}
    (h : s.diags.hasErrors = true) : (l.foldl f s).diags.hasErrors = true := by
  induction l generalizing s with
  | nil => exact h
  | cons a l ih => exact ih (hf s a h)

theorem closingEdges_of_checkCycles {s : Relaxation Empty} (h : s.checkCycles.diags.hasErrors = false) :
    Cycle.closingEdges s.spans.length s.dependents s.countNumbers = [] := by
  have hlt : ∀ v ∈ Cycle.closingEdges s.spans.length s.dependents s.countNumbers, v < s.spans.length :=
    Cycle.lt_of_mem_closingEdges fun v hv => List.mem_range.mp (List.mem_filter.mp hv).1
  unfold checkCycles at h
  dsimp only at h
  rw [show ((List.range s.spans.length).filter fun i => s.spans[i]?.any Span.isCount) = s.countNumbers from rfl] at h
  generalize Cycle.closingEdges s.spans.length s.dependents s.countNumbers = edges at hlt h
  cases edges with
  | nil => rfl
  | cons i edges =>
    rw [List.foldl_cons, List.getElem?_eq_getElem (hlt i List.mem_cons_self)] at h
    refine absurd (h.symm.trans (hasErrors_foldl ?_ edges (Diagnostics.hasErrors_report_one s.diags _))) (by decide)
    intro t j ht
    split
    · exact Diagnostics.hasErrors_report ht _
    · exact ht

theorem mem_dependents {κ : Type} {s : Relaxation κ} {n m : Nat} {span : Span} (hn : s.spans[n]? = some span)
    (hc : span.isCount = true) :
    m ∈ s.dependents n ↔ m ∈ (s.index.query span.seed.index span.seed.index).map (·.1) ∧ m ≠ n ∧
      s.spans[m]?.any Span.isCount = true := by
  unfold dependents
  rw [hn]
  dsimp only
  rw [if_pos hc, List.mem_eraseDups, List.mem_filter]
  simp only [Bool.and_eq_true, decide_eq_true_eq]

theorem any_isCount_plan (s : Relaxation Empty) (n : Nat) :
    s.plan.spans[n]?.any Span.isCount = s.spans[n]?.any Span.isCount := by
  rw [show s.plan.spans = s.spans.map Span.outline from rfl, List.getElem?_map]
  cases s.spans[n]? <;> rfl

theorem nodup_eraseDups (l : List Nat) : l.eraseDups.Nodup := by
  induction h : l.length using Nat.strong_induction_on generalizing l with
  | _ k ih =>
    cases l with
    | nil => exact List.nodup_nil
    | cons a l =>
      rw [List.eraseDups_cons, List.nodup_cons]
      refine ⟨fun hmem => ?_, ih _ ?_ _ rfl⟩
      · simp [List.mem_eraseDups] at hmem
      · rw [← h, List.length_cons]
        exact Nat.lt_succ_of_le (List.length_filter_le _ _)

theorem nodup_dependents (s : Relaxation Empty) (n : Nat) : (s.dependents n).Nodup := by
  unfold dependents
  split
  · exact List.nodup_nil
  · split
    · exact nodup_eraseDups _
    · exact List.nodup_nil

theorem burden_eq {s : Relaxation Empty} (weight : Nat → Nat) (hi : s.plan.Indexed)
    {n : Nat} {span : Span} (hn : s.spans[n]? = some span) (hc : span.isCount = true) (hapart : span.Apart) :
    s.plan.burden weight span.seed.index = ((s.dependents n).map weight).sum := by
  have hself : n ∉ (s.index.query span.seed.index span.seed.index).map (·.1) := by
    intro hmem
    obtain ⟨⟨m, j⟩, hhit, rfl⟩ := List.mem_map.mp hmem
    obtain ⟨x, t, hx, ht, hover⟩ := (hi.mem _ _ _).mp hhit
    rw [show s.plan.spans = s.spans.map Span.outline from rfl, List.getElem?_map, hn] at hx
    obtain rfl := Option.some.inj hx
    exact Span.apart_outline.mpr hapart hc t (List.mem_of_getElem? ht) hover
  rw [← List.sum_toFinset weight (nodup_dependents s n), Plan.burden, ← Finset.sum_filter]
  refine Finset.sum_congr ?_ fun _ _ => rfl
  ext m
  rw [Finset.mem_filter, Finset.mem_range, List.mem_toFinset, mem_dependents hn hc, any_isCount_plan]
  constructor
  · rintro ⟨-, hcount, hhit⟩
    exact ⟨hhit, fun hm => hself (hm ▸ hhit), hcount⟩
  · rintro ⟨hhit, -, hcount⟩
    refine ⟨?_, hcount, hhit⟩
    rw [show s.plan.spans.length = s.spans.length from List.length_map _]
    by_contra hlt
    rw [List.getElem?_eq_none (Nat.le_of_not_lt hlt)] at hcount
    cases hcount

/-- If no count depends on itself, counts can be charged more than what they change. -/
theorem exists_covers {s : Relaxation Empty} (ss : Sections Empty) (hi : s.plan.Indexed) (hclear : s.plan.Clear)
    (hapart : ∀ span ∈ s.spans, span.Apart)
    (h : Cycle.closingEdges s.spans.length s.dependents s.countNumbers = []) :
    ∃ p : Tariff, p.sections = ss ∧ p.Covers s.plan := by
  have hlt : ∀ v, ∀ d ∈ s.dependents v, d < s.spans.length := by
    intro v d hd
    unfold dependents at hd
    split at hd
    · cases hd
    · split at hd
      · rw [List.mem_eraseDups, List.mem_filter] at hd
        by_contra hlt
        simp [List.getElem?_eq_none (Nat.le_of_not_lt hlt)] at hd
      · cases hd
  obtain ⟨weight, hweight⟩ := Cycle.exists_weight hlt h
  refine ⟨⟨ss, weight, 1 + (s.plan.spans.map fun x => s.plan.load weight x.seed).sum⟩, rfl, fun n x hx hc => ?_,
    fun x hx => ?_⟩
  · rw [show s.plan.spans = s.spans.map Span.outline from rfl, List.getElem?_map] at hx
    obtain ⟨span, hn, rfl⟩ := Option.map_eq_some_iff.mp hx
    have hmem : n ∈ s.countNumbers := by
      refine List.mem_filter.mpr ⟨List.mem_range.mpr (List.getElem?_eq_some_iff.mp hn).1, ?_⟩
      rw [hn]
      exact hc
    have hburden := burden_eq weight hi hn hc (hapart span (List.mem_of_getElem? hn))
    have hweight := hweight n hmem
    have hripple : s.plan.rippled weight span.seed.ref.sectionIndex (s.plan.setters.drop span.seed.settersBefore) = 0 :=
      hclear.rippled_eq_zero hi weight (x := span.outline) (List.mem_map_of_mem (List.mem_of_getElem? hn)) hc
    show s.plan.load weight span.seed < weight n
    rw [Plan.load]
    omega
  · have := List.single_le_sum (fun _ _ => Nat.zero_le _) _
        (List.mem_map_of_mem (f := fun x => s.plan.load weight x.seed) hx)
    dsimp only
    omega

/-! ## The spans of a run -/

/-- What holds of the spans of a relaxation that has still to watch `seeds`, of `all` there were. -/
structure Registered (ss : Sections Empty) (all seeds : List Seed) (s : Relaxation Empty) : Prop where
  origin : ∀ span ∈ s.spans, span.seed ∈ all
  admitted : ∀ span ∈ s.spans, span.Admitted ss
  apart : ∀ span ∈ s.spans, span.Apart
  length : s.spans.length + seeds.length ≤ all.length

theorem Registered.add {ss : Sections Empty} {all seeds : List Seed} {seed : Seed} {s t : Relaxation Empty}
    (h : s.Registered ss all (seed :: seeds)) (spans : List Span) (ht : t.spans = s.spans ++ spans)
    (hlen : spans.length ≤ 1) (hseed : ∀ span ∈ spans, span.seed ∈ all) (hadm : ∀ span ∈ spans, span.Admitted ss)
    (hapart : ∀ span ∈ spans, span.Apart) : t.Registered ss all seeds := by
  have hlength := h.length
  rw [List.length_cons] at hlength
  refine ⟨?_, ?_, ?_, by rw [ht, List.length_append]; omega⟩ <;> rw [ht] <;> intro span hspan <;>
    rcases List.mem_append.mp hspan with hspan | hspan
  · exact h.origin span hspan
  · exact hseed span hspan
  · exact h.admitted span hspan
  · exact hadm span hspan
  · exact h.apart span hspan
  · exact hapart span hspan

/-- A seed whose fragment can ask for a span with its window. Counts have none. -/
def Seed.Admitted (ss : Sections Empty) (seed : Seed) : Prop :=
  0 < seed.request.id → ∃ f, ss.fragment? seed.ref = some f ∧ f.Admits seed.request.id seed.request.window

theorem Registered.watch {ss : Sections Empty} {all seeds : List Seed} {seed : Seed} {s : Relaxation Empty}
    (h : s.Registered ss all (seed :: seeds)) (hflat : ss.Flat) (hr : ss.Reshaped s.sections) (hall : seed ∈ all)
    (ha : Seed.Admitted ss seed) {f : Fragment (Tail Empty)} (hf : s.sections.fragment? seed.ref = some f)
    (hd : (s.watch seed).diags.hasErrors = false) : (s.watch seed).Registered ss all seeds := by
  obtain ⟨span, ho, hcases⟩ := watch_cases hf hd
  obtain ⟨hseed, hwindow, -⟩ := Span.ofSeed_ok ho
  have hpos (y : Span) (hy : y.seed = span.seed) (hc : y.isCount = false) : 0 < seed.request.id := by
    have hid : ¬ y.seed.request.id ≤ 0 := of_decide_eq_false hc
    rw [hy, hseed] at hid
    omega
  rcases hcases with ⟨-, he⟩ | ⟨x, -, hx, -, he⟩ <;> rw [he]
  · refine h.add _ rfl (Nat.le_refl 1) ?_ ?_ ?_ <;> intro y hy <;> obtain rfl := List.mem_singleton.mp hy
    · show span.seed ∈ all
      rw [hseed]
      exact hall
    · intro hc
      obtain ⟨g, hg, hadm⟩ := ha (hpos _ rfl hc)
      refine ⟨g, ?_, ?_⟩
      · show ss.fragment? span.seed.ref = some g
        rw [hseed]
        exact hg
      · show g.Admits span.seed.request.id span.window
        rw [hwindow, hseed]
        exact hadm
    · exact fun hc t ht => Span.apart_ofSeed ho hc t ht
  · refine h.add _ rfl (by cases x.window <;> simp) ?_ ?_ ?_ <;> intro y hy <;>
      obtain ⟨w, hw, rfl⟩ := List.mem_map.mp hy
    · show span.seed ∈ all
      rw [hseed]
      exact hall
    · -- The window comes from an expansion, which asks for nothing that the fragment does not admit.
      intro hc
      obtain ⟨g, hg, hadm⟩ := ha (hpos _ rfl hc)
      obtain ⟨g', hg', hreshaped⟩ := hr _ f hf
      obtain rfl := Option.some.inj (hg.symm.trans hg')
      have halike := hreshaped.alike (hflat _ g hg)
      refine ⟨g, ?_, ?_⟩
      · show ss.fragment? span.seed.ref = some g
        rw [hseed]
        exact hg
      · show g.Admits span.seed.request.id w
        rw [hseed]
        exact (halike.admits _ w).1 (Fragment.expand_admits ((halike.admits _ _).2 hadm) hx (Option.mem_toList.mp hw))
    · exact fun hc t ht => Span.apart_ofSeed ho hc t ht

end Relaxation

namespace Sections

variable {config : Config} {diags : Diagnostics} {ss : Sections Empty}

/-- Whether the widths of all fields are such that a word can ask for them. -/
def Sized (ss : Sections Empty) : Prop :=
  ∀ r f, ss.fragment? r = some f → f.Sized

instance (ss : Sections Empty) : Decidable ss.Sized :=
  inferInstanceAs (Decidable (∀ r f, ss.fragment? r = some f → f.Sized))

theorem admitted_surveyed (hr : ss.RefsMatch) (hflat : ss.Flat) (hs : ss.Sized)
    (hd : (ss.surveyed config diags).diags.hasErrors = false) {seed : Seed}
    (hseed : seed ∈ (Relaxation.surveySections 0 0 diags ss).seeds) :
    Relaxation.Seed.Admitted (ss.surveyed config diags).sections seed := by
  intro hpos
  obtain ⟨r, f, g, requests, hf, hg, ⟨offset, hm⟩, hq, href, -⟩ := Relaxation.mem_seeds_surveySections hd hseed
  rw [href, hr r f hf]
  refine ⟨g, hg, ?_⟩
  have hsized : ({ f with index := 0 + Relaxation.number ss r } : Fragment (Tail Empty)).Sized :=
    (hs r f hf).of_tail rfl
  rcases Fragment.measureAt_admits (by exact hflat r f hf) hsized hm hq with ⟨-, hadm⟩ | hcount
  · exact hadm
  · obtain ⟨t, -, hcount⟩ := Fragment.exists_of_mem_countRequests hcount
    obtain ⟨count, body, reps, -, -, he⟩ := Tail.mem_countRequests hcount
    rw [he] at hpos
    cases hpos

theorem registered_watched (hr : ss.RefsMatch) (hflat : ss.Flat) (hs : ss.Sized)
    (hd : (ss.watched config diags).diags.hasErrors = false) :
    (ss.watched config diags).Registered (ss.surveyed config diags).sections
      (Relaxation.surveySections 0 0 diags ss).seeds [] := by
  obtain ⟨hds, -, -⟩ := watching_watched hr hd
  have hsurveyed := flat_surveyed hflat hds
  have hnone : (ss.surveyed config diags).spans = [] := rfl
  refine (Relaxation.Watching.induct (P := fun seeds s =>
      s.Registered (ss.surveyed config diags).sections (Relaxation.surveySections 0 0 diags ss).seeds seeds ∧
        (ss.surveyed config diags).sections.Reshaped s.sections ∧
        ∀ seed ∈ seeds, seed ∈ (Relaxation.surveySections 0 0 diags ss).seeds)
    (watching_surveyed hr hds) (fun seed hseed => placed_surveyed hr hds hseed) hd
    ⟨⟨by simp [hnone], by simp [hnone], by simp [hnone], by simp [hnone]⟩, .refl _, fun _ h => h⟩ ?_).1
  rintro seed seeds s f hf - hd hsame ⟨h, hreshaped, hall⟩
  have hmem := hall seed List.mem_cons_self
  exact ⟨h.watch hsurveyed hreshaped hmem (admitted_surveyed hr hflat hs hds hmem) hf hd,
    hreshaped.trans hsame.reshaped, fun x hx => hall x (List.mem_cons_of_mem seed hx)⟩

theorem spans_prepared {x : Span} (hx : x ∈ (ss.prepared config diags).spans) :
    ∃ span ∈ (ss.watched config diags).spans, x.outline = span.outline ∧ x.window = span.window := by
  obtain ⟨d, he, -⟩ := (ss.rechecked config diags).prepare_eq
  rw [prepared, he] at hx
  have hspans : x ∈ (ss.watched config diags).lay.recheck.spans := hx
  rw [Relaxation.spans_recheck] at hspans
  obtain ⟨span, hspan, rfl⟩ := List.mem_map.mp hspans
  refine ⟨span, hspan, span.outline_rechecked _, ?_⟩
  unfold Span.rechecked
  dsimp only
  split <;> rfl

theorem length_spans_prepared (config : Config) (diags : Diagnostics) (ss : Sections Empty) :
    (ss.prepared config diags).spans.length = (ss.watched config diags).spans.length := by
  obtain ⟨d, he, -⟩ := (ss.rechecked config diags).prepare_eq
  rw [prepared, he]
  show (ss.watched config diags).lay.recheck.spans.length = _
  rw [Relaxation.spans_recheck, List.length_map]
  rfl

theorem registered_prepared (hr : ss.RefsMatch) (hflat : ss.Flat) (hs : ss.Sized)
    (hd : (ss.rechecked config diags).diags.hasErrors = false) :
    (ss.prepared config diags).Registered (ss.surveyed config diags).sections
      (Relaxation.surveySections 0 0 diags ss).seeds [] := by
  have h := registered_watched hr hflat hs (hasErrors_watched hd)
  refine ⟨?_, ?_, ?_, by rw [length_spans_prepared]; exact h.length⟩ <;> intro x hx <;>
    obtain ⟨span, hspan, ho, hw⟩ := spans_prepared hx <;> have hseed := Span.seed_of_outline ho
  · rw [hseed]
    exact h.origin span hspan
  · have hadm := h.admitted span hspan
    unfold Span.Admitted at hadm ⊢
    rw [Span.isCount_of_seed hseed, Span.id, hseed, hw]
    exact hadm
  · rw [← Span.apart_outline, ho, Span.apart_outline]
    exact h.apart span hspan

theorem closingEdges_prepared (hd : (ss.prepared config diags).diags.hasErrors = false) :
    Cycle.closingEdges (ss.prepared config diags).spans.length (ss.prepared config diags).dependents
      (ss.prepared config diags).countNumbers = [] := by
  have hcheck : (ss.rechecked config diags).indexed.checkCycles.diags.hasErrors = false := hd
  obtain ⟨d, he, -⟩ := (ss.rechecked config diags).indexed.checkCycles_eq
  have hprepared : ss.prepared config diags = { (ss.rechecked config diags).indexed with diags := d } := he
  have hedges := Relaxation.closingEdges_of_checkCycles hcheck
  rw [hprepared]
  exact hedges

/-! ## Bounds for runs -/

/-- A tariff that covers what counts change bounds the expansions of a run. -/
theorem draining_within (hr : ss.RefsMatch) (hflat : ss.Flat) (hs : ss.Sized) (hw : ss.RunsInWords config diags)
    (hd : (ss.rechecked config diags).diags.hasErrors = false) {p : Tariff}
    (hp : p.sections = (ss.surveyed config diags).sections) (hc : p.Covers (ss.prepared config diags).plan)
    {s : Relaxation Empty} (h : (ss.prepared config diags).Draining s) :
    s.stats.expansions ≤ (ss.prepared config diags).cost p ∧
      s.stats.spans = (Relaxation.surveySections 0 0 diags ss).seeds.length ∧
      ((ss.prepared config diags).cost p ≤ config.maxExpansions → ∀ t, s.step ≠ .exhausted t) := by
  have hdw := hasErrors_watched hd
  obtain ⟨hds, -, -⟩ := watching_watched hr hdw
  obtain ⟨hconsistent, hmeasured⟩ := consistent_prepared hr hw.laid hd
  have hwords :
      ∀ t, (ss.prepared config diags).Draining t → t.sections.InWords (ss.prepared config diags).measured := by
    rw [hmeasured]
    exact hw.draining
  have hflat' : p.sections.Flat := hp ▸ flat_surveyed hflat hds
  have hreshaped : p.sections.Reshaped (ss.prepared config diags).sections := hp ▸ reshaped_prepared hr hw.laid hd
  have hadm : ∀ span ∈ (ss.prepared config diags).spans, span.Admitted p.sections :=
    hp ▸ (registered_prepared hr hflat hs hd).admitted
  obtain ⟨hexp, hspans⟩ := stats_prepared config diags ss
  have hconfig := config_prepared config diags ss
  obtain ⟨hcost, hspans', -⟩ := h.cost_le hconsistent.upheld hwords hflat' hreshaped hc hadm
  refine ⟨by omega, hspans'.trans hspans, fun hb =>
    h.not_exhausted hconsistent.upheld hwords hflat' hreshaped hc hadm ?_⟩
  rw [hconfig]
  omega

end Sections

end SpanLayout
