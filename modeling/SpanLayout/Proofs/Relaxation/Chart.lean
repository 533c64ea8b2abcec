import SpanLayout.Proofs.Lay
import SpanLayout.Proofs.Relaxation.Phases

/-!
# Numbers that stay

Directives may do as they like with their forms, and a failure may go unreported. The numbers of the fragments and of
the ends of terms are right nevertheless: nothing that happens to a fragment after the survey touches its number. -/

namespace SpanLayout

/-- The part of a plan that does not depend on what the fragments are. -/
structure Chart where
  number? : FragmentRef → Option Nat
  setters : List FragmentRef
  spans : List Span
  index : IntervalIndex (Nat × Nat)

def Plan.chart (p : Plan) : Chart := ⟨fun r => (p.frame? r).map (·.index), p.setters, p.spans, p.index⟩

/-- Fragments are numbered in their order, spans know the numbers of their fragments, and terms those of their ends. -/
structure Chart.Sound (c : Chart) : Prop where
  order : ∀ r r' i i', c.number? r = some i → c.number? r' = some i' → (i < i' ↔ r.Before r')
  seeds : ∀ span ∈ c.spans, ∀ i, c.number? span.seed.ref = some i → i = span.seed.index
  terms : ∀ span ∈ c.spans, ∀ t ∈ span.terms,
    c.number? t.distance.origin.fragment = some t.originIndex ∧
    c.number? t.distance.target.fragment = some t.targetIndex

variable {κ : Type} [Directive κ]

theorem Fragment.index_moveTo (offset : Nat) (f : Fragment (Tail κ)) : (f.moveTo offset).state.index = f.index := by
  unfold moveTo
  dsimp only
  split
  · exact index_expand 1 0 _ { f with offset }
  · rfl

theorem indices_layFragments (offset : Nat) (d : Diagnostics) (fs : List (Fragment (Tail κ))) :
    (layFragments offset d fs).1.map (·.index) = fs.map (·.index) := by
  induction fs generalizing offset d with
  | nil => rfl
  | cons f fs ih => exact congrArg₂ (· :: ·) (f.index_moveTo offset) (ih _ _)

namespace Relaxation

variable {s t : Relaxation κ}

theorem number?_chart (s : Relaxation κ) (r : FragmentRef) :
    s.plan.chart.number? r = (s.sections.fragment? r).map (·.index) := by
  show ((s.sections.fragment? r).map Fragment.frame).map (·.index) = _
  rw [Option.map_map]
  rfl

theorem number?_setFragment {r : FragmentRef} {f g : Fragment (Tail κ)} (hf : s.sections.fragment? r = some f)
    (hg : g.index = f.index) : (s.setFragment r g).plan.chart.number? = s.plan.chart.number? := by
  funext r'
  rw [number?_chart, number?_chart]
  by_cases hr : r = r'
  · subst hr
    rw [setFragment, Sections.fragment?_setFragment_self hf, hf, Option.map_some, Option.map_some, hg]
  · rw [setFragment, Sections.fragment?_setFragment_ne hr]

theorem chart_setFragment {r : FragmentRef} {f g : Fragment (Tail κ)} (hf : s.sections.fragment? r = some f)
    (hg : g.index = f.index) : (s.setFragment r g).plan.chart = s.plan.chart :=
  congrArg (Chart.mk · s.plan.setters s.plan.spans s.plan.index) (number?_setFragment hf hg)

theorem chart_lay (s : Relaxation κ) : s.lay.plan.chart = s.plan.chart := by
  have hnumber : s.lay.plan.chart.number? = s.plan.chart.number? := by
    funext r
    rw [number?_chart, number?_chart, show s.lay.sections = (s.sections.lay s.diags).1 from rfl, Sections.fragment?_eq,
      Sections.fragment?_eq, Sections.fragmentsOf_lay s.diags s.diags, ← List.getElem?_map, ← List.getElem?_map,
      indices_layFragments]
  exact congrArg (Chart.mk · s.plan.setters s.plan.spans s.plan.index) hnumber

/-! ## The first expansions -/

theorem watch_effect (s : Relaxation κ) (seed : Seed) :
    (∃ spans, (s.watch seed).spans = s.spans ++ spans ∧
      ∀ span ∈ spans, ∃ x, Span.ofSeed s.sections seed = .ok x ∧ span.outline = x.outline) ∧
      ((s.watch seed).sections = s.sections ∨ ∃ f id old new, s.sections.fragment? seed.ref = some f ∧
        (s.watch seed).sections = s.sections.setFragment seed.ref (f.expand id old new).state) ∧
      (s.watch seed).counts = s.counts ∧ (s.watch seed).others = s.others ∧ (s.watch seed).index = s.index ∧
      (s.watch seed).setters = s.setters := by
  unfold watch
  split
  · exact ⟨⟨[], by simp [report], by simp⟩, .inl rfl, rfl, rfl, rfl, rfl⟩
  · rename_i span hspan
    dsimp only
    split
    · split
      · exact ⟨⟨[], by simp [countRecalcs], by simp⟩, .inl rfl, rfl, rfl, rfl, rfl⟩
      · rename_i f hf
        split
        · exact ⟨⟨[], by simp [countRecalcs, report, setFragment], by simp⟩, .inr ⟨f, _, _, _, hf, rfl⟩, rfl, rfl,
            rfl, rfl⟩
        · exact ⟨⟨[], by simp [countRecalcs, setFragment], by simp⟩, .inr ⟨f, _, _, _, hf, rfl⟩, rfl, rfl, rfl, rfl⟩
        · split
          · exact ⟨⟨_, rfl, by simpa using ⟨span, hspan, rfl⟩⟩, .inr ⟨f, _, _, _, hf, rfl⟩, rfl, rfl, rfl, rfl⟩
          · exact ⟨⟨_, rfl, by simpa using ⟨span, hspan, rfl⟩⟩, .inr ⟨f, _, _, _, hf, rfl⟩, rfl, rfl, rfl, rfl⟩
    · exact ⟨⟨_, rfl, by simpa using ⟨span, hspan, rfl⟩⟩, .inl rfl, rfl, rfl, rfl, rfl⟩

theorem number?_watch (s : Relaxation κ) (seed : Seed) :
    (s.watch seed).plan.chart.number? = s.plan.chart.number? := by
  obtain ⟨-, hsections | ⟨f, id, old, new, hf, hsections⟩, -⟩ := s.watch_effect seed
  · funext r
    rw [number?_chart, number?_chart, hsections]
  · rw [← number?_setFragment hf (f.index_expand id old new)]
    funext r
    rw [number?_chart, number?_chart, hsections]
    rfl

theorem charted_watch (h : s.plan.chart.Sound) {seed : Seed}
    (hseed : ∀ i, s.plan.chart.number? seed.ref = some i → i = seed.index) : (s.watch seed).plan.chart.Sound := by
  obtain ⟨⟨new, hspans, hnew⟩, -⟩ := s.watch_effect seed
  have hmem {span : Span} (hspan : span ∈ (s.watch seed).plan.chart.spans) : span ∈ s.plan.chart.spans ∨
      ∃ x, Span.ofSeed s.sections seed = .ok x ∧ span = x.outline := by
    obtain ⟨y, hy, rfl⟩ := List.mem_map.1 hspan
    rw [hspans] at hy
    rcases List.mem_append.1 hy with hy | hy
    · exact .inl (List.mem_map_of_mem hy)
    · exact .inr (hnew y hy)
  refine ⟨?_, ?_, ?_⟩
  · rw [number?_watch]
    exact h.order
  · rw [number?_watch]
    intro span hspan
    rcases hmem hspan with hspan | ⟨x, hx, rfl⟩
    · exact h.seeds span hspan
    · rw [show x.outline.seed = seed from (Span.ofSeed_ok hx).1]
      exact hseed
  · rw [number?_watch]
    intro span hspan t ht
    rcases hmem hspan with hspan | ⟨x, hx, rfl⟩
    · exact h.terms span hspan t ht
    · obtain ⟨u, hu, rfl⟩ := List.mem_map.1 ht
      obtain ⟨-, ⟨a, ha, hai⟩, ⟨b, hb, hbi⟩⟩ := Span.anchored_ofSeed hx hu
      exact ⟨Option.map_eq_some_iff.2 ⟨a, ha, hai⟩, Option.map_eq_some_iff.2 ⟨b, hb, hbi⟩⟩

theorem charted_foldl_watch (h : s.plan.chart.Sound) {seeds : List Seed}
    (hseeds : ∀ seed ∈ seeds, ∀ i, s.plan.chart.number? seed.ref = some i → i = seed.index) :
    (seeds.foldl watch s).plan.chart.Sound := by
  induction seeds generalizing s with
  | nil => exact h
  | cons seed seeds ih =>
    refine ih (charted_watch h (hseeds seed List.mem_cons_self)) fun x hx => ?_
    rw [number?_watch]
    exact hseeds x (List.mem_cons_of_mem seed hx)

theorem charted_prepare (h : s.plan.chart.Sound) : s.prepare.plan.chart.Sound := by
  obtain ⟨diags, hprepare, -⟩ := s.prepare_eq
  rw [hprepare]
  exact ⟨h.order, h.seeds, h.terms⟩

end Relaxation

/-! ## The phases -/

namespace Sections

variable {ss : Sections κ}

theorem number?_surveyed {config : Config} {diags : Diagnostics} {r : FragmentRef} {i : Nat}
    (h : (ss.surveyed config diags).plan.chart.number? r = some i) :
    ∃ f, ss.fragment? r = some f ∧ i = Relaxation.number ss r := by
  rw [Relaxation.number?_chart] at h
  obtain ⟨g, hg, rfl⟩ := Option.map_eq_some_iff.1 h
  obtain ⟨f, at_, hf, rfl⟩ := (Relaxation.origins_surveySections 0 0 diags ss).1 r g hg
  obtain ⟨tail, tailLen, hstate⟩ :=
    ({ f with index := 0 + Relaxation.number ss r } : Fragment (Tail κ)).measureAt_state at_
  exact ⟨f, hf, by rw [hstate, Nat.zero_add]⟩

theorem charted_surveyed (config : Config) (diags : Diagnostics) (ss : Sections κ) :
    (ss.surveyed config diags).plan.chart.Sound := by
  have hnone : (ss.surveyed config diags).plan.chart.spans = [] := rfl
  refine ⟨fun r r' i i' hi hi' => ?_, by simp [hnone], by simp [hnone]⟩
  obtain ⟨f, hf, rfl⟩ := number?_surveyed hi
  obtain ⟨f', hf', rfl⟩ := number?_surveyed hi'
  exact Relaxation.number_lt_iff hf hf'

/-- Whatever the directives do, the numbers are right when the queues are about to be drained. -/
theorem charted_prepared (hr : ss.RefsMatch) (config : Config) (diags : Diagnostics) :
    (ss.prepared config diags).plan.chart.Sound := by
  have hseeds : ∀ seed ∈ (Relaxation.surveySections 0 0 diags ss).seeds, ∀ i,
      (ss.surveyed config diags).plan.chart.number? seed.ref = some i → i = seed.index := by
    intro seed hseed i hi
    obtain ⟨r, f, hf, href, hindex⟩ := (Relaxation.origins_surveySections 0 0 diags ss).2.1 seed hseed
    obtain ⟨-, -, rfl⟩ := number?_surveyed hi
    rw [hindex, href, hr r f hf, Nat.zero_add]
  have hwatched : (ss.watched config diags).plan.chart.Sound :=
    Relaxation.charted_foldl_watch (charted_surveyed config diags ss) hseeds
  refine Relaxation.charted_prepare ?_
  unfold rechecked
  rw [Relaxation.plan_recheck, Relaxation.chart_lay]
  exact hwatched

end Sections

end SpanLayout
