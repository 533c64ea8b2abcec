import SpanLayout.Proofs.Relaxation.History
import SpanLayout.Proofs.Relaxation.Limits
import SpanLayout.Proofs.Relaxation.Words

/-!
# How a relaxation ends

A relaxation that succeeds ends with empty queues. Then every value that a form depends on lies in the window of the
form, in the very layout that the relaxation leaves. -/

namespace SpanLayout

/-! ## Values in a layout -/

namespace Sections

/-- How far it is from one location to another, given the lengths of the fragments. -/
def extent (ss : Sections Empty) (d : Distance) : Int := (ss.position d.target : Int) - ss.position d.origin

/-- What a value comes to, given the lengths of the fragments, if it can be computed from distances. -/
def valueOf? (ss : Sections Empty) (v : Value) : Option Int :=
  if v.isRelative then none
  else
    match v.abs with
    | some e => e.distances.1.eval (.ofSlots fun n => e.distances.2[n]?.map ss.extent)
    | none => some 0

theorem valueOf?_congr {ss tt : Sections Empty} (h : ∀ l, tt.position l = ss.position l) (v : Value) :
    tt.valueOf? v = ss.valueOf? v := by
  have hextent : tt.extent = ss.extent := by
    funext d
    rw [extent, extent, h, h]
  unfold valueOf?
  rw [hextent]

end Sections

theorem Span.compute_of_terms {span : Span} (hexpr : span.expr = span.seed.request.value.abs.map (·.distances.1))
    (hdistances : span.terms.map (·.distance) = (span.seed.request.value.abs.map (·.distances.2)).getD [])
    {ss : Sections Empty} (ht : ∀ t ∈ span.terms, t.length = ss.span t) :
    span.compute = (ss.valueOf? span.seed.request.value).getD unknownValue := by
  unfold Span.compute Sections.valueOf?
  rw [hexpr]
  split
  · rfl
  · cases ha : span.seed.request.value.abs with
    | none => rfl
    | some e =>
      rw [ha, Option.map_some, Option.getD_some] at hdistances
      have hslots (n : Nat) : span.terms[n]?.map (·.length) = e.distances.2[n]?.map ss.extent := by
        rw [← hdistances, List.getElem?_map, Option.map_map]
        cases hn : span.terms[n]? with
        | none => rfl
        | some t => exact congrArg some (ht t (List.mem_of_getElem? hn))
      simp only [Option.map_some, hslots]

theorem Span.Covers.compute {locations : List Location} {r : FragmentRef} {q : SpanRequest} {span : Span}
    (h : span.Covers locations r q) {ss : Sections Empty} (ht : ∀ t ∈ span.terms, t.length = ss.span t) :
    span.compute = (ss.valueOf? q.value).getD unknownValue := by
  rw [← h.value]
  exact compute_of_terms (h.value ▸ h.expr) (h.value ▸ h.distances) ht

/-! ## The end -/

/-- A relaxation whose queues are empty, and the layout it leads to. -/
structure Relaxation.Ends (start : Sections Empty) (s : Relaxation Empty) (tt : Sections Empty) : Prop where
  consistent : s.Consistent
  covered : s.Covered s.measured
  idle : s.queued = 0
  words : s.sections.InWords s.measured
  reshaped : start.Reshaped s.sections
  fragments : ∀ k, tt.fragmentsOf k = Fragment.placeFrom 0 (s.sections.fragmentsOf k)

namespace Sections

variable {config : Config} {diags : Diagnostics} {ss : Sections Empty}

theorem sections_prepared (config : Config) (diags : Diagnostics) (ss : Sections Empty) :
    (ss.prepared config diags).sections = (ss.rechecked config diags).sections := by
  obtain ⟨d, hprepare, -⟩ := (ss.rechecked config diags).prepare_eq
  unfold prepared
  rw [hprepare]
  rfl

theorem queued_prepared (hr : ss.RefsMatch) (hd : (ss.watched config diags).diags.hasErrors = false)
    (hidle : (ss.rechecked config diags).others = []) : (ss.prepared config diags).queued = 0 := by
  obtain ⟨d, hprepare, -⟩ := (ss.rechecked config diags).prepare_eq
  have hcounts : (ss.prepared config diags).counts = [] := by
    unfold prepared
    rw [hprepare]
    exact (watching_watched hr hd).2.1.counts
  have hothers : (ss.prepared config diags).others = [] := by
    unfold prepared
    rw [hprepare]
    exact hidle
  rw [Relaxation.queued, hcounts, hothers]
  rfl

/-- A relaxation that succeeds leaves the layout of a state with empty queues. -/
theorem relax_settles (hr : ss.RefsMatch) (hs : ss.Steady) (hp : ss.Modest) (hwords : ss.RunsInWords config diags)
    {t : Relaxation Empty} {stats : Stats}
    (h : ss.relax config diags = .done t stats) :
    ∃ s, (ss.prepared config diags).Draining s ∧ s.Ends (ss.surveyed config diags).sections t.sections := by
  obtain ⟨hsurvey, hwatched, hlaid, hend⟩ := relax_done h
  have hd : (ss.rechecked config diags).diags.hasErrors = false := hlaid
  obtain ⟨hconsistent, hmeasured⟩ := consistent_prepared hr hwords.laid hd
  have hcovered := covered_prepared hr hs hp hwords.stays hd
  have hreshaped := reshaped_prepared hr hwords.laid hd
  rw [← hmeasured] at hcovered
  rcases hend with ⟨hidle, rfl⟩ | ⟨-, hrun, -, rfl⟩
  · refine ⟨_, .start, hconsistent, hcovered, queued_prepared hr hwatched hidle, ?_, hreshaped, fun k => ?_⟩
    · rw [hmeasured]
      exact hwords.draining _ .start
    · rw [sections_prepared]
      exact ((lay_spec hlaid hwords.laid.lengths).2.2 k).2.1
  · have hexp := (stats_prepared config diags ss).1
    obtain ⟨hdrain, hidle⟩ := Relaxation.run_drains config.maxExpansions .start
      (by rw [config_prepared, hexp, Nat.zero_add]) hrun
    have hstays (u : Relaxation Empty) (hu : (ss.prepared config diags).Draining u) :
        u.sections.InWords (ss.prepared config diags).measured := hmeasured ▸ hwords.draining u hu
    have hsteady := steady_prepared hr hs hwords.laid hd
    obtain ⟨hc, hplan, -, hresh⟩ := hdrain.consistent hconsistent hsteady (fun u hu _ => hstays u hu) hrun
    have hsame := Relaxation.measured_of_plan (congrArg Plan.spans hplan)
    have hcov := hdrain.covered hconsistent hsteady (fun u hu _ => hstays u hu)
      (fun u v hu hv _ => hmeasured ▸ hwords.moving u v hu hv) hcovered hrun
    refine ⟨_, hdrain, hc, hsame ▸ hcov, hidle, hsame ▸ hstays _ hdrain, hreshaped.trans hresh, ?_⟩
    exact (lay_of_padded _ hc.padded (hstays _ hdrain).lengths).2

end Sections

/-! ## What the end says -/

theorem Relaxation.QueuesHold.within {s : Relaxation Empty} (h : s.QueuesHold) (hidle : s.queued = 0) {span : Span}
    (hspan : span ∈ s.spans) (hc : span.isCount = false) :
    span.status = .inactive ∨ span.status = .active ∧ span.window.contains span.compute = true := by
  obtain ⟨n, hn⟩ := List.getElem?_of_mem hspan
  cases hst : span.status with
  | inactive => exact .inl rfl
  | queued =>
    have hcount := h.count n span hn
    have hempty : s.counts ++ s.others = [] := by
      unfold queued at hidle
      exact List.eq_nil_of_length_eq_zero (by rw [List.length_append]; exact hidle)
    rw [hempty, if_pos hst] at hcount
    cases hcount
  | active =>
    have hactive := h.active n span hn hst
    unfold Span.exceeded at hactive
    rw [show span.recalc.isCount = span.isCount from rfl, hc] at hactive
    exact .inr ⟨rfl, by simpa [Span.recalc] using hactive⟩

namespace Relaxation.Ends

variable {start tt : Sections Empty} {s : Relaxation Empty}

theorem fragment? (h : s.Ends start tt) {r : FragmentRef} {g : Fragment (Tail Empty)} (hg : tt.fragment? r = some g) :
    ∃ f, s.sections.fragment? r = some f ∧ g = { f with offset := s.sections.begins r } := by
  rw [Sections.fragment?_eq, h.fragments, Fragment.getElem?_placeFrom] at hg
  obtain ⟨f, hf, rfl⟩ := Option.map_eq_some_iff.1 hg
  refine ⟨f, by rw [Sections.fragment?_eq, hf], ?_⟩
  rw [Nat.zero_add]
  rfl

theorem begins (h : s.Ends start tt) (r : FragmentRef) : tt.begins r = s.sections.begins r := by
  rw [Sections.begins, Sections.begins, h.fragments, Fragment.take_placeFrom, Fragment.sumLen_placeFrom]

theorem position (h : s.Ends start tt) (l : Location) : tt.position l = s.sections.position l := by
  rw [Sections.position, Sections.position, h.begins]

theorem placed (h : s.Ends start tt) : tt.Placed := by
  intro r g hg
  obtain ⟨f, hf, rfl⟩ := h.fragment? hg
  exact (h.begins r).symm

theorem padded (h : s.Ends start tt) : tt.Padded := by
  intro r g hg
  obtain ⟨f, hf, rfl⟩ := h.fragment? hg
  rw [h.begins]
  exact h.consistent.padded r f hf

theorem watched (h : s.Ends start tt) {r : FragmentRef} {g : Fragment (Tail Empty)} (hg : tt.fragment? r = some g)
    (hflat : g.flat = true) {q : SpanRequest} (hq : q ∈ g.requests) : ∃ span ∈ s.spans, span.Covers s.measured r q := by
  obtain ⟨f, hf, rfl⟩ := h.fragment? hg
  have hreq : ({ f with offset := s.sections.begins r } : Fragment (Tail Empty)).requests = f.requests :=
    Fragment.requests_congr rfl rfl rfl
  rw [hreq] at hq
  exact h.covered.requests r f hf hflat q hq

/-- Every value that a form depends on lies in the window of the form, unless it was lost. -/
theorem within (h : s.Ends start tt) {r : FragmentRef} {q : SpanRequest} (hpos : 0 < q.id) {span : Span}
    (hspan : span ∈ s.spans) (hcovers : span.Covers s.measured r q) :
    q.window.contains ((tt.valueOf? q.value).getD unknownValue) = true ∨ span.Lost := by
  have hid : span.isCount = false := by
    rw [Span.isCount, Span.id, hcovers.id, decide_eq_false_iff_not]
    omega
  rcases h.consistent.tracked.queues.within h.idle hspan hid with hst | ⟨hst, hin⟩
  · exact .inr (hcovers.lost hst)
  · have hcompute := hcovers.compute (h.consistent.tracked.spans span hspan (by rw [hst]; decide))
    rw [Sections.valueOf?_congr h.position, ← hcompute]
    exact .inl (hcovers.inside _ hin)

theorem offset? (h : s.Ends start tt) {l : Location} {a : Frame} (ha : s.sections.frame? l.fragment = some a) :
    tt.offset? l = some (tt.position l) := by
  obtain ⟨f, hf, -⟩ := Option.map_eq_some_iff.1 ha
  have hg : ∃ g, tt.fragment? l.fragment = some g := by
    rw [Sections.fragment?_eq, h.fragments, Fragment.getElem?_placeFrom, ← Sections.fragment?_eq, hf]
    exact ⟨_, rfl⟩
  obtain ⟨g, hg⟩ := hg
  exact Sections.offset?_of_placed h.placed hg

theorem anchored (h : s.Ends start tt) {r : FragmentRef} {q : SpanRequest} {span : Span} (hspan : span ∈ s.spans)
    (hcovers : span.Covers s.measured r q) {e : Expr} (he : q.value.abs = some e) {d : Distance}
    (hd : d ∈ e.distances.2) : d.origin.fragment.sectionIndex = d.target.fragment.sectionIndex ∧
      tt.offset? d.origin = some (tt.position d.origin) ∧ tt.offset? d.target = some (tt.position d.target) := by
  have hterms := hcovers.distances
  rw [he, Option.map_some, Option.getD_some] at hterms
  rw [← hterms] at hd
  obtain ⟨t, ht, rfl⟩ := List.mem_map.1 hd
  obtain ⟨hsec, ⟨a, ha, -⟩, b, hb, -⟩ := h.consistent.tracked.sound.anchored hspan ht
  exact ⟨hsec, h.offset? ha, h.offset? hb⟩

end Relaxation.Ends

end SpanLayout
