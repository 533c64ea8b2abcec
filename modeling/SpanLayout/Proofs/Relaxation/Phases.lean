import Mathlib.Data.List.Nodup
import SpanLayout.Layout
import SpanLayout.Proofs.Relaxation.Watch

/-!
# The phases of a relaxation

The states a relaxation goes through before the queues are drained, and that the last of them is consistent.
-/

namespace SpanLayout

namespace Sections

/-! ## States -/

/-- The relaxation after the survey. -/
def surveyed {κ : Type} [Directive κ] (config : Config) (diags : Diagnostics) (ss : Sections κ) : Relaxation κ :=
  let survey := Relaxation.surveySections 0 0 diags ss
  ⟨config, survey.measured, [], [], [], .empty, survey.setters.map (⟨·, 0⟩),
    { Stats.zero with spans := survey.seeds.length }, survey.diags⟩

/-- The relaxation after the first expansions. -/
def watched {κ : Type} [Directive κ] (config : Config) (diags : Diagnostics) (ss : Sections κ) : Relaxation κ :=
  (Relaxation.surveySections 0 0 diags ss).seeds.foldl .watch (ss.surveyed config diags)

/-- The relaxation after every span was computed on the real offsets. -/
def rechecked {κ : Type} [Directive κ] (config : Config) (diags : Diagnostics) (ss : Sections κ) : Relaxation κ :=
  (ss.watched config diags).lay.recheck

/-- The relaxation when the queues are about to be drained. -/
def prepared {κ : Type} [Directive κ] (config : Config) (diags : Diagnostics) (ss : Sections κ) : Relaxation κ :=
  (ss.rechecked config diags).prepare

end Sections

theorem Diagnostics.toError?_of_hasErrors {d : Diagnostics} (h : d.hasErrors = false) : d.toError? = none := by
  have := d.toError?_isSome
  rw [h] at this
  simpa using this

theorem Diagnostics.hasErrors_of_toError? {d : Diagnostics} (h : d.toError? = none) : d.hasErrors = false := by
  rw [← d.toError?_isSome, h]
  rfl

theorem Relaxation.unlessFailed_ok {κ : Type} {s t : Relaxation κ}
    {next : Relaxation κ → Attempt Error (Relaxation κ) Stats} {stats : Stats}
    (h : s.unlessFailed next = .done t stats) : s.diags.hasErrors = false ∧ next s = .done t stats := by
  unfold unlessFailed at h
  split at h
  · exact nomatch congrArg Attempt.result h
  · rename_i hn
    exact ⟨Diagnostics.hasErrors_of_toError? hn, h⟩

/-- A relaxation succeeds if no phase reports an error. It ends with the recheck if nothing is queued then, and
otherwise with the layout that the run has left. -/
theorem Sections.relax_done {κ : Type} [Directive κ] {config : Config} {diags : Diagnostics} {ss : Sections κ}
    {t : Relaxation κ} {stats : Stats} (h : ss.relax config diags = .done t stats) :
    (ss.surveyed config diags).diags.hasErrors = false ∧ (ss.watched config diags).diags.hasErrors = false ∧
      (ss.watched config diags).lay.diags.hasErrors = false ∧
      (((ss.rechecked config diags).others = [] ∧ t = ss.rechecked config diags) ∨
        ((ss.prepared config diags).diags.hasErrors = false ∧
          ((ss.prepared config diags).run config.maxExpansions).diags.hasErrors = false ∧
          ((ss.prepared config diags).run config.maxExpansions).lay.diags.hasErrors = false ∧
          t = ((ss.prepared config diags).run config.maxExpansions).lay)) := by
  unfold relax at h
  obtain ⟨hs, h⟩ := Relaxation.unlessFailed_ok h
  obtain ⟨hw, h⟩ := Relaxation.unlessFailed_ok h
  obtain ⟨hl, h⟩ := Relaxation.unlessFailed_ok h
  refine ⟨hs, hw, hl, ?_⟩
  dsimp only at h
  split at h
  · rename_i hq
    exact .inl ⟨hq, (congrArg Attempt.state h).symm⟩
  · obtain ⟨hp, h⟩ := Relaxation.unlessFailed_ok h
    obtain ⟨hr, h⟩ := Relaxation.unlessFailed_ok h
    obtain ⟨hf, h⟩ := Relaxation.unlessFailed_ok h
    exact .inr ⟨hp, hr, hf, (congrArg Attempt.state h).symm⟩

/-! ## The survey -/

theorem FragmentRef.Before.asymm {a b : FragmentRef} (h : a.Before b) : ¬ b.Before a := by
  unfold Before at h ⊢
  omega

namespace Sections

variable {config : Config} {diags : Diagnostics} {ss : Sections Empty}

theorem setters_surveyed {κ : Type} [Directive κ] (config : Config) (diags : Diagnostics) (ss : Sections κ) :
    (ss.surveyed config diags).plan.setters = (Relaxation.surveySections 0 0 diags ss).setters := by
  simp [surveyed, Relaxation.plan, Function.comp_def]

theorem RefsMatch.zero_add {κ : Type} {ss : Sections κ} (h : ss.RefsMatch) (r : FragmentRef) (f : Fragment (Tail κ))
    (hf : ss.fragment? r = some f) : f.ref = ⟨0 + r.sectionIndex, r.index⟩ := by
  rw [h r f hf, Nat.zero_add]

theorem watching_surveyed (hr : ss.RefsMatch)
    (hd : (ss.surveyed config diags).diags.hasErrors = false) : (ss.surveyed config diags).Watching := by
  have hd : (Relaxation.surveySections 0 0 diags ss).diags.hasErrors = false := hd
  have hframe : ∀ {r a}, (ss.surveyed config diags).plan.frame? r = some a →
      ∃ f, ss.fragment? r = some f ∧ a = { f.frame with index := 0 + Relaxation.number ss r } := by
    intro r a ha
    have ha : frame? _ r = some a := ha
    rw [surveyed, Relaxation.frame?_surveySections hd] at ha
    obtain ⟨b, hb, rfl⟩ := Option.map_eq_some_iff.mp ha
    obtain ⟨f, hf, rfl⟩ := exists_fragment_of_frame? hb
    exact ⟨f, hf, rfl⟩
  have hsorted := (Relaxation.ordered_surveySections hd hr.zero_add).sorted
  have hnone : (ss.surveyed config diags).plan.spans = [] := rfl
  refine ⟨⟨fun r a ha => ?_, fun r r' a a' ha ha' => ?_, ?_, fun r => ?_, by simp [hnone], by simp [hnone]⟩,
    by simp [surveyed], rfl, rfl, rfl⟩
  · obtain ⟨f, hf, rfl⟩ := hframe ha
    exact hr r f hf
  · obtain ⟨f, hf, rfl⟩ := hframe ha
    obtain ⟨f', hf', rfl⟩ := hframe ha'
    rw [← Relaxation.number_lt_iff hf hf']
    dsimp only
    omega
  · rw [setters_surveyed]
    exact hsorted
  · rw [setters_surveyed, Relaxation.mem_setters_surveySections hd]
    constructor
    · rintro ⟨r', f, hf, hset, rfl⟩
      obtain ⟨g, requests, hg, hm, -⟩ := Relaxation.measured_surveySections hd hf
      rw [hr r' f hf]
      refine ⟨g.frame, by simp only [surveyed, Relaxation.plan, frame?, hg, Option.map_some], ?_⟩
      rw [hm.frame]
      exact hset
    · rintro ⟨a, ha, hset⟩
      obtain ⟨f, hf, rfl⟩ := hframe ha
      exact ⟨r, f, hf, hset, hr r f hf⟩

theorem placed_surveyed (hr : ss.RefsMatch) (hd : (ss.surveyed config diags).diags.hasErrors = false) {seed : Seed}
    (hseed : seed ∈ (Relaxation.surveySections 0 0 diags ss).seeds) :
    seed.Placed (ss.surveyed config diags).plan.frame? (ss.surveyed config diags).plan.setters := by
  have hd : (Relaxation.surveySections 0 0 diags ss).diags.hasErrors = false := hd
  have hordered := Relaxation.ordered_surveySections hd hr.zero_add
  obtain ⟨r, f, g, requests, hf, hg, hm, hq, href, hindex⟩ := Relaxation.mem_seeds_surveySections hd hseed
  have hframe := hm.frame
  refine ⟨⟨g.frame, ?_, ?_, ?_⟩, fun m r' hm' => ?_⟩
  · rw [href, hr r f hf]
    simp only [surveyed, Relaxation.plan, frame?, hg, Option.map_some]
  · -- A setter asks for no spans.
    by_contra hset
    rw [hframe, Bool.not_eq_false] at hset
    rw [hm.requests_of_setsOffset hset] at hq
    cases hq
  · rw [hframe, hindex]
  · rw [setters_surveyed] at hm'
    obtain ⟨before, after, he, hn, hbefore, hafter⟩ := hordered.seeds seed hseed
    rw [he] at hm'
    by_cases hlt : m < before.length
    · rw [List.getElem?_append_left hlt] at hm'
      exact ⟨fun _ => hbefore r' (List.mem_of_getElem? hm'), fun _ => by omega⟩
    · rw [List.getElem?_append_right (by omega)] at hm'
      exact ⟨fun _ => by omega, fun hb => absurd hb (hafter r' (List.mem_of_getElem? hm')).asymm⟩

theorem measured_surveyed (hd : (ss.surveyed config diags).diags.hasErrors = false) {r : FragmentRef}
    {g : Fragment (Tail Empty)} (hg : (ss.surveyed config diags).sections.fragment? r = some g) :
    ∃ f requests, ss.fragment? r = some f ∧ Relaxation.Measured (Relaxation.number ss r) f g requests ∧
      ∀ q ∈ requests, ∃ seed ∈ (Relaxation.surveySections 0 0 diags ss).seeds, seed.request = q ∧ seed.ref = f.ref := by
  have hd : (Relaxation.surveySections 0 0 diags ss).diags.hasErrors = false := hd
  have hframe : frame? (ss.surveyed config diags).sections r = some g.frame := by rw [frame?, hg, Option.map_some]
  rw [show (ss.surveyed config diags).sections = (Relaxation.surveySections 0 0 diags ss).measured from rfl,
    Relaxation.frame?_surveySections hd] at hframe
  obtain ⟨a, ha, -⟩ := Option.map_eq_some_iff.mp hframe
  obtain ⟨f, hf, -⟩ := exists_fragment_of_frame? ha
  obtain ⟨g', requests, hg', hm, hq⟩ := Relaxation.measured_surveySections hd hf
  obtain rfl := Option.some.inj (hg.symm.trans hg')
  rw [Nat.zero_add] at hm
  exact ⟨f, requests, hf, hm, hq⟩

theorem watching_watched (hr : ss.RefsMatch)
    (hd : (ss.watched config diags).diags.hasErrors = false) :
    (ss.surveyed config diags).diags.hasErrors = false ∧ (ss.watched config diags).Watching ∧
      Relaxation.SameFrames (ss.surveyed config diags) (ss.watched config diags) := by
  have hd' : (ss.surveyed config diags).diags.hasErrors = false := by
    by_contra he
    rw [Bool.not_eq_false] at he
    exact absurd (hd.symm.trans (Relaxation.hasErrors_foldl_watch he _)) (by decide)
  exact ⟨hd', (watching_surveyed hr hd').foldl (fun seed hseed => placed_surveyed hr hd' hseed) hd⟩

end Sections

/-! ## The recheck -/

/-- A span computed on the offsets of `ss`, and queued if it is out of its window. -/
def Span.rechecked {κ : Type} (ss : Sections κ) (span : Span) : Span :=
  let x := { span with terms := span.terms.map (Term.remeasure ss) }.recalc
  if x.exceeded then { x with status := .queued } else x

theorem Span.outline_rechecked {κ : Type} (ss : Sections κ) (span : Span) :
    (span.rechecked ss).outline = span.outline := by
  have hterms : ({ span with terms := span.terms.map (Term.remeasure ss) } : Span).outline = span.outline := by
    simp [Span.outline, Function.comp_def, Term.remeasure, Term.outline]
  unfold rechecked
  dsimp only
  split
  · exact hterms
  · exact hterms

theorem Span.terms_rechecked {κ : Type} (ss : Sections κ) (span : Span) :
    (span.rechecked ss).terms = span.terms.map (Term.remeasure ss) := by
  unfold rechecked
  dsimp only
  split <;> rfl

theorem Span.exceeded_rechecked {κ : Type} (ss : Sections κ) (span : Span) (h : (span.rechecked ss).status = .active) :
    (span.rechecked ss).recalc.exceeded = false := by
  unfold rechecked at h ⊢
  dsimp only at h ⊢
  split at h
  · exact absurd h (by simp)
  · rename_i hx
    rw [if_neg hx, Span.recalc_recalc]
    simpa using hx

theorem Sections.distance?_of_placed {ss : Sections Empty} (hp : ss.Placed) {t : Term} (ht : t.Anchored ss.frame?)
    (ho : ss.position t.distance.origin < 9223372036854775808)
    (htarget : ss.position t.distance.target < 9223372036854775808) :
    ss.distance? t.distance.origin t.distance.target = some (ss.span t) := by
  obtain ⟨a, ha, -⟩ := ht.origin
  obtain ⟨b, hb, -⟩ := ht.target
  obtain ⟨f, hf, -⟩ := Sections.exists_fragment_of_frame? ha
  obtain ⟨g, hg, -⟩ := Sections.exists_fragment_of_frame? hb
  have hs : t.distance.origin.sameSection t.distance.target = true := by
    simp [Location.sameSection, ht.sameSection]
  exact Sections.distance?_of_offset? hs (Sections.offset?_of_placed hp hf) (Sections.offset?_of_placed hp hg)
    ho htarget

namespace Relaxation

theorem spans_recheck {κ : Type} (s : Relaxation κ) : s.recheck.spans = s.spans.map (Span.rechecked s.sections) := by
  unfold recheck
  dsimp only
  rw [List.map_map]
  rfl

theorem plan_recheck {κ : Type} [Directive κ] (s : Relaxation κ) : s.recheck.plan = s.plan := by
  have h : s.recheck.spans.map Span.outline = s.spans.map Span.outline := by
    rw [spans_recheck, List.map_map]
    exact List.map_congr_left fun span _ => span.outline_rechecked s.sections
  unfold plan
  rw [h]
  rfl

theorem terms_recheck {s : Relaxation Empty} (h : s.plan.Sound) (hp : s.sections.Placed)
    (hw : s.sections.InWords s.measured) {x : Span} (hx : x ∈ s.recheck.spans) {u : Term} (hu : u ∈ x.terms) :
    u.length = s.sections.span u := by
  rw [spans_recheck] at hx
  obtain ⟨span, hspan, rfl⟩ := List.mem_map.mp hx
  rw [Span.terms_rechecked] at hu
  obtain ⟨t, ht, rfl⟩ := List.mem_map.mp hu
  obtain ⟨ho, htarget⟩ := mem_measured hspan ht
  have := hw.positions _ ho
  have := hw.positions _ htarget
  rw [Term.remeasure, Sections.distance?_of_placed hp (h.anchored hspan ht) (by omega) (by omega)]
  rfl

theorem queuesHold_recheck {s : Relaxation Empty} (h : s.Watching) : QueuesHold s.recheck := by
  have hget {n : Nat} {x : Span} (hn : s.recheck.spans[n]? = some x) :
      ∃ span, s.spans[n]? = some span ∧ x = span.rechecked s.sections := by
    rw [spans_recheck, List.getElem?_map] at hn
    obtain ⟨span, hs, hx⟩ := Option.map_eq_some_iff.mp hn
    exact ⟨span, hs, hx.symm⟩
  have hqueue : s.recheck.counts ++ s.recheck.others = (List.range s.spans.length).filter fun n =>
      (s.spans[n]?.map fun span =>
        { span with terms := span.terms.map (Term.remeasure s.sections) }.recalc).any Span.exceeded := by
    unfold recheck
    simp [h.counts, h.others]
  refine ⟨fun n x hn ha => ?_, fun n x hn => ?_, fun n hn => ?_⟩
  · obtain ⟨span, -, rfl⟩ := hget hn
    exact span.exceeded_rechecked s.sections ha
  · obtain ⟨span, hs, rfl⟩ := hget hn
    have hlen := (List.getElem?_eq_some_iff.mp hs).1
    have hnq := h.status span (List.mem_of_getElem? hs)
    rw [hqueue, List.Nodup.count (List.nodup_range.filter _)]
    simp only [List.mem_filter, List.mem_range, hs, Option.map_some, Option.any_some]
    unfold Span.rechecked
    dsimp only
    by_cases hx : ({ span with terms := span.terms.map (Term.remeasure s.sections) } : Span).recalc.exceeded = true
    · rw [if_pos ⟨hlen, hx⟩, if_pos hx]
      rfl
    · rw [if_neg (fun hc => hx hc.2), if_neg hx, if_neg]
      rcases Span.recalc_status { span with terms := span.terms.map (Term.remeasure s.sections) }
        with hr | hr <;> rw [hr]
      · exact hnq
      · decide
  · rw [hqueue] at hn
    rw [spans_recheck, List.length_map]
    exact List.mem_range.mp (List.mem_filter.mp hn).1

/-! ## The index -/

theorem mem_termIntervals {spans : List Span} {i : Interval (Nat × Nat)} :
    i ∈ termIntervals spans ↔ ∃ n j span t, spans[n]? = some span ∧ span.terms[j]? = some t ∧
      t.originIndex ≠ t.targetIndex ∧ i = ⟨t.low, t.high - 1, (n, j)⟩ := by
  unfold termIntervals
  simp only [List.mem_flatMap, List.mem_map, List.mem_filter, Prod.exists, List.mem_zipIdx_iff_getElem?]
  constructor
  · rintro ⟨span, n, hn, t, j, ⟨hj, hne⟩, rfl⟩
    exact ⟨n, j, span, t, hn, hj, by simpa using hne, rfl⟩
  · rintro ⟨n, j, span, t, hn, hj, hne, rfl⟩
    exact ⟨span, n, hn, t, j, ⟨hj, by simpa using hne⟩, rfl⟩

theorem pairwise_zipIdx {α : Type} (l : List α) : l.zipIdx.Pairwise fun p q => p.2 ≠ q.2 := by
  have h : (l.zipIdx.map Prod.snd).Nodup := by
    rw [List.zipIdx_map_snd]
    exact List.nodup_range'
  exact List.pairwise_map.mp h

theorem nodup_termIntervals (spans : List Span) : ((termIntervals spans).map (·.data)).Nodup := by
  unfold termIntervals
  rw [List.map_flatMap]
  refine List.nodup_flatMap.mpr ⟨fun p _ => ?_, (pairwise_zipIdx spans).imp fun {p q} hne x hp hq => ?_⟩
  · rw [List.map_map]
    refine List.pairwise_map.mpr (((pairwise_zipIdx p.1.terms).filter _).imp fun {a b} hne he => hne ?_)
    exact (Prod.mk.inj (show (p.2, a.2) = (p.2, b.2) from he)).2
  · obtain ⟨i, hi, rfl⟩ := List.mem_map.mp hp
    obtain ⟨i', hi', he⟩ := List.mem_map.mp hq
    obtain ⟨t, -, rfl⟩ := List.mem_map.mp hi
    obtain ⟨t', -, rfl⟩ := List.mem_map.mp hi'
    exact hne (congrArg Prod.fst he).symm

theorem indexed_of_build {κ : Type} [Directive κ] {s : Relaxation κ}
    (h : s.index = ((termIntervals s.spans).foldl IntervalIndex.insert .empty).build) : s.plan.Indexed := by
  have hperm (i : Nat) :
      (s.index.query i i).Perm (((termIntervals s.spans).filter (·.overlaps i i)).map (·.data)) := by
    have := IntervalIndex.query_build_perm ((termIntervals s.spans).foldl IntervalIndex.insert .empty) i i
    rwa [← h, IntervalIndex.entries_foldl_insert, show IntervalIndex.empty.entries = [] from rfl,
      List.nil_append] at this
  refine ⟨fun i => (hperm i).nodup_iff.mpr ?_, fun i n j => ?_⟩
  · exact (nodup_termIntervals s.spans).sublist (List.filter_sublist.map _)
  · rw [show s.plan.index = s.index from rfl, (hperm i).mem_iff]
    simp only [List.mem_map, List.mem_filter, mem_termIntervals]
    constructor
    · rintro ⟨x, ⟨⟨n', j', span, t, hn, hj, hne, rfl⟩, ho⟩, he⟩
      obtain ⟨rfl, rfl⟩ := Prod.mk.inj he
      refine ⟨span.outline, t.outline, by simp [plan, hn], by simp [Span.outline, hj], ?_⟩
      simp only [Interval.overlaps, Bool.and_eq_true, decide_eq_true_eq] at ho
      simp only [Term.low, Term.high, Term.outline] at ho ⊢
      omega
    · rintro ⟨x, u, hx, hu, hlow, hhigh⟩
      obtain ⟨span, hn, rfl⟩ := Option.map_eq_some_iff.mp ((List.getElem?_map ..).symm.trans hx)
      obtain ⟨t, hj, rfl⟩ := Option.map_eq_some_iff.mp ((List.getElem?_map ..).symm.trans hu)
      simp only [Term.low, Term.high, Term.outline] at hlow hhigh
      refine ⟨⟨t.low, t.high - 1, (n, j)⟩, ⟨⟨n, j, span, t, hn, hj, by omega, rfl⟩, ?_⟩, rfl⟩
      unfold Interval.overlaps
      rw [Bool.and_eq_true, decide_eq_true_eq, decide_eq_true_eq]
      simp only [Term.low, Term.high]
      omega

/-! ## The beginning of the run -/

theorem checkCycles_eq {κ : Type} (s : Relaxation κ) :
    ∃ diags, s.checkCycles = { s with diags } ∧ (s.diags.hasErrors = true → diags.hasErrors = true) := by
  unfold checkCycles
  dsimp only
  generalize Cycle.closingEdges s.spans.length s.dependents _ = edges
  induction edges generalizing s with
  | nil => exact ⟨s.diags, rfl, id⟩
  | cons i edges ih =>
    rw [List.foldl_cons]
    split
    · obtain ⟨diags, he, hd⟩ := ih (s.report _)
      exact ⟨diags, he, fun h => hd (Diagnostics.hasErrors_report h _)⟩
    · exact ih s

/-- The relaxation that is about to look for cycles. -/
def indexed {κ : Type} (s : Relaxation κ) : Relaxation κ :=
  { s with
    setters := s.setters.map fun x =>
      { x with tailOffset := ((s.sections.fragment? x.ref).map (·.tailOffset)).getD x.tailOffset }
    index := ((termIntervals s.spans).foldl IntervalIndex.insert s.index).build
    stats := { s.stats with
      setters := s.stats.setters + (s.setters.filter fun x => (s.sections.fragment? x.ref).isSome).length
      indexed := s.stats.indexed + (termIntervals s.spans).length } }

theorem prepare_eq {κ : Type} (s : Relaxation κ) :
    ∃ diags, s.prepare = { s.indexed with diags } ∧ (s.diags.hasErrors = true → diags.hasErrors = true) :=
  s.indexed.checkCycles_eq

/-- The relaxation that is about to look for cycles, if the intervals of its terms come in order. -/
def indexedInOrder (s : Relaxation Empty) : Relaxation Empty :=
  { s.indexed with index := ⟨termIntervals s.spans, some (.ofList (termIntervals s.spans))⟩ }

theorem indexed_of_sorted {s : Relaxation Empty} (hi : s.index = .empty)
    (h : (termIntervals s.spans).Pairwise fun a b => a.low ≤ b.low) : s.indexed = s.indexedInOrder := by
  have hentries : ((termIntervals s.spans).foldl IntervalIndex.insert s.index).entries = termIntervals s.spans := by
    rw [IntervalIndex.entries_foldl_insert, hi]
    rfl
  have hbuild := IntervalIndex.build_of_sorted (by rw [hentries]; exact h)
  rw [hentries] at hbuild
  unfold indexedInOrder indexed
  rw [hbuild]

theorem settersTrack_indexed {s : Relaxation Empty} (h : s.plan.Sound) (hpad : s.sections.Padded)
    (hp : s.sections.Placed) : s.indexed.SettersTrack := by
  intro y hy
  obtain ⟨x, hx, rfl⟩ := List.mem_map.mp hy
  obtain ⟨a, ha, hset⟩ := (h.mem_setters x.ref).mp (List.mem_map_of_mem hx)
  obtain ⟨f, hf, rfl⟩ := Sections.exists_fragment_of_frame? ha
  obtain ⟨t, ht, hts⟩ := Fragment.exists_tail_of_setsOffset (f := f) hset
  have hoff : f.tailOffset = s.sections.begins x.ref + f.fixedLen := by
    rw [Fragment.tailOffset, hp _ f hf]
  refine ⟨f, t, hf, ht, ?_, ?_⟩
  · rw [hf, Option.map_some, Option.getD_some, hoff]
    exact hpad _ f hf t ht hts
  · rw [hf, Option.map_some, Option.getD_some, hoff]
    rfl

theorem sound_prepare {s : Relaxation Empty} (h : s.plan.Sound) : s.prepare.plan.Sound := by
  obtain ⟨diags, he, -⟩ := s.prepare_eq
  have hrefs : s.indexed.plan.setters = s.plan.setters := by
    simp [indexed, plan, Function.comp_def]
  rw [he]
  exact ⟨h.ref, h.order, hrefs ▸ h.sorted, hrefs ▸ h.mem_setters, hrefs ▸ h.seeds, h.terms⟩

/-- A relaxation that was laid out and rechecked is consistent once it has its index. -/
theorem Watching.prepared {s : Relaxation Empty} (h : s.Watching) (hpad : s.sections.Padded) (hp : s.sections.Placed)
    (hw : s.sections.InWords s.measured) : s.recheck.prepare.Consistent := by
  obtain ⟨diags, he, -⟩ := s.recheck.prepare_eq
  have hsound : s.recheck.plan.Sound := s.plan_recheck ▸ h.sound
  have hprepared := sound_prepare hsound
  have hindexed : s.recheck.indexed.plan.Indexed := by
    apply indexed_of_build
    show _ = ((termIntervals s.recheck.spans).foldl IntervalIndex.insert .empty).build
    rw [← h.index]
    rfl
  have hqueues := queuesHold_recheck h
  rw [he] at hprepared ⊢
  exact ⟨⟨hprepared, ⟨hindexed.nodup, hindexed.mem⟩, fun _ hx _ _ hu => terms_recheck h.sound hp hw hx hu,
    ⟨hqueues.active, hqueues.count, hqueues.lt⟩⟩, settersTrack_indexed hsound hpad hp⟩

end Relaxation

/-! ## Success -/

namespace Sections

variable {config : Config} {diags : Diagnostics} {ss : Sections Empty}

theorem hasErrors_surveyed (h : (ss.watched config diags).diags.hasErrors = false) :
    (ss.surveyed config diags).diags.hasErrors = false := by
  by_contra he
  rw [Bool.not_eq_false] at he
  exact absurd (h.symm.trans (Relaxation.hasErrors_foldl_watch he _)) (by decide)

theorem hasErrors_watched (h : (ss.rechecked config diags).diags.hasErrors = false) :
    (ss.watched config diags).diags.hasErrors = false := by
  by_contra he
  rw [Bool.not_eq_false] at he
  exact absurd (h.symm.trans (hasErrors_lay he _)) (by decide)

theorem hasErrors_rechecked (h : (ss.prepared config diags).diags.hasErrors = false) :
    (ss.rechecked config diags).diags.hasErrors = false := by
  by_contra he
  rw [Bool.not_eq_false] at he
  obtain ⟨d, hp, hstay⟩ := (ss.rechecked config diags).prepare_eq
  rw [prepared, hp] at h
  exact absurd (h.symm.trans (hstay he)) (by decide)

theorem unlessFailed_of_clean {s : Relaxation Empty} (h : s.diags.hasErrors = false)
    (next : Relaxation Empty → Attempt Error (Relaxation Empty) Stats) : s.unlessFailed next = next s := by
  rw [Relaxation.unlessFailed, Diagnostics.toError?_of_hasErrors h]

theorem relax_of_idle (h : (ss.rechecked config diags).diags.hasErrors = false)
    (ho : (ss.rechecked config diags).others = []) :
    ss.relax config diags = .done (ss.rechecked config diags) (ss.rechecked config diags).stats := by
  have hw := hasErrors_watched h
  unfold relax
  refine (unlessFailed_of_clean (hasErrors_surveyed hw) _).trans ?_
  refine (unlessFailed_of_clean hw _).trans ?_
  refine (unlessFailed_of_clean (s := (ss.watched config diags).lay) h _).trans ?_
  exact if_pos ho

theorem relax_of_queued (h : (ss.prepared config diags).diags.hasErrors = false)
    (ho : (ss.rechecked config diags).others ≠ []) :
    ss.relax config diags = ((ss.prepared config diags).run config.maxExpansions).unlessFailed fun s =>
      s.lay.unlessFailed fun s => .done s s.stats := by
  have hr := hasErrors_rechecked h
  have hw := hasErrors_watched hr
  unfold relax
  refine (unlessFailed_of_clean (hasErrors_surveyed hw) _).trans ?_
  refine (unlessFailed_of_clean hw _).trans ?_
  refine (unlessFailed_of_clean (s := (ss.watched config diags).lay) hr _).trans ?_
  exact (if_neg ho).trans (unlessFailed_of_clean h _)

theorem prepared_of_sorted (hr : ss.RefsMatch) (hd : (ss.watched config diags).diags.hasErrors = false)
    (h : (Relaxation.termIntervals (ss.rechecked config diags).spans).Pairwise fun a b => a.low ≤ b.low) :
    ss.prepared config diags = (ss.rechecked config diags).indexedInOrder.checkCycles :=
  congrArg Relaxation.checkCycles (Relaxation.indexed_of_sorted (watching_watched hr hd).2.1.index h)

end Sections

end SpanLayout
