import SpanLayout.Proofs.Relaxation.Run

/-!
# The recorded state is the recomputed one

At every point of a run, laying the sections out from scratch would change no length of a fragment that follows its
offset, would find every such fragment where its entry says and every watched distance as long as recorded, and would
put no further span out of its window.
-/

namespace SpanLayout

namespace Relaxation

theorem Watching.lay {s : Relaxation Empty} (h : s.Watching) (hd : s.lay.diags.hasErrors = false)
    (hb : ∀ k, s.lay.sections.length k < 9223372036854775808) :
    s.lay.Watching ∧ s.lay.sections.Padded ∧ s.lay.sections.Placed := by
  have hplan : s.lay.plan = s.plan := by
    unfold plan
    rw [show s.lay.sections.frame? = s.sections.frame? from Sections.frame?_lay hd hb,
      show s.lay.sections.base = s.sections.base from (Sections.lay_spec hd hb).2.1]
    rfl
  exact ⟨⟨hplan ▸ h.sound, h.status, h.counts, h.others, h.index⟩, Sections.padded_lay hd hb, Sections.placed_lay hd hb⟩

end Relaxation

namespace Sections

variable {config : Config} {diags : Diagnostics} {ss : Sections Empty}

/-- The sizes of the sections and the offsets of the locations that spans measure are less than `2 ^ 63` throughout a
relaxation: on the smallest forms, when every span is computed on the real offsets, and while the queues are drained. -/
structure StaysInWords (config : Config) (diags : Diagnostics) (ss : Sections Empty) : Prop where
  surveyed : (ss.surveyed config diags).sections.InWords (ss.watched config diags).measured
  laid : (ss.watched config diags).lay.sections.InWords (ss.watched config diags).measured
  draining : ∀ s, (ss.prepared config diags).Draining s → s.diags.hasErrors = false →
    s.sections.InWords (ss.watched config diags).measured

theorem staysInWords_of_drainsWithin {n : Nat}
    (hs : (ss.surveyed config diags).sections.InWords (ss.watched config diags).measured)
    (hl : (ss.watched config diags).lay.sections.InWords (ss.watched config diags).measured)
    (hd : (ss.prepared config diags).drainsWithin
      (fun s => s.sections.InWords (ss.watched config diags).measured) n = true) : ss.StaysInWords config diags :=
  ⟨hs, hl, fun _ h _ => of_decide_eq_true (h.of_drainsWithin hd)⟩

theorem reshaped_prepared (hr : ss.RefsMatch)
    (hl : (ss.watched config diags).lay.sections.InWords (ss.watched config diags).measured)
    (hd : (ss.rechecked config diags).diags.hasErrors = false) :
    (ss.surveyed config diags).sections.Reshaped (ss.prepared config diags).sections := by
  obtain ⟨-, -, hsame⟩ := watching_watched hr (hasErrors_watched hd)
  refine hsame.reshaped.trans ?_
  have hsections : (ss.prepared config diags).sections = (ss.watched config diags).lay.sections := by
    obtain ⟨d, he, -⟩ := (ss.rechecked config diags).prepare_eq
    rw [prepared, he]
    rfl
  rw [hsections]
  exact reshaped_lay hd hl.lengths

theorem steady_prepared (hr : ss.RefsMatch) (hs : ss.Steady)
    (hl : (ss.watched config diags).lay.sections.InWords (ss.watched config diags).measured)
    (hd : (ss.rechecked config diags).diags.hasErrors = false) : (ss.prepared config diags).sections.Steady := by
  obtain ⟨hds, -, -⟩ := watching_watched hr (hasErrors_watched hd)
  refine Steady.reshaped (fun r g hg => ?_) (reshaped_prepared hr hl hd)
  obtain ⟨f, requests, hf, hm, -⟩ := measured_surveyed hds hg
  exact hm.steadyInside (hs r f hf)

/-- A relaxation is consistent when the queues are about to be drained. -/
theorem consistent_prepared (hr : ss.RefsMatch)
    (hl : (ss.watched config diags).lay.sections.InWords (ss.watched config diags).measured)
    (hd : (ss.rechecked config diags).diags.hasErrors = false) :
    (ss.prepared config diags).Consistent ∧
    (ss.prepared config diags).measured = (ss.watched config diags).measured := by
  obtain ⟨-, hwatching, -⟩ := watching_watched hr (hasErrors_watched hd)
  have hlay : (ss.watched config diags).lay.diags.hasErrors = false := hd
  obtain ⟨hlaid, hpad, hplaced⟩ := hwatching.lay hlay hl.lengths
  refine ⟨hlaid.prepared hpad hplaced hl, ?_⟩
  apply Relaxation.measured_of_plan
  obtain ⟨d, he, -⟩ := (ss.rechecked config diags).prepare_eq
  rw [prepared, he]
  have hspans := congrArg Plan.spans (ss.watched config diags).lay.plan_recheck
  exact hspans

/-- Draining keeps a relaxation consistent, as long as it reports no error. -/
theorem consistent_of_draining (hr : ss.RefsMatch) (hs : ss.Steady) (hw : ss.StaysInWords config diags)
    {s : Relaxation Empty} (h : (ss.prepared config diags).Draining s) (hd : s.diags.hasErrors = false) :
    s.Consistent ∧ s.measured = (ss.watched config diags).measured := by
  have hdp : (ss.rechecked config diags).diags.hasErrors = false := by
    by_contra he
    rw [Bool.not_eq_false] at he
    obtain ⟨d, hp, hstay⟩ := (ss.rechecked config diags).prepare_eq
    refine absurd (hd.symm.trans (h.hasErrors ?_)) (by decide)
    rw [prepared, hp]
    exact hstay he
  obtain ⟨hc, hm⟩ := consistent_prepared hr hw.laid hdp
  have hwords := hw.draining
  rw [← hm] at hwords
  obtain ⟨hcs, hplan, -⟩ := h.consistent hc (steady_prepared hr hs hw.laid hdp) hwords hd
  exact ⟨hcs, (Relaxation.measured_of_plan (congrArg Plan.spans hplan)).trans hm⟩

end Sections

namespace Relaxation

/-- What a relaxation has recorded is what is found in sections that were laid out from scratch. -/
structure Agrees (s : Relaxation Empty) (laid : Sections Empty) : Prop where
  /-- Every setter keeps its length, and its tail lies where its entry says. -/
  setters : ∀ x ∈ s.setters, ∃ f g, s.sections.fragment? x.ref = some f ∧ laid.fragment? x.ref = some g ∧
    g.tailLen = f.tailLen ∧ g.tailOffset = x.tailOffset
  /-- There is an entry for every fragment that follows its offset. -/
  entries : ∀ r, r ∈ s.setters.map (·.ref) ↔ ∃ f, s.sections.fragment? r = some f ∧ f.setsOffset = true
  /-- Every term of a watched span is as long as its distance. -/
  terms : ∀ span ∈ s.spans, span.status ≠ .inactive → ∀ t ∈ span.terms,
    laid.distance? t.distance.origin t.distance.target = some t.length
  /-- Every watched span that is out of its window waits to be looked at. -/
  wakes : ∀ span ∈ s.spans, span.status ≠ .inactive →
    ({ span with terms := span.terms.map (Term.remeasure laid) }.recalc).exceeded = true → span.status = .queued
  /-- The queues hold the spans that wait, each once, and nothing else. -/
  queues : ∀ n, (s.counts ++ s.others).count n = if s.spans[n]?.any (·.status = .queued) then 1 else 0

theorem Consistent.padded {s : Relaxation Empty} (h : s.Consistent) : s.sections.Padded := by
  intro r f hf t ht hs
  have hmem : r ∈ s.plan.setters := by
    rw [h.tracked.sound.mem_setters]
    refine ⟨f.frame, by simp [plan, Sections.frame?, hf], ?_⟩
    show f.setsOffset = true
    rw [Fragment.setsOffset_of_some ht, hs]
  obtain ⟨x, hx, rfl⟩ := List.mem_map.mp hmem
  obtain ⟨f', t', hf', ht', hp, he⟩ := h.setters x hx
  obtain rfl := Option.some.inj (hf.symm.trans hf')
  obtain rfl := Option.some.inj (ht.symm.trans ht')
  rw [he, hp]

theorem Consistent.distance? {s : Relaxation Empty} (h : s.Consistent) (hw : s.sections.InWords s.measured)
    {span : Span} (hspan : span ∈ s.spans) (hs : span.status ≠ .inactive) {t : Term} (ht : t ∈ span.terms) :
    (s.sections.lay s.diags).1.distance? t.distance.origin t.distance.target = some t.length := by
  have hanchored := h.tracked.sound.anchored hspan ht
  obtain ⟨a, ha, -⟩ := hanchored.origin
  obtain ⟨b, hb, -⟩ := hanchored.target
  obtain ⟨f, hf, -⟩ := Sections.exists_fragment_of_frame? ha
  obtain ⟨g, hg, -⟩ := Sections.exists_fragment_of_frame? hb
  obtain ⟨ho, htarget⟩ := mem_measured hspan ht
  have := hw.positions _ ho
  have := hw.positions _ htarget
  have hsec : t.distance.origin.sameSection t.distance.target = true := by
    simp [Location.sameSection, hanchored.sameSection]
  rw [Sections.distance?_of_offset? hsec (Sections.offset?_lay_of_padded s.diags h.padded hw.lengths hf)
    (Sections.offset?_lay_of_padded s.diags h.padded hw.lengths hg) (by omega) (by omega),
    h.tracked.spans span hspan hs t ht]
  rfl

theorem Consistent.agrees {s : Relaxation Empty} (h : s.Consistent) (hw : s.sections.InWords s.measured) :
    s.Agrees (s.sections.lay s.diags).1 := by
  refine ⟨fun x hx => ?_, fun r => ?_, fun span hspan hs t ht => h.distance? hw hspan hs ht, fun span hspan hs hx => ?_,
    fun n => ?_⟩
  · obtain ⟨f, t, hf, -, -, he⟩ := h.setters x hx
    refine ⟨f, { f with offset := s.sections.begins x.ref }, hf, ?_, rfl, he⟩
    rw [Sections.fragment?_lay_of_padded s.diags h.padded hw.lengths, hf]
    rfl
  · refine (h.tracked.sound.mem_setters r).trans ⟨?_, ?_⟩
    · rintro ⟨a, ha, hset⟩
      obtain ⟨f, hf, rfl⟩ := Sections.exists_fragment_of_frame? ha
      exact ⟨f, hf, hset⟩
    · rintro ⟨f, hf, hset⟩
      exact ⟨f.frame, by simp [plan, Sections.frame?, hf], hset⟩
  · have hterms : span.terms.map (Term.remeasure (s.sections.lay s.diags).1) = span.terms := by
      refine (List.map_congr_left fun t ht => ?_).trans (List.map_id _)
      rw [Term.remeasure, h.distance? hw hspan hs ht]
      rfl
    rw [hterms] at hx
    obtain ⟨n, hn⟩ := List.mem_iff_getElem?.mp hspan
    cases hstatus : span.status with
    | inactive => exact absurd hstatus hs
    | queued => rfl
    | active => exact absurd hx (by rw [h.tracked.queues.active n span hn hstatus]; decide)
  · cases hn : s.spans[n]? with
    | none =>
      rw [List.count_eq_zero_of_not_mem fun hm => ?_]
      · rfl
      · have := h.tracked.queues.lt n hm
        have := List.getElem?_eq_none_iff.mp hn
        omega
    | some span =>
      rw [h.tracked.queues.count n span hn]
      simp

end Relaxation

namespace Sections

/-- At every point of draining the queues, if no error was reported, laying the sections out from scratch reports none
and finds what is recorded. -/
theorem draining_agrees (config : Config) (diags : Diagnostics) (ss : Sections Empty) (hr : ss.RefsMatch)
    (hs : ss.Steady) (hw : ss.StaysInWords config diags) (s : Relaxation Empty)
    (h : (ss.prepared config diags).Draining s) (hd : s.diags.hasErrors = false) :
    (s.sections.lay s.diags).2 = s.diags ∧ s.Agrees (s.sections.lay s.diags).1 := by
  obtain ⟨hc, hm⟩ := consistent_of_draining hr hs hw h hd
  have hws := hw.draining s h hd
  exact ⟨(lay_of_padded s.diags hc.padded hws.lengths).1, hc.agrees (hm ▸ hws)⟩

/-- Two jumps, of which the first is in reach of its target until the second has been widened, and an alignment behind
them. -/
def wideningJumps : Sections Empty :=
  let o := ((Object.empty .standard).addSection ".text" 4096).modifyBlock 0 fun b =>
    ((b.appendTail (.branch (.jump (.sym "near"))) .unknown).appendTail
      (.branch (.jump (.sym "far"))) .unknown).appendGap 125 .unknown
  let o := (o.defineLabel 0 "near" .unknown).state.modifyBlock 0 fun b =>
    (b.appendTail (.align ⟨.const 4, none, none, false, 0, .zeros, none⟩) .unknown).appendGap 100 .unknown
  let o := (o.defineLabel 0 "far" .unknown).state
  (o.finalize (.empty 64)).1.sections

theorem draining_agrees_wideningJumps :
    wideningJumps.RefsMatch ∧ wideningJumps.Steady ∧ wideningJumps.StaysInWords .standard (.empty 64) ∧
      ∃ s, (wideningJumps.prepared .standard (.empty 64)).Draining s ∧ s.diags.hasErrors = false ∧
        s.stats.expansions = 1 ∧ (s.sections.lay s.diags).2 = s.diags ∧ s.Agrees (s.sections.lay s.diags).1 := by
  have hr : wideningJumps.RefsMatch := by decide +kernel
  have hs : wideningJumps.Steady := by decide +kernel
  have hw : wideningJumps.StaysInWords .standard (.empty 64) :=
    staysInWords_of_drainsWithin (n := 3) (by decide +kernel) (by decide +kernel) (by decide +kernel)
  have hstep : (match (wideningJumps.prepared .standard (.empty 64)).step with
      | .expanded t => decide (t.diags.hasErrors = false ∧ t.stats.expansions = 1)
      | _ => false) = true := by decide +kernel
  refine ⟨hr, hs, hw, ?_⟩
  cases he : (wideningJumps.prepared .standard (.empty 64)).step with
  | expanded t =>
    rw [he, decide_eq_true_eq] at hstep
    obtain ⟨hd, hexp⟩ := hstep
    have ht := Relaxation.Draining.start.step (.inr he)
    exact ⟨t, ht, hd, hexp, draining_agrees .standard (.empty 64) wideningJumps hr hs hw t ht hd⟩
  | idle | settled | exhausted =>
    rw [he] at hstep
    exact absurd hstep Bool.false_ne_true

end Sections

end SpanLayout
