import SpanLayout.Proofs.Relaxation.Coverage

/-!
# What is watched when a run begins

Measuring asks for a span for every value that the smallest form of a fragment depends on. Until all spans are watched,
every value is watched or still asked for, so all of them are when the queues are about to be drained.
-/

namespace SpanLayout

/-- The window minds if the value is lost, unless the fragment repeats repetitions. -/
def Seed.Tame (ss : Sections Empty) (seed : Seed) : Prop :=
  ∀ f, ss.fragment? seed.ref = some f → f.flat = true → 0 < seed.request.id →
    seed.request.window.contains unknownValue = false

theorem Seed.Tame.reshaped {ss tt : Sections Empty} {seed : Seed} (h : seed.Tame ss) (ht : ss.Reshaped tt) :
    seed.Tame tt := by
  intro g hg hflat
  obtain ⟨f, hf, hfg⟩ := ht _ g hg
  exact h f hf (hfg.flat.symm.trans hflat)

namespace Relaxation

/-! ## One span -/

theorem distances_of_measureTerm {ss : Sections Empty} {seed : Seed} {ds : List Distance} {ts : List Term}
    (h : List.Forall₂ (fun d t => Span.measureTerm ss seed d = .ok t) ds ts) : ts.map (·.distance) = ds := by
  induction h with
  | nil => rfl
  | cons hd _ ih => rw [List.map_cons, ih, (Span.measureTerm_ok hd).1]

theorem covers_ofSeed {locations : List Location} {ss : Sections Empty} {seed : Seed} {span y : Span}
    (h : Span.ofSeed ss seed = .ok span) (hy : y.outline = span.outline) {q : SpanRequest}
    (hid : seed.request.id = q.id)
    (hv : seed.request.value = q.value) (hin : y.window.Inside q.window) (ha : y.status = .active)
    (hfit : y.Fitted locations) : y.Covers locations seed.ref q := by
  obtain ⟨hseed, -, -, -, hexpr, hterms⟩ := Span.ofSeed_ok h
  have hys : y.seed = seed := (Span.seed_of_outline hy).trans hseed
  refine ⟨hys ▸ rfl, hys ▸ hid, hys ▸ hv, ?_, ?_, hin, fun hi => absurd (ha.symm.trans hi) (by decide), hfit⟩
  · rw [Span.expr_of_outline hy, hexpr, hv]
  · rw [Span.distances_of_outline hy, distances_of_measureTerm hterms, hv]

/-- Whatever the form of a fragment depends on is watched, or is asked for by one of `seeds`, unless the fragment
repeats repetitions. -/
def Awaits (locations : List Location) (seeds : List Seed) (s : Relaxation Empty) : Prop :=
  ∀ r f, s.sections.fragment? r = some f → f.flat = true → ∀ q ∈ f.requests,
    (∃ span ∈ s.spans, span.Covers locations r q ∧ span.status = .active) ∨
      ∃ seed ∈ seeds, seed.ref = r ∧ seed.request.id = q.id ∧ seed.request.value = q.value ∧
        seed.request.window.Inside q.window

theorem active_of_known {ss : Sections Empty} {seed : Seed} {span : Span} (h : Span.ofSeed ss seed = .ok span)
    (hv : span.compute ≠ unknownValue) : span.recalc.status = .active := by
  obtain ⟨-, -, -, hstatus, -, -⟩ := Span.ofSeed_ok h
  rw [Span.recalc]
  dsimp only
  rw [if_neg hv, hstatus]

theorem Awaits.kept {locations : List Location} {seed : Seed} {seeds : List Seed} {s : Relaxation Empty}
    (h : s.Awaits locations (seed :: seeds))
    (htame : seed.Tame s.sections) {span : Span}
    (ho : Span.ofSeed s.sections seed = .ok span) (hx : span.recalc.exceeded = false) (terms : Nat) :
    (s.watching seed none terms [span.recalc.kept]).Awaits locations seeds := by
  obtain ⟨hseed, hwindow, -, -, -, -⟩ := Span.ofSeed_ok ho
  intro r g hg hflat q hq
  rcases h r g hg hflat q hq with ⟨y, hy, hc⟩ | ⟨seed', hmem, rfl, hid, hv, hin⟩
  · exact .inl ⟨y, List.mem_append_left _ hy, hc⟩
  rcases List.mem_cons.mp hmem with rfl | hmem
  · have hpos := Fragment.requests_pos hq
    have htame := htame g hg hflat (hid ▸ hpos)
    have hcontains : seed'.request.window.contains span.compute = true := by
      have hcount : span.recalc.isCount = false := by
        rw [Span.isCount, Span.id, show span.recalc.seed = seed' from hseed, hid]
        exact decide_eq_false (Int.not_le.mpr hpos)
      rw [Span.exceeded, hcount, if_neg (by decide), Bool.not_eq_false'] at hx
      rw [← hwindow]
      exact hx
    -- The window holds the value, but not what stands for a lost one.
    have hknown : span.compute ≠ unknownValue := by
      intro hu
      rw [hu, htame] at hcontains
      cases hcontains
    have ha := active_of_known ho hknown
    refine .inl ⟨span.recalc.kept, List.mem_append_right _ (List.mem_singleton.mpr rfl), ?_, ha⟩
    refine covers_ofSeed (y := span.recalc.kept) ho rfl hid hv (hwindow ▸ hin) ha fun hu => ?_
    rw [show span.recalc.kept.window = seed'.request.window from hwindow, htame] at hu
    cases hu
  · exact .inr ⟨seed', hmem, rfl, hid, hv, hin⟩

theorem sections_watching (s : Relaxation Empty) (seed : Seed) (g : Fragment (Tail Empty)) (terms : Nat)
    (spans : List Span) : (s.watching seed g terms spans).sections = s.sections.setFragment seed.ref g := rfl

theorem Awaits.expanded {locations : List Location} {seed : Seed} {seeds : List Seed} {s : Relaxation Empty}
    (h : s.Awaits locations (seed :: seeds)) {f : Fragment (Tail Empty)} (hf : s.sections.fragment? seed.ref = some f)
    (hsteady : f.steady = true) {span : Span} (ho : Span.ofSeed s.sections seed = .ok span)
    {x : Expansion} (hx : (f.expand seed.request.id 0 span.compute).result = .ok x)
    (hseen : x.window.isSome = true → ∀ t ∈ span.terms,
      t.Seen locations ∧ -wordBound ≤ t.length ∧ t.length < wordBound) (terms : Nat) :
    (s.watching seed (f.expand seed.request.id 0 span.compute).state terms
      (x.window.toList.map fun window => { span.recalc.kept with window })).Awaits locations seeds := by
  intro r g hg hflat q hq
  rw [sections_watching] at hg
  by_cases hr : seed.ref = r
  · subst hr
    rw [Sections.fragment?_setFragment_self hf] at hg
    obtain rfl := Option.some.inj hg
    rw [Fragment.flat_expand] at hflat
    obtain ⟨p, hp, hfrom⟩ := Fragment.expand_requests hflat hx hq
    rcases h seed.ref f hf hflat p hp with ⟨y, hy, hc, ha⟩ | ⟨seed', hmem, hr, hid, hv, hin⟩
    · exact .inl ⟨y, List.mem_append_left _ hy, hc.widen hfrom.sameId hfrom.sameValue hfrom.inside, ha⟩
    rcases List.mem_cons.mp hmem with rfl | hmem
    · have hid' := hid.trans hfrom.sameId
      obtain ⟨hknown, w, hw, hinside⟩ := hfrom.renewed hid'.symm
      have hterms := hseen (by rw [hw]; rfl)
      have hword : -wordBound ≤ span.compute ∧ span.compute < wordBound :=
        Span.word_compute fun t ht => (hterms t ht).2
      have hcontains := Fragment.expand_window seed'.request.id 0 span.compute f hsteady
        (by rw [hid']; exact Int.le_of_lt (Fragment.requests_pos hq)) hword.1 hword.2 hx hw
      have ha := active_of_known ho hknown
      refine .inl ⟨{ span.recalc.kept with window := w }, List.mem_append_right _ ?_, ?_, ha⟩
      · rw [hw]
        exact List.mem_singleton.mpr rfl
      · exact covers_ofSeed (y := { span.recalc.kept with window := w }) ho rfl hid' (hv.trans hfrom.sameValue)
          hinside ha fun _ => ⟨span.terms, rfl, fun t ht => (hterms t ht).1, hknown, hcontains⟩
    · exact .inr ⟨seed', hmem, hr, hid.trans hfrom.sameId, hv.trans hfrom.sameValue, hin.trans hfrom.inside⟩
  · rw [Sections.fragment?_setFragment_ne hr] at hg
    rcases h r g hg hflat q hq with ⟨y, hy, hc⟩ | ⟨seed', hmem, hr', hid, hv, hin⟩
    · exact .inl ⟨y, List.mem_append_left _ hy, hc⟩
    rcases List.mem_cons.mp hmem with rfl | hmem
    · exact absurd hr' hr
    · exact .inr ⟨seed', hmem, hr', hid, hv, hin⟩

/-! ## All spans -/

theorem mem_spans_watch {s : Relaxation Empty} {span : Span} (h : span ∈ s.spans) (seed : Seed) :
    span ∈ (s.watch seed).spans := by
  unfold watch
  split
  · exact h
  · dsimp only
    split
    · split
      · exact h
      · split
        · exact h
        · exact h
        · split <;> exact List.mem_append_left _ h
    · exact List.mem_append_left _ h

theorem mem_spans_foldl_watch {s : Relaxation Empty} {span : Span} (h : span ∈ s.spans) (seeds : List Seed) :
    span ∈ (seeds.foldl watch s).spans := by
  induction seeds generalizing s with
  | nil => exact h
  | cons seed seeds ih => exact ih (mem_spans_watch h seed)

/-- Every span is watched with the distances as they are in `ss`. -/
def Recorded (ss : Sections Empty) (s : Relaxation Empty) : Prop :=
  ∀ span ∈ s.spans, ∀ t ∈ span.terms, ss.distance? t.distance.origin t.distance.target = some t.length

theorem recorded_ofSeed {ss tt : Sections Empty} (h : tt.offset? = ss.offset?) {seed : Seed} {span : Span}
    (ho : Span.ofSeed tt seed = .ok span) :
    ∀ t ∈ span.terms, ss.distance? t.distance.origin t.distance.target = some t.length := by
  intro t ht
  obtain ⟨-, -, -, -, -, hterms⟩ := Span.ofSeed_ok ho
  obtain ⟨d, -, hd⟩ := exists_of_forall₂_right hterms ht
  obtain ⟨rfl, -, hdist⟩ := Span.measureTerm_ok hd
  rw [← hdist, Sections.distance?, Sections.distance?, h]

theorem Recorded.watch {ss : Sections Empty} {s : Relaxation Empty} (h : s.Recorded ss)
    (hoff : s.sections.offset? = ss.offset?) {seed : Seed} {f : Fragment (Tail Empty)}
    (hf : s.sections.fragment? seed.ref = some f) (hd : (s.watch seed).diags.hasErrors = false) :
    (s.watch seed).Recorded ss := by
  obtain ⟨span, ho, hcases⟩ := watch_cases hf hd
  have hterms := recorded_ofSeed hoff ho
  rcases hcases with ⟨-, he⟩ | ⟨x, -, -, -, he⟩ <;> rw [he] <;> intro y hy
  · rcases List.mem_append.mp hy with hy | hy
    · exact h y hy
    · rw [List.mem_singleton.mp hy]
      exact hterms
  · rcases List.mem_append.mp hy with hy | hy
    · exact h y hy
    · obtain ⟨w, -, rfl⟩ := List.mem_map.mp hy
      exact hterms

/-- What watching one span preserves holds once all are watched. -/
theorem Watching.induct {P : List Seed → Relaxation Empty → Prop} {seeds : List Seed} {s : Relaxation Empty}
    (h : s.Watching) (hseeds : ∀ seed ∈ seeds, seed.Placed s.plan.frame? s.plan.setters)
    (hd : (seeds.foldl Relaxation.watch s).diags.hasErrors = false) (h0 : P seeds s)
    (step : ∀ (seed : Seed) (seeds : List Seed) (s : Relaxation Empty) (f : Fragment (Tail Empty)),
      s.sections.fragment? seed.ref = some f → f.setsOffset = false → (s.watch seed).diags.hasErrors = false →
      SameFrames s (s.watch seed) → P (seed :: seeds) s → P seeds (s.watch seed)) :
    P [] (seeds.foldl Relaxation.watch s) := by
  induction seeds generalizing s with
  | nil => exact h0
  | cons seed seeds ih =>
    have hd' : (s.watch seed).diags.hasErrors = false := by
      by_contra he
      rw [Bool.not_eq_false] at he
      exact absurd (hd.symm.trans (hasErrors_foldl_watch he seeds)) (by decide)
    have hplaced := hseeds seed List.mem_cons_self
    obtain ⟨a, ha, hns, -⟩ := hplaced.frame
    obtain ⟨f, hf, rfl⟩ := Sections.exists_fragment_of_frame? ha
    obtain ⟨hw, hsame⟩ := h.watch hplaced hd'
    refine ih hw (fun seed' hs => ?_) hd (step seed seeds s f hf hns hd' hsame h0)
    rw [show (s.watch seed).plan.frame? = s.plan.frame? from hsame.frame?,
      show (s.watch seed).plan.setters = s.plan.setters from congrArg (·.map Setter.ref) hsame.setters]
    exact hseeds seed' (List.mem_cons_of_mem seed hs)

theorem Recorded.foldl {ss : Sections Empty} {seeds : List Seed} {s : Relaxation Empty} (h : s.Recorded ss)
    (hw : s.Watching) (hseeds : ∀ seed ∈ seeds, seed.Placed s.plan.frame? s.plan.setters)
    (hoff : s.sections.offset? = ss.offset?) (hd : (seeds.foldl Relaxation.watch s).diags.hasErrors = false) :
    (seeds.foldl Relaxation.watch s).Recorded ss := by
  refine (hw.induct (P := fun _ s => s.sections.offset? = ss.offset? ∧ s.Recorded ss) hseeds hd ⟨hoff, h⟩ ?_).2
  rintro seed seeds s f hf - hd hsame ⟨hoff, h⟩
  exact ⟨hsame.offset?.trans hoff, h.watch hoff hf hd⟩

theorem Awaits.foldl {locations : List Location} {seeds : List Seed} {s : Relaxation Empty}
    (h : s.Awaits locations seeds) (hw : s.Watching)
    (hseeds : ∀ seed ∈ seeds, seed.Placed s.plan.frame? s.plan.setters) (hsteady : s.sections.Steady)
    (htame : ∀ seed ∈ seeds, seed.Tame s.sections)
    (hd : (seeds.foldl Relaxation.watch s).diags.hasErrors = false)
    (hseen : ∀ span ∈ (seeds.foldl Relaxation.watch s).spans,
      ∀ t ∈ span.terms, t.Seen locations ∧ -wordBound ≤ t.length ∧ t.length < wordBound) :
    (seeds.foldl Relaxation.watch s).Awaits locations [] := by
  generalize hfinal : seeds.foldl Relaxation.watch s = final at hseen
  have hinv := hw.induct (P := fun seeds s => s.Awaits locations seeds ∧ s.sections.Steady ∧
    (∀ seed ∈ seeds, seed.Tame s.sections) ∧ seeds.foldl Relaxation.watch s = final) hseeds hd
    ⟨h, hsteady, htame, hfinal⟩ ?_
  · rw [← hfinal]
    exact hinv.1
  rintro seed seeds s f hf hns hd hsame ⟨h, hsteady, htame, rfl⟩
  refine ⟨?_, hsteady.reshaped hsame.reshaped,
    fun seed' hs => (htame seed' (List.mem_cons_of_mem seed hs)).reshaped hsame.reshaped, rfl⟩
  obtain ⟨span, ho, ⟨hx, he⟩ | ⟨x, -, hx, -, he⟩⟩ := watch_cases hf hd <;> rw [he]
  · exact h.kept (htame seed List.mem_cons_self) ho hx _
  · refine h.expanded hf ((Fragment.steady_iff f).mpr ⟨hns, hsteady _ f hf⟩) ho hx (fun hsome => ?_) _
    -- A span that is kept with another window is still there in the end.
    obtain ⟨w, hw⟩ := Option.isSome_iff_exists.mp hsome
    refine hseen { span.recalc.kept with window := w } (mem_spans_foldl_watch ?_ seeds)
    rw [he, hw]
    exact List.mem_append_right _ (List.mem_singleton.mpr rfl)

end Relaxation

/-! ## The recheck -/

theorem Span.follows_rechecked (ss : Sections Empty) {span : Span} (h : span.status = .active) :
    span.Follows (span.rechecked ss) := by
  refine ⟨span.outline_rechecked ss, ?_, fun hi => .inr fun hid => ?_⟩
  · unfold rechecked
    dsimp only
    split <;> rfl
  · unfold rechecked at hi hid ⊢
    dsimp only at hi hid ⊢
    split
    · rename_i hx
      rw [if_pos hx] at hi
      exact nomatch hi
    · rename_i hx
      rw [if_neg hx] at hi hid
      exact Span.lost_of_recalc (by simp [h]) (by simpa using hx) hi hid

theorem Fragment.Relaid.requests {f g : Fragment (Tail Empty)} (h : Relaid f g) : g.requests = f.requests := by
  obtain ⟨offset, len, rfl, -⟩ := h
  exact Fragment.requests_congr rfl rfl rfl

namespace Sections

variable {config : Config} {diags : Diagnostics} {ss : Sections Empty}

theorem flat_surveyed (hflat : ss.Flat) (hd : (ss.surveyed config diags).diags.hasErrors = false) :
    (ss.surveyed config diags).sections.Flat := by
  intro r g hg
  obtain ⟨f, requests, hf, hm, -⟩ := measured_surveyed hd hg
  exact hm.flat.trans (hflat r f hf)

theorem steady_surveyed (hs : ss.Steady) (hd : (ss.surveyed config diags).diags.hasErrors = false) :
    (ss.surveyed config diags).sections.Steady := by
  intro r g hg
  obtain ⟨f, requests, hf, hm, -⟩ := measured_surveyed hd hg
  exact hm.steadyInside (hs r f hf)

theorem awaits_surveyed (hr : ss.RefsMatch) (hd : (ss.surveyed config diags).diags.hasErrors = false)
    (locations : List Location) :
    (ss.surveyed config diags).Awaits locations (Relaxation.surveySections 0 0 diags ss).seeds := by
  intro r g hg hflat q hq
  obtain ⟨f, requests, hf, hm, hseeds⟩ := measured_surveyed hd hg
  obtain ⟨hsame, hrequests⟩ := hm.requests (hm.flat.symm.trans hflat)
  obtain ⟨seed, hseed, rfl, href⟩ := hseeds q (hrequests ▸ List.mem_append_left _ (hsame ▸ hq))
  exact .inr ⟨seed, hseed, href.trans (hr r f hf), rfl, rfl, .refl _⟩

theorem tame_surveyed (hr : ss.RefsMatch) (hp : ss.Modest) (hd : (ss.surveyed config diags).diags.hasErrors = false)
    {seed : Seed} (hseed : seed ∈ (Relaxation.surveySections 0 0 diags ss).seeds) :
    seed.Tame (ss.surveyed config diags).sections := by
  obtain ⟨r, f, g, requests, hf, hg, hm, hq, href, -⟩ := Relaxation.mem_seeds_surveySections hd hseed
  intro g' hg' hflat hid
  rw [href, hr r f hf] at hg'
  obtain rfl := Option.some.inj (hg.symm.trans hg')
  exact hm.tame (hm.flat.symm.trans hflat) (hp r f hf) hq hid

theorem seen_watched (hr : ss.RefsMatch) (hw : ss.StaysInWords config diags)
    (hd : (ss.watched config diags).diags.hasErrors = false) {span : Span}
    (hspan : span ∈ (ss.watched config diags).spans) {t : Term} (ht : t ∈ span.terms) :
    t.Seen (ss.watched config diags).measured ∧ -wordBound ≤ t.length ∧ t.length < wordBound := by
  obtain ⟨hds, hwatching, hsame⟩ := watching_watched hr hd
  have hnone : (ss.surveyed config diags).spans = [] := rfl
  have hrec : (ss.watched config diags).Recorded (ss.surveyed config diags).sections :=
    Relaxation.Recorded.foldl (by simp [Relaxation.Recorded, hnone]) (watching_surveyed hr hds)
      (fun seed hseed => placed_surveyed hr hds hseed) rfl hd
  have hanchored := hwatching.sound.anchored hspan ht
  rw [hsame.frame?] at hanchored
  obtain ⟨ho, htarget⟩ := Relaxation.mem_measured hspan ht
  have := hw.surveyed.positions _ ho
  have := hw.surveyed.positions _ htarget
  have hplaced : (ss.surveyed config diags).sections.Placed := Relaxation.placed_surveySections hds
  have hlen : t.length = (ss.surveyed config diags).sections.span t :=
    Option.some.inj ((hrec span hspan t ht).symm.trans (distance?_of_placed hplaced hanchored (by omega) (by omega)))
  refine ⟨⟨_, hw.surveyed, hlen⟩, ?_⟩
  rw [hlen, Sections.span]
  unfold wordBound
  omega

/-- When the queues are about to be drained, whatever a form depends on is watched. -/
theorem covered_prepared (hr : ss.RefsMatch) (hs : ss.Steady) (hp : ss.Modest)
    (hw : ss.StaysInWords config diags) (hd : (ss.rechecked config diags).diags.hasErrors = false) :
    (ss.prepared config diags).Covered (ss.watched config diags).measured := by
  have hdw := hasErrors_watched hd
  obtain ⟨hds, hwatching, hsame⟩ := watching_watched hr hdw
  have hawaits : (ss.watched config diags).Awaits (ss.watched config diags).measured [] :=
    (awaits_surveyed hr hds _).foldl (watching_surveyed hr hds) (fun seed hseed => placed_surveyed hr hds hseed)
      (steady_surveyed hs hds) (fun seed hseed => tame_surveyed hr hp hds hseed) hdw
      fun span hspan t ht => seen_watched hr hw hdw hspan ht
  obtain ⟨hlaid, -, hplaced⟩ := hwatching.lay hd hw.laid.lengths
  obtain ⟨d, he, -⟩ := (ss.rechecked config diags).prepare_eq
  rw [prepared, he]
  constructor
  · intro span hspan t ht
    exact ⟨_, hw.laid, Relaxation.terms_recheck hlaid.sound hplaced hw.laid hspan ht⟩
  · intro r g hg hflat q hq
    rcases fragment?_lay hd hw.laid.lengths r with ⟨-, hn⟩ | ⟨f, g', hf, hg', hrelaid⟩
    · cases hn.symm.trans hg
    obtain rfl := Option.some.inj (hg.symm.trans hg')
    rw [hrelaid.requests] at hq
    rw [Fragment.flat, hrelaid.tail] at hflat
    rcases hawaits r f hf hflat q hq with ⟨span, hspan, hc, ha⟩ | ⟨seed, hseed, -⟩
    · have hfollows := Span.follows_rechecked (ss.watched config diags).lay.sections ha
      refine ⟨_, ?_, hc.follows (Fragment.requests_pos hq) hfollows⟩
      show _ ∈ (ss.watched config diags).lay.recheck.spans
      rw [Relaxation.spans_recheck]
      exact List.mem_map_of_mem hspan
    · cases hseed

end Sections

end SpanLayout
