import SpanLayout.Proofs.Relaxation.Incremental

/-!
# Whatever a form depends on is watched

Every value that the present form of a fragment depends on is watched by a span whose window the form tolerates. A span
stops being watched only if its value was lost, and then its window is so wide that it holds even what stands for a
lost value.
-/

namespace SpanLayout

/-! ## Distances in two layouts -/

/-- The term is as long as its distance in some layout within words. -/
def Term.Seen (locations : List Location) (t : Term) : Prop :=
  ∃ ss : Sections Empty, ss.InWords locations ∧ t.length = ss.span t

theorem Sections.begins_le_length (ss : Sections Empty) (r : FragmentRef) : ss.begins r ≤ ss.length r.sectionIndex :=
  Fragment.sumLen_take_le _ _

theorem Sections.span_sub_span_lt {ss tt : Sections Empty} {t : Term}
    (hs : t.distance.origin.fragment.sectionIndex = t.distance.target.fragment.sectionIndex)
    (hss : ss.length t.distance.target.fragment.sectionIndex < 9223372036854775808)
    (htt : tt.length t.distance.target.fragment.sectionIndex < 9223372036854775808) :
    ss.span t - tt.span t < 9223372036854775808 := by
  -- A distance lies on the same side in every layout, so its lengths in two layouts differ by less than a word.
  obtain ⟨⟨⟨⟨k, i⟩, o⟩, ⟨⟨k', j⟩, p⟩⟩, _, _, _⟩ := t
  obtain rfl : k = k' := hs
  have := ss.begins_le_length ⟨k, i⟩
  have := ss.begins_le_length ⟨k, j⟩
  have := tt.begins_le_length ⟨k, i⟩
  have := tt.begins_le_length ⟨k, j⟩
  simp only [span, position] at *
  rcases Nat.le_total i j with hij | hij
  · have := ss.begins_mono (k := k) hij
    have := tt.begins_mono (k := k) hij
    omega
  · have := ss.begins_mono (k := k) hij
    have := tt.begins_mono (k := k) hij
    omega

/-! ## Spans that cover a request -/

namespace Span

/-- The value cannot be computed, and the window does not mind. -/
def Lost (span : Span) : Prop := span.window.contains unknownValue = true ∧ span.compute = unknownValue

/-- The value of the span if its terms had other lengths. -/
def valueFor (span : Span) (terms : List Term) : Int := ({ span with terms } : Span).compute

/-- If the window holds even what stands for a lost value, it was chosen for a value that the span had in some layout
within words. -/
def Fitted (locations : List Location) (span : Span) : Prop :=
  span.window.contains unknownValue = true → ∃ terms : List Term,
    terms.map Term.outline = span.terms.map Term.outline ∧ (∀ t ∈ terms, t.Seen locations) ∧
      span.valueFor terms ≠ unknownValue ∧ span.window.contains (span.valueFor terms) = true

/-- The span watches the value that fragment `r` asks for with `q`, in a window that `q` tolerates. -/
structure Covers (locations : List Location) (r : FragmentRef) (q : SpanRequest) (span : Span) : Prop where
  ref : span.seed.ref = r
  id : span.seed.request.id = q.id
  value : span.seed.request.value = q.value
  expr : span.expr = q.value.abs.map (·.distances.1)
  distances : span.terms.map (·.distance) = (q.value.abs.map (·.distances.2)).getD []
  inside : span.window.Inside q.window
  lost : span.status = .inactive → span.Lost
  fitted : span.Fitted locations

/-- `new` is what becomes of a span as fragments grow: it keeps its window, and it is given up only if its value is
lost. -/
structure Follows (old new : Span) : Prop where
  outline : new.outline = old.outline
  window : new.window = old.window
  lost : new.status = .inactive → new = old ∨ (0 < new.id → new.Lost)

theorem Follows.refl (span : Span) : Follows span span := ⟨rfl, rfl, fun _ => .inl rfl⟩

theorem Follows.trans {a b c : Span} (h : Follows a b) (h' : Follows b c) : Follows a c := by
  refine ⟨h'.outline.trans h.outline, h'.window.trans h.window, fun hi => ?_⟩
  rcases h'.lost hi with rfl | hl
  · exact h.lost hi
  · exact .inr hl

theorem valueFor_congr {a b : Span} (h : a.outline = b.outline) (terms : List Term) :
    a.valueFor terms = b.valueFor terms := by
  unfold valueFor compute
  dsimp only
  rw [seed_of_outline h, expr_of_outline h]

theorem Fitted.follows {locations : List Location} {old new : Span} (h : old.Fitted locations) (hf : Follows old new) :
    new.Fitted locations := by
  unfold Fitted
  rw [hf.window]
  intro hw
  obtain ⟨terms, ho, hseen, hv⟩ := h hw
  refine ⟨terms, ho.trans (congrArg Span.terms hf.outline).symm, hseen, ?_⟩
  rw [valueFor_congr hf.outline]
  exact hv

theorem Covers.follows {locations : List Location} {r : FragmentRef} {q : SpanRequest} {old new : Span}
    (h : old.Covers locations r q) (hq : 0 < q.id) (hf : Follows old new) : new.Covers locations r q := by
  have hseed := seed_of_outline hf.outline
  refine ⟨hseed ▸ h.ref, hseed ▸ h.id, hseed ▸ h.value, (expr_of_outline hf.outline).trans h.expr,
    (distances_of_outline hf.outline).trans h.distances, hf.window ▸ h.inside, fun hi => ?_, h.fitted.follows hf⟩
  rcases hf.lost hi with rfl | hl
  · exact h.lost hi
  · apply hl
    rw [Span.id, hseed, h.id]
    exact hq

theorem Covers.widen {locations : List Location} {r : FragmentRef} {p q : SpanRequest} {span : Span}
    (h : span.Covers locations r p) (hid : p.id = q.id) (hv : p.value = q.value) (hw : p.window.Inside q.window) :
    span.Covers locations r q :=
  ⟨h.ref, h.id.trans hid, h.value.trans hv, hv ▸ h.expr, hv ▸ h.distances, h.inside.trans hw, h.lost, h.fitted⟩

theorem lost_of_recalc {span : Span} (hs : span.status ≠ .inactive) (hx : span.recalc.exceeded = false)
    (hi : span.recalc.status = .inactive) (hid : 0 < span.id) : span.recalc.Lost := by
  have hv : span.compute = unknownValue := by
    by_contra hv
    rw [recalc, if_neg hv] at hi
    exact hs hi
  have hid' : span.recalc.isCount = false := decide_eq_false (Int.not_le.mpr hid)
  rw [exceeded, hid', if_neg (by decide), Bool.not_eq_false'] at hx
  refine ⟨?_, hv⟩
  rw [← hv]
  exact hx

end Span

namespace Relaxation

/-! ## Growth -/

/-- Every span of `t` is what became of the one in the same place in `s`. -/
def SpansFollow (s t : Relaxation Empty) : Prop :=
  ∀ (n : Nat) (old : Span), s.spans[n]? = some old → ∃ new, t.spans[n]? = some new ∧ old.Follows new

theorem SpansFollow.of_spans_eq {s t : Relaxation Empty} (h : t.spans = s.spans) : SpansFollow s t :=
  fun _ old hn => ⟨old, h ▸ hn, .refl old⟩

theorem SpansFollow.trans {s t u : Relaxation Empty} (h : SpansFollow s t) (h' : SpansFollow t u) :
    SpansFollow s u := by
  intro n old hn
  obtain ⟨mid, hm, hf⟩ := h n old hn
  obtain ⟨new, hnew, hf'⟩ := h' n mid hm
  exact ⟨new, hnew, hf.trans hf'⟩

theorem spansFollow_set {s t : Relaxation Empty} {n : Nat} {old new : Span} (hn : s.spans[n]? = some old)
    (ht : t.spans = s.spans.set n new) (hf : old.Follows new) : SpansFollow s t := by
  intro m x hm
  rw [ht]
  by_cases hmn : n = m
  · subst hmn
    obtain rfl := Option.some.inj (hn.symm.trans hm)
    exact ⟨new, List.getElem?_set_self (List.getElem?_eq_some_iff.mp hn).1, hf⟩
  · exact ⟨x, (List.getElem?_set_ne hmn).trans hm, .refl x⟩

theorem spans_enqueue (s : Relaxation Empty) (n : Nat) (span : Span) :
    (s.enqueue n span).spans = s.spans.set n { span with status := .queued } := by
  unfold enqueue
  dsimp only
  split <;> rfl

theorem spansFollow_shiftTerm (d : Int) (s : Relaxation Empty) (hit : Nat × Nat) :
    SpansFollow s (shiftTerm d s hit) := by
  obtain ⟨n, j⟩ := hit
  rcases shiftTerm_cases d s n j with ⟨he, -⟩ | ⟨span, hn, ⟨hs, he⟩ | ⟨hs, -, he⟩ | ⟨hs, hx, he⟩⟩ <;> rw [he]
  · exact .of_spans_eq rfl
  · exact spansFollow_set hn rfl ⟨span.outline_shifted j d, rfl, fun hi => absurd (hs.symm.trans hi) (by decide)⟩
  · exact spansFollow_set hn (spans_enqueue _ _ _) ⟨span.outline_shifted j d, rfl, nofun⟩
  · refine spansFollow_set hn rfl ⟨span.outline_shifted j d, rfl, fun hi => .inr fun hid => ?_⟩
    exact Span.lost_of_recalc (by simp [Span.shifted, hs]) hx hi hid

theorem spansFollow_shift (s : Relaxation Empty) (i : Nat) (d : Int) : SpansFollow s (s.shift i d) := by
  unfold shift
  induction s.index.query i i generalizing s with
  | nil => exact .of_spans_eq rfl
  | cons hit hits ih => exact (spansFollow_shiftTerm d s hit).trans (ih _)

theorem Growth.spansFollow {s t : Relaxation Empty} (h : Growth s t) : SpansFollow s t := by
  obtain ⟨r, f, g, s', -, -, hspans, -, rfl | ⟨rfl, -⟩⟩ := h
  · exact (SpansFollow.of_spans_eq hspans).trans (spansFollow_shift s' _ _)
  · exact .of_spans_eq hspans

theorem Growths.spansFollow {a z : Sections Empty} {s t : Relaxation Empty} (h : Growths a z s t) :
    SpansFollow s t := by
  induction h with
  | refl s => exact .of_spans_eq rfl
  | cons _ hg _ _ ih => exact hg.spansFollow.trans ih

/-- Every term of every span has been seen. -/
def TermsSeen (locations : List Location) (s : Relaxation Empty) : Prop :=
  ∀ span ∈ s.spans, ∀ t ∈ span.terms, t.Seen locations

theorem TermsSeen.set {locations : List Location} {s t : Relaxation Empty} (h : TermsSeen locations s) {n : Nat}
    {span : Span} (ht : t.spans = s.spans.set n span) (hspan : ∀ u ∈ span.terms, u.Seen locations) :
    TermsSeen locations t := by
  intro x hx
  rw [ht] at hx
  rcases List.mem_or_eq_of_mem_set hx with hx | rfl
  · exact h x hx
  · exact hspan

theorem termsSeen_shiftTerm {locations : List Location} {ss : Sections Empty} (hss : ss.InWords locations) {d : Int}
    {n j : Nat} {pending : List (Nat × Nat)} {s : Relaxation Empty} (hlag : SpansLag ss d ((n, j) :: pending) s.spans)
    (h : TermsSeen locations s) : TermsSeen locations (shiftTerm d s (n, j)) := by
  have hshifted {span : Span} (hn : s.spans[n]? = some span) (hs : span.status ≠ .inactive) :
      ∀ u ∈ (span.shifted j d).terms, u.Seen locations := by
    intro u hu
    obtain ⟨k, hk⟩ := List.mem_iff_getElem?.mp hu
    rw [Span.shifted, List.getElem?_modify] at hk
    obtain ⟨v, hv, rfl⟩ := Option.map_eq_some_iff.mp hk
    by_cases hjk : j = k
    · subst hjk
      have hlen := hlag n span hn hs j v hv
      rw [if_pos List.mem_cons_self] at hlen
      refine ⟨ss, hss, ?_⟩
      rw [if_pos rfl, show ss.span (v.grow d) = ss.span v from rfl, ← hlen, Term.grow]
      dsimp only
      split <;> omega
    · rw [if_neg hjk]
      exact h span (List.mem_of_getElem? hn) v (List.mem_of_getElem? hv)
  rcases shiftTerm_cases d s n j with ⟨he, -⟩ | ⟨span, hn, ⟨hs, he⟩ | ⟨hs, -, he⟩ | ⟨hs, -, he⟩⟩ <;> rw [he]
  · exact h
  · exact h.set rfl (hshifted hn (by simp [hs]))
  · exact h.set (spans_enqueue _ _ _) (hshifted hn (by simp [hs]))
  · exact h.set rfl (hshifted hn (by simp [hs]))

theorem termsSeen_shift {locations : List Location} {ss : Sections Empty} (hss : ss.InWords locations)
    {s : Relaxation Empty} {i : Nat} {d : Int} (hnodup : (s.index.query i i).Nodup)
    (hlag : SpansLag ss d (s.index.query i i) s.spans) (h : TermsSeen locations s) :
    TermsSeen locations (s.shift i d) := by
  unfold shift
  generalize s.index.query i i = hits at hnodup hlag ⊢
  induction hits generalizing s with
  | nil => exact h
  | cons hit hits ih =>
    rw [List.nodup_cons] at hnodup
    exact ih (termsSeen_shiftTerm hss hlag h) hnodup.2 (spansLag_shiftTerm hlag hnodup.1)

theorem Growth.termsSeen {locations : List Location} {s t : Relaxation Empty} (hs : s.Tracked) (h : Growth s t)
    (ht : t.sections.InWords locations) (hseen : TermsSeen locations s) : TermsSeen locations t := by
  obtain ⟨r, f, g, s', hf, hsections, hspans, hindex, rfl | ⟨rfl, -⟩⟩ := h
  · rw [(shift_requeued s' _ _).sections, hsections] at ht
    have hlag := spansLag_setFragment hs.sound hs.indexed hs.spans hf g
    rw [← hspans, ← hindex] at hlag
    refine termsSeen_shift ht (hindex ▸ hs.indexed.nodup f.index) hlag ?_
    unfold TermsSeen
    rw [hspans]
    exact hseen
  · unfold TermsSeen
    rw [hspans]
    exact hseen

theorem Growths.termsSeen {locations : List Location} {a z : Sections Empty} {s t : Relaxation Empty}
    (h : Growths a z s t) (hw : ∀ u : Sections Empty, Sections.Between a z u → u.InWords locations)
    (hseen : TermsSeen locations s) : TermsSeen locations t := by
  induction h with
  | refl s => exact hseen
  | cons hs hg hb _ ih => exact ih (hg.termsSeen hs (hw _ hb) hseen)

end Relaxation

/-- What lies between two states of the sections is within words if all that is passed on the way is. -/
theorem Sections.Between.inWords {locations : List Location} {a z u : Sections Empty} (h : Between a z u)
    (hw : ∀ i, (mixed a z i).InWords locations) : u.InWords locations := by
  constructor
  · intro k
    obtain ⟨i, hi⟩ := h k
    have := (hw i).lengths k
    rwa [length, ← hi] at this
  · intro l hl
    obtain ⟨i, hi⟩ := h l.fragment.sectionIndex
    have := (hw i).positions l hl
    rwa [position, begins, ← hi] at this

/-! ## Steps -/

namespace Relaxation

/-- Whatever the form of a fragment depends on is watched, unless it repeats repetitions. -/
structure Covered (locations : List Location) (s : Relaxation Empty) : Prop where
  seen : TermsSeen locations s
  requests : ∀ r f, s.sections.fragment? r = some f → f.flat = true → ∀ q ∈ f.requests,
    ∃ span ∈ s.spans, span.Covers locations r q

theorem Covered.settled {locations : List Location} {s t : Relaxation Empty} (h : s.Covered locations) {n : Nat}
    {span : Span} (hs : Settles s t n span) : t.Covered locations := by
  have hfollow : SpansFollow s t := by
    refine spansFollow_set hs.found hs.spans ⟨span.outline_woken, rfl, fun hi => .inr fun hid => ?_⟩
    exact Span.lost_of_recalc (by simp) hs.within hi hid
  refine ⟨h.seen.set hs.spans (h.seen span (List.mem_of_getElem? hs.found)), fun r f hf hflat q hq => ?_⟩
  rw [hs.sections] at hf
  obtain ⟨x, hx, hc⟩ := h.requests r f hf hflat q hq
  obtain ⟨n, hn⟩ := List.mem_iff_getElem?.mp hx
  obtain ⟨y, hy, hxy⟩ := hfollow n x hn
  exact ⟨y, List.mem_of_getElem? hy, hc.follows (Fragment.requests_pos hq) hxy⟩

theorem Expands.fragment?_ne {s t : Relaxation Empty} (hs : s.plan.Sound) (hplan : t.plan = s.plan) {n : Nat}
    {span : Span} {f : Fragment (Tail Empty)} {x : Expansion} (he : Expands s t n span f x) {r : FragmentRef}
    (hr : span.seed.ref ≠ r) {g : Fragment (Tail Empty)} (hg : t.sections.fragment? r = some g)
    (hset : g.setsOffset = false) : s.sections.fragment? r = some g := by
  obtain ⟨s', -, -, hreq, ht⟩ := he.follows
  have hne : ∀ y ∈ s.setters, y.ref ≠ r := by
    intro y hy hyr
    have hmem : y.ref ∈ t.plan.setters := by
      rw [hplan]
      exact List.mem_map_of_mem hy
    exact (hplan ▸ hs : t.plan.Sound).not_mem_setters hg hset (hyr ▸ hmem)
  rw [ht, fragment?_follow_ne hr (show ∀ y ∈ (s'.renewed n _).setters, y.ref ≠ r from hreq.setters ▸ hne)] at hg
  rw [← hg, ← hreq.sections]
  rfl

theorem Expands.fragment?_self {s t : Relaxation Empty} (hs : s.plan.Sound) {n : Nat} {span : Span}
    {f : Fragment (Tail Empty)} {x : Expansion} (he : Expands s t n span f x) :
    t.sections.fragment? span.seed.ref = some (f.expand span.id span.current span.compute).state := by
  obtain ⟨s', -, -, hreq, ht⟩ := he.follows
  have hne : ∀ y ∈ s.setters, y.ref ≠ span.seed.ref := fun y hy hyr =>
    hs.not_mem_setters he.fragment he.setsOffset (hyr ▸ List.mem_map_of_mem hy)
  have hf : (s'.renewed n (span.woken.expanded x.window)).sections.fragment? span.seed.ref = some f := by
    rw [show (s'.renewed n (span.woken.expanded x.window)).sections = s.sections from hreq.sections]
    exact he.fragment
  rw [ht]
  exact fragment?_follow_self hf (show ∀ y ∈ (s'.renewed n _).setters, y.ref ≠ _ from hreq.setters ▸ hne) _

theorem Expands.covers {locations : List Location} {s t : Relaxation Empty} (h : s.Consistent)
    (hsteady : s.sections.Steady)
    (hw : s.sections.InWords s.measured) {n : Nat} {span : Span} {f : Fragment (Tail Empty)} {x : Expansion}
    (he : Expands s t n span f x) (hseen : TermsSeen locations s) {r : FragmentRef} {p q : SpanRequest}
    (hpos : 0 < q.id) (hc : span.Covers locations r p) (hfrom : q.From p span.id span.compute x.window) :
    (span.woken.expanded x.window).Covers locations r q := by
  have hmem := List.mem_of_getElem? he.found
  have hid : q.id = span.id := hfrom.sameId.symm.trans hc.id.symm
  obtain ⟨hknown, w, hx, hinside⟩ := hfrom.renewed hid
  have hword := h.word_compute hw hmem (by simp [he.queued])
  have hcontains := Fragment.expand_window span.id span.current span.compute f
    ((Fragment.steady_iff f).mpr ⟨he.setsOffset, hsteady _ f he.fragment⟩) (by omega) hword.1 hword.2 he.result hx
  have hactive : span.woken.status = .active := by
    rw [Span.woken, Span.recalc]
    exact if_neg hknown
  rw [hx, Span.expanded]
  refine ⟨hc.ref, hc.id.trans hfrom.sameId, hc.value.trans hfrom.sameValue, hfrom.sameValue ▸ hc.expr,
    hfrom.sameValue ▸ hc.distances, hinside, fun hi => absurd (hactive.symm.trans hi) (by decide), fun _ => ?_⟩
  exact ⟨span.terms, rfl, hseen span hmem, hknown, hcontains⟩

theorem Covered.expanded {locations : List Location} {s t : Relaxation Empty} (hcov : s.Covered locations)
    (h : s.Consistent) (hsteady : s.sections.Steady) (hw : s.sections.InWords s.measured)
    {n : Nat} {span : Span} {f : Fragment (Tail Empty)} {x : Expansion} (he : Expands s t n span f x)
    (hplan : t.plan = s.plan) {u : Relaxation Empty} (hspans : u.spans = s.spans.set n (span.woken.expanded x.window))
    (hgrowths : Growths s.sections t.sections u t)
    (hmoves : ∀ i, (Sections.mixed s.sections t.sections i).InWords locations) : t.Covered locations := by
  have hmem := List.mem_of_getElem? he.found
  have hlen := (List.getElem?_eq_some_iff.mp he.found).1
  have hterms : (span.woken.expanded x.window).terms = span.terms := by
    rw [Span.terms_expanded]
    rfl
  have hseen : TermsSeen locations u := hcov.seen.set hspans (hterms ▸ hcov.seen span hmem)
  refine ⟨hgrowths.termsSeen (fun _ hb => hb.inWords hmoves) hseen, fun r g hg hflat q hq => ?_⟩
  have hpos := Fragment.requests_pos hq
  -- It is enough that the request is covered before the fragments grow.
  suffices hu : ∃ y ∈ u.spans, y.Covers locations r q by
    obtain ⟨y, hy, hc⟩ := hu
    obtain ⟨m, hm⟩ := List.mem_iff_getElem?.mp hy
    obtain ⟨z, hz, hyz⟩ := hgrowths.spansFollow m y hm
    exact ⟨z, List.mem_of_getElem? hz, hc.follows hpos hyz⟩
  rw [hspans]
  by_cases hr : span.seed.ref = r
  · subst hr
    rw [he.fragment?_self h.tracked.sound] at hg
    obtain rfl := Option.some.inj hg
    rw [Fragment.flat_expand] at hflat
    obtain ⟨p, hp, hfrom⟩ := Fragment.expand_requests hflat he.result hq
    obtain ⟨y, hy, hc⟩ := hcov.requests _ f he.fragment hflat p hp
    obtain ⟨m, hm⟩ := List.mem_iff_getElem?.mp hy
    by_cases hnm : n = m
    · subst hnm
      obtain rfl := Option.some.inj (he.found.symm.trans hm)
      exact ⟨_, List.mem_set hlen _, he.covers h hsteady hw hcov.seen hpos hc hfrom⟩
    · refine ⟨y, List.mem_of_getElem? ((List.getElem?_set_ne hnm).trans hm), ?_⟩
      exact hc.widen hfrom.sameId hfrom.sameValue hfrom.inside
  · have hset : g.setsOffset = false := by
      by_contra hset
      rw [Fragment.requests_eq_nil (by simpa using hset)] at hq
      exact nomatch hq
    obtain ⟨y, hy, hc⟩ := hcov.requests r g (he.fragment?_ne h.tracked.sound hplan hr hg hset) hflat q hq
    obtain ⟨m, hm⟩ := List.mem_iff_getElem?.mp hy
    have hnm : n ≠ m := by
      rintro rfl
      obtain rfl := Option.some.inj (he.found.symm.trans hm)
      exact hr hc.ref
    exact ⟨y, List.mem_of_getElem? ((List.getElem?_set_ne hnm).trans hm), hc⟩

/-- Draining keeps whatever a form depends on watched. -/
theorem Draining.covered {start s : Relaxation Empty} (h : Draining start s) (hc : start.Consistent)
    (hsteady : start.sections.Steady)
    (hw : ∀ t, Draining start t → t.diags.hasErrors = false → t.sections.InWords start.measured)
    (hm : ∀ s t, Draining start s → s.Steps t → t.diags.hasErrors = false →
      ∀ i, (Sections.mixed s.sections t.sections i).InWords start.measured)
    (hcov : start.Covered start.measured) (hd : s.diags.hasErrors = false) : s.Covered start.measured := by
  induction h with
  | start => exact hcov
  | @step s t h hs ih =>
    have hds : s.diags.hasErrors = false := by
      by_contra he
      rw [Bool.not_eq_false] at he
      exact absurd (hd.symm.trans (hs.hasErrors he)) (by decide)
    obtain ⟨hcons, hplan, -, hreshaped⟩ := h.consistent hc hsteady hw hds
    have hws : s.sections.InWords s.measured := by
      rw [measured_of_plan (congrArg Plan.spans hplan)]
      exact hw s h hds
    have hmoves := hm s t h hs hd
    have hkept := (hcons.kept hs hd).1
    rcases hs with hs | hs
    · obtain ⟨n, span, he⟩ := hcons.settles hs
      exact (ih hds).settled he
    · obtain ⟨n, span, f, x, he⟩ := hcons.expands hs hd
      obtain ⟨-, u, -, hspans, hgrowths⟩ := hcons.expanded (hsteady.reshaped hreshaped) hws he hd
        (hw t (h.step (.inr hs)) hd).lengths
      exact (ih hds).expanded hcons (hsteady.reshaped hreshaped) hws he hkept hspans hgrowths hmoves

end Relaxation

end SpanLayout
