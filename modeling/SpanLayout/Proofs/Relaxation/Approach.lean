import SpanLayout.Proofs.Relaxation.Potential
import SpanLayout.Proofs.Relaxation.Solvable

/-!
# Relaxing below a solution

From the smallest forms on, every expansion is asked for with a value in some layout below the solution. So it can be
made, and it does not lead beyond the forms of the solution.
-/

namespace SpanLayout

/-! ## What spans are watched for -/

/-- What a fragment of the smallest forms asks for: a value that one of its forms depends on, or its number of copies,
of which there are none yet. -/
inductive Fragment.Asks (f : Fragment (Tail Empty)) (q : SpanRequest) : Prop
  | form (h : q ∈ f.requests)
  | count {count : Expr} {body : Block (Tail Empty)} (ht : f.tail = some (.times count body 0))
    (hid : q.id = Repetition.countId) (hv : q.value = .ofExpr count)

theorem Fragment.tail_measureAt_of_count {f g : Fragment (Tail Empty)} {count : Expr} {body : Block (Tail Empty)}
    {reps : Nat}
    (ht : f.tail = some (.times count body reps)) (hc : count.const? = none) {m : Nat} {requests : List SpanRequest}
    (h : f.measureAt m = .done (g, requests) ()) : ∃ body', g.tail = some (.times count body' 0) := by
  rw [measureAt_of_some ht, Tail.measure] at h
  cases hb : measureBody { f.info with offset := m } 0 0 body.fragments with
  | mk state result =>
    rw [hb] at h
    cases result with
    | error e => cases congrArg Attempt.result h
    | ok u =>
      rw [hc] at h
      obtain ⟨rfl, -⟩ := Prod.mk.inj (congrArg Attempt.state h)
      exact ⟨_, rfl⟩

theorem Relaxation.Measured.asks {index : Nat} {f g : Fragment (Tail Empty)} {requests : List SpanRequest}
    (h : Measured index f g requests) (hf : f.flat = true) {q : SpanRequest} (hq : q ∈ requests) : g.Asks q := by
  obtain ⟨hsame, hrequests⟩ := h.requests hf
  rw [hrequests] at hq
  rcases List.mem_append.mp hq with hq | hq
  · exact .form (hsame ▸ hq)
  · obtain ⟨t, ht, hcount⟩ := Fragment.exists_of_mem_countRequests hq
    obtain ⟨count, body, reps, rfl, hc, rfl⟩ := Tail.mem_countRequests hcount
    obtain ⟨offset, hm⟩ := h
    obtain ⟨body', hg⟩ := Fragment.tail_measureAt_of_count (f := { f with index }) ht hc hm
    exact .count hg rfl rfl

/-- The span watches what a fragment of `base` asks for. As long as it is watched, a branch has one window. -/
structure Span.Asked (base : Sections Empty) (span : Span) : Prop where
  asked : ∃ f, base.fragment? span.seed.ref = some f ∧ f.Asks span.seed.request
  expr : span.expr = span.seed.request.value.abs.map (·.distances.1)
  distances : span.terms.map (·.distance) = (span.seed.request.value.abs.map (·.distances.2)).getD []
  window : ∀ f b, base.fragment? span.seed.ref = some f → f.spanTail? span.id = some (.branch b) →
    span.window = span.seed.request.window

namespace Span.Asked

variable {base : Sections Empty} {span : Span}

theorem congr (h : span.Asked base) {x : Span} (ho : x.outline = span.outline)
    (hw : ∀ f b, base.fragment? span.seed.ref = some f → f.spanTail? span.id = some (.branch b) →
    x.window = span.window) : x.Asked base := by
  have hseed := seed_of_outline ho
  refine ⟨hseed ▸ h.asked, ?_, ?_, ?_⟩
  · rw [expr_of_outline ho, hseed, h.expr]
  · rw [distances_of_outline ho, hseed, h.distances]
  · rw [Span.id, hseed]
    exact fun f b hf hb => (hw f b hf hb).trans (h.window f b hf hb)

theorem ofSeed {ss : Sections Empty} {seed : Seed} (h : ∃ f, base.fragment? seed.ref = some f ∧ f.Asks seed.request)
    (ho : Span.ofSeed ss seed = .ok span) : span.Asked base := by
  obtain ⟨hseed, hwindow, -, -, hexpr, hterms⟩ := Span.ofSeed_ok ho
  refine ⟨hseed ▸ h, hseed ▸ hexpr, ?_, fun _ _ _ _ => hseed ▸ hwindow⟩
  rw [hseed, Relaxation.distances_of_measureTerm hterms]

end Span.Asked

/-! ## Expanding -/

namespace Sections

variable {base ss goal x : Sections Empty}

/-- An expansion for the value in a layout that the solution suits can be made, and does not go beyond the solution. -/
theorem Suits.expand (hx : goal.Suits x) (hrefs : base.RefsMatch) (hrefs' : goal.RefsMatch) (hgrown : base.Beneath ss)
    (hunder : ss.Beneath goal) {r : FragmentRef} {f₀ f : Fragment (Tail Empty)} (hf₀ : base.fragment? r = some f₀)
    (hf : ss.fragment? r = some f) (hl : ∀ p ∈ f₀.parts, p.tail.all Tail.ownLengthens = true) {q : SpanRequest}
    (hq : f₀.Asks q) {v : Int} (hv : v = (x.valueOf? q.value).getD unknownValue) (hw : -wordBound ≤ v ∧ v < wordBound)
    (hout : ∀ b, f₀.spanTail? q.id = some (.branch b) → q.window.contains v = false) (old : Int) :
    (∃ y, (f.expand q.id old v).result = .ok y ∧ ∀ b, f₀.spanTail? q.id = some (.branch b) → y.window = none) ∧
      base.Beneath (ss.setFragment r (f.expand q.id old v).state) ∧
      (ss.setFragment r (f.expand q.id old v).state).Beneath goal := by
  obtain ⟨g, hg, hfg⟩ := Related.exists_right hunder hf
  have hff := Related.of_both hgrown hf₀ hf
  have hexpand :
      (∃ y, (f.expand q.id old v).result = .ok y ∧ ∀ b, f₀.spanTail? q.id = some (.branch b) → y.window = none) ∧
      f₀.Beneath (f.expand q.id old v).state ∧ (f.expand q.id old v).state.Beneath g := by
    cases hq with
    | form hq =>
      refine hff.expand hfg ((hrefs' r g hg).trans (hrefs r f₀ hf₀).symm) hl hq hw (fun q' hq' hsame => ?_) hout old
      obtain ⟨w, hw, hne, hin⟩ := hx.values r g hg q' hq'
      rw [hsame] at hw
      rw [hv, hw]
      exact ⟨hne, hin⟩
    | @count count body ht hid hvalue =>
      obtain ⟨_, _, ht'⟩ := hff.times ht
      obtain ⟨body', n, hg'⟩ := hfg.times ht'
      obtain ⟨m, hm, hvalue', hlt⟩ := hx.counts r g count body' n hg hg'
      rw [hvalue, hvalue'] at hv
      rw [hv, Option.getD_some, hid]
      obtain ⟨⟨y, hy⟩, hstate⟩ := hff.recount hfg ht hg' hm (Int.ne_of_lt hlt) old
      refine ⟨⟨y, hy, fun b hb => ?_⟩, hstate⟩
      rw [Fragment.spanTail?_of_times ht] at hb
      cases hb
  exact ⟨hexpand.1, Related.setFragment_right hgrown hf₀ hf hexpand.2.1,
    Related.setFragment_left hunder hf hg hexpand.2.2⟩

/-- A relaxation of `ss` begins with the forms of `base`, and `goal` is a solution with no smaller ones. -/
structure Prospect (ss base goal : Sections Empty) : Prop where
  solved : ss.SolvedBy goal
  fits : ss.FitsBelow
  start : ss.Candidate base
  beneath : base.Beneath goal

namespace Prospect

variable {tt : Sections Empty}

theorem suits (h : ss.Prospect base goal) (hgrown : base.Beneath x) (hunder : x.Beneath goal) (hpad : x.Padded)
    (hrefs : x.RefsMatch) : goal.Suits x :=
  h.solved.suits h.fits (h.start.between hgrown hunder h.solved.candidate hpad hrefs) hunder

theorem expand (h : ss.Prospect base goal) (hx : goal.Suits x) (hgrown : base.Beneath tt) (hunder : tt.Beneath goal)
    {span : Span} (ha : span.Asked base) (ht : ∀ t ∈ span.terms, t.length = x.span t)
    (hw : -wordBound ≤ span.compute ∧ span.compute < wordBound)
    (hout : span.isCount = false → span.window.contains span.compute = false) {f : Fragment (Tail Empty)}
    (hf : tt.fragment? span.seed.ref = some f) (old : Int) :
    (∃ y, (f.expand span.id old span.compute).result = .ok y ∧ ∀ f₀ b, base.fragment? span.seed.ref = some f₀ →
        f₀.spanTail? span.id = some (.branch b) → y.window = none) ∧
      base.Beneath (tt.setFragment span.seed.ref (f.expand span.id old span.compute).state) ∧
      (tt.setFragment span.seed.ref (f.expand span.id old span.compute).state).Beneath goal := by
  obtain ⟨f₀, hf₀, hasks⟩ := ha.asked
  have hbranch : ∀ b, f₀.spanTail? span.id = some (.branch b) → span.seed.request.window.contains span.compute =
      false := by
    intro b hb
    rw [← ha.window f₀ b hf₀ hb]
    refine hout (decide_eq_false ?_)
    cases hasks with
    | form hq => exact Int.not_le.mpr (Fragment.requests_pos hq)
    | count ht hid =>
      rw [Fragment.spanTail?_of_times ht, Span.id, hid] at hb
      cases hb
  obtain ⟨⟨y, hy, hwindow⟩, hstate⟩ := hx.expand h.start.refs h.solved.candidate.refs hgrown hunder hf₀ hf
    (h.start.lengthens h.fits.lengthens hf₀) hasks (Span.compute_of_terms ha.expr ha.distances ht) hw hbranch old
  refine ⟨⟨y, hy, fun f₁ b hf₁ hb => ?_⟩, hstate⟩
  obtain rfl := Option.some.inj (hf₀.symm.trans hf₁)
  exact hwindow b hb

end Prospect

end Sections

theorem Span.not_contains_of_exceeded {span : Span} (h : span.recalc.exceeded = true) (hc : span.isCount = false) :
    span.window.contains span.compute = false := by
  rw [exceeded, show span.recalc.isCount = false from hc, if_neg (by decide), Bool.not_eq_true'] at h
  exact h

/-! ## The way to a solution -/

namespace Relaxation

/-- The forms have grown from those of `base`, not beyond those of `goal`, and the spans watch what `base` asks for. -/
structure Approaches (base goal : Sections Empty) (s : Relaxation Empty) : Prop where
  grown : base.Beneath s.sections
  under : s.sections.Beneath goal
  spans : ∀ span ∈ s.spans, span.Asked base

namespace Approaches

variable {ss base goal : Sections Empty} {s t : Relaxation Empty}

theorem congr (h : s.Approaches base goal) (hsections : t.sections = s.sections)
    (hspans : ∀ x ∈ t.spans, ∃ span ∈ s.spans, x.outline = span.outline ∧ x.window = span.window) :
    t.Approaches base goal := by
  refine ⟨hsections ▸ h.grown, hsections ▸ h.under, fun x hx => ?_⟩
  obtain ⟨span, hspan, ho, hw⟩ := hspans x hx
  exact (h.spans span hspan).congr ho fun _ _ _ _ => hw

theorem lay (h : s.Approaches base goal) : s.lay.Approaches base goal :=
  have hrepadded := Sections.repadded_of_lay s.sections s.diags
  ⟨hrepadded.beneath_right h.grown, hrepadded.beneath_left h.under, h.spans⟩

theorem watch (h : s.Approaches base goal) (hp : ss.Prospect base goal) (hplaced : base.Placed)
    (hoff : s.sections.offset? = base.offset?) (hframe : s.sections.frame? = base.frame?) {seed : Seed}
    (hseed : ∃ f, base.fragment? seed.ref = some f ∧ f.Asks seed.request)
    (hpos : ∀ e, seed.request.value.abs = some e → ∀ l ∈ e.locs, base.position l < 2 ^ 63) {f : Fragment (Tail Empty)}
    (hf : s.sections.fragment? seed.ref = some f) (hd : (s.watch seed).diags.hasErrors = false) :
    (s.watch seed).Approaches base goal := by
  obtain ⟨span, ho, hcases⟩ := watch_cases hf hd
  have hasked := Span.Asked.ofSeed hseed ho
  obtain ⟨hsame, -⟩ := Span.ofSeed_ok ho
  rcases hcases with ⟨-, he⟩ | ⟨y, hexceeded, hy, -, he⟩ <;> rw [he]
  · refine ⟨h.grown, h.under, fun z hz => ?_⟩
    rcases List.mem_append.mp hz with hz | hz
    · exact h.spans z hz
    · rw [List.mem_singleton.mp hz]
      exact hasked.congr rfl fun _ _ _ _ => rfl
  · have hterms : ∀ t ∈ span.terms, t.length = base.span t ∧ -wordBound ≤ t.length ∧ t.length < wordBound := by
      intro t ht
      obtain ⟨e, hvalue, hdist⟩ := Span.derived_ofSeed ho t ht
      rw [hsame] at hvalue
      obtain ⟨horigin, htarget⟩ := Expr.mem_distances hdist
      have ho' := hpos e hvalue _ horigin
      have ht' := hpos e hvalue _ htarget
      have hlen : t.length = base.span t := Option.some.inj ((recorded_ofSeed hoff ho t ht).symm.trans
        (Sections.distance?_of_placed hplaced (hframe ▸ Span.anchored_ofSeed ho ht) ho' ht'))
      refine ⟨hlen, ?_⟩
      rw [hlen, Sections.span]
      unfold wordBound
      omega
    have hsuits := hp.suits hp.beneath.refl_left hp.beneath hp.start.padded hp.start.refs
    rw [← hsame] at hf
    obtain ⟨⟨y', hy', hwindow⟩, hgrown, hunder⟩ := hp.expand hsuits h.grown h.under hasked (fun t ht => (hterms t ht).1)
      (Span.word_compute fun t ht => (hterms t ht).2) (Span.not_contains_of_exceeded hexceeded) hf 0
    rw [Span.id, hsame] at hy' hgrown hunder
    obtain rfl := Except.ok.inj (hy.symm.trans hy')
    refine ⟨hgrown, hunder, fun z hz => ?_⟩
    rcases List.mem_append.mp hz with hz | hz
    · exact h.spans z hz
    · obtain ⟨w, hw, rfl⟩ := List.mem_map.mp hz
      refine hasked.congr rfl fun f₀ b hf₀ hb => ?_
      rw [hwindow f₀ b hf₀ hb] at hw
      cases hw

theorem settled (h : s.Approaches base goal) (hs : s.step = .settled t) : t.Approaches base goal := by
  obtain ⟨s', hspans, hreq, rfl | ⟨n, span, hn, -, rfl⟩⟩ := step_settled hs
  · exact h.congr hreq.sections fun x hx => ⟨x, hspans ▸ hx, rfl, rfl⟩
  · refine h.congr hreq.sections fun x hx => ?_
    rcases List.mem_or_eq_of_mem_set hx with hx | rfl
    · exact ⟨x, hspans ▸ hx, rfl, rfl⟩
    · exact ⟨span, List.mem_of_getElem? hn, span.outline_woken, rfl⟩

theorem expand (h : s.Approaches base goal) (hp : ss.Prospect base goal) (hu : s.Upheld) (hpad : s.sections.Padded)
    (hw : s.sections.InWords s.measured) {span : Span} (hspan : span ∈ s.spans) (hwatched : span.status ≠ .inactive)
    (hexceeded : span.woken.exceeded = true) {f : Fragment (Tail Empty)}
    (hf : s.sections.fragment? span.seed.ref = some f) :
    (∃ y, (f.expand span.id span.current span.compute).result = .ok y ∧ ∀ f₀ b, base.fragment? span.seed.ref = some f₀ →
        f₀.spanTail? span.id = some (.branch b) → y.window = none) ∧
      base.Beneath (s.sections.setFragment span.seed.ref (f.expand span.id span.current span.compute).state) ∧
      (s.sections.setFragment span.seed.ref (f.expand span.id span.current span.compute).state).Beneath goal :=
  hp.expand (hp.suits h.grown h.under hpad (refsMatch_of_sound hu.sound)) h.grown h.under (h.spans span hspan)
    (hu.spans span hspan hwatched) (hu.word_compute hw hspan hwatched) (Span.not_contains_of_exceeded hexceeded) hf _

theorem tried (h : s.Approaches base goal) (hp : ss.Prospect base goal) (hu : s.Upheld) (hpad : s.sections.Padded)
    (hw : s.sections.InWords s.measured) {n : Nat} {span : Span} {f : Fragment (Tail Empty)} (ht : Tries s t n span f) :
    t.Approaches base goal := by
  have hmem := List.mem_of_getElem? ht.found
  have hasked := h.spans span hmem
  obtain ⟨⟨y, hy, hwindow⟩, hgrown, hunder⟩ := h.expand hp hu hpad hw hmem ht.watched ht.exceeded ht.fragment
  have hrepadded := ht.repadded hu.sound
  refine ⟨hrepadded.beneath_right hgrown, hrepadded.beneath_left hunder, fun new hnew => ?_⟩
  rcases ht.spans hnew with ⟨old, hold, hdrift⟩ | ⟨w, hw', hdrift⟩
  · exact (h.spans old hold).congr hdrift.outline fun _ _ _ _ => hdrift.window
  · have hexpanded : (span.woken.expanded w).outline = span.outline := by simp
    refine hasked.congr (hdrift.outline.trans hexpanded) fun f₀ b hf₀ hb => hdrift.window.trans ?_
    obtain rfl : w = none := by
      rcases hw' with rfl | ⟨x, hx, rfl⟩
      · rfl
      · obtain rfl := Except.ok.inj (hy.symm.trans hx)
        exact hwindow f₀ b hf₀ hb
    rfl

end Approaches

end Relaxation

end SpanLayout
