import SpanLayout.Proofs.Relaxation.Branches

/-!
# Branches are guarded

As long as a branch is short, a span watches its distance. So a relaxation of branches that is done has every short
branch in reach of its target; and if it has the budget for it, it gets there. -/

namespace SpanLayout

namespace Relaxation

theorem Watching.induct_clean {P : List Seed → Relaxation Empty → Prop} {seeds : List Seed} {s : Relaxation Empty}
    (h : s.Watching) (hseeds : ∀ seed ∈ seeds, seed.Placed s.plan.frame? s.plan.setters)
    (hd : s.diags.hasErrors = false) (h0 : P seeds s)
    (step : ∀ (seed : Seed) (seeds : List Seed) (s : Relaxation Empty) (f : Fragment (Tail Empty)),
      s.sections.fragment? seed.ref = some f → P (seed :: seeds) s →
      (s.watch seed).diags = s.diags ∧
        ((s.watch seed).diags.hasErrors = false → SameFrames s (s.watch seed) → P seeds (s.watch seed))) :
    (seeds.foldl Relaxation.watch s).diags.hasErrors = false ∧ P [] (seeds.foldl Relaxation.watch s) := by
  induction seeds generalizing s with
  | nil => exact ⟨hd, h0⟩
  | cons seed seeds ih =>
    have hplaced := hseeds seed List.mem_cons_self
    obtain ⟨a, ha, -, -⟩ := hplaced.frame
    obtain ⟨f, hf, -⟩ := Sections.exists_fragment_of_frame? ha
    obtain ⟨hdiags, hnext⟩ := step seed seeds s f hf h0
    have hd' : (s.watch seed).diags.hasErrors = false := hdiags ▸ hd
    obtain ⟨hw, hsame⟩ := h.watch hplaced hd'
    refine ih hw (fun seed' hs => ?_) hd' (hnext hd' hsame)
    rw [show (s.watch seed).plan.frame? = s.plan.frame? from hsame.frame?,
      show (s.watch seed).plan.setters = s.plan.setters from congrArg (·.map Setter.ref) hsame.setters]
    exact hseeds seed' (List.mem_cons_of_mem seed hs)

end Relaxation

/-- The span watches the distance that the form of fragment `r` depends on, which was in its window at first. It is
given up only if the window holds even what stands for a lost value. -/
structure Span.Guards (base : Sections Empty) (r : FragmentRef) (q : SpanRequest) (span : Span) : Prop where
  ref : span.seed.ref = r
  request : span.seed.request = q
  window : span.window = q.window
  first : ∃ d, span.Pursues base d ∧ q.window.contains (base.extent d) = true
  inactive : span.status = .inactive → q.window.contains unknownValue = true

namespace Span.Guards

variable {base : Sections Empty} {r : FragmentRef} {q : SpanRequest} {old new span : Span}

theorem id_pos (h : span.Guards base r q) : 0 < span.id := by
  obtain ⟨d, hpursues, -⟩ := h.first
  rw [hpursues.id_eq]
  decide

theorem congr (h : old.Guards base r q) (ho : new.outline = old.outline) (hw : new.window = old.window)
    (hi : new.status = .inactive → q.window.contains unknownValue = true) : new.Guards base r q := by
  have hseed := seed_of_outline ho
  obtain ⟨d, hpursues, hfirst⟩ := h.first
  exact ⟨hseed ▸ h.ref, hseed ▸ h.request, hw.trans h.window, ⟨d, hpursues.congr ho fun _ _ _ _ => hw, hfirst⟩, hi⟩

theorem follows (h : old.Guards base r q) (hf : old.Follows new) : new.Guards base r q := by
  refine h.congr hf.outline hf.window fun hi => ?_
  rcases hf.lost hi with rfl | hlost
  · exact h.inactive hi
  · have hid : new.id = old.id := by rw [Span.id, Span.id, seed_of_outline hf.outline]
    obtain ⟨hcontains, -⟩ := hlost (hid ▸ h.id_pos)
    rwa [hf.window, h.window] at hcontains

theorem rechecked (h : span.Guards base r q) (ss : Sections Empty) : (span.rechecked ss).Guards base r q := by
  have hwindow : (span.rechecked ss).window = span.window := by
    unfold Span.rechecked
    dsimp only
    split <;> rfl
  refine h.congr (span.outline_rechecked ss) hwindow fun hi => ?_
  by_cases hs : span.status = .inactive
  · exact h.inactive hs
  · unfold Span.rechecked at hi
    dsimp only at hi
    split at hi
    · cases hi
    · rename_i hx
      rw [Bool.not_eq_true] at hx
      have hlost := @Span.lost_of_recalc { span with terms := span.terms.map (Term.remeasure ss) } hs hx hi h.id_pos
      rw [← h.window]
      exact hlost.1

end Span.Guards

/-- The seed asks for the distance of a branch of `base`. -/
def Seed.Branches (base : Sections Empty) (seed : Seed) : Prop :=
  ∃ d f b, seed.Direct base d ∧ base.fragment? seed.ref = some f ∧ f.tail = some (.branch b)

namespace Relaxation

/-- Only branches are watched, and every distance that a form depends on is guarded by a span, or is asked for by one of
`seeds`. -/
structure Guarded (base : Sections Empty) (seeds : List Seed) (s : Relaxation Empty) : Prop where
  grown : base.Under s.sections
  asked : ∀ seed ∈ seeds, seed.Branches base
  watched : ∀ span ∈ s.spans, span.seed.Branches base
  spans : ∀ r f, s.sections.fragment? r = some f → ∀ q ∈ f.own,
    (∃ span ∈ s.spans, span.Guards base r q) ∨ ∃ seed ∈ seeds, seed.ref = r ∧ seed.request = q

namespace Guarded

variable {base : Sections Empty} {s t : Relaxation Empty}

theorem branch {seeds : List Seed} (h : s.Guarded base seeds) {seed : Seed} (hb : seed.Branches base)
    {f : Fragment (Tail Empty)} (hf : s.sections.fragment? seed.ref = some f) : ∃ b, f.tail = some (.branch b) := by
  obtain ⟨-, g, b, -, hg, htail⟩ := hb
  rcases (h.grown.of_both hg hf).branch htail with ht | ht
  · exact ⟨b, ht⟩
  · exact ⟨b.lengthen, ht⟩

/-! ## Watching -/

theorem watch {seed : Seed} {seeds : List Seed} (h : s.Guarded base (seed :: seeds)) (hself : base.Under base)
    (hp : base.Placed) (hb : ∀ k, base.length k < 2 ^ 63) (hoff : s.sections.offset? = base.offset?)
    {f : Fragment (Tail Empty)} (hf : s.sections.fragment? seed.ref = some f) :
    (s.watch seed).diags = s.diags ∧
      ((s.watch seed).diags.hasErrors = false → (s.watch seed).Guarded base seeds) := by
  have hbranches := h.asked seed List.mem_cons_self
  obtain ⟨d, g, -, hdirect, hg, -⟩ := h.asked seed List.mem_cons_self
  obtain ⟨span, ho⟩ := hdirect.exists_span h.grown
  obtain ⟨b, hbranch⟩ := h.branch hbranches hf
  refine ⟨diags_watch hf hbranch ho, fun hd => ?_⟩
  have hpursues := Span.Pursues.ofSeed hdirect ho
  have hcompute := hpursues.compute hself hb (Span.terms_ofSeed hp hb hoff hdirect ho)
  obtain ⟨hseed, hwindow, -, hactive, -⟩ := Span.ofSeed_ok ho
  have hcount : span.recalc.isCount = false := by
    rw [Span.isCount, show span.recalc.id = span.id from rfl, Span.id, hseed, hdirect.id_eq]
    decide
  have hasked : ∀ seed' ∈ seeds, seed'.Branches base := fun seed' hs => h.asked seed' (List.mem_cons_of_mem seed hs)
  obtain ⟨span', ho', hcases⟩ := watch_cases hf hd
  obtain rfl : span' = span := by
    rw [ho] at ho'
    exact (Except.ok.inj ho').symm
  rcases hcases with ⟨hx, he⟩ | ⟨x, -, hok, -, he⟩
  · rw [he]
    have hcontains : seed.request.window.contains span'.compute = true := by
      rw [Span.exceeded, hcount, if_neg (by decide), Bool.not_eq_false'] at hx
      rw [← hwindow]
      exact hx
    have hkept : span'.recalc.kept.Guards base seed.ref seed.request := by
      have hsame : span'.recalc.kept.seed = seed := hseed
      refine ⟨by rw [hsame], by rw [hsame], hwindow, ⟨d, hpursues.congr rfl fun _ _ _ _ => rfl, ?_⟩, fun hi => ?_⟩
      · rw [← hcompute]
        exact hcontains
      · have hunknown : span'.compute = unknownValue := by
          by_contra hne
          rw [show span'.recalc.kept.status = span'.recalc.status from rfl, Span.recalc, if_neg hne, hactive] at hi
          cases hi
        rw [← hunknown]
        exact hcontains
    refine ⟨h.grown, hasked, fun x hx => ?_, fun r k hk q hq => ?_⟩
    · rcases List.mem_append.mp hx with hx | hx
      · exact h.watched x hx
      · obtain rfl := List.mem_singleton.mp hx
        exact hseed ▸ hbranches
    · rcases h.spans r k hk q hq with ⟨y, hy, hguards⟩ | ⟨seed', hmem, hr, hq'⟩
      · exact .inl ⟨y, List.mem_append_left _ hy, hguards⟩
      rcases List.mem_cons.mp hmem with rfl | hmem
      · exact .inl ⟨_, List.mem_append_right _ (List.mem_singleton.mpr rfl), hr ▸ hq' ▸ hkept⟩
      · exact .inr ⟨seed', hmem, hr, hq'⟩
  · obtain ⟨hplain, hfits, hlong⟩ := hdirect.tail h.grown hf
    have hnone : x.window = none := by
      rw [Fragment.expand_branch hbranch] at hok
      exact (congrArg Expansion.window (Except.ok.inj hok)).symm
    have hsections : (s.watch seed).sections =
        s.sections.setFragment seed.ref (f.expand seed.request.id 0 span'.compute).state := by
      rw [he]
      rfl
    have hspans : (s.watch seed).spans = s.spans := by
      rw [he, hnone]
      exact List.append_nil _
    refine ⟨?_, hasked, ?_, fun r k hk q hq => ?_⟩
    · rw [hsections]
      exact h.grown.setFragment_right hg hf (Fragment.under_expand hplain hfits hlong _ _ _)
    · rw [hspans]
      exact h.watched
    · rw [hsections] at hk
      by_cases hr : seed.ref = r
      · subst hr
        rw [Sections.fragment?_setFragment_self hf, Fragment.expand_branch hbranch] at hk
        obtain rfl := Option.some.inj hk
        cases hq
      · rw [Sections.fragment?_setFragment_ne hr] at hk
        rw [hspans]
        rcases h.spans r k hk q hq with hguards | ⟨seed', hmem, hr', hq'⟩
        · exact .inl hguards
        · rcases List.mem_cons.mp hmem with rfl | hmem
          · exact absurd hr' hr
          · exact .inr ⟨seed', hmem, hr', hq'⟩

/-! ## Laying out -/

theorem setsOffset {seeds : List Seed} (h : s.Guarded base seeds) (hb : base.Branching) {r : FragmentRef}
    {f : Fragment (Tail Empty)} (hf : s.sections.fragment? r = some f) : f.setsOffset = false := by
  obtain ⟨g, hg, hu⟩ := h.grown.exists_left hf
  rw [hu.setsOffset]
  exact hb.setsOffset hg

theorem lay (h : s.Guarded base []) (hb : base.Branching) : s.lay.diags = s.diags ∧ s.lay.Guarded base [] := by
  have hnone : ∀ r f, s.sections.fragment? r = some f → f.setsOffset = false := fun r f hf => h.setsOffset hb hf
  have hlay := Sections.fragment?_lay_of_not_setsOffset s.diags hnone
  refine ⟨(Sections.lay_of_not_setsOffset s.diags hnone).1, fun r => ?_, h.asked, h.watched, fun r g hg => ?_⟩
  · rcases h.grown r with ⟨hn, hn'⟩ | ⟨f, g, hf, hg, hu⟩
    · exact .inl ⟨hn, by rw [Relaxation.lay, hlay, hn']; rfl⟩
    · exact .inr
        ⟨f, { g with offset := s.sections.begins r }, hf, by rw [Relaxation.lay, hlay, hg]; rfl, hu.fixed, hu.tail,
        hu.fits, hu.fits'⟩
  · obtain ⟨f, hf, rfl⟩ := Option.map_eq_some_iff.mp (show (s.sections.fragment? r).map _ = some g from hlay r ▸ hg)
    exact h.spans r f hf

/-! ## The recheck -/

theorem recheck (h : s.Guarded base []) : s.recheck.Guarded base [] := by
  refine ⟨h.grown, h.asked, fun x hx => ?_, fun r f hf q hq => ?_⟩
  · rw [spans_recheck] at hx
    obtain ⟨span, hspan, rfl⟩ := List.mem_map.mp hx
    rw [Span.seed_of_outline (span.outline_rechecked _)]
    exact h.watched span hspan
  · rcases h.spans r f hf q hq with ⟨span, hspan, hguards⟩ | ⟨seed, hseed, -⟩
    · refine .inl ⟨_, ?_, hguards.rechecked s.sections⟩
      rw [spans_recheck]
      exact List.mem_map_of_mem hspan
    · cases hseed

theorem isCount (h : s.Guarded base []) {span : Span} (hspan : span ∈ s.spans) : span.isCount = false := by
  obtain ⟨d, -, -, hdirect, -⟩ := h.watched span hspan
  rw [Span.isCount, Span.id, hdirect.id_eq]
  decide

theorem checkCycles (h : s.Guarded base []) : s.checkCycles = s := checkCycles_of_no_counts fun _ => h.isCount

theorem congr (h : s.Guarded base []) (hsections : t.sections = s.sections) (hspans : t.spans = s.spans) :
    t.Guarded base [] :=
  ⟨hsections ▸ h.grown, h.asked, hspans ▸ h.watched, hsections ▸ hspans ▸ h.spans⟩

theorem prepare (h : s.Guarded base []) : s.prepare.diags = s.diags ∧ s.prepare.Guarded base [] := by
  have hi : s.indexed.Guarded base [] := h.congr rfl rfl
  have he : s.prepare = s.indexed := hi.checkCycles
  rw [he]
  exact ⟨rfl, hi⟩

/-! ## The run -/

theorem settled (h : s.Guarded base []) (hs : s.step = .settled t) : t.diags = s.diags ∧ t.Guarded base [] := by
  rcases step_effect s with ⟨hidle, -⟩ | ⟨n, s', -, hspans, hreq, hcases⟩
  · rw [hidle] at hs
    cases hs
  rcases hcases with he | ⟨span, hn, hactive, ⟨hx, he⟩ | ⟨-, -, he⟩ | ⟨-, -, he⟩⟩ <;> rw [he] at hs <;> cases hs
  · exact ⟨hreq.diags, h.congr hreq.sections hspans⟩
  · have hset : ((s'.setSpan n span.woken).countRecalcs 1).spans = s.spans.set n span.woken := by
      rw [← hspans]
      rfl
    have hfollow : SpansFollow s ((s'.setSpan n span.woken).countRecalcs 1) := by
      refine spansFollow_set hn hset ⟨span.outline_woken, rfl, fun hi => .inr fun hid => ?_⟩
      exact Span.lost_of_recalc (by simp) hx hi hid
    refine ⟨hreq.diags, ?_, h.asked, fun x hx => ?_, fun r f hf q hq => ?_⟩
    · rw [show ((s'.setSpan n span.woken).countRecalcs 1).sections = s.sections from hreq.sections]
      exact h.grown
    · rw [hset] at hx
      rcases List.mem_or_eq_of_mem_set hx with hx | rfl
      · exact h.watched x hx
      · exact h.watched span (List.mem_of_getElem? hn)
    · rw [show ((s'.setSpan n span.woken).countRecalcs 1).sections = s.sections from hreq.sections] at hf
      rcases h.spans r f hf q hq with ⟨y, hy, hguards⟩ | ⟨_, hseed, -⟩
      · obtain ⟨m, hm⟩ := List.mem_iff_getElem?.mp hy
        obtain ⟨z, hz, hyz⟩ := hfollow m y hm
        exact .inl ⟨z, List.mem_of_getElem? hz, hguards.follows hyz⟩
      · cases hseed

theorem setters_eq_nil (h : s.Guarded base []) (hb : base.Branching) (hs : s.plan.Sound) : s.setters = [] := by
  refine List.eq_nil_iff_forall_not_mem.mpr fun x hx => ?_
  have hmem : x.ref ∈ s.plan.setters := List.mem_map_of_mem hx
  obtain ⟨a, ha, hset⟩ := (hs.mem_setters x.ref).mp hmem
  obtain ⟨f, hf, rfl⟩ := Sections.exists_fragment_of_frame? ha
  exact absurd (h.setsOffset hb hf) (by rw [show f.setsOffset = true from hset]; decide)

end Guarded

theorem follow_of_setters_eq_nil {s : Relaxation Empty} (h : s.setters = []) (seed : Seed)
    (f g : Fragment (Tail Empty)) : (s.follow seed f g).diags = s.diags ∧ SpansFollow s (s.follow seed f g) := by
  by_cases hz : signed g.totalLen - signed f.totalLen = 0
  · rw [follow_of_zero hz]
    exact ⟨rfl, .of_spans_eq rfl⟩
  · rw [follow_of_ne_zero hz, h, List.drop_nil, ripple]
    refine ⟨(shift_requeued _ _ _).diags, ?_⟩
    exact (SpansFollow.of_spans_eq (t := s.setFragment seed.ref g) rfl).trans (spansFollow_shift _ _ _)

namespace Guarded

variable {base : Sections Empty} {s t : Relaxation Empty}

theorem tried (h : s.Guarded base []) (hb : base.Branching) (hs : s.plan.Sound) {n : Nat} {span : Span}
    {f : Fragment (Tail Empty)} (ht : Tries s t n span f) : t.diags = s.diags ∧ t.Guarded base [] := by
  have hmem := List.mem_of_getElem? ht.found
  have hbranches := h.watched span hmem
  obtain ⟨d, g, -, hdirect, hg, -⟩ := h.watched span hmem
  obtain ⟨b, hbranch⟩ := h.branch hbranches ht.fragment
  obtain ⟨hplain, hfits, hlong⟩ := hdirect.tail h.grown ht.fragment
  have hgrown : base.Under t.sections :=
    (ht.repadded hs).under_right
      (h.grown.setFragment_right hg ht.fragment (Fragment.under_expand hplain hfits hlong _ _ _))
  have hwatched : ∀ x ∈ t.spans, x.seed.Branches base := by
    intro x hx
    rcases ht.spans hx with ⟨old, hold, hdrift⟩ | ⟨w, -, hdrift⟩
    · rw [hdrift.seed]
      exact h.watched old hold
    · rw [hdrift.seed, Span.seed_expanded]
      exact hbranches
  obtain ⟨s', hspans, hreq, ⟨e, he, -⟩ | ⟨x, hx, he⟩⟩ := ht.follows
  · rw [Fragment.expand_branch hbranch] at he
    cases he
  obtain ⟨hdiags, hfollow⟩ := follow_of_setters_eq_nil (s := s'.renewed n (span.woken.expanded x.window))
    (hreq.setters.trans (h.setters_eq_nil hb hs)) span.seed f (f.expand span.id span.current span.compute).state
  rw [← he] at hdiags hfollow
  refine ⟨hdiags.trans hreq.diags, hgrown, h.asked, hwatched, fun r k hk q hq => ?_⟩
  by_cases hr : span.seed.ref = r
  · subst hr
    rw [ht.fragment?_self hs, Fragment.expand_branch hbranch] at hk
    obtain rfl := Option.some.inj hk
    cases hq
  · obtain ⟨k', hk', -⟩ := hgrown.exists_left hk
    obtain ⟨k'', hk'', -⟩ := h.grown.exists_right hk'
    obtain rfl := Option.some.inj ((ht.fragment?_ne hs hr hk'' (h.setsOffset hb hk'')).symm.trans hk)
    rcases h.spans r k'' hk'' q hq with ⟨y, hy, hguards⟩ | ⟨_, hseed, -⟩
    · obtain ⟨m, hm⟩ := List.mem_iff_getElem?.mp hy
      have hnm : n ≠ m := by
        rintro rfl
        obtain rfl := Option.some.inj (ht.found.symm.trans hm)
        exact hr hguards.ref
      have hm' : (s'.renewed n (span.woken.expanded x.window)).spans[m]? = some y := by
        rw [show (s'.renewed n (span.woken.expanded x.window)).spans = s'.spans.set n _ from rfl, hspans,
          List.getElem?_set_ne hnm]
        exact hm
      obtain ⟨z, hz, hyz⟩ := hfollow m y hm'
      exact .inl ⟨z, List.mem_of_getElem? hz, hguards.follows hyz⟩
    · cases hseed

/-- Draining reports nothing and keeps every short branch guarded. -/
theorem draining (h : s.Guarded base []) (hb : base.Branching) (hu : s.Upheld)
    (hw : ∀ u, Draining s u → ∀ k, u.sections.length k < 9223372036854775808) (hd : Draining s t) :
    t.diags = s.diags ∧ t.Guarded base [] := by
  induction hd with
  | start => exact ⟨rfl, h⟩
  | @step u v hd hs ih =>
    obtain ⟨hdiags, hguarded⟩ := ih
    rcases hs with hs | hs
    · obtain ⟨hdiags', hguarded'⟩ := hguarded.settled hs
      exact ⟨hdiags'.trans hdiags, hguarded'⟩
    · obtain ⟨hupheld, -⟩ := hd.upheld hu hw
      obtain ⟨n, span, f, ht⟩ := hupheld.tries hs
      obtain ⟨hdiags', hguarded'⟩ := hguarded.tried hb hupheld.sound ht
      exact ⟨hdiags'.trans hdiags, hguarded'⟩

/-! ## The end -/

/-- When nothing is queued any more, every short branch reaches its target. -/
theorem meets (h : s.Guarded base []) (hc : s.Consistent) (hidle : s.queued = 0)
    (hw : ∀ k, s.sections.length k < 2 ^ 63) : s.sections.Meets := by
  intro r g hg q hq d hd
  rcases h.spans r g hg q hq with ⟨span, hspan, hguards⟩ | ⟨_, hseed, -⟩
  · obtain ⟨d', hpursues, hfirst⟩ := hguards.first
    have hvalue : q.value.Spans d' := hguards.request ▸ hpursues.direct.value
    rw [hd.extent_eq hvalue]
    rcases hc.tracked.queues.within hidle hspan (h.isCount hspan) with hst | ⟨hst, hin⟩
    · obtain ⟨-, f, b, -, hf, hb⟩ := h.watched span hspan
      obtain ⟨f', t, hf', ht, hown, -⟩ := hpursues.direct.asked
      obtain rfl := Option.some.inj (hf.symm.trans hf')
      obtain rfl := Option.some.inj (hb.symm.trans ht)
      rw [hguards.request] at hown
      rcases Tail.mem_own hown with ⟨_, hn, -⟩ | ⟨_, e, v, -, -, -, hq⟩
      · cases hn
      · have hlost := hguards.inactive hst
        rw [hq] at hlost hfirst ⊢
        exact h.grown.atMost.contains_of_lost hpursues.direct.clear hw hfirst hlost
    · rw [← hpursues.compute h.grown hw (hc.tracked.spans span hspan (by rw [hst]; decide)), ← hguards.window]
      exact hin
  · cases hseed

end Guarded

end Relaxation

/-! ## The phases -/

namespace Sections

variable {config : Config} {diags : Diagnostics} {ss : Sections Empty}

theorem under_surveyed (h : ss.Branching) (hd : diags.hasErrors = false) :
    (ss.surveyed config diags).sections.Under (ss.surveyed config diags).sections :=
  under_refl fun _ _ hf => fits_surveyed h hd hf

theorem guarded_surveyed (hr : ss.RefsMatch) (h : ss.Branching) (hd : diags.hasErrors = false) :
    (ss.surveyed config diags).Guarded (ss.surveyed config diags).sections
      (Relaxation.surveySections 0 0 diags ss).seeds := by
  have hds : (ss.surveyed config diags).diags.hasErrors = false := by rwa [diags_surveyed h]
  have hnone : ∀ span ∈ (ss.surveyed config diags).spans, span.seed.Branches (ss.surveyed config diags).sections := by
    intro span hspan
    cases hspan
  refine ⟨under_surveyed h hd, fun seed hseed => direct_of_seed hr h hd hseed, hnone, fun r g hg q hq => .inr ?_⟩
  obtain ⟨f, requests, hf, hm, hseeds⟩ := measured_surveyed hds hg
  obtain ⟨htail, -, -, rfl⟩ := hm.branching (h.tails r f hf)
  rw [Fragment.own, htail] at hq
  obtain ⟨seed, hseed, hrequest, href⟩ := hseeds q hq
  exact ⟨seed, hseed, href.trans (hr r f hf), hrequest⟩

theorem guarded_watched (hr : ss.RefsMatch) (h : ss.Branching) (hd : diags.hasErrors = false)
    (hb : ∀ k, (ss.surveyed config diags).sections.length k < 2 ^ 63) :
    (ss.watched config diags).diags.hasErrors = false ∧
      (ss.watched config diags).Guarded (ss.surveyed config diags).sections [] := by
  have hds : (ss.surveyed config diags).diags.hasErrors = false := by rwa [diags_surveyed h]
  obtain ⟨hclean, hguarded, -⟩ := Relaxation.Watching.induct_clean
    (P := fun seeds s => s.Guarded (ss.surveyed config diags).sections seeds ∧
      s.sections.offset? = (ss.surveyed config diags).sections.offset?)
    (watching_surveyed hr hds) (fun seed hseed => placed_surveyed hr hds hseed) hds ⟨guarded_surveyed hr h hd, rfl⟩
    fun seed seeds s f hf ⟨hs, hoff⟩ => by
      obtain ⟨hdiags, hnext⟩ := hs.watch (under_surveyed h hd) (Relaxation.placed_surveySections hds) hb hoff hf
      exact ⟨hdiags, fun hd' hsame => ⟨hnext hd', hsame.offset?.trans hoff⟩⟩
  exact ⟨hclean, hguarded⟩

theorem guarded_rechecked (hr : ss.RefsMatch) (h : ss.Branching) (hd : diags.hasErrors = false)
    (hb : ∀ k, (ss.surveyed config diags).sections.length k < 2 ^ 63) :
    (ss.rechecked config diags).diags.hasErrors = false ∧
      (ss.rechecked config diags).Guarded (ss.surveyed config diags).sections [] := by
  obtain ⟨hclean, hguarded⟩ := guarded_watched hr h hd hb
  obtain ⟨hlay, hguarded⟩ := hguarded.lay (h.surveyed config hd)
  exact ⟨(congrArg Diagnostics.hasErrors hlay).trans hclean, hguarded.recheck⟩

theorem guarded_prepared (hr : ss.RefsMatch) (h : ss.Branching) (hd : diags.hasErrors = false)
    (hb : ∀ k, (ss.surveyed config diags).sections.length k < 2 ^ 63) :
    (ss.prepared config diags).diags.hasErrors = false ∧
      (ss.prepared config diags).Guarded (ss.surveyed config diags).sections [] := by
  obtain ⟨hclean, hguarded⟩ := guarded_rechecked hr h hd hb
  obtain ⟨hprepare, hguarded⟩ := hguarded.prepare
  exact ⟨(congrArg Diagnostics.hasErrors hprepare).trans hclean, hguarded⟩

/-! ## Words -/

theorem Branching.flat (h : ss.Branching) : ss.Flat := by
  intro r f hf
  have htail := h.tails r f hf
  unfold Fragment.flat
  cases ht : f.tail with
  | none => rfl
  | some t =>
    rw [ht] at htail
    cases t with
    | times _ _ _ => cases htail
    | _ => rfl

theorem Branching.steady (h : ss.Branching) : ss.Steady := by
  intro r f hf
  have htail := h.tails r f hf
  unfold Fragment.steadyInside
  cases ht : f.tail with
  | none => rfl
  | some t =>
    rw [ht] at htail
    cases t with
    | times _ _ _ => cases htail
    | other d => exact nomatch d
    | _ => simp [Tail.steadyInside]

theorem Branching.strays (h : ss.Branching) : ss.strays = [] := by
  refine List.filter_eq_nil_iff.mpr fun l hl => ?_
  obtain ⟨s, hs, hl⟩ := List.mem_flatMap.mp hl
  obtain ⟨f, hf, hl⟩ := List.mem_flatMap.mp hl
  obtain ⟨k, hk⟩ := List.mem_iff_getElem?.mp hs
  obtain ⟨i, hi⟩ := List.mem_iff_getElem?.mp hf
  have hfrag : ss.fragment? ⟨k, i⟩ = some f := by
    rw [fragment?, hk]
    exact hi
  have htail := h.tails _ f hfrag
  unfold Fragment.mentions at hl
  cases ht : f.tail with
  | none =>
    rw [ht] at hl
    cases hl
  | some t =>
    rw [ht] at hl htail
    cases t with
    | gap _ => cases hl
    | align _ | origin _ | leb128 _ | times _ _ _ => cases htail
    | other d => cases d
    | branch b =>
      obtain ⟨target, v, -, hholds, hv, -, e, he, hdiff⟩ := h.targets _ f b hfrag ht
      have hmem : l ∈ e.locs := by
        have hl : l ∈ (b.value.bind (·.abs)).elim [] Expr.locs := hl
        rwa [hv, Option.bind_some, he] at hl
      rw [Bool.not_eq_true', Bool.not_eq_false]
      rcases hdiff.mem_locs hmem with rfl | rfl
      · exact hholds
      · rw [holds, hfrag]
        exact decide_eq_true (Nat.le_refl _)

/-- In all layouts that a relaxation passes through, sections are smaller than `2 ^ 63`. -/
def StaysBelow (config : Config) (diags : Diagnostics) (ss : Sections Empty) : Prop :=
  ∀ tt, ss.Passes config diags tt → ∀ k, tt.length k < 2 ^ 63

theorem Branching.fitsThroughout (h : ss.Branching) (hw : ss.StaysBelow config diags) :
    ss.FitsThroughout config diags := by
  intro tt ht
  rw [h.strays]
  exact ⟨hw tt ht, by simp⟩

end Sections

end SpanLayout
