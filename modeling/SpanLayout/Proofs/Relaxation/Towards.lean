import SpanLayout.Proofs.Relaxation.Under

/-!
# Relaxing towards a solution

A relaxation gives a fragment a larger form only if it has to. If every form depends on a distance that extends over no
padding, a fragment that had to take a larger form has it in every layout where all values fit their forms. So the forms
of the relaxation are never larger than those of such a layout.
-/

namespace SpanLayout

/-! ## What a form depends on -/

/-- The seed asks for the distance that the form of a fragment of `base` depends on. A branch counts its distance from
where its instruction begins, and is no longer in its short form than in its long one. -/
structure Seed.Direct (base : Sections Empty) (d : Distance) (seed : Seed) : Prop where
  clear : base.Clear d
  value : seed.request.value.Spans d
  asked : ∃ f t, base.fragment? seed.ref = some f ∧ f.tail = some t ∧ seed.request ∈ t.own ∧
    ∀ b, t = .branch b → d.origin = ⟨seed.ref, f.fixedLen⟩ ∧ b.encoding.len ≤ b.long.len

theorem Tail.mem_own {t : Tail Empty} {q : SpanRequest} (h : q ∈ t.own) :
    (∃ x, t = .leb128 x ∧ x.value.const? = none ∧ q = ⟨1, .ofExpr x.value, Leb128.window x.isSigned x.len⟩) ∨
      ∃ b e v, t = .branch b ∧ b.shortInUse? = some e ∧ b.value = some v ∧
        q = ⟨1, v, ⟨e.range.low + signed e.len, e.range.high + signed e.len⟩⟩ := by
  cases t with
  | gap _ | align _ | origin _ | times _ _ _ => cases h
  | other d => exact nomatch d
  | leb128 x =>
    simp only [Tail.own, Leb128.Field.measure] at h
    split at h
    · cases h
    · rename_i hc
      exact .inl ⟨x, rfl, hc, List.mem_singleton.mp h⟩
  | branch b =>
    simp only [Tail.own, Branch.measure, Attempt.done] at h
    split at h
    · rename_i e v he hv
      exact .inr ⟨b, e, v, rfl, he, hv, List.mem_singleton.mp h⟩
    · cases h

/-! ## Expanding for a value that fits a larger form -/

namespace Fragment.Under

variable {f₀ f g : Fragment (Tail Empty)}

theorem plain (h : f.Under g) (hp : f.tail.all Tail.plain = true) : g.tail.all Tail.plain = true := by
  rcases h.tail with ⟨-, hg⟩ | ⟨t, u, hf, hg, htu⟩
  · rw [hg]
    rfl
  · rw [hf] at hp
    rw [hg]
    cases htu with
    | same => exact hp
    | wider | longer => rfl

theorem own (h : f.Under g) {q : SpanRequest} (hq : q ∈ f.own) {q' : SpanRequest} (hq' : q' ∈ g.own) :
    q'.value = q.value := by
  obtain ⟨t, ht, hq⟩ := exists_of_mem_own hq
  obtain ⟨u, hu, htu⟩ := h.tail_of_some ht
  obtain ⟨u', hu', hq'⟩ := exists_of_mem_own hq'
  obtain rfl := Option.some.inj (hu.symm.trans hu')
  rcases Tail.mem_own hq with ⟨x, rfl, -, rfl⟩ | ⟨b, e, v, rfl, -, hv, rfl⟩
  · rcases Tail.mem_own hq' with ⟨x', rfl, -, rfl⟩ | ⟨b, e, v, rfl, -⟩
    · cases htu <;> rfl
    · cases htu
  · rcases Tail.mem_own hq' with ⟨x', rfl, -⟩ | ⟨b', e', v', rfl, -, hv', rfl⟩
    · cases htu
    · have hb : b'.value = b.value := by cases htu <;> rfl
      exact Option.some.inj (hv'.symm.trans (hb.trans hv))

theorem field (h : f.Under g) {x : Leb128.Field} (hf : f.tail = some (.leb128 x)) (hc : x.value.const? = none) :
    ∃ len, g.tail = some (.leb128 { x with len }) ∧ ⟨1, .ofExpr x.value, Leb128.window x.isSigned len⟩ ∈ g.own := by
  obtain ⟨len, hg⟩ : ∃ len, g.tail = some (.leb128 { x with len }) := by
    obtain ⟨u, hu, htu⟩ := h.tail_of_some hf
    cases htu with
    | same => exact ⟨x.len, hu⟩
    | wider => exact ⟨_, hu⟩
  refine ⟨len, hg, ?_⟩
  rw [Fragment.own, hg]
  simp [Tail.own, Leb128.Field.measure, hc, Attempt.done]

theorem expand_of_met (h₀ : f₀.Under f) (h : f.Under g) {q : SpanRequest} (hq : q ∈ f₀.own)
    (hlong : ∀ b, f₀.tail = some (.branch b) → b.encoding.len ≤ b.long.len) {v : Int}
    (hw : -wordBound ≤ v ∧ v < wordBound) (hmet : ∀ q' ∈ g.own, q'.window.contains v = true)
    (hout : ∀ b, f₀.tail = some (.branch b) → q.window.contains v = false) (id old : Int) :
    f₀.Under (f.expand id old v).state ∧ (f.expand id old v).state.Under g := by
  obtain ⟨t, ht, hqt⟩ := exists_of_mem_own hq
  rcases Tail.mem_own hqt with ⟨x, rfl, hc, rfl⟩ | ⟨b, e, val, rfl, -⟩
  · obtain ⟨len, hf, -⟩ := h₀.field ht hc
    obtain ⟨len', hg, hown⟩ := (h₀.trans h).field ht hc
    have hplain : f.tail.all Tail.plain = true := by rw [hf]; rfl
    obtain ⟨-, h1, h10, -⟩ := (fits_of_some hg).mp h.fits'
    refine ⟨h₀.trans (under_expand hplain h₀.fits' (fun b hb => by cases hf.symm.trans hb) id old v),
      h.expand hplain id old (fun b hb => by cases hg.symm.trans hb) fun y hy => ?_⟩
    obtain rfl := Tail.leb128.inj (Option.some.inj (hg.symm.trans hy))
    exact (Leb128.contains_window_iff h1 h10 hw.1 hw.2).mp (hmet _ hown)
  · obtain ⟨b', hf, hlen⟩ : ∃ b', f.tail = some (.branch b') ∧ b'.encoding.len ≤ b'.long.len := by
      rcases h₀.branch ht with hf | hf
      · exact ⟨b, hf, hlong b ht⟩
      · exact ⟨b.lengthen, hf, Nat.le_refl _⟩
    have hplain : f.tail.all Tail.plain = true := by rw [hf]; rfl
    have hgt := (h₀.trans h).branch ht
    refine ⟨h₀.trans (under_expand hplain h₀.fits' (fun c hc => ?_) id old v),
      h.expand hplain id old (fun c hc => ?_) fun y hy => ?_⟩
    · obtain rfl := Tail.branch.inj (Option.some.inj (hf.symm.trans hc))
      exact hlen
    · -- A branch that is short in the larger layout would reach its target.
      rcases hgt with hgt | hgt <;> obtain rfl := Tail.branch.inj (Option.some.inj (hgt.symm.trans hc))
      · have hin := hmet q (by rw [Fragment.own, hgt]; exact hqt)
        rw [hout _ ht] at hin
        cases hin
      · rfl
    · rcases hgt with hgt | hgt <;> cases hgt.symm.trans hy

end Fragment.Under

theorem Sections.AtMost.contains_own {mm goal : Sections Empty} (h : mm.AtMost goal) {d : Distance} (hd : mm.Clear d)
    (hb : ∀ k, mm.length k < 2 ^ 63) {r : FragmentRef} {f g : Fragment (Tail Empty)} (hf : mm.fragment? r = some f)
    (hfg : f.Under g) {q : SpanRequest} (hq : q ∈ g.own)
    (horigin : ∀ b, g.tail = some (.branch b) → d.origin = ⟨r, g.fixedLen⟩)
    (hgoal : q.window.contains (goal.extent d) = true) : q.window.contains (mm.extent d) = true := by
  obtain ⟨u, hu, hqu⟩ := Fragment.exists_of_mem_own hq
  rcases Tail.mem_own hqu with ⟨x, rfl, -, rfl⟩ | ⟨b, e, v, rfl, he, -, rfl⟩
  · exact h.contains_window hd hgoal
  · -- A branch that is short in larger forms is short in smaller ones.
    have hshort : f.tail = some (.branch b) := by
      rcases hfg.tail with ⟨-, hn⟩ | ⟨t, u, hft, hu', htu⟩
      · cases hn.symm.trans hu
      · obtain rfl := Option.some.inj (hu.symm.trans hu')
        cases htu with
        | same => exact hft
        | longer => cases he
    exact h.contains_range hd hf hshort he hfg.fits (hfg.fixedLen ▸ horigin b hu) hb hgoal

namespace Seed.Direct

variable {base mm goal : Sections Empty} {d : Distance} {seed : Seed}

theorem tail (h : seed.Direct base d) (hm : base.Under mm) {f : Fragment (Tail Empty)}
    (hf : mm.fragment? seed.ref = some f) :
    f.tail.all Tail.plain = true ∧ f.Fits ∧ ∀ b, f.tail = some (.branch b) → b.encoding.len ≤ b.long.len := by
  obtain ⟨f', t, hf', ht, hq, hbranch⟩ := h.asked
  have hff := hm.of_both hf' hf
  obtain ⟨u, hu, htu⟩ := hff.tail_of_some ht
  rw [hu]
  refine ⟨?_, hff.fits', fun b hb => ?_⟩
  · rcases Tail.mem_own hq with ⟨y, rfl, -⟩ | ⟨b', e, v, rfl, -⟩ <;> cases htu <;> rfl
  · obtain rfl := Option.some.inj hb
    cases htu with
    | same => exact (hbranch b rfl).2
    | longer => exact Nat.le_refl _

/-- An expansion that is asked for with the distance in a layout below the solution does not go beyond the solution. -/
theorem expand (h : seed.Direct base d) {ss : Sections Empty} (hss : base.Under ss) (hgoal : ss.Under goal)
    (hmeets : goal.Meets) (hm : base.Under mm) (hmgoal : mm.Under goal) (hb : ∀ k, mm.length k < 2 ^ 63)
    (hout : ∀ f b, base.fragment? seed.ref = some f → f.tail = some (.branch b) →
      seed.request.window.contains (mm.extent d) = false)
    {f : Fragment (Tail Empty)} (hf : ss.fragment? seed.ref = some f) (id old : Int) :
    base.Under (ss.setFragment seed.ref (f.expand id old (mm.extent d)).state) ∧
      (ss.setFragment seed.ref (f.expand id old (mm.extent d)).state).Under goal := by
  obtain ⟨g, hg, hfg⟩ := hgoal.exists_right hf
  obtain ⟨f', t, hf', ht, hq, hbranch⟩ := h.asked
  obtain ⟨k, hk, hfk⟩ := hm.exists_right hf'
  have hff := hss.of_both hf' hf
  have hown : seed.request ∈ f'.own := by rwa [Fragment.own, ht]
  have hclear := hm.clear h.clear
  have hmet : ∀ q ∈ g.own, q.window.contains (mm.extent d) = true := by
    intro q hq'
    refine hmgoal.atMost.contains_own hclear hb hk (hmgoal.of_both hk hg) hq' (fun b hb => ?_)
      (hmeets _ g hg q hq' d ((hff.trans hfg).own hown hq' ▸ h.value))
    obtain ⟨u, hu, htu⟩ := (hff.trans hfg).tail_of_some ht
    obtain rfl := Option.some.inj (hb.symm.trans hu)
    rw [(hff.trans hfg).fixedLen]
    cases htu with
    | same | longer => exact (hbranch _ rfl).1
  obtain ⟨hgrown, hunder⟩ := hff.expand_of_met hfg hown (fun b hb => (hbranch b (Option.some.inj (ht.symm.trans hb))).2)
    (hclear.word hb) hmet (fun b hb => hout f' b hf' hb) id old
  exact ⟨Sections.Related.setFragment_right hss hf' hf hgrown, hgoal.setFragment_left hf hg hunder⟩

end Seed.Direct

/-! ## Spans -/

theorem Value.Spans.eq_of_mem {d d' : Distance} {v : Value} (h : v.Spans d)
    (hs : d.origin.fragment.sectionIndex = d.target.fragment.sectionIndex)
    (hd : d' ∈ (v.abs.map (·.distances.2)).getD []) : d' = d := by
  obtain ⟨-, e, he, hdiff⟩ := h
  rw [he, Option.map_some, Option.getD_some] at hd
  by_cases hab : d.target = d.origin
  · rw [hab] at hdiff
    rw [hdiff.const_of_eq] at hd
    cases hd
  · rw [hdiff.distances hab hs] at hd
    exact List.mem_singleton.mp hd

/-- The span watches a distance that a form depends on. As long as it is watched, a branch has one window. -/
structure Span.Pursues (base : Sections Empty) (d : Distance) (span : Span) : Prop where
  direct : span.seed.Direct base d
  expr : span.expr = span.seed.request.value.abs.map (·.distances.1)
  distances : span.terms.map (·.distance) = (span.seed.request.value.abs.map (·.distances.2)).getD []
  window : ∀ f b, base.fragment? span.seed.ref = some f → f.tail = some (.branch b) →
    span.window = span.seed.request.window

namespace Span.Pursues

variable {base : Sections Empty} {d : Distance} {span : Span}

theorem congr (h : span.Pursues base d) {x : Span} (ho : x.outline = span.outline)
    (hw : ∀ f b, base.fragment? span.seed.ref = some f → f.tail = some (.branch b) → x.window = span.window) :
    x.Pursues base d := by
  have hseed := seed_of_outline ho
  refine ⟨hseed ▸ h.direct, ?_, ?_, ?_⟩
  · rw [expr_of_outline ho, hseed, h.expr]
  · rw [distances_of_outline ho, hseed, h.distances]
  · rw [hseed]
    exact fun f b hf hb => (hw f b hf hb).trans (h.window f b hf hb)

theorem ofSeed {ss : Sections Empty} {seed : Seed} (h : seed.Direct base d) (ho : Span.ofSeed ss seed = .ok span) :
    span.Pursues base d := by
  obtain ⟨hseed, hwindow, -, -, hexpr, hterms⟩ := Span.ofSeed_ok ho
  refine ⟨hseed ▸ h, hseed ▸ hexpr, ?_, fun _ _ _ _ => hseed ▸ hwindow⟩
  rw [hseed, Relaxation.distances_of_measureTerm hterms]

theorem id_eq (h : span.Pursues base d) : span.id = 1 := by
  obtain ⟨_, t, _, _, hq, _⟩ := h.direct.asked
  exact Tail.own_id hq

theorem compute (h : span.Pursues base d) {ss : Sections Empty} (hss : base.Under ss) (hb : ∀ k, ss.length k < 2 ^ 63)
    (ht : ∀ t ∈ span.terms, t.length = ss.span t) : span.compute = ss.extent d := by
  have hclear := hss.clear h.direct.clear
  obtain ⟨hl, hh⟩ := hclear.word hb
  rw [compute_of_terms h.expr h.distances ht, Sections.valueOf?_of_spans h.direct.value hclear.sameSection hl hh]
  rfl

end Span.Pursues

theorem Span.terms_ofSeed {base ss : Sections Empty} (hp : base.Placed) (hb : ∀ k, base.length k < 2 ^ 63)
    (hoff : ss.offset? = base.offset?) {d : Distance} {seed : Seed} (h : seed.Direct base d) {span : Span}
    (ho : Span.ofSeed ss seed = .ok span) : ∀ t ∈ span.terms, t.length = base.span t := by
  intro t ht
  have hd : t.distance = d := by
    have hmem : t.distance ∈ span.terms.map (·.distance) := List.mem_map_of_mem ht
    have hpursues := Pursues.ofSeed h ho
    rw [hpursues.distances] at hmem
    exact hpursues.direct.value.eq_of_mem h.clear.sameSection hmem
  have hlen := Relaxation.recorded_ofSeed hoff ho t ht
  obtain ⟨f, hf, hfl⟩ := Sections.exists_of_holds h.clear.origin
  obtain ⟨g, hg, hgl⟩ := Sections.exists_of_holds h.clear.target
  have := Sections.position_le_length hf hfl
  have := Sections.position_le_length hg hgl
  have := hb d.origin.fragment.sectionIndex
  have := hb d.target.fragment.sectionIndex
  rw [hd, Sections.distance?_of_offset? (beq_iff_eq.mpr h.clear.sameSection) (Sections.offset?_of_placed hp hf)
    (Sections.offset?_of_placed hp hg) (by omega) (by omega)] at hlen
  rw [← Option.some.inj hlen, Sections.span, hd]

namespace Relaxation

/-! ## Spans as fragments grow -/

/-- Every span of `t` is what became of one of `s`. -/
def SpansFrom (s t : Relaxation Empty) : Prop := ∀ new ∈ t.spans, ∃ old ∈ s.spans, old.Drifts new

theorem SpansFrom.of_spans_eq {s t : Relaxation Empty} (h : t.spans = s.spans) : SpansFrom s t :=
  fun new hnew => ⟨new, h ▸ hnew, .refl new⟩

theorem SpansFrom.trans {s t u : Relaxation Empty} (h : SpansFrom s t) (h' : SpansFrom t u) : SpansFrom s u := by
  intro new hnew
  obtain ⟨mid, hmid, hd⟩ := h' new hnew
  obtain ⟨old, hold, hd'⟩ := h mid hmid
  exact ⟨old, hold, hd'.trans hd⟩

theorem spansFrom_shift (s : Relaxation Empty) (i : Nat) (d : Int) : SpansFrom s (s.shift i d) := by
  intro new hnew
  have hdrift := spansDrift_shift s i d
  obtain ⟨n, hn⟩ := List.mem_iff_getElem?.mp hnew
  have hlt := (List.getElem?_eq_some_iff.mp hn).1
  rw [hdrift.length] at hlt
  obtain ⟨new', hnew', hd⟩ := hdrift.drifts n _ (List.getElem?_eq_getElem hlt)
  obtain rfl := Option.some.inj (hn.symm.trans hnew')
  exact ⟨_, List.getElem_mem hlt, hd⟩

theorem spansFrom_moveSetter (k : Nat) (x : Setter) (d : Int) (f : Fragment (Tail Empty)) (s : Relaxation Empty) :
    SpansFrom s (s.moveSetter k x d f) := by
  rw [moveSetter_eq rfl rfl rfl]
  dsimp only
  split
  · exact .of_spans_eq rfl
  · exact (SpansFrom.of_spans_eq rfl).trans (spansFrom_shift _ _ _)

theorem spansFrom_ripple (sec k : Nat) (setters : List Setter) (d : Int) (s : Relaxation Empty) :
    SpansFrom s (ripple sec k setters d s) := by
  induction setters generalizing k d s with
  | nil => exact .of_spans_eq rfl
  | cons x setters ih =>
    rw [ripple_cons]
    split
    · exact .of_spans_eq rfl
    · split
      · exact .of_spans_eq rfl
      · exact (spansFrom_moveSetter k x d _ s).trans (ih _ _ _)

theorem spansFrom_follow (s : Relaxation Empty) (seed : Seed) (f g : Fragment (Tail Empty)) :
    SpansFrom s (s.follow seed f g) := by
  by_cases hz : signed g.totalLen - signed f.totalLen = 0
  · rw [follow_of_zero hz]
    exact .of_spans_eq rfl
  · rw [follow_of_ne_zero hz]
    exact ((SpansFrom.of_spans_eq rfl).trans (spansFrom_shift (s.setFragment seed.ref g) _ _)).trans
      (spansFrom_ripple _ _ _ _ _)

/-! ## What trying to expand a fragment leaves -/

theorem Tries.fragment?_ne {s t : Relaxation Empty} (hs : s.plan.Sound) {n : Nat} {span : Span}
    {f : Fragment (Tail Empty)}
    (h : Tries s t n span f) {r : FragmentRef} (hr : span.seed.ref ≠ r) {g : Fragment (Tail Empty)}
    (hg : s.sections.fragment? r = some g) (hset : g.setsOffset = false) : t.sections.fragment? r = some g := by
  have hne : ∀ y ∈ s.setters, y.ref ≠ r := fun y hy hyr =>
    hs.not_mem_setters hg hset (hyr ▸ List.mem_map_of_mem hy)
  obtain ⟨s', -, hreq, ⟨e, -, ht⟩ | ⟨x, -, ht⟩⟩ := h.follows
  · rw [ht]
    show (s'.sections.setFragment span.seed.ref _).fragment? r = some g
    rw [Sections.fragment?_setFragment_ne hr, hreq.sections, hg]
  · rw [ht, fragment?_follow_ne hr (show ∀ y ∈ (s'.renewed n _).setters, y.ref ≠ r from hreq.setters ▸ hne)]
    rw [← hg, ← hreq.sections]
    rfl

theorem Tries.fragment?_self {s t : Relaxation Empty} (hs : s.plan.Sound) {n : Nat} {span : Span}
    {f : Fragment (Tail Empty)} (h : Tries s t n span f) :
    t.sections.fragment? span.seed.ref = some (f.expand span.id span.current span.compute).state := by
  have hne : ∀ y ∈ s.setters, y.ref ≠ span.seed.ref := fun y hy hyr =>
    hs.not_mem_setters h.fragment h.setsOffset (hyr ▸ List.mem_map_of_mem hy)
  obtain ⟨s', -, hreq, ⟨e, -, ht⟩ | ⟨x, -, ht⟩⟩ := h.follows <;> rw [ht]
  · show (s'.sections.setFragment span.seed.ref _).fragment? span.seed.ref = _
    exact Sections.fragment?_setFragment_self (hreq.sections ▸ h.fragment) _
  · refine fragment?_follow_self (s := s'.renewed n _) ?_ (hreq.setters ▸ hne) _
    rw [← h.fragment, ← hreq.sections]
    rfl

theorem Tries.spans {s t : Relaxation Empty} {n : Nat} {span : Span} {f : Fragment (Tail Empty)}
    (h : Tries s t n span f) {new : Span} (hnew : new ∈ t.spans) :
    (∃ old ∈ s.spans, old.Drifts new) ∨
      ∃ w, (w = none ∨ ∃ x, (f.expand span.id span.current span.compute).result = .ok x ∧ w = x.window) ∧
        (span.woken.expanded w).Drifts new := by
  have hset {s' : Relaxation Empty} (hspans : s'.spans = s.spans) {old y : Span} (hold : old ∈ (s'.renewed n y).spans) :
      old ∈ s.spans ∨ old = y := by
    rw [← hspans]
    exact List.mem_or_eq_of_mem_set hold
  obtain ⟨s', hspans, -, ⟨e, -, ht⟩ | ⟨x, hx, ht⟩⟩ := h.follows <;> rw [ht] at hnew
  · rcases hset hspans hnew with hold | rfl
    · exact .inl ⟨new, hold, .refl new⟩
    · exact .inr ⟨none, .inl rfl, .refl _⟩
  · obtain ⟨old, hold, hd⟩ := spansFrom_follow _ _ _ _ new hnew
    rcases hset hspans hold with hold | rfl
    · exact .inl ⟨old, hold, hd⟩
    · exact .inr ⟨x.window, .inr ⟨x, hx, rfl⟩, hd⟩

theorem Tries.repadded {s t : Relaxation Empty} (hs : s.plan.Sound) {n : Nat} {span : Span} {f : Fragment (Tail Empty)}
    (h : Tries s t n span f) :
    (s.sections.setFragment span.seed.ref (f.expand span.id span.current span.compute).state).Repadded t.sections := by
  obtain ⟨hplan, -, -, -, hreshaped⟩ := h.kept
  intro r
  by_cases hr : span.seed.ref = r
  · subst hr
    exact .inr ⟨_, _, Sections.fragment?_setFragment_self h.fragment _, h.fragment?_self hs, .refl _⟩
  · rw [Sections.fragment?_setFragment_ne hr]
    have hframe : t.sections.frame? r = s.sections.frame? r := congrFun (congrArg Plan.frame? hplan) r
    cases hg : t.sections.fragment? r with
    | none =>
      rw [Sections.frame?, hg] at hframe
      exact .inl ⟨Option.map_eq_none_iff.mp hframe.symm, rfl⟩
    | some g =>
      obtain ⟨g', hg', hgg⟩ := hreshaped r g hg
      refine .inr ⟨g', g, hg', rfl, ?_⟩
      by_cases hset : g'.setsOffset = true
      · exact hgg.repadded hset
      · rw [h.fragment?_ne hs hr hg' (by simpa using hset)] at hg
        obtain rfl := Option.some.inj hg
        exact .refl _

/-! ## The way to a solution -/

/-- The forms have grown from those of `base`, not beyond those of `goal`, and the spans watch the distances that the
forms depend on. -/
structure Towards (base goal : Sections Empty) (s : Relaxation Empty) : Prop where
  grown : base.Under s.sections
  under : s.sections.Under goal
  spans : ∀ span ∈ s.spans, ∃ d, span.Pursues base d

theorem window_of_branch {base ss : Sections Empty} (h : base.Under ss) {r : FragmentRef} {f g : Fragment (Tail Empty)}
    {b : Branch} (hg : base.fragment? r = some g) (hb : g.tail = some (.branch b)) (hf : ss.fragment? r = some f)
    {id old new : Int} {x : Expansion} (hx : (f.expand id old new).result = .ok x) : x.window = none := by
  obtain ⟨b', hb'⟩ : ∃ b', f.tail = some (.branch b') := by
    rcases (h.of_both hg hf).branch hb with ht | ht
    · exact ⟨b, ht⟩
    · exact ⟨b.lengthen, ht⟩
  rw [Fragment.expand_branch hb'] at hx
  cases hx
  rfl

namespace Towards

variable {base goal : Sections Empty} {s t : Relaxation Empty}

theorem congr (h : s.Towards base goal) (hsections : t.sections = s.sections)
    (hspans : ∀ x ∈ t.spans, ∃ span ∈ s.spans, x.outline = span.outline ∧ x.window = span.window) :
    t.Towards base goal := by
  refine ⟨hsections ▸ h.grown, hsections ▸ h.under, fun x hx => ?_⟩
  obtain ⟨span, hspan, ho, hw⟩ := hspans x hx
  obtain ⟨d, hp⟩ := h.spans span hspan
  exact ⟨d, hp.congr ho fun _ _ _ _ => hw⟩

theorem lay (h : s.Towards base goal) (hd : s.lay.diags.hasErrors = false)
    (hb : ∀ k, s.lay.sections.length k < 9223372036854775808) : s.lay.Towards base goal :=
  have hrepadded := Sections.repadded_lay hd hb
  ⟨hrepadded.under_right h.grown, hrepadded.under_left h.under, h.spans⟩

theorem watch (h : s.Towards base goal) (hmeets : goal.Meets) (hbase : base.Under goal) (hself : base.Under base)
    (hp : base.Placed) (hb : ∀ k, base.length k < 2 ^ 63) (hoff : s.sections.offset? = base.offset?) {seed : Seed}
    {d : Distance} (hseed : seed.Direct base d) {f : Fragment (Tail Empty)}
    (hf : s.sections.fragment? seed.ref = some f)
    (hd : (s.watch seed).diags.hasErrors = false) : (s.watch seed).Towards base goal := by
  obtain ⟨span, ho, hcases⟩ := watch_cases hf hd
  have hpursues := Span.Pursues.ofSeed hseed ho
  have hcompute := hpursues.compute hself hb (Span.terms_ofSeed hp hb hoff hseed ho)
  obtain ⟨hsame, hwindow, -⟩ := Span.ofSeed_ok ho
  rcases hcases with ⟨-, he⟩ | ⟨x, hexceeded, hx, -, he⟩ <;> rw [he]
  · refine ⟨h.grown, h.under, fun y hy => ?_⟩
    rcases List.mem_append.mp hy with hy | hy
    · exact h.spans y hy
    · rw [List.mem_singleton.mp hy]
      exact ⟨d, hpursues.congr rfl fun _ _ _ _ => rfl⟩
  · have hout : seed.request.window.contains (base.extent d) = false := by
      have hcount : span.recalc.isCount = false := by
        rw [Span.isCount, show span.recalc.id = span.id from rfl, hpursues.id_eq]
        decide
      rw [Span.exceeded, hcount, if_neg (by decide), Bool.not_eq_true'] at hexceeded
      rw [← hcompute, ← hwindow]
      exact hexceeded
    obtain ⟨hgrown, hunder⟩ := hseed.expand h.grown h.under hmeets hself hbase hb (fun _ _ _ _ => hout) hf
      seed.request.id 0
    rw [hcompute]
    refine ⟨hgrown, hunder, fun y hy => ?_⟩
    rcases List.mem_append.mp hy with hy | hy
    · exact h.spans y hy
    · obtain ⟨w, hw, rfl⟩ := List.mem_map.mp hy
      refine ⟨d, hpursues.congr rfl fun f' b hf' hb' => ?_⟩
      rw [hsame] at hf'
      rw [window_of_branch h.grown hf' hb' hf hx] at hw
      cases hw

theorem settled (h : s.Towards base goal) (hs : s.step = .settled t) : t.Towards base goal := by
  obtain ⟨s', hspans, hreq, rfl | ⟨n, span, hn, -, rfl⟩⟩ := step_settled hs
  · exact h.congr hreq.sections fun x hx => ⟨x, hspans ▸ hx, rfl, rfl⟩
  · refine h.congr hreq.sections fun x hx => ?_
    rcases List.mem_or_eq_of_mem_set hx with hx | rfl
    · exact ⟨x, hspans ▸ hx, rfl, rfl⟩
    · exact ⟨span, List.mem_of_getElem? hn, span.outline_woken, rfl⟩

theorem expand (h : s.Towards base goal) (hmeets : goal.Meets) (hu : s.Upheld) (hb : ∀ k, s.sections.length k < 2 ^ 63)
    {span : Span} (hspan : span ∈ s.spans) (hwatched : span.status ≠ .inactive) (hexceeded : span.woken.exceeded = true)
    {f : Fragment (Tail Empty)} (hf : s.sections.fragment? span.seed.ref = some f) :
    base.Under (s.sections.setFragment span.seed.ref (f.expand span.id span.current span.compute).state) ∧
      (s.sections.setFragment span.seed.ref (f.expand span.id span.current span.compute).state).Under goal := by
  obtain ⟨d, hp⟩ := h.spans span hspan
  have hcompute := hp.compute h.grown hb (hu.spans span hspan hwatched)
  have hout : ∀ f' b, base.fragment? span.seed.ref = some f' → f'.tail = some (.branch b) →
      span.seed.request.window.contains (s.sections.extent d) = false := by
    intro f' b hf' hb'
    have hcount : span.woken.isCount = false := by
      rw [Span.isCount, show span.woken.id = span.id from rfl, hp.id_eq]
      decide
    rw [Span.exceeded, hcount, if_neg (by decide), Bool.not_eq_true'] at hexceeded
    rw [← hp.window f' b hf' hb', ← hcompute]
    exact hexceeded
  rw [hcompute]
  exact hp.direct.expand h.grown h.under hmeets h.grown h.under hb hout hf span.id span.current

/-- What is expanded later is out of its window in the layout of the time. -/
theorem tried (h : s.Towards base goal) (hmeets : goal.Meets) (hu : s.Upheld) (hb : ∀ k, s.sections.length k < 2 ^ 63)
    {n : Nat} {span : Span} {f : Fragment (Tail Empty)} (ht : Tries s t n span f) : t.Towards base goal := by
  have hmem := List.mem_of_getElem? ht.found
  obtain ⟨d, hp⟩ := h.spans span hmem
  obtain ⟨hgrown, hunder⟩ := h.expand hmeets hu hb hmem ht.watched ht.exceeded ht.fragment
  have hrepadded := ht.repadded hu.sound
  refine ⟨hrepadded.under_right hgrown, hrepadded.under_left hunder, fun new hnew => ?_⟩
  rcases ht.spans hnew with ⟨old, hold, hdrift⟩ | ⟨w, hw, hdrift⟩
  · obtain ⟨d', hp'⟩ := h.spans old hold
    exact ⟨d', hp'.congr hdrift.outline fun _ _ _ _ => hdrift.window⟩
  · have hexpanded : (span.woken.expanded w).outline = span.outline := by simp
    refine ⟨d, hp.congr (hdrift.outline.trans hexpanded) fun f' b hf' hb' => hdrift.window.trans ?_⟩
    obtain rfl : w = none := by
      rcases hw with rfl | ⟨x, hx, rfl⟩
      · rfl
      · exact window_of_branch h.grown hf' hb' ht.fragment hx
    rfl

theorem draining (h : s.Towards base goal) (hmeets : goal.Meets) (hu : s.Upheld)
    (hb : ∀ u, Draining s u → ∀ k, u.sections.length k < 2 ^ 63) (hd : Draining s t) : t.Towards base goal := by
  induction hd with
  | start => exact h
  | @step u v hd hs ih =>
    have hupheld := (hd.upheld hu hb).1
    rcases hs with hs | hs
    · exact ih.settled hs
    · obtain ⟨n, span, f, ht⟩ := hupheld.tries hs
      exact ih.tried hmeets hupheld (hb u hd) ht

end Towards

end Relaxation

/-! ## The phases -/

namespace Sections

variable {config : Config} {diags : Diagnostics} {ss goal : Sections Empty}

/-- The first expansions do not go beyond a solution, if every span is asked for by a form that depends on one distance.
-/
theorem towards_watched (hr : ss.RefsMatch) (hd : (ss.watched config diags).diags.hasErrors = false)
    (hseeds : ∀ seed ∈ (Relaxation.surveySections 0 0 diags ss).seeds, ∃ d,
    seed.Direct (ss.surveyed config diags).sections d)
    (hself : (ss.surveyed config diags).sections.Under (ss.surveyed config diags).sections)
    (hb : ∀ k, (ss.surveyed config diags).sections.length k < 2 ^ 63) (hmeets : goal.Meets)
    (hbase : (ss.surveyed config diags).sections.Under goal) :
    (ss.watched config diags).Towards (ss.surveyed config diags).sections goal := by
  have hds := hasErrors_surveyed hd
  have hnone : ∀ span ∈ (ss.surveyed config diags).spans, ∃ d, span.Pursues (ss.surveyed config diags).sections d := by
    intro span hspan
    cases hspan
  refine (Relaxation.Watching.induct (P := fun seeds s => s.Towards (ss.surveyed config diags).sections goal ∧
      s.sections.offset? = (ss.surveyed config diags).sections.offset? ∧
      ∀ seed ∈ seeds, ∃ d, seed.Direct (ss.surveyed config diags).sections d)
    (watching_surveyed hr hds) (fun seed hseed => placed_surveyed hr hds hseed) hd
    ⟨⟨hself, hbase, hnone⟩, rfl, hseeds⟩ ?_).1
  rintro seed seeds s f hf - hd' hsame ⟨hs, hoff, hdirect⟩
  obtain ⟨d, hd⟩ := hdirect seed List.mem_cons_self
  exact ⟨hs.watch hmeets hbase hself (Relaxation.placed_surveySections hds) hb hoff hd hf hd', hsame.offset?.trans hoff,
    fun seed' hseed' => hdirect seed' (List.mem_cons_of_mem seed hseed')⟩

theorem prepared_of_towards {base : Sections Empty} (h : (ss.watched config diags).lay.Towards base goal) :
    (ss.prepared config diags).Towards base goal :=
  h.congr (sections_prepared config diags ss) fun _ hx => spans_prepared hx

theorem towards_prepared (hr : ss.RefsMatch) (hd : (ss.rechecked config diags).diags.hasErrors = false)
    (hseeds : ∀ seed ∈ (Relaxation.surveySections 0 0 diags ss).seeds, ∃ d,
    seed.Direct (ss.surveyed config diags).sections d)
    (hself : (ss.surveyed config diags).sections.Under (ss.surveyed config diags).sections)
    (hb : ∀ k, (ss.surveyed config diags).sections.length k < 2 ^ 63)
    (hlaid : ∀ k, (ss.watched config diags).lay.sections.length k < 2 ^ 63) (hmeets : goal.Meets)
    (hbase : (ss.surveyed config diags).sections.Under goal) :
    (ss.prepared config diags).Towards (ss.surveyed config diags).sections goal := by
  exact prepared_of_towards ((towards_watched hr (hasErrors_watched hd) hseeds hself hb hmeets hbase).lay hd hlaid)

end Sections

end SpanLayout
