import SpanLayout.Proofs.Expr.Meaning
import SpanLayout.Proofs.Relaxation.Ripple

/-!
# One step of a relaxation

A relaxation is consistent if what it has recorded agrees with the lengths of the fragments: the terms of the watched
spans, the entries of the setters, and the queues. Every step that reports no error and stays within words keeps it so.
-/

namespace SpanLayout

/-! ## Spans and words -/

/-- With the lengths that the fragments have, the sizes of the sections and the section offsets of the given locations
are less than `2 ^ 63`. -/
structure Sections.InWords (locations : List Location) (ss : Sections Empty) : Prop where
  lengths : ∀ k, ss.length k < 2 ^ 63
  positions : ∀ l ∈ locations, ss.position l < 2 ^ 63

instance (locations : List Location) (ss : Sections Empty) : Decidable (ss.InWords locations) :=
  decidable_of_iff ((∀ k < List.length ss, ss.length k < 2 ^ 63) ∧
      ∀ l ∈ locations, ss.position l < 2 ^ 63) <| by
    refine ⟨fun h => ⟨fun k => ?_, h.2⟩, fun h => ⟨fun k _ => h.lengths k, h.positions⟩⟩
    by_cases hk : k < List.length ss
    · exact h.1 k hk
    · rw [Sections.length, Sections.fragmentsOf, List.getElem?_eq_none (by omega)]
      decide

/-- A span after its fragment has taken a form for its latest value. -/
def Span.expanded (window : Option Window) (span : Span) : Span :=
  match window with
  | some window => { span with current := span.latest, window }
  | none => { span with status := .inactive }

@[simp] theorem Span.outline_expanded (window : Option Window) (span : Span) :
    (span.expanded window).outline = span.outline := by
  cases window <;> rfl

@[simp] theorem Span.seed_expanded (window : Option Window) (span : Span) :
    (span.expanded window).seed = span.seed := by
  cases window <;> rfl

@[simp] theorem Span.terms_expanded (window : Option Window) (span : Span) :
    (span.expanded window).terms = span.terms := by
  cases window <;> rfl

/-- A span that was taken from the queues, with its value computed again. -/
def Span.woken (span : Span) : Span := { span with status := .active }.recalc

@[simp] theorem Span.outline_woken (span : Span) : span.woken.outline = span.outline := rfl

theorem Span.woken_status (span : Span) : span.woken.status = .active ∨ span.woken.status = .inactive :=
  Span.recalc_status { span with status := .active }

theorem Span.word_compute {span : Span}
    (h : ∀ t ∈ span.terms, -wordBound ≤ t.length ∧ t.length < wordBound) :
    -wordBound ≤ span.compute ∧ span.compute < wordBound := by
  unfold compute
  split
  · decide
  · split
    · rename_i e _
      cases he : e.eval (.ofSlots fun n => span.terms[n]?.map (·.length)) with
      | none => decide
      | some v =>
        refine Expr.word_of_eval (fun n x hx => ?_) (fun l x hx => by simp [Expr.Env.ofSlots] at hx) e he
        obtain ⟨t, ht, rfl⟩ := Option.map_eq_some_iff.mp hx
        exact h t (List.mem_of_getElem? ht)
    · decide

namespace Relaxation

/-! ## A fragment that grows -/

/-- Puts another fragment in the place of that of a span, and follows the growth. -/
def follow {κ : Type} [Directive κ] (s : Relaxation κ) (seed : Seed) (f g : Fragment (Tail κ)) : Relaxation κ :=
  let s := s.setFragment seed.ref g
  let grown := signed g.totalLen - signed f.totalLen
  if grown = 0 then s
  else
    let k := seed.settersBefore
    (s.shift seed.index grown).ripple seed.ref.sectionIndex k (s.setters.drop k) grown

theorem follow_of_zero {κ : Type} [Directive κ] {s : Relaxation κ} {seed : Seed} {f g : Fragment (Tail κ)}
    (h : signed g.totalLen - signed f.totalLen = 0) : s.follow seed f g = s.setFragment seed.ref g := by
  unfold follow
  dsimp only
  rw [if_pos h]

theorem follow_of_ne_zero {κ : Type} [Directive κ] {s : Relaxation κ} {seed : Seed} {f g : Fragment (Tail κ)}
    (h : signed g.totalLen - signed f.totalLen ≠ 0) :
    s.follow seed f g =
      ((s.setFragment seed.ref g).shift seed.index (signed g.totalLen - signed f.totalLen)).ripple
        seed.ref.sectionIndex seed.settersBefore (s.setters.drop seed.settersBefore)
        (signed g.totalLen - signed f.totalLen) := by
  unfold follow
  dsimp only
  rw [if_neg h]
  rfl

theorem reshaped_follow {s : Relaxation Empty} {seed : Seed} {f g : Fragment (Tail Empty)}
    (hf : s.sections.fragment? seed.ref = some f) (hg : f.Reshaped g) :
    s.sections.Reshaped (s.follow seed f g).sections := by
  have hset := Sections.reshaped_setFragment hf hg
  by_cases hz : signed g.totalLen - signed f.totalLen = 0
  · rw [follow_of_zero hz]
    exact hset
  · rw [follow_of_ne_zero hz]
    refine hset.trans ?_
    rw [show s.sections.setFragment seed.ref g = (s.setFragment seed.ref g).sections from rfl,
      ← (shift_requeued (s.setFragment seed.ref g) seed.index (signed g.totalLen - signed f.totalLen)).sections]
    exact reshaped_ripple _ _ _ _ _

theorem settersLag_setFragment {s : Relaxation Empty} (h : s.SettersTrack) {seed : Seed} {f g : Fragment (Tail Empty)}
    (hf : s.sections.fragment? seed.ref = some f)
    (hbefore : ∀ (m : Nat) (x : Setter), s.setters[m]? = some x → (m < seed.settersBefore ↔ x.ref.Before seed.ref))
    (hne : ∀ x ∈ s.setters, x.ref ≠ seed.ref) :
    SettersLag seed.ref.sectionIndex seed.settersBefore ((g.totalLen : Int) - f.totalLen)
    (s.setFragment seed.ref g) := by
  intro m x hm
  have hx := List.mem_of_getElem? hm
  obtain ⟨f', t, hf', ht, hp, he⟩ := h x hx
  refine ⟨f', t, by rw [Relaxation.setFragment, Sections.fragment?_setFragment_ne (hne x hx).symm, hf'], ht, hp, ?_⟩
  have hb := Sections.begins_setFragment hf g x.ref
  have hm' := hbefore m x hm
  have hr := FragmentRef.before_or_before (hne x hx)
  simp only [FragmentRef.Before] at hm' hr
  simp only [Relaxation.setFragment]
  split_ifs at hb ⊢ <;> omega

theorem fragment?_follow_self {s : Relaxation Empty} {seed : Seed} {f : Fragment (Tail Empty)}
    (hf : s.sections.fragment? seed.ref = some f) (hne : ∀ x ∈ s.setters, x.ref ≠ seed.ref)
    (g : Fragment (Tail Empty)) : (s.follow seed f g).sections.fragment? seed.ref = some g := by
  have hself : (s.setFragment seed.ref g).sections.fragment? seed.ref = some g :=
    Sections.fragment?_setFragment_self hf g
  by_cases hz : signed g.totalLen - signed f.totalLen = 0
  · rw [follow_of_zero hz, hself]
  · rw [follow_of_ne_zero hz, fragment?_ripple _ _ _ _ _ fun x hx => hne x (List.mem_of_mem_drop hx),
      (shift_requeued _ _ _).sections, hself]

theorem fragment?_follow_ne {s : Relaxation Empty} {seed : Seed} {r : FragmentRef} (hr : seed.ref ≠ r)
    (hne : ∀ x ∈ s.setters, x.ref ≠ r) (f g : Fragment (Tail Empty)) :
    (s.follow seed f g).sections.fragment? r = s.sections.fragment? r := by
  have hset : (s.setFragment seed.ref g).sections.fragment? r = s.sections.fragment? r :=
    Sections.fragment?_setFragment_ne hr s.sections g
  by_cases hz : signed g.totalLen - signed f.totalLen = 0
  · rw [follow_of_zero hz, hset]
  · rw [follow_of_ne_zero hz, fragment?_ripple _ _ _ _ _ fun x hx => hne x (List.mem_of_mem_drop hx),
      (shift_requeued _ _ _).sections, hset]

theorem setters_of_span {s : Relaxation Empty} (h : s.plan.Sound) {span : Span} (hspan : span ∈ s.spans) :
    (∀ x ∈ s.setters, x.ref ≠ span.seed.ref) ∧
      (∀ (m : Nat) (x : Setter), s.setters[m]? = some x → (m < span.seed.settersBefore ↔ x.ref.Before span.seed.ref)) ∧
      ∀ x ∈ s.setters.drop span.seed.settersBefore, span.seed.ref.Before x.ref := by
  have hmem : span.outline ∈ s.plan.spans := List.mem_map_of_mem hspan
  have hne : ∀ x ∈ s.setters, x.ref ≠ span.seed.ref := by
    intro x hx he
    obtain ⟨a, ha, hns, -⟩ := (h.seeds _ hmem).frame
    obtain ⟨a', ha', has⟩ := (h.mem_setters x.ref).mp (List.mem_map_of_mem hx)
    rw [he] at ha'
    rw [Option.some.inj (ha'.symm.trans ha), show a.setsOffset = false from hns] at has
    exact absurd has (by decide)
  have hbefore : ∀ (m : Nat) (x : Setter), s.setters[m]? = some x →
      (m < span.seed.settersBefore ↔ x.ref.Before span.seed.ref) := fun m x hm =>
    (h.seeds _ hmem).settersBefore m x.ref (by simp [plan, hm])
  refine ⟨hne, hbefore, fun x hx => ?_⟩
  obtain ⟨m, hm⟩ := List.mem_iff_getElem?.mp hx
  rw [List.getElem?_drop] at hm
  have hnb := (hbefore _ x hm).not.mp (by omega)
  exact (FragmentRef.before_or_before (hne x (List.mem_of_getElem? hm))).resolve_left hnb

theorem rippling_follow {s : Relaxation Empty} (h : s.Tracked) (hset : s.SettersTrack)
    (hb : ∀ k, s.sections.length k < 9223372036854775808) {span : Span} (hspan : span ∈ s.spans)
    {f g : Fragment (Tail Empty)} (hf : s.sections.fragment? span.seed.ref = some f) (hg : g.frame = f.frame) :
    let u := (s.setFragment span.seed.ref g).shift span.seed.index ((g.totalLen : Int) - f.totalLen)
    u.Tracked ∧ SettersLag span.seed.ref.sectionIndex span.seed.settersBefore ((g.totalLen : Int) - f.totalLen) u ∧
      Growth s u ∧ ∀ x ∈ s.setters.drop span.seed.settersBefore, ∀ f', u.sections.fragment? x.ref = some f' →
        x.tailOffset + f'.tailLen < 9223372036854775808 := by
  obtain ⟨hne, hbefore, -⟩ := setters_of_span h.sound hspan
  have hindex : f.index = span.seed.index := by
    obtain ⟨a, ha, -, hindex⟩ := (h.sound.seeds _ (List.mem_map_of_mem hspan)).frame
    obtain ⟨f', hf', rfl⟩ := Sections.exists_fragment_of_frame? ha
    rwa [Option.some.inj (hf.symm.trans hf')]
  have hplan : (s.setFragment span.seed.ref g).plan = s.plan := plan_setFragment hf hg
  have hqueues : QueuesHold (s.setFragment span.seed.ref g) := ⟨h.queues.active, h.queues.count, h.queues.lt⟩
  have hreq := shift_requeued (s.setFragment span.seed.ref g) span.seed.index ((g.totalLen : Int) - f.totalLen)
  refine ⟨⟨by rw [hreq.plan, hplan]; exact h.sound, by rw [hreq.plan, hplan]; exact h.indexed, ?_,
    queuesHold_shift hqueues _ _⟩, ?_, ?_, fun x hx f' hf' => ?_⟩
  · rw [hreq.sections, ← hindex]
    exact spansTrack_setFragment_shift h.sound h.indexed h.spans hf g
  · unfold SettersLag
    rw [hreq.sections, hreq.setters]
    exact settersLag_setFragment hset hf hbefore hne
  · exact ⟨span.seed.ref, f, g, s.setFragment span.seed.ref g, hf, rfl, rfl, rfl, .inl (by rw [hindex])⟩
  · have hx := List.mem_of_mem_drop hx
    rw [hreq.sections, Relaxation.setFragment, Sections.fragment?_setFragment_ne (hne x hx).symm] at hf'
    obtain ⟨f'', -, hf'', -, -, he⟩ := hset x hx
    obtain rfl := Option.some.inj (hf'.symm.trans hf'')
    have hle := Sections.begins_add_totalLen_le hf'
    have := hb x.ref.sectionIndex
    rw [Fragment.totalLen] at hle
    omega

/-- Following the growth of the fragment of a span brings terms, setters and queues up to date. -/
theorem follow_spec {s : Relaxation Empty} (h : s.Tracked) (hset : s.SettersTrack)
    (hb : ∀ k, s.sections.length k < 9223372036854775808) {span : Span} (hspan : span ∈ s.spans)
    {f g : Fragment (Tail Empty)} (hf : s.sections.fragment? span.seed.ref = some f) (hg : g.frame = f.frame)
    (hd : (s.follow span.seed f g).diags.hasErrors = false)
    (hb' : ∀ k, (s.follow span.seed f g).sections.length k < 9223372036854775808) :
    (s.follow span.seed f g).Tracked ∧ (s.follow span.seed f g).SettersTrack ∧
      Growths s.sections (s.follow span.seed f g).sections s (s.follow span.seed f g) := by
  obtain ⟨hne, hbefore, hafter⟩ := setters_of_span h.sound hspan
  have hflen := Sections.begins_add_totalLen_le hf
  have hglen := Sections.begins_add_totalLen_le (fragment?_follow_self hf hne g)
  have hgrown : signed g.totalLen - signed f.totalLen = (g.totalLen : Int) - f.totalLen := by
    rw [signed_eq _ (by have := hb' span.seed.ref.sectionIndex; omega),
      signed_eq _ (by have := hb span.seed.ref.sectionIndex; omega)]
  by_cases hz : signed g.totalLen - signed f.totalLen = 0
  · rw [follow_of_zero hz]
    have hplan : (s.setFragment span.seed.ref g).plan = s.plan := plan_setFragment hf hg
    have hlen : g.totalLen = f.totalLen := by omega
    refine ⟨⟨hplan ▸ h.sound, hplan ▸ h.indexed, spansTrack_setFragment h.sound h.spans hf hlen,
        ⟨h.queues.active, h.queues.count, h.queues.lt⟩⟩,
      (settersLag_setFragment hset hf hbefore hne).track fun _ _ _ _ _ => by omega,
      .cons h ?_ (Sections.between_setFragment fun _ _ => rfl).1 (.refl _)⟩
    exact ⟨span.seed.ref, f, g, s.setFragment span.seed.ref g, hf, rfl, rfl, rfl, .inr ⟨rfl, hlen⟩⟩
  · rw [follow_of_ne_zero hz] at hd hb' ⊢
    rw [hgrown] at hd hb' ⊢
    have hreq := shift_requeued (s.setFragment span.seed.ref g) span.seed.index ((g.totalLen : Int) - f.totalLen)
    obtain ⟨htracked, hlag, hgrowth, hold⟩ := rippling_follow h hset hb hspan hf hg
    generalize (s.setFragment span.seed.ref g).shift span.seed.index ((g.totalLen : Int) - f.totalLen) = u at *
    have hsec : ∀ x ∈ s.setters.drop span.seed.settersBefore, span.seed.ref.sectionIndex ≤ x.ref.sectionIndex :=
      fun x hx => (hafter x hx).sectionIndex_le
    obtain ⟨htracked', htrack, hgrowths⟩ := ripple_spec htracked (by rw [hreq.setters]; rfl) hlag hsec hold hd hb'
    -- The setters behind the fragment do not change what lies up to it.
    have hagree : ∀ j ≤ span.seed.ref.index, (ripple span.seed.ref.sectionIndex span.seed.settersBefore
        (s.setters.drop span.seed.settersBefore) ((g.totalLen : Int) - f.totalLen) u).sections.fragment?
          ⟨span.seed.ref.sectionIndex, j⟩ =
        (s.sections.setFragment span.seed.ref g).fragment? ⟨span.seed.ref.sectionIndex, j⟩ := by
      intro j hj
      rw [fragment?_ripple_of_le _ _ _ _ hafter hj, hreq.sections]
      rfl
    generalize ripple span.seed.ref.sectionIndex span.seed.settersBefore (s.setters.drop span.seed.settersBefore)
      ((g.totalLen : Int) - f.totalLen) u = final at *
    obtain ⟨hbetween, hmono⟩ := Sections.between_setFragment hagree
    rw [show s.sections.setFragment span.seed.ref g = u.sections from hreq.sections.symm] at hbetween hmono
    exact ⟨htracked', htrack, .cons h hgrowth hbetween (hgrowths.mono hmono)⟩

/-! ## Taking a span from the queues -/

theorem pop_of_none {s : Relaxation Empty} (h : s.pop = none) : s.counts ++ s.others = [] := by
  unfold pop at h
  split at h
  · exact nomatch h
  · exact nomatch h
  · rename_i hc ho
    rw [hc, ho]
    rfl

theorem pop_of_some {s s' : Relaxation Empty} {n : Nat} (h : s.pop = some (n, s')) :
    s.counts ++ s.others = n :: (s'.counts ++ s'.others) ∧ s'.spans = s.spans ∧ Requeued s s' := by
  unfold pop at h
  split at h
  · rename_i i counts hc
    obtain ⟨rfl, rfl⟩ := Prod.mk.inj (Option.some.inj h)
    exact ⟨by rw [hc]; rfl, rfl, rfl, rfl, rfl, rfl, rfl, rfl, rfl⟩
  · rename_i i others hc ho
    obtain ⟨rfl, rfl⟩ := Prod.mk.inj (Option.some.inj h)
    exact ⟨by rw [hc, ho]; simp, rfl, rfl, rfl, rfl, rfl, rfl, rfl, rfl⟩
  · exact nomatch h

theorem QueuesHold.head {s : Relaxation Empty} (h : QueuesHold s) {n : Nat} {rest : List Nat}
    (hq : s.counts ++ s.others = n :: rest) : ∃ span, s.spans[n]? = some span ∧ span.status = .queued := by
  have hn := h.lt n (by rw [hq]; exact List.mem_cons_self)
  refine ⟨s.spans[n], List.getElem?_eq_getElem hn, ?_⟩
  have hcount := h.count n _ (List.getElem?_eq_getElem hn)
  rw [hq, List.count_cons_self] at hcount
  by_contra hne
  rw [if_neg hne] at hcount
  omega

theorem QueuesHold.popped {s s' : Relaxation Empty} (h : QueuesHold s) {n : Nat}
    (hq : s.counts ++ s.others = n :: (s'.counts ++ s'.others)) (hspans : s'.spans = s.spans) {span span' : Span}
    (hn : s.spans[n]? = some span) (hs : span'.status ≠ .queued)
    (ha : span'.status = .active → span'.recalc.exceeded = false) : QueuesHold (s'.setSpan n span') := by
  have hlen := (List.getElem?_eq_some_iff.mp hn).1
  have hset : (s'.setSpan n span').spans = s.spans.set n span' := by rw [Relaxation.setSpan, hspans]
  refine ⟨fun m x hm hx => ?_, fun m x hm => ?_, fun m hm => ?_⟩
  · rw [hset] at hm
    by_cases hmn : n = m
    · subst hmn
      obtain rfl := Option.some.inj ((List.getElem?_set_self hlen).symm.trans hm)
      exact ha hx
    · exact h.active m x ((List.getElem?_set_ne hmn).symm.trans hm) hx
  · rw [hset] at hm
    show (s'.counts ++ s'.others).count m = _
    by_cases hmn : n = m
    · subst hmn
      obtain rfl := Option.some.inj ((List.getElem?_set_self hlen).symm.trans hm)
      have hcount := h.count n span hn
      rw [hq, List.count_cons_self] at hcount
      rw [if_neg hs]
      split at hcount <;> omega
    · have hcount := h.count m x ((List.getElem?_set_ne hmn).symm.trans hm)
      rwa [hq, List.count_cons_of_ne hmn] at hcount
  · rw [hset, List.length_set]
    exact h.lt m (by rw [hq]; exact List.mem_cons_of_mem n hm)

theorem step_cases {s : Relaxation Empty} (h : QueuesHold s) :
    (s.step = .idle ∧ s.counts ++ s.others = []) ∨
    ∃ n s' span, s.counts ++ s.others = n :: (s'.counts ++ s'.others) ∧ s'.spans = s.spans ∧ Requeued s s' ∧
      s.spans[n]? = some span ∧ span.status = .queued ∧
      let t := (s'.setSpan n span.woken).countRecalcs 1
      (span.woken.exceeded = false ∧ s.step = .settled t) ∨
      (span.woken.exceeded = true ∧ s.config.maxExpansions ≤ s.stats.expansions ∧
        s.step = .exhausted (t.report (Cause.relaxationLimit s.config.maxExpansions))) ∨
      (span.woken.exceeded = true ∧ s.stats.expansions < s.config.maxExpansions ∧
        s.step = .expanded (t.expandSpan n span.woken)) := by
  cases hp : s.pop with
  | none =>
    refine .inl ⟨?_, pop_of_none hp⟩
    unfold step
    rw [hp]
  | some p =>
    obtain ⟨n, s'⟩ := p
    obtain ⟨hq, hspans, hreq⟩ := pop_of_some hp
    obtain ⟨span, hn, hs⟩ := h.head hq
    refine .inr ⟨n, s', span, hq, hspans, hreq, hn, hs, ?_⟩
    have hstep : s.step =
        let t := (s'.setSpan n span.woken).countRecalcs 1
        if span.woken.exceeded = false then .settled t
        else if t.config.maxExpansions ≤ t.stats.expansions then
          .exhausted (t.report (Cause.relaxationLimit t.config.maxExpansions))
        else .expanded (t.expandSpan n span.woken) := by
      unfold step
      rw [hp]
      dsimp only
      rw [hspans, hn]
      dsimp only
      rw [if_neg (by rw [hs]; decide)]
      rfl
    generalize span.woken = x at hstep ⊢
    have hconfig : ((s'.setSpan n x).countRecalcs 1).config = s.config := hreq.config
    have hexpansions : ((s'.setSpan n x).countRecalcs 1).stats.expansions = s.stats.expansions := hreq.expansions
    dsimp only at hstep ⊢
    rw [hconfig, hexpansions] at hstep
    by_cases hx : x.exceeded = false
    · exact .inl ⟨hx, by rw [hstep, if_pos hx]⟩
    · have hx' : x.exceeded = true := by simpa using hx
      by_cases hl : s.config.maxExpansions ≤ s.stats.expansions
      · exact .inr (.inl ⟨hx', hl, by rw [hstep, if_neg hx, if_pos hl]⟩)
      · exact .inr (.inr ⟨hx', by omega, by rw [hstep, if_neg hx, if_neg hl]⟩)

/-! ## Expanding -/

/-- A relaxation that has looked at a span, put `span` in its place and is about to follow the growth. -/
def renewed {κ : Type} (s : Relaxation κ) (n : Nat) (span : Span) : Relaxation κ :=
  { s.setSpan n span with
    stats := { s.stats with recalcs := s.stats.recalcs + 1, expansions := s.stats.expansions + 1 } }

/-- An expansion gives its span up and reports an error, or renews it and follows the growth of its fragment. -/
theorem expandSpan_effect {κ : Type} [Directive κ] (n : Nat) {s : Relaxation κ} {span : Span} {f : Fragment (Tail κ)}
    (hf : s.sections.fragment? span.seed.ref = some f) :
    let y := f.expand span.id span.current span.latest
    (∃ e, y.result = .error e ∧ ((s.setSpan n span).countRecalcs 1).expandSpan n span =
      ((s.renewed n (span.expanded none)).setFragment span.seed.ref y.state).report e) ∨
    ∃ x : Expansion, y.result = .ok x ∧ ((s.setSpan n span).countRecalcs 1).expandSpan n span =
      (s.renewed n (span.expanded x.window)).follow span.seed f y.state := by
  have hrenewed (span' : Span) :
      (({ (s.setSpan n span).countRecalcs 1 with
        stats := { ((s.setSpan n span).countRecalcs 1).stats with
          expansions := ((s.setSpan n span).countRecalcs 1).stats.expansions + 1 } } : Relaxation κ).setSpan n span') =
        s.renewed n span' := by
    simp only [renewed, Relaxation.setSpan, countRecalcs, List.set_set]
  dsimp only
  unfold expandSpan
  dsimp only
  rw [show ((s.setSpan n span).countRecalcs 1).sections = s.sections from rfl, hf]
  dsimp only
  cases hx : (f.expand span.id span.current span.latest).result with
  | error e =>
    refine .inl ⟨e, rfl, ?_⟩
    rw [← hrenewed]
    rfl
  | ok x =>
    obtain ⟨len, window⟩ := x
    refine .inr ⟨_, rfl, ?_⟩
    rw [← hrenewed]
    cases window <;> rfl

/-! ## Words -/

/-- The locations that the spans measure. -/
def measured (s : Relaxation Empty) : List Location :=
  s.spans.flatMap fun span => span.terms.flatMap fun t => [t.distance.origin, t.distance.target]

theorem mem_measured {s : Relaxation Empty} {span : Span} (hspan : span ∈ s.spans) {t : Term} (ht : t ∈ span.terms) :
    t.distance.origin ∈ s.measured ∧ t.distance.target ∈ s.measured := by
  simp only [measured, List.mem_flatMap]
  exact ⟨⟨span, hspan, t, ht, by simp⟩, ⟨span, hspan, t, ht, by simp⟩⟩

theorem exceeded_expanded {span : Span} {f : Fragment (Tail Empty)} (hf : f.steady = true)
    (hl : span.latest = span.compute) (hw : -wordBound ≤ span.compute ∧ span.compute < wordBound) {x : Expansion}
    (hx : (f.expand span.id span.current span.latest).result = .ok x)
    (hs : (span.expanded x.window).status = .active) : (span.expanded x.window).recalc.exceeded = false := by
  cases hwin : x.window with
  | none =>
    rw [hwin] at hs
    exact absurd hs (by simp [Span.expanded])
  | some w =>
    have hcompute : ({ span with current := span.latest, window := w } : Span).compute = span.latest := hl.symm
    unfold Span.exceeded
    split
    · simp [Span.recalc, Span.expanded, hcompute]
    · rename_i hcount
      have hid : 0 ≤ span.id := by
        simp only [Span.isCount, decide_eq_true_eq] at hcount
        exact Int.le_of_lt (Int.not_le.mp hcount)
      have := Fragment.expand_window span.id span.current span.latest f hf hid (hl ▸ hw.1) (hl ▸ hw.2) hx hwin
      simp [Span.recalc, Span.expanded, hcompute, this]

/-! ## Consistency -/

/-- What a relaxation has recorded agrees with the lengths of its fragments. -/
structure Consistent (s : Relaxation Empty) : Prop where
  tracked : s.Tracked
  setters : s.SettersTrack

theorem Consistent.word_compute {s : Relaxation Empty} (h : s.Consistent) (hw : s.sections.InWords s.measured)
    {span : Span} (hspan : span ∈ s.spans) (hs : span.status ≠ .inactive) :
    -wordBound ≤ span.compute ∧ span.compute < wordBound := by
  apply Span.word_compute
  intro t ht
  obtain ⟨ho, hp⟩ := mem_measured hspan ht
  have := hw.positions _ ho
  have := hw.positions _ hp
  rw [h.tracked.spans span hspan hs t ht, Sections.span]
  unfold wordBound
  omega

theorem Tracked.popped {s s' : Relaxation Empty} (h : s.Tracked) {n : Nat}
    (hq : s.counts ++ s.others = n :: (s'.counts ++ s'.others)) (hspans : s'.spans = s.spans) (hreq : Requeued s s')
    {span span' : Span} (hn : s.spans[n]? = some span) (hw : span.status ≠ .inactive)
    (ho : span'.outline = span.outline) (ht : span'.terms = span.terms) (hs : span'.status ≠ .queued)
    (ha : span'.status = .active → span'.recalc.exceeded = false) : (s'.setSpan n span').Tracked := by
  have hplan : (s'.setSpan n span').plan = s.plan := by
    rw [plan_setSpan (hspans ▸ hn) ho, hreq.plan]
  refine ⟨hplan ▸ h.sound, hplan ▸ h.indexed, ?_, h.queues.popped hq hspans hn hs ha⟩
  intro x hx hxs t hxt
  rw [show (s'.setSpan n span').sections = s.sections from hreq.sections]
  rw [Relaxation.setSpan, hspans] at hx
  rcases List.mem_or_eq_of_mem_set hx with hx | rfl
  · exact h.spans x hx hxs t hxt
  · exact h.spans span (List.mem_of_getElem? hn) hw t (ht ▸ hxt)

/-- A step takes span number `n`, which is within its window again, from the queues. -/
structure Settles (s t : Relaxation Empty) (n : Nat) (span : Span) : Prop where
  found : s.spans[n]? = some span
  queued : span.status = .queued
  within : span.woken.exceeded = false
  follows : ∃ s', s.counts ++ s.others = n :: (s'.counts ++ s'.others) ∧ s'.spans = s.spans ∧ Requeued s s' ∧
    t = (s'.setSpan n span.woken).countRecalcs 1

theorem Consistent.settles {s t : Relaxation Empty} (h : s.Consistent) (hs : s.step = .settled t) :
    ∃ n span, Settles s t n span := by
  rcases step_cases h.tracked.queues with ⟨hi, -⟩ | ⟨n, s', span, hq, hspans, hreq, hn, hqueued, hx⟩
  · exact nomatch hi.symm.trans hs
  · rcases hx with ⟨hx, ht⟩ | ⟨-, -, ht⟩ | ⟨-, -, ht⟩
    · exact ⟨n, span, hn, hqueued, hx, s', hq, hspans, hreq, Step.settled.inj (hs.symm.trans ht)⟩
    · exact nomatch ht.symm.trans hs
    · exact nomatch ht.symm.trans hs

theorem Settles.sections {s t : Relaxation Empty} {n : Nat} {span : Span} (h : Settles s t n span) :
    t.sections = s.sections := by
  obtain ⟨s', -, -, hreq, rfl⟩ := h.follows
  exact hreq.sections

theorem Settles.spans {s t : Relaxation Empty} {n : Nat} {span : Span} (h : Settles s t n span) :
    t.spans = s.spans.set n span.woken := by
  obtain ⟨s', -, hspans, -, rfl⟩ := h.follows
  rw [← hspans]
  rfl

theorem Consistent.settled {s t : Relaxation Empty} (h : s.Consistent) {n : Nat} {span : Span}
    (hs : Settles s t n span) : t.Consistent := by
  obtain ⟨s', hq, hspans, hreq, rfl⟩ := hs.follows
  have htracked : (s'.setSpan n span.woken).Tracked := by
    refine h.tracked.popped hq hspans hreq hs.found (by simp [hs.queued]) rfl rfl ?_ fun _ => ?_
    · rcases span.woken_status with hr | hr <;> rw [hr] <;> simp
    · rw [Span.woken, Span.recalc_recalc]
      exact hs.within
  refine ⟨⟨htracked.sound, htracked.indexed, htracked.spans, ⟨htracked.queues.active, htracked.queues.count,
    htracked.queues.lt⟩⟩, ?_⟩
  unfold SettersTrack
  rw [hs.sections, show ((s'.setSpan n _).countRecalcs 1).setters = s.setters from hreq.setters]
  exact h.setters

/-- A step takes span number `n`, which is out of its window, from the queues, expands its fragment `f`, renews the span
and follows the growth. -/
structure Expands (s t : Relaxation Empty) (n : Nat) (span : Span) (f : Fragment (Tail Empty)) (x : Expansion) :
    Prop where
  found : s.spans[n]? = some span
  queued : span.status = .queued
  exceeded : span.woken.exceeded = true
  budget : s.stats.expansions < s.config.maxExpansions
  fragment : s.sections.fragment? span.seed.ref = some f
  setsOffset : f.setsOffset = false
  result : (f.expand span.id span.current span.compute).result = .ok x
  follows : ∃ s', s.counts ++ s.others = n :: (s'.counts ++ s'.others) ∧ s'.spans = s.spans ∧ Requeued s s' ∧
    t = (s'.renewed n (span.woken.expanded x.window)).follow span.seed f
      (f.expand span.id span.current span.compute).state

theorem Consistent.expands_or_fails {s t : Relaxation Empty} (h : s.Consistent) (hs : s.step = .expanded t) :
    ∃ n span f, s.spans[n]? = some span ∧ span.status = .queued ∧ span.woken.exceeded = true ∧
      s.sections.fragment? span.seed.ref = some f ∧
      ((∃ e, (f.expand span.id span.current span.compute).result = .error e ∧ t.diags.hasErrors = true) ∨
        ∃ x, Expands s t n span f x) := by
  rcases step_cases h.tracked.queues with ⟨hi, -⟩ | ⟨n, s', span, hq, hspans, hreq, hn, hqueued, hx⟩
  · exact nomatch hi.symm.trans hs
  rcases hx with ⟨-, ht⟩ | ⟨-, -, ht⟩ | ⟨hx, hlt, ht⟩
  · exact nomatch ht.symm.trans hs
  · exact nomatch ht.symm.trans hs
  · obtain rfl := Step.expanded.inj (ht.symm.trans hs)
    obtain ⟨a, ha, hns, -⟩ := (h.tracked.sound.seeds _ (List.mem_map_of_mem (List.mem_of_getElem? hn))).frame
    obtain ⟨f, hf, rfl⟩ := Sections.exists_fragment_of_frame? ha
    have hf' : s'.sections.fragment? span.woken.seed.ref = some f := by
      rw [hreq.sections]
      exact hf
    refine ⟨n, span, f, hn, hqueued, hx, hf, ?_⟩
    rcases expandSpan_effect n hf' with ⟨e, he, heq⟩ | ⟨x, hy, heq⟩
    · obtain ⟨c, rfl, -⟩ := Fragment.expand_error _ _ _ f he
      exact .inl ⟨_, he, by rw [heq]; exact Diagnostics.hasErrors_report_one _ c⟩
    · exact .inr ⟨x, hn, hqueued, hx, hlt, hf, hns, hy, s', hq, hspans, hreq, heq⟩

theorem Consistent.expands {s t : Relaxation Empty} (h : s.Consistent) (hs : s.step = .expanded t)
    (hd : t.diags.hasErrors = false) : ∃ n span f x, Expands s t n span f x := by
  obtain ⟨n, span, f, -, -, -, -, ⟨e, -, herr⟩ | ⟨x, he⟩⟩ := h.expands_or_fails hs
  · exact absurd hd (by rw [herr]; decide)
  · exact ⟨n, span, f, x, he⟩

theorem Consistent.renewed {s t : Relaxation Empty} (h : s.Consistent) (hsteady : s.sections.Steady)
    (hw : s.sections.InWords s.measured) {n : Nat} {span : Span} {f : Fragment (Tail Empty)} {x : Expansion}
    (he : Expands s t n span f x) :
    ∃ u : Relaxation Empty, u.Consistent ∧ u.sections = s.sections ∧ u.diags = s.diags ∧
      u.spans = s.spans.set n (span.woken.expanded x.window) ∧ span.woken.expanded x.window ∈ u.spans ∧
      t = u.follow (span.woken.expanded x.window).seed f (f.expand span.id span.current span.compute).state := by
  obtain ⟨s', hq, hspans, hreq, ht⟩ := he.follows
  have hword := h.word_compute hw (List.mem_of_getElem? he.found) (by simp [he.queued])
  generalize hy : span.woken.expanded x.window = y at ht ⊢
  have hseed : y.seed = span.seed := by
    rw [← hy, Span.seed_expanded]
    rfl
  have hstatus : y.status ≠ .queued := by
    rw [← hy]
    rcases span.woken_status with hr | hr <;> cases x.window <;> simp [Span.expanded, hr]
  have hbase : (s'.setSpan n y).Tracked := by
    refine h.tracked.popped hq hspans hreq he.found (by simp [he.queued]) ?_ ?_ hstatus ?_
    · rw [← hy, Span.outline_expanded, Span.outline_woken]
    · rw [← hy, Span.terms_expanded]
      rfl
    · rw [← hy]
      exact exceeded_expanded ((Fragment.steady_iff f).mpr ⟨he.setsOffset, hsteady _ f he.fragment⟩)
        (show span.woken.latest = span.woken.compute from rfl) hword he.result
  have hrenewed : (s'.renewed n y).Tracked :=
    ⟨hbase.sound, hbase.indexed, hbase.spans, ⟨hbase.queues.active, hbase.queues.count, hbase.queues.lt⟩⟩
  have hset : (s'.renewed n y).spans = s.spans.set n y := by
    rw [← hspans]
    rfl
  have hsections : (s'.renewed n y).sections = s.sections := hreq.sections
  have hsetters : (s'.renewed n y).setters = s.setters := hreq.setters
  refine ⟨s'.renewed n y, ⟨hrenewed, ?_⟩, hsections, hreq.diags, hset, ?_, by rw [ht, hseed]⟩
  · unfold SettersTrack
    rw [hsections, hsetters]
    exact h.setters
  · rw [hset]
    exact List.mem_set (List.getElem?_eq_some_iff.mp he.found).1 _

/-- An expansion that reports no error and stays within words keeps a relaxation consistent: it renews a span and lets
fragments grow. -/
theorem Consistent.expanded {s t : Relaxation Empty} (h : s.Consistent) (hsteady : s.sections.Steady)
    (hw : s.sections.InWords s.measured) {n : Nat} {span : Span} {f : Fragment (Tail Empty)} {x : Expansion}
    (he : Expands s t n span f x) (hd : t.diags.hasErrors = false) (hb : ∀ k, t.sections.length k < 2 ^ 63) :
    t.Consistent ∧ ∃ u : Relaxation Empty, u.sections = s.sections ∧
      u.spans = s.spans.set n (span.woken.expanded x.window) ∧ Growths s.sections t.sections u t := by
  obtain ⟨u, hu, hsections, -, hset, hmem, ht⟩ := h.renewed hsteady hw he
  have hf : u.sections.fragment? (span.woken.expanded x.window).seed.ref = some f := by
    rw [hsections, Span.seed_expanded]
    exact he.fragment
  rw [ht] at hd hb ⊢
  obtain ⟨htracked, hsetters, hgrowths⟩ :=
    follow_spec hu.tracked hu.setters (by rw [hsections]; exact hw.lengths) hmem hf (Fragment.frame_expand ..) hd hb
  rw [hsections] at hgrowths
  exact ⟨⟨htracked, hsetters⟩, u, hsections, hset, hgrowths⟩

end Relaxation

end SpanLayout
