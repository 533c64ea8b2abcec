import SpanLayout.Proofs.Relaxation.Budget

/-!
# Counts that measure over setters

The search for cycles looks at the fragments that a count's distances extend over. A setter among them takes up what
grows before it, and that can be the count's own repetition: then the count depends on itself, and no edge shows it.
This module follows such a count. It swings between two values for as long as the budget lasts. -/

namespace SpanLayout

namespace Relaxation

/-! ## Single steps -/

theorem step_of_exceeded {s t : Relaxation Empty} {n : Nat} {span : Span} (hp : s.pop = some (n, t))
    (hn : t.spans[n]? = some span) (hs : span.status ≠ .inactive) (hx : span.woken.exceeded = true) :
    s.step =
      let u := (t.setSpan n span.woken).countRecalcs 1
      if u.config.maxExpansions ≤ u.stats.expansions then
        .exhausted (u.report (Cause.relaxationLimit u.config.maxExpansions))
      else .expanded (u.expandSpan n span.woken) := by
  unfold Relaxation.step
  rw [hp]
  dsimp only
  rw [hn]
  dsimp only
  have hx : ({ span with status := .active } : Span).recalc.exceeded = true := hx
  rw [if_neg hs, if_neg (by rw [hx]; decide)]
  rfl

theorem expandSpan_of_ne {s : Relaxation Empty} {n : Nat} {span : Span} {f g : Fragment (Tail Empty)} {len : Nat}
    {w : Window} {d : Int} (hf : s.sections.fragment? span.seed.ref = some f)
    (hy : f.expand span.id span.current span.latest = .done g ⟨len, some w⟩)
    (hg : signed g.totalLen - signed f.totalLen = d) (hd : d ≠ 0) :
    ((s.setSpan n span).countRecalcs 1).expandSpan n span =
      ripple span.seed.ref.sectionIndex span.seed.settersBefore (s.setters.drop span.seed.settersBefore) d
        (((s.renewed n { span with current := span.latest, window := w }).setFragment span.seed.ref g).shift
          span.seed.index d) := by
  rcases expandSpan_effect n hf with ⟨e, he, -⟩ | ⟨x, hx, he⟩
  · rw [hy] at he
    cases he
  · rw [he, hy]
    rw [hy] at hx
    obtain rfl := Except.ok.inj hx
    exact follow_of_ne_zero (by rw [← hg] at hd; exact hd) |>.trans (by rw [← hg]; rfl)

theorem ripple_last {s : Relaxation Empty} {x : Setter} {f : Fragment (Tail Empty)} {d : Int} (hd : d ≠ 0)
    (hf : s.sections.fragment? x.ref = some f) (k : Nat) :
    ripple x.ref.sectionIndex k [x] d s = s.moveSetter k x d f := by
  rw [ripple_cons, if_neg (by simp [hd]), hf]
  rfl

theorem shift_of_count {s : Relaxation Empty} {i n j : Nat} {span : Span} {d : Int} (hi : s.index.query i i = [(n, j)])
    (hn : s.spans[n]? = some span) (hs : span.status = .active) (hc : span.isCount = true) {span' : Span}
    (hx : ({ span with terms := span.terms.modify j (·.grow d) } : Span).recalc = span')
    (he : span'.exceeded = true) :
    s.shift i d =
      { (s.countRecalcs 1).setSpan n { span' with status := .queued } with counts := s.counts ++ [n] } := by
  obtain ⟨seed, expr, terms, window, current, latest, status⟩ := span
  dsimp only at hs
  subst hs hx
  unfold shift
  rw [hi]
  dsimp only [List.foldl_cons, List.foldl_nil]
  unfold shiftTerm
  dsimp only
  rw [hn]
  dsimp only
  rw [if_pos he]
  unfold enqueue
  dsimp only
  rw [if_pos (by exact hc)]
  rfl

end Relaxation

/-! ## A count that swings -/

namespace Swing

/-- The origin and the target of the distance that the count measures: the end of the byte behind the repetition, and
the end of the padding behind that. -/
def origin : Location := ⟨⟨0, 2⟩, 1⟩

@[inherit_doc origin]
def target : Location := ⟨⟨0, 4⟩, 0⟩

/-- The number of copies, which is the size of the padding. -/
def count : Expr := .sum [.loc target, .neg (.loc origin)]

/-- Whether a fragment repeats one byte `n` times. -/
def isCopies (n : Nat) (f : Fragment (Tail Empty)) : Bool :=
  match f.tail with
  | some (.times _ body reps) =>
    decide (f.fixed = [] ∧ f.tailLen = n ∧ reps = n ∧ Fragment.sumLen body.fragments = 1)
  | _ => false

/-- Whether a fragment pads up to an even offset, with `n` bytes at present. -/
def isPadding (n : Nat) (f : Fragment (Tail Empty)) : Bool :=
  match f.tail with
  | some (.align a) => decide (f.index = 3 ∧ f.tailLen = n ∧ a.boundaryVal = 2 ∧ a.maxSkipVal = none)
  | _ => false

/-- The span for the number of copies, when there are `copies` and the padding has `padding` bytes. -/
def span (copies padding : Nat) (status : SpanStatus) : Span :=
  ⟨⟨⟨0, 1⟩, 1, .ofLine 1, ⟨Repetition.countId, .ofExpr count, ⟨0, 0⟩⟩, 0⟩, some (.slot 0),
    [⟨⟨origin, target⟩, 2, 4, padding⟩], ⟨0, 0⟩, copies, padding, status⟩

/-- A relaxation with `copies` of a byte, one byte behind them, and then `padding`; the number of copies waits to become
the size of the padding. -/
structure Swings (s : Relaxation Empty) (copies padding : Nat) : Prop where
  spans : s.spans = [span copies padding .queued]
  setters : s.setters = [⟨⟨0, 3⟩, copies + 1⟩]
  overCopies : s.index.query 1 1 = []
  overPadding : s.index.query 3 3 = [(0, 0)]
  copies : ∃ f, s.sections.fragment? ⟨0, 1⟩ = some f ∧ isCopies copies f = true
  padding : ∃ f, s.sections.fragment? ⟨0, 3⟩ = some f ∧ isPadding padding f = true

theorem expand_copies {n : Nat} {f : Fragment (Tail Empty)} (h : isCopies n f = true) (old : Int) {m : Nat}
    (hm : (m : Int) ≠ unknownValue) :
    ∃ g, f.expand Repetition.countId old m = .done g ⟨m, some ⟨0, 0⟩⟩ ∧ isCopies m g = true ∧ f.totalLen = n ∧
      g.totalLen = m := by
  obtain ⟨fixed, fixups, tail, ref, source, offset, index, tailLen⟩ := f
  unfold isCopies at h
  dsimp only at h
  split at h
  · rename_i count body reps
    obtain ⟨rfl, rfl, rfl, hlen⟩ := of_decide_eq_true h
    refine ⟨⟨[], fixups, some (.times count body m), ref, source, offset, index, m⟩, ?_, ?_, Nat.zero_add _,
      Nat.zero_add _⟩
    · have hr (info : FragmentInfo) : Repetition.reps info m = .ok m := by
        rw [Repetition.reps, if_neg hm, if_neg (by omega)]
        rfl
      simp [Fragment.expand, Tail.expand, hr, hlen, Expansion.within, Attempt.done]
    · simp [isCopies, hlen]
  · cases h

theorem expand_padding {n : Nat} {f : Fragment (Tail Empty)} (h : isPadding n f = true) (old : Int) {o m : Nat}
    (hm : Align.alignUp 2 o - o = m) :
    ∃ g w, f.expand 1 old o = .done g ⟨m, some w⟩ ∧ isPadding m g = true ∧ f.tailLen = n ∧ g.tailLen = m ∧
    f.index = 3 := by
  obtain ⟨fixed, fixups, tail, ref, source, offset, index, tailLen⟩ := f
  unfold isPadding at h
  dsimp only at h
  split at h
  · rename_i a
    obtain ⟨rfl, rfl, hb, hs⟩ := of_decide_eq_true h
    refine ⟨⟨fixed, fixups, some (.align a), ref, source, offset, 3, m⟩, ⟨0, signed (Align.alignUp 2 o)⟩, ?_, ?_, rfl,
      rfl, rfl⟩
    · simp [Fragment.expand, Tail.expand, Directive.expand, Align.paddingAt, hb, hs, Expansion.within, Attempt.done,
        Attempt.mapState, hm]
    · simp [isPadding, hb, hs]
  · cases h

theorem recalc_grown {copies padding : Nat} (hsum : copies + padding = 1) :
    ({ span padding padding .active with
      terms := (span padding padding .active).terms.modify 0 (·.grow (copies - padding)) } : Span).recalc =
        span padding copies .active ∧ (span padding copies .active).exceeded = true := by
  obtain ⟨rfl, rfl⟩ | ⟨rfl, rfl⟩ : (copies = 0 ∧ padding = 1) ∨ (copies = 1 ∧ padding = 0) := by omega
  · decide
  · decide

/-- Once the repetition has taken the new number of copies, the padding makes up for the growth, and the count no longer
is what it measures. -/
theorem swings_moveSetter {s : Relaxation Empty} {copies padding : Nat} {f g : Fragment (Tail Empty)}
    (hsum : copies + padding = 1) (hspans : s.spans = [span padding padding .active])
    (hsetters : s.setters = [⟨⟨0, 3⟩, copies + 1⟩]) (hover : s.index.query 1 1 = [])
    (hover' : s.index.query 3 3 = [(0, 0)]) (hf : s.sections.fragment? ⟨0, 1⟩ = some f)
    (hcopies : isCopies padding f = true) (hg : s.sections.fragment? ⟨0, 3⟩ = some g)
    (hpadding : isPadding padding g = true) :
    let t := s.moveSetter 0 ⟨⟨0, 3⟩, copies + 1⟩ (padding - copies) g
    Swings t padding copies ∧ t.counts = s.counts ++ [0] ∧ t.others = s.others ∧
      t.stats.expansions = s.stats.expansions ∧ t.config = s.config ∧ t.diags = s.diags := by
  have hup : Align.alignUp 2 (padding + 1) - (padding + 1) = copies := by unfold Align.alignUp; omega
  obtain ⟨g', w, hz, hpadding', hlen, hlen', hindex⟩ := expand_padding hpadding (signed (copies + 1)) hup
  rw [← signed_eq (padding + 1) (by omega)] at hz
  have hgrown : signed (Attempt.done g' (⟨copies, some w⟩ : Expansion) : Attempt Error _ _).state.tailLen -
      signed g.tailLen = (copies : Int) - padding := by
    rw [hlen, ← signed_eq copies (by omega), ← signed_eq padding (by omega), ← hlen']
    rfl
  have hmove := @Relaxation.moveSetter_eq s 0 ⟨⟨0, 3⟩, copies + 1⟩ (padding - copies) g _ (padding + 1)
    (by dsimp only; omega) hz _ hgrown
  dsimp only at hmove
  rw [if_neg (by omega), hindex] at hmove
  obtain ⟨u, hu⟩ : ∃ u, { (s.setFragment ⟨0, 3⟩ g').reportFailure (.ok (⟨copies, some w⟩ : Expansion)) with
    setters := s.setters.set 0 ⟨⟨0, 3⟩, padding + 1⟩ } = u := ⟨_, rfl⟩
  have hshift := @Relaxation.shift_of_count u 3 0 0 (span padding padding .active) (copies - padding)
    (by rw [← hu]; exact hover') (by rw [← hu]; exact congrArg (·[0]?) hspans) rfl rfl (span padding copies .active)
    (recalc_grown hsum).1 (recalc_grown hsum).2
  dsimp only
  rw [show s.moveSetter 0 ⟨⟨0, 3⟩, copies + 1⟩ (padding - copies) g =
    u.shift 3 (copies - padding) by rw [← hu]; exact hmove, hshift]
  refine ⟨⟨?_, ?_, ?_, ?_, ⟨f, ?_, hcopies⟩, ⟨g', ?_, hpadding'⟩⟩, ?_, ?_, ?_, ?_, ?_⟩
  · rw [← hu]
    exact congrArg (List.set · 0 _) hspans
  · rw [← hu]
    exact congrArg (List.set · 0 _) hsetters
  · rw [← hu]
    exact hover
  · rw [← hu]
    exact hover'
  · rw [← hu]
    exact (Sections.fragment?_setFragment_ne (by decide) _ _).trans hf
  · rw [← hu]
    exact Sections.fragment?_setFragment_self hg g'
  all_goals
    rw [← hu]
    rfl

theorem Swings.expanded {s : Relaxation Empty} {copies padding : Nat} (h : Swings s copies padding)
    (hsum : copies + padding = 1) :
    let t := ((s.setSpan 0 (span copies padding .active)).countRecalcs 1).expandSpan 0 (span copies padding .active)
    Swings t padding copies ∧ t.counts = s.counts ++ [0] ∧ t.others = s.others ∧
      t.stats.expansions = s.stats.expansions + 1 ∧ t.config = s.config ∧ t.diags = s.diags := by
  obtain ⟨f, hf, hcopies⟩ := h.copies
  obtain ⟨g, hg, hpadding⟩ := h.padding
  have hknown : (padding : Int) ≠ unknownValue := by unfold unknownValue wordBound; omega
  obtain ⟨f', hy, hcopies', hlen, hlen'⟩ := expand_copies hcopies copies hknown
  have hgrown : signed f'.totalLen - signed f.totalLen = (padding : Int) - copies := by
    rw [hlen, hlen', signed_eq _ (by omega), signed_eq _ (by omega)]
  have hne : (padding : Int) - copies ≠ 0 := by omega
  have he := @Relaxation.expandSpan_of_ne s 0 (span copies padding .active) f f' padding ⟨0, 0⟩ _ hf hy hgrown hne
  obtain ⟨u, hu⟩ : ∃ u, (s.renewed 0 (span padding padding .active)).setFragment ⟨0, 1⟩ f' = u := ⟨_, rfl⟩
  have hgu : u.sections.fragment? ⟨0, 3⟩ = some g := by
    rw [← hu]
    exact (Sections.fragment?_setFragment_ne (by decide) _ _).trans hg
  -- No term extends over the repetition itself.
  have hshift : u.shift 1 ((padding : Int) - copies) = u := by
    unfold Relaxation.shift
    rw [show u.index.query 1 1 = [] by rw [← hu]; exact h.overCopies]
    rfl
  have hripple := @Relaxation.ripple_last u ⟨⟨0, 3⟩, copies + 1⟩ g _ hne hgu 0
  have hmoved := @swings_moveSetter u copies padding f' g hsum (by rw [← hu]; exact congrArg (List.set · 0 _) h.spans)
    (by rw [← hu]; exact h.setters) (by rw [← hu]; exact h.overCopies) (by rw [← hu]; exact h.overPadding)
    (by rw [← hu]; exact Sections.fragment?_setFragment_self hf f') hcopies' hgu hpadding
  have hstep : ((s.setSpan 0 (span copies padding .active)).countRecalcs 1).expandSpan 0 (span copies padding .active) =
      u.moveSetter 0 ⟨⟨0, 3⟩, copies + 1⟩ (padding - copies) g := by
    rw [he, ← hripple, ← hshift, ← hu, h.setters]
    rfl
  dsimp only at hmoved ⊢
  rw [hstep]
  obtain ⟨hswings, hc, ho, hexp, hconfig, hdiags⟩ := hmoved
  refine ⟨hswings, hc.trans ?_, ho.trans ?_, hexp.trans ?_, hconfig.trans ?_, hdiags.trans ?_⟩
  all_goals
    rw [← hu]
    rfl

theorem Swings.step {s : Relaxation Empty} {copies padding : Nat} (h : Swings s copies padding)
    (hsum : copies + padding = 1) (hq : s.counts ++ s.others = [0]) :
    (s.config.maxExpansions ≤ s.stats.expansions ∧
      ∃ t, s.step = .exhausted t ∧ t.diags = s.diags.report (Cause.relaxationLimit s.config.maxExpansions)) ∨
    (s.stats.expansions < s.config.maxExpansions ∧
      ∃ t, s.step = .expanded t ∧ Swings t padding copies ∧ t.counts ++ t.others = [0] ∧
        t.stats.expansions = s.stats.expansions + 1 ∧ t.config = s.config ∧ t.diags = s.diags) := by
  obtain ⟨t, hpop, hc, ho, hswings, hexp, hconfig, hdiags⟩ : ∃ t, s.pop = some (0, t) ∧ t.counts = [] ∧ t.others = [] ∧
      Swings t copies padding ∧ t.stats.expansions = s.stats.expansions ∧ t.config = s.config ∧ t.diags = s.diags := by
    unfold Relaxation.pop
    rcases List.append_eq_singleton_iff.mp hq with ⟨hc, ho⟩ | ⟨hc, ho⟩
    · rw [hc, ho]
      exact ⟨_, rfl, rfl, rfl, ⟨h.spans, h.setters, h.overCopies, h.overPadding, h.copies, h.padding⟩, rfl, rfl, rfl⟩
    · rw [hc, ho]
      exact ⟨_, rfl, rfl, rfl, ⟨h.spans, h.setters, h.overCopies, h.overPadding, h.copies, h.padding⟩, rfl, rfl, rfl⟩
  have hwoken : (span copies padding .queued).woken = span copies padding .active ∧
      (span copies padding .active).exceeded = true := by
    obtain ⟨rfl, rfl⟩ | ⟨rfl, rfl⟩ : (copies = 0 ∧ padding = 1) ∨ (copies = 1 ∧ padding = 0) := by omega
    · decide
    · decide
  have hstep := Relaxation.step_of_exceeded hpop (congrArg (·[0]?) hswings.spans) (by simp [span])
    (by rw [hwoken.1]; exact hwoken.2)
  rw [hwoken.1] at hstep
  by_cases hlast : s.config.maxExpansions ≤ s.stats.expansions
  · refine .inl ⟨hlast, _, hstep.trans (if_pos (by rw [← hconfig, ← hexp] at hlast; exact hlast)), ?_⟩
    rw [← hdiags, ← hconfig]
    rfl
  · obtain ⟨hswings', hc', ho', hexp', hconfig', hdiags'⟩ := hswings.expanded hsum
    refine .inr ⟨Nat.lt_of_not_le hlast, _, hstep.trans (if_neg (by rw [← hconfig, ← hexp] at hlast; exact hlast)),
      hswings', ?_, hexp'.trans (by rw [hexp]), hconfig'.trans hconfig, hdiags'.trans hdiags⟩
    rw [hc', ho', hc, ho]
    rfl

/-- The count swings until the budget is used up, however large it is. -/
theorem Swings.run {budget : Nat} {s : Relaxation Empty} {copies padding : Nat} (h : Swings s copies padding)
    (hsum : copies + padding = 1) (hq : s.counts ++ s.others = [0])
    (hb : s.stats.expansions + budget = s.config.maxExpansions) :
    (s.run budget).diags = s.diags.report (Cause.relaxationLimit s.config.maxExpansions) := by
  have hqueued : s.queued = 1 := by
    have := congrArg List.length hq
    rwa [List.length_append] at this
  induction budget generalizing s copies padding with
  | zero =>
    rcases h.step hsum hq with ⟨-, t, hstep, ht⟩ | ⟨hlt, -⟩
    · rw [Relaxation.run, hqueued, Relaxation.drain, hstep]
      exact ht
    · omega
  | succ budget ih =>
    rcases h.step hsum hq with ⟨hle, -⟩ | ⟨-, t, hstep, ht, hq', hexp, hconfig, hdiags⟩
    · omega
    · rw [Relaxation.run, hqueued, Relaxation.drain, hstep]
      dsimp only
      rw [ih ht (by omega) hq' (by rw [hexp, hconfig]; omega) (by
        have := congrArg List.length hq'
        rwa [List.length_append] at this), hdiags, hconfig]

/-- A repetition of one byte, a byte, and padding up to an even offset, in which the number of copies is the size of the
padding. -/
def object : Object Empty :=
  let o := ((Object.empty .standard).addSection ".text" 0).modifyBlock 0 fun b =>
    (b.appendTail (.times (.minus (.sym "b") (.sym "a")) ((Block.empty 0).appendBytes [0x90]) 0)
      (.ofLine 1)).appendBytes [0]
  let o := (o.defineLabel 0 "a" .unknown).state.modifyBlock 0 fun b =>
    b.appendTail (.align ⟨.const 2, none, none, false, 0, .zeros, none⟩) .unknown
  (o.defineLabel 0 "b" .unknown).state

/-- The sections of the object, finalized. -/
def sections : Sections Empty := (object.finalize (.empty 64)).1.sections

theorem swings_prepared (config : Config) : Swings (sections.prepared config (.empty 64)) 1 0 := by
  rw [(Sections.prepared_withConfig config .standard (.empty 64) sections).2]
  have hcopies : ((sections.prepared .standard (.empty 64)).sections.fragment? ⟨0, 1⟩).any (isCopies 1) = true := by
    decide +kernel
  have hpadding : ((sections.prepared .standard (.empty 64)).sections.fragment? ⟨0, 3⟩).any (isPadding 0) = true := by
    decide +kernel
  have hspans : (sections.prepared .standard (.empty 64)).spans = [span 1 0 .queued] := by decide +kernel
  have hsetters : (sections.prepared .standard (.empty 64)).setters = [⟨⟨0, 3⟩, 2⟩] := by decide +kernel
  have hover : (sections.prepared .standard (.empty 64)).index.query 1 1 = [] := by decide +kernel
  have hover' : (sections.prepared .standard (.empty 64)).index.query 3 3 = [(0, 0)] := by decide +kernel
  exact ⟨hspans, hsetters, hover, hover', (Option.any_eq_true _ _).mp hcopies, (Option.any_eq_true _ _).mp hpadding⟩

theorem relax_sections (n : Nat) :
    (sections.relax ⟨n, 64⟩ (.empty 64)).result = .error (Cause.relaxationLimit n) := by
  obtain ⟨hwatched, hsame⟩ := Sections.prepared_withConfig ⟨n, 64⟩ .standard (.empty 64) sections
  have hqueues : (sections.prepared .standard (.empty 64)).counts ++ (sections.prepared .standard (.empty 64)).others =
      [0] := by
    decide +kernel
  have hexpansions : (sections.prepared .standard (.empty 64)).stats.expansions = 0 := by decide +kernel
  have hdiags : (sections.prepared .standard (.empty 64)).diags = .empty 64 := by decide +kernel
  have hothers : (sections.rechecked .standard (.empty 64)).others ≠ [] := by decide +kernel
  have hrun := (swings_prepared ⟨n, 64⟩).run rfl (by rw [hsame]; exact hqueues)
    (by rw [hsame]; exact (congrArg (· + n) hexpansions).trans (Nat.zero_add n))
  rw [show (sections.prepared ⟨n, 64⟩ (.empty 64)).diags = .empty 64 by rw [hsame]; exact hdiags] at hrun
  rw [Sections.relax_of_queued (by rw [hsame]; exact congrArg Diagnostics.hasErrors hdiags) ?_]
  · unfold Relaxation.unlessFailed
    rw [hrun, Sections.config_prepared]
    rfl
  · rw [Sections.rechecked, hwatched]
    exact hothers

end Swing

theorem Swing.built_object : Swing.object.Built := by
  have hbody : (Fragment.ofTail (.times (.minus (.sym "b") (.sym "a"))
      ((Block.empty 0).appendBytes [0x90]) 0) (.ofLine 1) : Fragment (Tail Empty)).Sized := by decide
  have halign : (Fragment.ofTail (.align ⟨.const 2, none, none, false, 0, .zeros, none⟩) .unknown :
      Fragment (Tail Empty)).Sized := by decide
  refine Object.Built.defineLabel (Object.Built.modifyBlock (Object.Built.defineLabel (Object.Built.modifyBlock
    ((Object.built_empty _).addSection _ _) 0 fun b hb => ?_) _ _ _) 0 fun b hb => ?_) _ _ _
  · exact (hb.appendTail hbody).appendBytes _
  · exact hb.appendTail halign

theorem Swing.layout_object (n : Nat) :
    (Swing.object.withBudget n).layout.result = .error (Cause.relaxationLimit n) := by
  have hclean : (Swing.object.finalize (.empty 64)).2 = .empty 64 := by decide +kernel
  have hfinal : (Swing.object.withBudget n).finalize (.empty 64) =
      ({ Swing.object.withBudget n with sections := Swing.sections }, .empty 64) := Prod.ext rfl hclean
  have hrelax :
      (({ Swing.object.withBudget n with sections := Swing.sections } : Object Empty).relax (.empty 64)).result =
      .error (Cause.relaxationLimit n) := Swing.relax_sections n
  unfold Object.layout
  rw [show (Swing.object.withBudget n).config.maxErrors = 64 from rfl, hfinal]
  dsimp only
  rw [show (Diagnostics.empty 64).toError? = none from rfl]
  dsimp only
  split
  · rename_i he
    rw [he] at hrelax
    exact congrArg Except.error (Except.error.inj hrelax)
  · rename_i he
    rw [he] at hrelax
    cases hrelax

namespace Object

/-- If no count measures a distance over a fragment that follows its offset and lies behind a repetition with a count
that depends on the layout, some budget is enough. -/
theorem exists_budget_of_countsClear (o : Object Empty) (diags : Diagnostics) (hb : o.Built) (hflat : o.sections.Flat)
    (hclear : o.sections.CountsClear) :
    ∃ n, ∀ m, n ≤ m → o.sections.FitsThroughout (o.withBudget m).config diags →
      (o.withBudget m).StaysInBudget diags := by
  obtain ⟨n, hn⟩ := Sections.exists_budget hb.refsMatch hflat (fun r f hf => hb.sized hf) hclear diags
  exact ⟨n, fun m hm hw => staysInBudget_of_lasts (hn (o.withBudget m).config hm hw)⟩

/-- As many bytes as a padding before them has, which shrinks when the jump in front of it is widened. -/
def measuredPadding : Object Empty :=
  let o := ((Object.empty .standard).addSection ".text" 4096).modifyBlock 0 fun b =>
    b.appendTail (.branch (.jump (.sym "far"))) .unknown
  let o := (o.defineLabel 0 "a" .unknown).state.modifyBlock 0 fun b =>
    b.appendTail (.align ⟨.const 16, none, none, false, 0, .zeros, none⟩) .unknown
  let o := (o.defineLabel 0 "b" .unknown).state.modifyBlock 0 fun b =>
    (b.appendTail (.times (.minus (.sym "b") (.sym "a")) ((Block.empty 0).appendBytes [0x90]) 0) .unknown).appendGap 101
      .unknown
  (o.defineLabel 0 "far" .unknown).state

theorem built_measuredPadding : measuredPadding.Built := by
  refine Built.defineLabel (Built.modifyBlock (Built.defineLabel (Built.modifyBlock (Built.defineLabel
    (Built.modifyBlock ((built_empty _).addSection _ _) 0 fun b hb => ?_) _ _ _) 0 fun b hb => ?_) _ _ _) 0
    fun b hb => ?_) _ _ _
  · exact hb.appendTail (by decide)
  · exact hb.appendTail (by decide)
  · exact (hb.appendTail (by decide)).appendGap _ _

theorem exists_budget_of_countsClear_measuredPadding :
    let o := (measuredPadding.finalize (.empty 64)).1
    o.Built ∧ o.sections.Flat ∧ o.sections.CountsClear ∧
      (∀ m, o.sections.FitsThroughout (o.withBudget m).config (.empty 64)) ∧
      (∃ count, o.sections.Awaited ⟨0, 5⟩ count ∧ ∃ d ∈ count.distances.2, d.Over ⟨0, 3⟩) ∧
      ∃ n, ∀ m, n ≤ m → (o.withBudget m).StaysInBudget (.empty 64) := by
  have hb := built_measuredPadding.finalize (.empty 64)
  have hflat : (measuredPadding.finalize (.empty 64)).1.sections.Flat := by decide +kernel
  have hclear : (measuredPadding.finalize (.empty 64)).1.sections.CountsClear := by decide +kernel
  have hw : ∀ m, (measuredPadding.finalize (.empty 64)).1.sections.FitsThroughout
      ((measuredPadding.finalize (.empty 64)).1.withBudget m).config (.empty 64) := by
    refine fun m => @Sections.fitsThroughout_of_drainsWithin .standard (.empty 64) _ 8 (by decide +kernel)
      (by decide +kernel) (by decide +kernel) ?_ _
    rw [Sections.prepared_of_sorted hb.refsMatch (by decide +kernel) (by decide +kernel)]
    decide +kernel
  obtain ⟨n, hn⟩ := exists_budget_of_countsClear _ (.empty 64) hb hflat hclear
  refine ⟨hb, hflat, hclear, hw, ?_, n, fun m hm => hn m hm (hw m)⟩
  exact ⟨.sum [.loc ⟨⟨0, 4⟩, 0⟩, .neg (.loc ⟨⟨0, 2⟩, 0⟩)], ⟨_, rfl, by decide +kernel⟩, by decide +kernel⟩

end Object

/-- A count that measures a padding behind its own repetition: no budget is enough. -/
theorem relaxationLimit_of_count_over_padding :
    Swing.object.Built ∧ (Swing.object.finalize (.empty 64)).2.hasErrors = false ∧
      Swing.sections.Awaited ⟨0, 1⟩ Swing.count ∧
      ((Swing.sections.fragment? ⟨0, 3⟩).any (Fragment.setsOffset) = true) ∧
      (∃ d ∈ Swing.count.distances.2, d.Over ⟨0, 3⟩) ∧
      ∀ n, (Swing.object.withBudget n).layout.result = .error (Cause.relaxationLimit n) :=
  ⟨Swing.built_object, by decide +kernel,
    ⟨_, rfl, by decide +kernel⟩, by decide +kernel, by decide +kernel, Swing.layout_object⟩

end SpanLayout
