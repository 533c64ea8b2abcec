import SpanLayout.Proofs.Relaxation.Run

/-!
# What errors leave true

A run goes on after an error. A setter may then have a padding that does not fit its offset, and an expansion may have
failed, but every setter still lies where its entry says, and every term of a watched span is still the length of its
distance.
-/

namespace SpanLayout.Relaxation

/-! ## Setters and their entries -/

/-- Every setter lies where its entry says, except that those from number `k` on lie `d` further in section `sec`. -/
def SettersOff (sec k : Nat) (d : Int) (s : Relaxation Empty) : Prop :=
  ∀ (m : Nat) (x : Setter), s.setters[m]? = some x → ∃ f, s.sections.fragment? x.ref = some f ∧
    ((s.sections.begins x.ref + f.fixedLen : Nat) : Int) =
      x.tailOffset + if k ≤ m ∧ x.ref.sectionIndex = sec then d else 0

/-- Every setter lies where its entry says. -/
def SettersLie (s : Relaxation Empty) : Prop :=
  ∀ x ∈ s.setters, ∃ f, s.sections.fragment? x.ref = some f ∧ s.sections.begins x.ref + f.fixedLen = x.tailOffset

theorem SettersOff.lie {sec k : Nat} {d : Int} {s : Relaxation Empty} (h : SettersOff sec k d s)
    (hd : ∀ (m : Nat) (x : Setter), s.setters[m]? = some x → k ≤ m → x.ref.sectionIndex = sec → d = 0) :
    SettersLie s := by
  intro x hx
  obtain ⟨m, hm⟩ := List.mem_iff_getElem?.mp hx
  obtain ⟨f, hf, hoff⟩ := h m x hm
  refine ⟨f, hf, ?_⟩
  split at hoff
  · rename_i hkm
    have := hd m x hm hkm.1 hkm.2
    omega
  · omega

theorem settersOff_setFragment {s : Relaxation Empty} (h : s.SettersLie) {seed : Seed} {f g : Fragment (Tail Empty)}
    (hf : s.sections.fragment? seed.ref = some f)
    (hbefore : ∀ (m : Nat) (x : Setter), s.setters[m]? = some x → (m < seed.settersBefore ↔ x.ref.Before seed.ref))
    (hne : ∀ x ∈ s.setters, x.ref ≠ seed.ref) :
    SettersOff seed.ref.sectionIndex seed.settersBefore ((g.totalLen : Int) - f.totalLen)
    (s.setFragment seed.ref g) := by
  intro m x hm
  have hx := List.mem_of_getElem? hm
  obtain ⟨f', hf', he⟩ := h x hx
  refine ⟨f', by rw [Relaxation.setFragment, Sections.fragment?_setFragment_ne (hne x hx).symm, hf'], ?_⟩
  have hb := Sections.begins_setFragment hf g x.ref
  have hm' := hbefore m x hm
  have hr := FragmentRef.before_or_before (hne x hx)
  simp only [FragmentRef.Before] at hm' hr
  simp only [Relaxation.setFragment]
  split_ifs at hb ⊢ <;> omega

/-! ## One setter -/

section

variable {s : Relaxation Empty} {k : Nat} {x : Setter} {d : Int} {f : Fragment (Tail Empty)}

theorem moveSetter_eq {y : Attempt Error (Fragment (Tail Empty)) Expansion} {o : Nat}
    (ho : (x.tailOffset + d).toNat = o) (hy : f.expand 1 (signed x.tailOffset) (signed o) = y) {g : Int}
    (hgrown : signed y.state.tailLen - signed f.tailLen = g) :
    s.moveSetter k x d f =
      let s' := { (s.setFragment x.ref y.state).reportFailure y.result with
        setters := s.setters.set k { x with tailOffset := o } }
      if g = 0 then s' else s'.shift f.index g := by
  subst ho hy hgrown
  rfl

theorem spansTrack_moveSetter (hp : s.plan.Sound) (hi : s.plan.Indexed) (h : SpansTrack s.sections s.spans)
    (hx : s.setters[k]? = some x) (hf : s.sections.fragment? x.ref = some f) (hold : f.tailLen < 9223372036854775808)
    (hnew : (f.expand 1 (signed x.tailOffset) (signed (x.tailOffset + d).toNat)).state.tailLen < 9223372036854775808) :
    SpansTrack (s.moveSetter k x d f).sections (s.moveSetter k x d f).spans := by
  have hframe := Fragment.frame_expand 1 (signed x.tailOffset) (signed (x.tailOffset + d).toNat) f
  have hset := plan_setSetter hx (x.tailOffset + d).toNat
  rw [sections_moveSetter]
  generalize ho : (x.tailOffset + d).toNat = o at hset hframe hnew ⊢
  generalize hy : f.expand 1 (signed x.tailOffset) (signed o) = y at hframe hnew ⊢
  have hfixed : y.state.fixedLen = f.fixedLen := congrArg (·.fixed.length) hframe
  have hgrown : signed y.state.tailLen - signed f.tailLen = (y.state.totalLen : Int) - f.totalLen := by
    rw [signed_eq _ hnew, signed_eq _ hold, Fragment.totalLen, Fragment.totalLen]
    omega
  rw [moveSetter_eq ho hy hgrown]
  dsimp only
  split
  · exact spansTrack_setFragment hp h hf (by omega)
  · have hlag := spansLag_setFragment (s := { s with setters := s.setters.set k { x with tailOffset := o } })
      (by rw [hset]; exact hp) (by rw [hset]; exact hi) h hf y.state
    exact spansTrack_shift (hi.nodup f.index) hlag

theorem settersOff_moveSetter (hs : s.plan.Sound) {sec o : Nat} (h : SettersOff sec k d s)
    (hx : s.setters[k]? = some x) (hsec : x.ref.sectionIndex = sec) (hf : s.sections.fragment? x.ref = some f)
    (ho : x.tailOffset + d = (o : Int)) :
    let g := (f.expand 1 (signed x.tailOffset) (signed (x.tailOffset + d).toNat)).state
    SettersOff sec (k + 1) (d + ((g.tailLen : Int) - f.tailLen)) (s.moveSetter k x d f) := by
  have hframe := Fragment.frame_expand 1 (signed x.tailOffset) (signed (x.tailOffset + d).toNat) f
  have hsections := sections_moveSetter (s := s) (k := k) (x := x) (d := d) (f := f)
  have hsetters := (moveSetter_requeued k x d f s).setters
  dsimp only at hsetters ⊢
  generalize (f.expand 1 (signed x.tailOffset) (signed (x.tailOffset + d).toNat)).state = g at hframe hsections ⊢
  have hfixed : g.fixedLen = f.fixedLen := congrArg (·.fixed.length) hframe
  rw [show (x.tailOffset + d).toNat = o by omega] at hsetters
  intro m y hm
  rw [hsetters] at hm
  rw [hsections]
  by_cases hmk : k = m
  · subst hmk
    obtain rfl := Option.some.inj ((List.getElem?_set_self (List.getElem?_eq_some_iff.mp hx).1).symm.trans hm)
    obtain ⟨f', hf', hoff⟩ := h k x hx
    obtain rfl := Option.some.inj (hf.symm.trans hf')
    refine ⟨g, Sections.fragment?_setFragment_self hf _, ?_⟩
    have hbegins := Sections.begins_setFragment hf g x.ref
    rw [if_neg (by omega)] at hbegins
    rw [if_pos ⟨Nat.le_refl k, hsec⟩] at hoff
    rw [if_neg (by omega)]
    dsimp only
    omega
  · rw [List.getElem?_set_ne hmk] at hm
    obtain ⟨f', hf', hoff⟩ := h m y hm
    have hbefore : m < k ∧ y.ref.Before x.ref ∨ k < m ∧ x.ref.Before y.ref := by
      rcases Nat.lt_or_gt_of_ne hmk with hlt | hlt
      · exact .inr ⟨hlt, hs.before_of_lt hx hm hlt⟩
      · exact .inl ⟨hlt, hs.before_of_lt hm hx hlt⟩
    have hne : x.ref ≠ y.ref := by
      rcases hbefore with ⟨-, hb⟩ | ⟨-, hb⟩
      · exact hb.ne.symm
      · exact hb.ne
    refine ⟨f', by rw [Sections.fragment?_setFragment_ne hne, hf'], ?_⟩
    have hbegins := Sections.begins_setFragment hf g y.ref
    simp only [FragmentRef.Before] at hbefore
    simp only [Fragment.totalLen] at hbegins
    split_ifs at hbegins hoff ⊢ <;> omega

end

/-! ## Following a growth -/

/-- Whatever was reported, the plan is sound, terms are the lengths of their distances, and setters lie where their
entries say. -/
structure Upheld (s : Relaxation Empty) : Prop where
  sound : s.plan.Sound
  indexed : s.plan.Indexed
  spans : SpansTrack s.sections s.spans
  setters : s.SettersLie

theorem Consistent.upheld {s : Relaxation Empty} (h : s.Consistent) : s.Upheld := by
  refine ⟨h.tracked.sound, h.tracked.indexed, h.tracked.spans, fun x hx => ?_⟩
  obtain ⟨f, -, hf, -, -, he⟩ := h.setters x hx
  exact ⟨f, hf, he⟩

theorem upheld_ripple {sec k : Nat} {d : Int} {setters : List Setter} {s : Relaxation Empty} (hsound : s.plan.Sound)
    (hindexed : s.plan.Indexed) (hspans : SpansTrack s.sections s.spans) (hset : setters = s.setters.drop k)
    (hoff : SettersOff sec k d s) (hsec : ∀ x ∈ setters, sec ≤ x.ref.sectionIndex)
    (hold : ∀ x ∈ setters, ∀ f, s.sections.fragment? x.ref = some f → x.tailOffset + f.tailLen < 9223372036854775808)
    (hb : ∀ i, (ripple sec k setters d s).sections.length i < 9223372036854775808) :
    (ripple sec k setters d s).Upheld := by
  induction setters generalizing k d s with
  | nil =>
    refine ⟨hsound, hindexed, hspans, hoff.lie fun m x hm hkm => ?_⟩
    have hlen := (List.getElem?_eq_some_iff.mp hm).1
    have := List.drop_eq_nil_iff.mp hset.symm
    omega
  | cons x setters ih =>
    obtain ⟨hx, hdrop, hafter⟩ := setters_behind hsound hset
    rw [ripple_cons] at hb ⊢
    split
    · rename_i hstop
      exact ⟨hsound, hindexed, hspans, hoff.lie fun m y => eq_zero_of_stop hsound hx (hsec x List.mem_cons_self) hstop⟩
    · rename_i hgo
      rw [if_neg hgo] at hb
      rw [not_or, not_not] at hgo
      obtain ⟨f, hf, hl⟩ := hoff k x hx
      rw [if_pos ⟨Nat.le_refl k, hgo.2⟩] at hl
      rw [hf] at hb ⊢
      dsimp only at hb ⊢
      have hplace := Nat.lt_of_le_of_lt (le_length_ripple hf hafter sec k (k + 1) d _) (hb x.ref.sectionIndex)
      have hxo := hold x List.mem_cons_self f hf
      have hmoved := settersOff_moveSetter hsound hoff hx hgo.2 hf hl.symm
      have hplan : (s.moveSetter k x d f).plan = s.plan := plan_moveSetter hx hf
      have hsections := sections_moveSetter (s := s) (k := k) (x := x) (d := d) (f := f)
      have hsetters := (moveSetter_requeued k x d f s).setters
      have htrack := spansTrack_moveSetter (d := d) hsound hindexed hspans hx hf (by omega) (by omega)
      dsimp only at hmoved hsetters
      generalize (f.expand 1 (signed x.tailOffset) (signed (x.tailOffset + d).toNat)).state = g at *
      have hto : (x.tailOffset + d).toNat = s.sections.begins x.ref + f.fixedLen := by omega
      rw [hto] at hb hsetters ⊢
      have hnext : signed (s.sections.begins x.ref + f.fixedLen + g.tailLen) - signed (x.tailOffset + f.tailLen) =
          d + ((g.tailLen : Int) - f.tailLen) := by
        rw [signed_eq _ hplace, signed_eq _ hxo]
        omega
      rw [hnext] at hb ⊢
      refine ih (by rw [hplan]; exact hsound) (by rw [hplan]; exact hindexed) htrack ?_ hmoved
        (fun y hy => hsec y (List.mem_cons_of_mem x hy))
        (fun y hy f' hf' => hold y (List.mem_cons_of_mem x hy) f' ?_) hb
      · rw [hsetters, List.drop_set_of_lt (Nat.lt_succ_self k), hdrop]
      · rw [← hf', hsections, Sections.fragment?_setFragment_ne (hafter y hy).ne]

theorem upheld_follow {s : Relaxation Empty} (h : s.Upheld) (hb : ∀ k, s.sections.length k < 9223372036854775808)
    {span : Span} (hspan : span ∈ s.spans) {f g : Fragment (Tail Empty)}
    (hf : s.sections.fragment? span.seed.ref = some f) (hg : g.frame = f.frame)
    (hb' : ∀ k, (s.follow span.seed f g).sections.length k < 9223372036854775808) :
    (s.follow span.seed f g).Upheld := by
  obtain ⟨hne, hbefore, hafter⟩ := setters_of_span h.sound hspan
  have hfi : f.index = span.seed.index := by
    obtain ⟨a, ha, -, hindex⟩ := (h.sound.seeds _ (List.mem_map_of_mem hspan)).frame
    obtain ⟨f', hf', rfl⟩ := Sections.exists_fragment_of_frame? ha
    rwa [Option.some.inj (hf.symm.trans hf')]
  have hflen := Sections.begins_add_totalLen_le hf
  have hglen := Sections.begins_add_totalLen_le (fragment?_follow_self hf hne g)
  have hgrown : signed g.totalLen - signed f.totalLen = (g.totalLen : Int) - f.totalLen := by
    rw [signed_eq _ (by have := hb' span.seed.ref.sectionIndex; omega),
      signed_eq _ (by have := hb span.seed.ref.sectionIndex; omega)]
  have hplan : (s.setFragment span.seed.ref g).plan = s.plan := plan_setFragment hf hg
  have hoff := settersOff_setFragment (g := g) h.setters hf hbefore hne
  by_cases hz : signed g.totalLen - signed f.totalLen = 0
  · rw [follow_of_zero hz]
    exact ⟨hplan ▸ h.sound, hplan ▸ h.indexed, spansTrack_setFragment h.sound h.spans hf (by omega),
      hoff.lie fun _ _ _ _ _ => by omega⟩
  · rw [follow_of_ne_zero hz] at hb' ⊢
    rw [hgrown] at hb' ⊢
    have hreq := shift_requeued (s.setFragment span.seed.ref g) span.seed.index ((g.totalLen : Int) - f.totalLen)
    have htrack : SpansTrack (s.setFragment span.seed.ref g).sections
        ((s.setFragment span.seed.ref g).shift span.seed.index ((g.totalLen : Int) - f.totalLen)).spans := by
      rw [← hfi]
      exact spansTrack_setFragment_shift h.sound h.indexed h.spans hf g
    refine upheld_ripple (by rw [hreq.plan, hplan]; exact h.sound) (by rw [hreq.plan, hplan]; exact h.indexed)
      (by rw [hreq.sections]; exact htrack) (by rw [hreq.setters]; rfl) ?_ (fun x hx => ?_) (fun x hx f' hf' => ?_) hb'
    · unfold SettersOff
      rw [hreq.sections, hreq.setters]
      exact hoff
    · exact (hafter x hx).sectionIndex_le
    · have hx := List.mem_of_mem_drop hx
      rw [hreq.sections, Relaxation.setFragment, Sections.fragment?_setFragment_ne (hne x hx).symm] at hf'
      obtain ⟨f'', hf'', he⟩ := h.setters x hx
      obtain rfl := Option.some.inj (hf'.symm.trans hf'')
      have hle := Sections.begins_add_totalLen_le hf'
      have := hb x.ref.sectionIndex
      rw [Fragment.totalLen] at hle
      omega

/-! ## Steps -/

/-- What a step does, whatever the queues hold. -/
theorem step_effect (s : Relaxation Empty) :
    (s.step = .idle ∧ s.counts ++ s.others = []) ∨
    ∃ (n : Nat) (s' : Relaxation Empty), s.counts ++ s.others = n :: (s'.counts ++ s'.others) ∧ s'.spans = s.spans ∧
      Requeued s s' ∧
      (s.step = .settled s' ∨
        ∃ span, s.spans[n]? = some span ∧ span.status ≠ .inactive ∧
          let t := (s'.setSpan n span.woken).countRecalcs 1
          (span.woken.exceeded = false ∧ s.step = .settled t) ∨
          (span.woken.exceeded = true ∧ s.config.maxExpansions ≤ s.stats.expansions ∧
            s.step = .exhausted (t.report (Cause.relaxationLimit s.config.maxExpansions))) ∨
          (span.woken.exceeded = true ∧ s.stats.expansions < s.config.maxExpansions ∧
            s.step = .expanded (t.expandSpan n span.woken))) := by
  cases hp : s.pop with
  | none =>
    refine .inl ⟨?_, pop_of_none hp⟩
    unfold step
    rw [hp]
  | some p =>
    obtain ⟨n, s'⟩ := p
    obtain ⟨hq, hspans, hreq⟩ := pop_of_some hp
    refine .inr ⟨n, s', hq, hspans, hreq, ?_⟩
    cases hn : s.spans[n]? with
    | none =>
      refine .inl ?_
      unfold step
      rw [hp]
      dsimp only
      rw [hspans, hn]
    | some span =>
      by_cases hs : span.status = .inactive
      · refine .inl ?_
        unfold step
        rw [hp]
        dsimp only
        rw [hspans, hn]
        dsimp only
        rw [if_pos hs]
      · refine .inr ⟨span, rfl, hs, ?_⟩
        have hstep : s.step =
            let t := (s'.setSpan n span.woken).countRecalcs 1
            if span.woken.exceeded = false then .settled t
            else if s.config.maxExpansions ≤ s.stats.expansions then
              .exhausted (t.report (Cause.relaxationLimit s.config.maxExpansions))
            else .expanded (t.expandSpan n span.woken) := by
          rw [← hreq.config, ← hreq.expansions]
          unfold step
          rw [hp]
          dsimp only
          rw [hspans, hn]
          dsimp only
          rw [if_neg hs]
          rfl
        generalize span.woken = x at hstep ⊢
        dsimp only at hstep ⊢
        by_cases hx : x.exceeded = false
        · exact .inl ⟨hx, by rw [hstep, if_pos hx]⟩
        · have hx' : x.exceeded = true := by simpa using hx
          by_cases hl : s.config.maxExpansions ≤ s.stats.expansions
          · exact .inr (.inl ⟨hx', hl, by rw [hstep, if_neg hx, if_pos hl]⟩)
          · exact .inr (.inr ⟨hx', by omega, by rw [hstep, if_neg hx, if_neg hl]⟩)

/-- A step takes span number `n`, which is out of its window, from the queues and tries to expand its fragment `f`: it
gives the span up, or renews it and follows the growth. -/
structure Tries (s t : Relaxation Empty) (n : Nat) (span : Span) (f : Fragment (Tail Empty)) : Prop where
  found : s.spans[n]? = some span
  watched : span.status ≠ .inactive
  exceeded : span.woken.exceeded = true
  budget : s.stats.expansions < s.config.maxExpansions
  fragment : s.sections.fragment? span.seed.ref = some f
  setsOffset : f.setsOffset = false
  follows : ∃ s', s'.spans = s.spans ∧ Requeued s s' ∧
    let y := f.expand span.id span.current span.compute
    (∃ e, y.result = .error e ∧
      t = ((s'.renewed n (span.woken.expanded none)).setFragment span.seed.ref y.state).report e) ∨
    ∃ x : Expansion, y.result = .ok x ∧
      t = (s'.renewed n (span.woken.expanded x.window)).follow span.seed f y.state

theorem fragment_of_span {s : Relaxation Empty} (h : s.plan.Sound) {span : Span} (hspan : span ∈ s.spans) :
    ∃ f, s.sections.fragment? span.seed.ref = some f ∧ f.setsOffset = false := by
  obtain ⟨a, ha, hns, -⟩ := (h.seeds _ (List.mem_map_of_mem hspan)).frame
  obtain ⟨f, hf, rfl⟩ := Sections.exists_fragment_of_frame? ha
  exact ⟨f, hf, hns⟩

theorem tries_of_sound {s t : Relaxation Empty} (h : s.plan.Sound) (hs : s.step = .expanded t) :
    ∃ n span f, Tries s t n span f := by
  rcases s.step_effect with ⟨hi, -⟩ | ⟨n, s', -, hspans, hreq, ht | ⟨span, hn, hw, hx⟩⟩
  · exact nomatch hi.symm.trans hs
  · exact nomatch ht.symm.trans hs
  rcases hx with ⟨-, ht⟩ | ⟨-, -, ht⟩ | ⟨hx, hlt, ht⟩
  · exact nomatch ht.symm.trans hs
  · exact nomatch ht.symm.trans hs
  · obtain rfl := Step.expanded.inj (ht.symm.trans hs)
    obtain ⟨f, hf, hns⟩ := fragment_of_span h (List.mem_of_getElem? hn)
    have hf' : s'.sections.fragment? span.woken.seed.ref = some f := by
      rw [hreq.sections]
      exact hf
    exact ⟨n, span, f, hn, hw, hx, hlt, hf, hns, s', hspans, hreq, expandSpan_effect n hf'⟩

theorem Upheld.tries {s t : Relaxation Empty} (h : s.Upheld) (hs : s.step = .expanded t) :
    ∃ n span f, Tries s t n span f := tries_of_sound h.sound hs

theorem step_settled {s t : Relaxation Empty} (hs : s.step = .settled t) :
    ∃ s', s'.spans = s.spans ∧ Requeued s s' ∧ (t = s' ∨ ∃ n span, s.spans[n]? = some span ∧ span.status ≠ .inactive ∧
      t = (s'.setSpan n span.woken).countRecalcs 1) := by
  rcases s.step_effect with ⟨hi, -⟩ | ⟨n, s', -, hspans, hreq, ht | ⟨span, hn, hw, hx⟩⟩
  · exact nomatch hi.symm.trans hs
  · exact ⟨s', hspans, hreq, .inl (Step.settled.inj (hs.symm.trans ht))⟩
  rcases hx with ⟨-, ht⟩ | ⟨-, -, ht⟩ | ⟨-, -, ht⟩
  · exact ⟨s', hspans, hreq, .inr ⟨n, span, hn, hw, Step.settled.inj (hs.symm.trans ht)⟩⟩
  · exact nomatch ht.symm.trans hs
  · exact nomatch ht.symm.trans hs

theorem step_exhausted {s t : Relaxation Empty} (hs : s.step = .exhausted t) :
    ∃ (n : Nat) (span : Span), s.spans[n]? = some span ∧ span.status ≠ .inactive ∧ span.woken.exceeded = true ∧
      s.config.maxExpansions ≤ s.stats.expansions ∧ t.stats.expansions = s.stats.expansions ∧
      t.stats.spans = s.stats.spans := by
  rcases s.step_effect with ⟨hi, -⟩ | ⟨n, s', -, hspans, hreq, ht | ⟨span, hn, hw, hx⟩⟩
  · exact nomatch hi.symm.trans hs
  · exact nomatch ht.symm.trans hs
  rcases hx with ⟨-, ht⟩ | ⟨hx, hle, ht⟩ | ⟨-, -, ht⟩
  · exact nomatch ht.symm.trans hs
  · obtain rfl := Step.exhausted.inj (ht.symm.trans hs)
    exact ⟨n, span, hn, hw, hx, hle, hreq.expansions, hreq.registered⟩
  · exact nomatch ht.symm.trans hs

theorem Upheld.congr {s t : Relaxation Empty} (h : s.Upheld) (hplan : t.plan = s.plan)
    (hsections : t.sections = s.sections)
    (hsetters : t.setters = s.setters) (hspans : SpansTrack s.sections t.spans) : t.Upheld := by
  refine ⟨hplan ▸ h.sound, hplan ▸ h.indexed, by rw [hsections]; exact hspans, ?_⟩
  unfold SettersLie
  rw [hsections, hsetters]
  exact h.setters

theorem spansTrack_set {ss : Sections Empty} {spans : List Span} (h : SpansTrack ss spans) {n : Nat} {span span' : Span}
    (hn : spans[n]? = some span) (hw : span.status ≠ .inactive) (ht : span'.terms = span.terms) :
    SpansTrack ss (spans.set n span') := by
  intro x hx hxs t hxt
  rcases List.mem_or_eq_of_mem_set hx with hx | rfl
  · exact h x hx hxs t hxt
  · exact h span (List.mem_of_getElem? hn) hw t (ht ▸ hxt)

theorem Upheld.renewed {s s' : Relaxation Empty} (h : s.Upheld) (hspans : s'.spans = s.spans) (hreq : Requeued s s')
    {n : Nat} {span span' : Span} (hn : s.spans[n]? = some span) (hw : span.status ≠ .inactive)
    (ho : span'.outline = span.outline) (ht : span'.terms = span.terms) :
    (s'.renewed n span').Upheld ∧ (s'.renewed n span').plan = s.plan := by
  have hplan : (s'.renewed n span').plan = s.plan := by
    rw [← hreq.plan]
    exact plan_setSpan (hspans ▸ hn) ho
  refine ⟨h.congr hplan hreq.sections hreq.setters ?_, hplan⟩
  rw [show (s'.renewed n span').spans = s.spans.set n span' by rw [← hspans]; rfl]
  exact spansTrack_set h.spans hn hw ht

theorem Tries.kept {s t : Relaxation Empty} {n : Nat} {span : Span} {f : Fragment (Tail Empty)}
    (h : Tries s t n span f) :
    t.plan = s.plan ∧ t.config = s.config ∧ t.stats.expansions = s.stats.expansions + 1 ∧
      t.stats.spans = s.stats.spans ∧ s.sections.Reshaped t.sections := by
  obtain ⟨s', hspans, hreq, he⟩ := h.follows
  have hn : s'.spans[n]? = some span := hspans ▸ h.found
  have hf : s'.sections.fragment? span.seed.ref = some f := by
    rw [hreq.sections]
    exact h.fragment
  have hframe := Fragment.frame_expand span.id span.current span.compute f
  have hbase (span' : Span) (ho : span'.outline = span.outline) : (s'.renewed n span').plan = s.plan := by
    rw [← hreq.plan]
    exact plan_setSpan hn ho
  rw [← hreq.sections, ← hreq.config, ← hreq.expansions, ← hreq.registered]
  rcases he with ⟨e, -, ht⟩ | ⟨x, -, ht⟩ <;> rw [ht]
  · refine ⟨?_, rfl, rfl, rfl, Sections.reshaped_setFragment hf (.expand .refl _ _ _)⟩
    refine Eq.trans ?_ (hbase (span.woken.expanded none) rfl)
    exact plan_setFragment (s := s'.renewed n _) hf hframe
  · have hkept := kept_follow (s := s'.renewed n (span.woken.expanded x.window)) hf hframe
    refine ⟨hkept.plan.trans (hbase _ ?_), hkept.config, hkept.expansions, hkept.registered, ?_⟩
    · rw [Span.outline_expanded, Span.outline_woken]
    · exact reshaped_follow (s := s'.renewed n _) hf (.expand .refl _ _ _)

theorem plan_report (s : Relaxation Empty) (e : Error) : (s.report e).plan = s.plan := rfl

theorem Upheld.tried {s t : Relaxation Empty} (h : s.Upheld) (hb : ∀ k, s.sections.length k < 9223372036854775808)
    {n : Nat} {span : Span} {f : Fragment (Tail Empty)} (ht : Tries s t n span f)
    (hb' : ∀ k, t.sections.length k < 9223372036854775808) : t.Upheld := by
  obtain ⟨s', hspans, hreq, ⟨e, he, heq⟩ | ⟨x, -, heq⟩⟩ := ht.follows <;> rw [heq] at hb' ⊢
  · obtain ⟨hup, -⟩ := h.renewed hspans hreq ht.found ht.watched
      (show (span.woken.expanded none).outline = span.outline from rfl) rfl
    have hf : (s'.renewed n (span.woken.expanded none)).sections.fragment? span.seed.ref = some f := by
      rw [show (s'.renewed n _).sections = s.sections from hreq.sections]
      exact ht.fragment
    have hlen := Fragment.totalLen_expand_of_error he
    have hplan := plan_setFragment hf (Fragment.frame_expand span.id span.current span.compute f)
    refine ⟨by rw [plan_report, hplan]; exact hup.sound, by rw [plan_report, hplan]; exact hup.indexed,
      spansTrack_setFragment hup.sound hup.spans hf hlen, fun y hy => ?_⟩
    obtain ⟨g, hg, hlies⟩ := hup.setters y hy
    have hne : span.seed.ref ≠ y.ref := by
      intro hr
      exact hup.sound.not_mem_setters hf ht.setsOffset (hr ▸ List.mem_map_of_mem hy)
    have hbegins := Sections.begins_setFragment hf (f.expand span.id span.current span.compute).state y.ref
    refine ⟨g, (Sections.fragment?_setFragment_ne hne _ _).trans hg, ?_⟩
    rw [hlen] at hbegins
    rw [← hlies]
    show (Sections.setFragment _ _ _).begins y.ref + _ = _
    split at hbegins <;> omega
  · have ho : (span.woken.expanded x.window).outline = span.outline := by
      rw [Span.outline_expanded, Span.outline_woken]
    have hterms : (span.woken.expanded x.window).terms = span.terms := by
      rw [Span.terms_expanded]
      rfl
    have hseed : (span.woken.expanded x.window).seed = span.seed := by
      rw [Span.seed_expanded]
      rfl
    obtain ⟨hup, -⟩ := h.renewed hspans hreq ht.found ht.watched ho hterms
    have hf : (s'.renewed n (span.woken.expanded x.window)).sections.fragment? span.seed.ref = some f := by
      rw [show (s'.renewed n _).sections = s.sections from hreq.sections]
      exact ht.fragment
    have hmem : span.woken.expanded x.window ∈ (s'.renewed n (span.woken.expanded x.window)).spans :=
      List.mem_set (by rw [hspans]; exact (List.getElem?_eq_some_iff.mp ht.found).1) _
    rw [← hseed] at hf hb' ⊢
    refine upheld_follow hup ?_ hmem hf (Fragment.frame_expand ..) hb'
    rw [show (s'.renewed n _).sections = s.sections from hreq.sections]
    exact hb

/-- Draining keeps up what errors leave true. -/
theorem Draining.upheld {start s : Relaxation Empty} (h : Draining start s) (hu : start.Upheld)
    (hw : ∀ t, Draining start t → ∀ k, t.sections.length k < 9223372036854775808) :
    s.Upheld ∧ s.plan = start.plan ∧ s.config = start.config ∧ start.sections.Reshaped s.sections := by
  induction h with
  | start => exact ⟨hu, rfl, rfl, .refl _⟩
  | @step s t h hs ih =>
    obtain ⟨hup, hplan, hconfig, hreshaped⟩ := ih
    rcases hs with hs | hs
    · obtain ⟨s', hspans, hreq, rfl | ⟨n, span, hn, hwatched, rfl⟩⟩ := step_settled hs
      · refine ⟨hup.congr hreq.plan hreq.sections hreq.setters (hspans ▸ hup.spans), hreq.plan.trans hplan,
          hreq.config.trans hconfig, ?_⟩
        rw [hreq.sections]
        exact hreshaped
      · obtain ⟨hup', hplan'⟩ := hup.renewed hspans hreq hn hwatched span.outline_woken rfl
        refine ⟨⟨hup'.sound, hup'.indexed, hup'.spans, hup'.setters⟩, hplan'.trans hplan, hreq.config.trans hconfig, ?_⟩
        rw [show ((s'.setSpan n _).countRecalcs 1).sections = s.sections from hreq.sections]
        exact hreshaped
    · obtain ⟨n, span, f, ht⟩ := hup.tries hs
      obtain ⟨hplan', hconfig', -, -, hreshaped'⟩ := ht.kept
      exact ⟨hup.tried (hw s h) ht (hw t (h.step (.inr hs))), hplan'.trans hplan, hconfig'.trans hconfig,
        hreshaped.trans hreshaped'⟩

end SpanLayout.Relaxation
