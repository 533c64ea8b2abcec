import SpanLayout.Proofs.Relaxation.Phases

/-!
# Draining the queues

A run takes one step after the other until the queues are empty, the budget is used up, or an error is reported. It
stays consistent as long as no error is reported and everything stays within words.
-/

namespace SpanLayout.Relaxation

/-! ## What a step leaves alone -/

/-- The relaxations have one plan, one limit, and have used as much of it. -/
structure Kept (s t : Relaxation Empty) : Prop where
  plan : t.plan = s.plan
  config : t.config = s.config
  expansions : t.stats.expansions = s.stats.expansions
  registered : t.stats.spans = s.stats.spans

theorem Requeued.kept {s t : Relaxation Empty} (h : Requeued s t) : Kept s t :=
  ⟨h.plan, h.config, h.expansions, h.registered⟩

theorem Kept.trans {s t u : Relaxation Empty} (h : Kept s t) (h' : Kept t u) : Kept s u :=
  ⟨h'.plan.trans h.plan, h'.config.trans h.config, h'.expansions.trans h.expansions, h'.registered.trans h.registered⟩

theorem kept_setFragment {s : Relaxation Empty} {r : FragmentRef} {f g : Fragment (Tail Empty)}
    (hf : s.sections.fragment? r = some f) (hg : g.frame = f.frame) : Kept s (s.setFragment r g) :=
  ⟨plan_setFragment hf hg, rfl, rfl, rfl⟩

theorem kept_ripple {sec k : Nat} {setters : List Setter} {d : Int} {s : Relaxation Empty}
    (hset : setters = s.setters.drop k) : Kept s (ripple sec k setters d s) := by
  induction setters generalizing k d s with
  | nil => exact ⟨rfl, rfl, rfl, rfl⟩
  | cons x setters ih =>
    have hx : s.setters[k]? = some x := by
      rw [← List.head?_drop, ← hset]
      rfl
    rw [ripple_cons]
    split
    · exact ⟨rfl, rfl, rfl, rfl⟩
    · split
      · exact ⟨rfl, rfl, rfl, rfl⟩
      · rename_i f hf
        have hreq := moveSetter_requeued k x d f s
        have hmoved : Kept s (s.moveSetter k x d f) :=
          ⟨plan_moveSetter hx hf, hreq.config, hreq.expansions, hreq.registered⟩
        refine hmoved.trans (ih ?_)
        rw [hreq.setters, List.drop_set_of_lt (Nat.lt_succ_self k), ← List.tail_drop, ← hset]
        rfl

theorem kept_follow {s : Relaxation Empty} {seed : Seed} {f g : Fragment (Tail Empty)}
    (hf : s.sections.fragment? seed.ref = some f) (hg : g.frame = f.frame) : Kept s (s.follow seed f g) := by
  have hset := kept_setFragment hf hg
  by_cases hz : signed g.totalLen - signed f.totalLen = 0
  · rw [follow_of_zero hz]
    exact hset
  · rw [follow_of_ne_zero hz]
    have hreq := shift_requeued (s.setFragment seed.ref g) seed.index (signed g.totalLen - signed f.totalLen)
    exact (hset.trans hreq.kept).trans (kept_ripple (by rw [hreq.setters]; rfl))

/-! ## Errors stay -/

theorem hasErrors_expandSpan {s : Relaxation Empty} (h : s.diags.hasErrors = true) (n : Nat) (span : Span) :
    (s.expandSpan n span).diags.hasErrors = true := by
  unfold expandSpan
  dsimp only
  split
  · exact h
  · split
    · exact Diagnostics.hasErrors_report h _
    · split
      · exact h
      · apply hasErrors_ripple
        rw [(shift_requeued _ _ _).diags]
        exact h

theorem step_diags (s : Relaxation Empty) :
    s.step = .idle ∨ (∃ t, s.step = .settled t ∧ t.diags = s.diags) ∨
      (∃ (t : Relaxation Empty) (n : Nat) (span : Span), s.step = .expanded (t.expandSpan n span) ∧ t.diags = s.diags) ∨
      ∃ t, s.step = .exhausted t ∧ t.diags.hasErrors = true := by
  unfold step
  split
  · exact .inl rfl
  · rename_i n s' hp
    have hd : s'.diags = s.diags := (pop_of_some hp).2.2.diags
    split
    · exact .inr (.inl ⟨_, rfl, hd⟩)
    · split
      · exact .inr (.inl ⟨_, rfl, hd⟩)
      · dsimp only
        split
        · exact .inr (.inl ⟨_, rfl, hd⟩)
        · split
          · exact .inr (.inr (.inr ⟨_, rfl, Diagnostics.hasErrors_report_one _ _⟩))
          · exact .inr (.inr (.inl ⟨_, _, _, rfl, hd⟩))

/-- `t` is the next state of a run. -/
def Steps (s t : Relaxation Empty) : Prop := s.step = .settled t ∨ s.step = .expanded t

theorem Steps.hasErrors {s t : Relaxation Empty} (hs : s.Steps t) (h : s.diags.hasErrors = true) :
    t.diags.hasErrors = true := by
  rcases s.step_diags with he | ⟨u, he, hd⟩ | ⟨u, n, span, he, hd⟩ | ⟨u, he, -⟩ <;> rcases hs with hs | hs <;>
    rw [he] at hs
  case inr.inl.inl => exact Step.settled.inj hs ▸ hd ▸ h
  case inr.inr.inl.inr => exact Step.expanded.inj hs ▸ hasErrors_expandSpan (hd ▸ h) n span
  all_goals exact nomatch hs

/-! ## Draining -/

/-- The relaxations that draining the queues goes through. -/
inductive Draining (start : Relaxation Empty) : Relaxation Empty → Prop
  | start : Draining start start
  | step {s t : Relaxation Empty} (h : Draining start s) (hs : s.Steps t) : Draining start t

/-- Draining takes fewer than `n` steps, and every state on the way has the property `p`. -/
def drainsWithin (p : Relaxation Empty → Bool) : Nat → Relaxation Empty → Bool
  | 0, _ => false
  | n + 1, s =>
    p s && match s.step with
      | .settled t | .expanded t => drainsWithin p n t
      | .idle | .exhausted _ => true

theorem drainsWithin_step {p : Relaxation Empty → Bool} {n : Nat} {s t : Relaxation Empty}
    (h : drainsWithin p n s = true) (hs : s.Steps t) : drainsWithin p (n - 1) t = true := by
  cases n with
  | zero => exact nomatch h
  | succ n =>
    rw [drainsWithin, Bool.and_eq_true] at h
    rcases hs with hs | hs <;> rw [hs] at h <;> exact h.2

theorem Draining.of_drainsWithin {p : Relaxation Empty → Bool} {n : Nat} {start s : Relaxation Empty}
    (h : drainsWithin p n start = true) (hs : Draining start s) : p s = true := by
  have hrest : ∃ m, drainsWithin p m s = true := by
    induction hs with
    | start => exact ⟨n, h⟩
    | step _ hs ih =>
      obtain ⟨m, hm⟩ := ih
      exact ⟨m - 1, drainsWithin_step hm hs⟩
  obtain ⟨m, hm⟩ := hrest
  cases m with
  | zero => exact nomatch hm
  | succ m =>
    rw [drainsWithin, Bool.and_eq_true] at hm
    exact hm.1

theorem Draining.hasErrors {start s : Relaxation Empty} (h : Draining start s) (hd : start.diags.hasErrors = true) :
    s.diags.hasErrors = true := by
  induction h with
  | start => exact hd
  | step _ hs ih => exact hs.hasErrors ih

theorem measured_of_plan {s t : Relaxation Empty} (h : t.plan.spans = s.plan.spans) : t.measured = s.measured := by
  have hmap (s : Relaxation Empty) : s.measured =
      s.plan.spans.flatMap fun span => span.terms.flatMap fun t => [t.distance.origin, t.distance.target] := by
    simp [measured, plan, Span.outline, List.flatMap_map, Term.outline]
  rw [hmap, hmap, h]

theorem Consistent.kept {s t : Relaxation Empty} (h : s.Consistent) (hs : s.Steps t)
    (hd : t.diags.hasErrors = false) :
    t.plan = s.plan ∧ t.config = s.config ∧
      ((s.step = .settled t ∧ t.stats.expansions = s.stats.expansions ∧ t.queued + 1 = s.queued) ∨
        (s.step = .expanded t ∧ t.stats.expansions = s.stats.expansions + 1 ∧
          s.stats.expansions < s.config.maxExpansions)) := by
  rcases hs with hs | hs
  · obtain ⟨n, span, he⟩ := h.settles hs
    obtain ⟨s', hq, hspans, hreq, rfl⟩ := he.follows
    have hplan : (s'.setSpan n span.woken).plan = s.plan := by
      rw [← hreq.plan]
      exact plan_setSpan (hspans ▸ he.found) span.outline_woken
    refine ⟨hplan, hreq.config, .inl ⟨hs, hreq.expansions, ?_⟩⟩
    have hlen := congrArg List.length hq
    simp only [List.length_append, List.length_cons] at hlen
    exact hlen.symm
  · obtain ⟨n, span, f, x, he⟩ := h.expands hs hd
    obtain ⟨s', -, hspans, hreq, ht⟩ := he.follows
    have hplan : (s'.renewed n (span.woken.expanded x.window)).plan = s.plan := by
      rw [← hreq.plan]
      refine plan_setSpan (hspans ▸ he.found) ?_
      rw [Span.outline_expanded, Span.outline_woken]
    have hf' : (s'.renewed n (span.woken.expanded x.window)).sections.fragment? span.seed.ref = some f := by
      rw [show (s'.renewed n (span.woken.expanded x.window)).sections = s.sections from hreq.sections]
      exact he.fragment
    have hkept := kept_follow hf' (Fragment.frame_expand span.id span.current span.compute f)
    rw [← ht] at hkept
    refine ⟨hkept.plan.trans hplan, hkept.config.trans hreq.config, .inr ⟨hs, ?_, he.budget⟩⟩
    rw [hkept.expansions, ← hreq.expansions]
    rfl

theorem Consistent.reshaped {s t : Relaxation Empty} (h : s.Consistent) (hs : s.Steps t)
    (hd : t.diags.hasErrors = false) : s.sections.Reshaped t.sections := by
  rcases hs with hs | hs
  · obtain ⟨n, span, he⟩ := h.settles hs
    rw [he.sections]
    exact .refl _
  · obtain ⟨n, span, f, x, he⟩ := h.expands hs hd
    obtain ⟨s', -, -, hreq, ht⟩ := he.follows
    rw [ht, ← show (s'.renewed n _).sections = s.sections from hreq.sections]
    refine reshaped_follow ?_ (.expand .refl _ _ _)
    rw [show (s'.renewed n _).sections = s.sections from hreq.sections]
    exact he.fragment

/-- Draining keeps a relaxation consistent. -/
theorem Draining.consistent {start s : Relaxation Empty} (h : Draining start s) (hc : start.Consistent)
    (hsteady : start.sections.Steady)
    (hw : ∀ t, Draining start t → t.diags.hasErrors = false → t.sections.InWords start.measured)
    (hd : s.diags.hasErrors = false) :
    s.Consistent ∧ s.plan = start.plan ∧ s.config = start.config ∧ start.sections.Reshaped s.sections := by
  induction h with
  | start => exact ⟨hc, rfl, rfl, .refl _⟩
  | @step s t h hs ih =>
    have hds : s.diags.hasErrors = false := by
      by_contra he
      rw [Bool.not_eq_false] at he
      exact absurd (hd.symm.trans (hs.hasErrors he)) (by decide)
    obtain ⟨hcons, hplan, hconfig, hreshaped⟩ := ih hds
    obtain ⟨hplan', hconfig', -⟩ := hcons.kept hs hd
    refine ⟨?_, hplan'.trans hplan, hconfig'.trans hconfig, hreshaped.trans (hcons.reshaped hs hd)⟩
    have hws := hw s h hds
    rw [← measured_of_plan (congrArg Plan.spans hplan)] at hws
    rcases hs with hs | hs
    · obtain ⟨n, span, he⟩ := hcons.settles hs
      exact hcons.settled he
    · obtain ⟨n, span, f, x, he⟩ := hcons.expands hs hd
      exact (hcons.expanded (hsteady.reshaped hreshaped) hws he hd (hw t (h.step (.inr hs)) hd).lengths).1

end SpanLayout.Relaxation
