import SpanLayout.Proofs.Relaxation.Reports
import SpanLayout.Proofs.Tail.Emit

/-!
# What success says about the sections

A relaxation that succeeds has changed its sections only by expansions that did not fail and by laying them out. What
both of these keep, it keeps, however large the sections are.
-/

namespace SpanLayout

/-- A property of sections that is kept by expanding a fragment and by laying sections out, unless an error occurs. -/
structure Sections.Stable (P : Sections Empty → Prop) : Prop where
  expand : ∀ {ss : Sections Empty} {r : FragmentRef} {f : Fragment (Tail Empty)} {id old new : Int} {x : Expansion},
    P ss → ss.fragment? r = some f → (f.expand id old new).result = .ok x →
      P (ss.setFragment r (f.expand id old new).state)
  lay : ∀ {ss : Sections Empty} {diags : Diagnostics}, P ss → (ss.lay diags).2.hasErrors = false → P (ss.lay diags).1

theorem Attempt.ok_of_toOption {ε α : Type} {r : Except ε α} {a : α} (h : r.toOption = some a) : r = .ok a := by
  cases r with
  | error e => cases h
  | ok b => exact congrArg Except.ok (Option.some.inj h)

theorem Fragment.expand_cause {id old new : Int} {f : Fragment (Tail Empty)} (e : Error)
    (h : (f.expand id old new).result = .error e) : ∃ c : Cause, e = .one c := by
  obtain ⟨c, hc, -⟩ := Fragment.expand_error id old new f h
  exact ⟨c, hc⟩

namespace Relaxation

variable {P : Sections Empty → Prop} {s t : Relaxation Empty}

/-- The sections have the property unless an error was reported. -/
def Keeps (P : Sections Empty → Prop) (s : Relaxation Empty) : Prop := s.diags.hasErrors = false → P s.sections

theorem Keeps.congr (h : s.Keeps P) (hsections : t.sections = s.sections) (hdiags : t.diags = s.diags) : t.Keeps P := by
  unfold Keeps
  rwa [hsections, hdiags]

theorem Keeps.requeued (h : s.Keeps P) (hr : Requeued s t) : t.Keeps P := h.congr hr.sections hr.diags

theorem keeps_of_hasErrors (h : s.diags.hasErrors = true) : s.Keeps P := by
  intro hd
  rw [h] at hd
  cases hd

/-! ## Expansions -/

theorem Keeps.expand (hP : Sections.Stable P) (h : s.Keeps P) {r : FragmentRef} {f : Fragment (Tail Empty)}
    (hf : s.sections.fragment? r = some f) (id old new : Int) :
    ((s.setFragment r (f.expand id old new).state).reportFailure (f.expand id old new).result).Keeps P := by
  intro hd
  obtain ⟨hclean, x, hx⟩ := Diagnostics.reportFailure_clean (OneCause.reported Fragment.expand_cause) hd
  exact hP.expand (h hclean) hf hx

theorem Keeps.moveSetter (hP : Sections.Stable P) (h : s.Keeps P) (k : Nat) {x : Setter} (d : Int)
    {f : Fragment (Tail Empty)} (hf : s.sections.fragment? x.ref = some f) : (s.moveSetter k x d f).Keeps P := by
  refine Keeps.requeued ?_ (moveSetter_requeued k x d f s)
  exact (h.expand hP hf 1 (signed x.tailOffset) (signed (x.tailOffset + d).toNat)).congr rfl rfl

theorem Keeps.ripple (hP : Sections.Stable P) (sec k : Nat) (setters : List Setter) (d : Int) (h : s.Keeps P) :
    (ripple sec k setters d s).Keeps P := by
  induction setters generalizing k d s with
  | nil => rwa [Relaxation.ripple]
  | cons x setters ih =>
    rw [ripple_cons]
    split
    · exact h
    · split
      · exact h
      · rename_i f hf
        exact ih _ _ (h.moveSetter hP k d hf)

theorem Keeps.follow (hP : Sections.Stable P) {seed : Seed} {f g : Fragment (Tail Empty)}
    (h : (s.setFragment seed.ref g).Keeps P) : (s.follow seed f g).Keeps P := by
  unfold Relaxation.follow
  dsimp only
  split
  · exact h
  · exact (h.requeued (shift_requeued _ _ _)).ripple hP _ _ _ _

theorem Keeps.expandSpan (hP : Sections.Stable P) (h : s.Keeps P) (n : Nat) (span : Span) :
    (((s.setSpan n span).countRecalcs 1).expandSpan n span).Keeps P := by
  cases hf : s.sections.fragment? span.seed.ref with
  | none =>
    have he : (((s.setSpan n span).countRecalcs 1).expandSpan n span).sections = s.sections ∧
        (((s.setSpan n span).countRecalcs 1).expandSpan n span).diags = s.diags := by
      unfold Relaxation.expandSpan
      dsimp only [countRecalcs, Relaxation.setSpan]
      rw [hf]
      exact ⟨rfl, rfl⟩
    exact h.congr he.1 he.2
  | some f =>
    obtain ⟨e, hy, he⟩ | ⟨x, hy, he⟩ := expandSpan_effect n hf
    · rw [he]
      obtain ⟨c, rfl⟩ := Fragment.expand_cause e hy
      exact keeps_of_hasErrors (Diagnostics.hasErrors_report_one _ c)
    · rw [he]
      refine Keeps.follow hP fun hd => ?_
      exact hP.expand (h hd) hf hy

/-! ## The run -/

theorem Keeps.steps (hP : Sections.Stable P) (h : s.Keeps P) (hs : s.Steps t) : t.Keeps P := by
  rcases s.step_effect with ⟨hi, -⟩ | ⟨n, s', -, -, hreq, hx | ⟨span, -, -, hx⟩⟩
  · rcases hs with hs | hs <;> rw [hi] at hs <;> cases hs
  · rcases hs with hs | hs <;> rw [hx] at hs <;> cases hs
    exact h.requeued hreq
  · have h' : s'.Keeps P := h.requeued hreq
    rcases hx with ⟨-, hx⟩ | ⟨-, -, hx⟩ | ⟨-, -, hx⟩ <;> rcases hs with hs | hs <;> rw [hx] at hs <;> cases hs
    · exact h'.congr rfl rfl
    · exact h'.expandSpan hP n span.woken

theorem Draining.keeps (hP : Sections.Stable P) (hd : Draining s t) (h : s.Keeps P) : t.Keeps P := by
  induction hd with
  | start => exact h
  | step _ hs ih => exact ih.steps hP hs

theorem Keeps.run (hP : Sections.Stable P) (h : s.Keeps P) (budget : Nat) : (s.run budget).Keeps P := by
  have hstart : Draining s s := .start
  rcases run_reaches budget hstart with hd | ⟨u, -, hu⟩
  · exact hd.keeps hP h
  · apply keeps_of_hasErrors
    rcases u.step_diags with hi | ⟨v, hv, -⟩ | ⟨v, n, span, hv, -⟩ | ⟨v, hv, he⟩
    · rw [hi] at hu
      cases hu
    · rw [hv] at hu
      cases hu
    · rw [hv] at hu
      cases hu
    · rw [hv] at hu
      cases hu
      exact he

/-! ## The end of a run -/

theorem expandSpan_of_none {κ : Type} [Directive κ] {s : Relaxation κ} {n : Nat} {span : Span}
    (hf : s.sections.fragment? span.seed.ref = none) :
    ((s.setSpan n span).countRecalcs 1).expandSpan n span = s.renewed n span := by
  unfold expandSpan
  dsimp only
  rw [show ((s.setSpan n span).countRecalcs 1).sections = s.sections from rfl, hf]
  rfl

theorem Steps.counted (hs : s.Steps t) :
    t.config = s.config ∧
      ((s.step = .settled t ∧ t.stats.expansions = s.stats.expansions ∧ t.queued + 1 = s.queued) ∨
        (s.step = .expanded t ∧ t.stats.expansions = s.stats.expansions + 1 ∧
          s.stats.expansions < s.config.maxExpansions)) := by
  unfold Steps at hs
  rcases s.step_effect with ⟨hi, -⟩ | ⟨n, s', hq, -, hreq, hx | ⟨span, -, -, ⟨-, hx⟩ | ⟨-, -, hx⟩ | ⟨-, hlt, hx⟩⟩⟩
  · rw [hi] at hs
    rcases hs with hs | hs <;> cases hs
  · have hlen := congrArg List.length hq
    rw [hx] at hs
    rcases hs with hs | hs <;> cases hs
    simp only [List.length_append, List.length_cons] at hlen
    exact ⟨hreq.config, .inl ⟨hx, hreq.expansions, hlen.symm⟩⟩
  · have hlen := congrArg List.length hq
    rw [hx] at hs
    rcases hs with hs | hs <;> cases hs
    simp only [List.length_append, List.length_cons] at hlen
    exact ⟨hreq.config, .inl ⟨hx, hreq.expansions, hlen.symm⟩⟩
  · rw [hx] at hs
    rcases hs with hs | hs <;> cases hs
  · rw [hx] at hs
    rcases hs with hs | hs <;> cases hs
    have hkept : (((s'.setSpan n span.woken).countRecalcs 1).expandSpan n span.woken).config = s'.config ∧
        (((s'.setSpan n span.woken).countRecalcs 1).expandSpan n span.woken).stats.expansions =
          s'.stats.expansions + 1 := by
      cases hf : s'.sections.fragment? span.woken.seed.ref with
      | none =>
        rw [expandSpan_of_none hf]
        exact ⟨rfl, rfl⟩
      | some f =>
        rcases expandSpan_effect n hf with ⟨e, -, he⟩ | ⟨x, -, he⟩
        · rw [he]
          exact ⟨rfl, rfl⟩
        · rw [he]
          have hk := kept_follow (s := s'.renewed n (span.woken.expanded x.window)) hf
            (f.frame_expand span.woken.id span.woken.current span.woken.latest)
          exact ⟨hk.config, hk.expansions⟩
    rw [hreq.config, hreq.expansions] at hkept
    exact ⟨hkept.1, .inr ⟨hx, hkept.2, hlt⟩⟩

theorem drain_drains {next : Relaxation Empty → Relaxation Empty} (budget : Nat) {n : Nat}
    (hnext : ∀ u, Draining s u → 0 < budget → u.config.maxExpansions ≤ u.stats.expansions + (budget - 1) →
      (next u).diags.hasErrors = false → Draining s (next u) ∧ (next u).queued = 0) (ht : Draining s t) (hn :
      t.queued ≤ n)
    (hb : t.config.maxExpansions ≤ t.stats.expansions + budget) (hd : (drain next n t).diags.hasErrors = false) :
    Draining s (drain next n t) ∧ (drain next n t).queued = 0 := by
  induction n generalizing t with
  | zero => exact ⟨ht, by simpa [drain] using hn⟩
  | succ n ih =>
    rw [drain] at hd ⊢
    cases he : t.step with
    | idle =>
      refine ⟨ht, ?_⟩
      rcases t.step_effect with ⟨-, hq⟩ | ⟨_, _, -, -, -, hx | ⟨_, -, -, ⟨-, hx⟩ | ⟨-, -, hx⟩ | ⟨-, -, hx⟩⟩⟩
      · have := congrArg List.length hq
        simpa [queued] using this
      all_goals
        rw [he] at hx
        cases hx
    | settled u =>
      rw [he] at hd
      have hstep : t.Steps u := .inl he
      obtain ⟨hconfig, ⟨-, hexp, hq⟩ | ⟨hx, -⟩⟩ := hstep.counted
      · exact ih (ht.step hstep) (by omega) (by rw [hconfig, hexp]; exact hb) hd
      · rw [he] at hx
        cases hx
    | expanded u =>
      rw [he] at hd
      have hstep : t.Steps u := .inr he
      obtain ⟨hconfig, ⟨hx, -⟩ | ⟨-, hexp, hlt⟩⟩ := hstep.counted
      · rw [he] at hx
        cases hx
      · exact hnext u (ht.step hstep) (by omega) (by rw [hconfig, hexp]; omega) hd
    | exhausted u =>
      rw [he] at hd
      rcases t.step_diags with hx | ⟨_, hx, -⟩ | ⟨_, _, _, hx, -⟩ | ⟨v, hx, hv⟩
      · rw [he] at hx
        cases hx
      · rw [he] at hx
        cases hx
      · rw [he] at hx
        cases hx
      · rw [he] at hx
        cases hx
        dsimp only at hd
        rw [hv] at hd
        cases hd

theorem run_drains (budget : Nat) (ht : Draining s t) (hb : t.config.maxExpansions ≤ t.stats.expansions + budget)
    (hd : (run budget t).diags.hasErrors = false) : Draining s (run budget t) ∧ (run budget t).queued = 0 := by
  induction budget generalizing t with
  | zero => exact drain_drains 0 (fun _ _ h => absurd h (by decide)) ht (Nat.le_refl _) hb hd
  | succ budget ih =>
    exact drain_drains (budget + 1) (fun u hu _ hbu hdu => ih hu hbu hdu) ht (Nat.le_refl _) hb hd

/-! ## The phases -/

theorem Keeps.lay (hP : Sections.Stable P) (h : s.Keeps P) : s.lay.Keeps P := by
  intro hd
  refine hP.lay (h ?_) hd
  by_contra hs
  rw [Bool.not_eq_false] at hs
  have he : s.lay.diags.hasErrors = true := s.sections.hasErrors_lay hs
  rw [hd] at he
  cases he

theorem Keeps.watch (hP : Sections.Stable P) (h : s.Keeps P) (seed : Seed) : (s.watch seed).Keeps P := by
  unfold Relaxation.watch
  split
  · rename_i e he
    obtain ⟨c, rfl, -⟩ := Span.ofSeed_error he
    exact keeps_of_hasErrors (Diagnostics.hasErrors_report_one _ c)
  · rename_i span _
    dsimp only
    split
    · split
      · exact h.congr rfl rfl
      · rename_i f hf
        have hx := h.expand hP hf span.recalc.id span.recalc.current span.recalc.latest
        split
        · rename_i e he
          obtain ⟨c, rfl⟩ := Fragment.expand_cause e he
          exact keeps_of_hasErrors (Diagnostics.hasErrors_report_one _ c)
        · rename_i he
          rw [he] at hx
          exact hx.congr rfl rfl
        · rename_i he
          rw [he] at hx
          split
          · exact keeps_of_hasErrors (Diagnostics.hasErrors_report_one _ _)
          · exact hx.congr rfl rfl
    · exact h.congr rfl rfl

theorem Keeps.foldl_watch (hP : Sections.Stable P) (h : s.Keeps P) (seeds : List Seed) :
    (seeds.foldl Relaxation.watch s).Keeps P := by
  induction seeds generalizing s with
  | nil => exact h
  | cons seed seeds ih => exact ih (h.watch hP seed)

theorem Keeps.prepare (h : s.Keeps P) : s.prepare.Keeps P := by
  obtain ⟨diags, he, hmono⟩ := s.prepare_eq
  intro hd
  rw [he] at hd ⊢
  refine h ?_
  by_contra hs
  rw [Bool.not_eq_false] at hs
  rw [hmono hs] at hd
  cases hd

end Relaxation

/-- What expanding and laying out keep is true of the sections that a successful relaxation leaves, if it is true of the
smallest forms. -/
theorem Sections.Stable.relax {P : Sections Empty → Prop} (hP : Sections.Stable P) {config : Config}
    {diags : Diagnostics} {ss : Sections Empty} {t : Relaxation Empty} {stats : Stats}
    (h : ss.relax config diags = .done t stats)
    (hstart : (ss.surveyed config diags).diags.hasErrors = false → P (ss.surveyed config diags).sections) :
    P t.sections := by
  have hwatched : (ss.watched config diags).Keeps P := Relaxation.Keeps.foldl_watch hP hstart _
  have hrechecked : (ss.rechecked config diags).Keeps P := (hwatched.lay hP).congr rfl rfl
  obtain ⟨-, -, hlaid, ⟨-, rfl⟩ | ⟨-, -, hend, rfl⟩⟩ := Sections.relax_done h
  · exact hrechecked hlaid
  · exact ((hrechecked.prepare.run hP config.maxExpansions).lay hP) hend

theorem Sections.relax_laid {κ : Type} [Directive κ] {config : Config} {diags : Diagnostics} {ss : Sections κ}
    {t : Relaxation κ} {stats : Stats} (h : ss.relax config diags = .done t stats) :
    ∃ (tt : Sections κ) (d : Diagnostics), t.sections = (tt.lay d).1 ∧ (tt.lay d).2.hasErrors = false := by
  unfold relax at h
  obtain ⟨-, h⟩ := Relaxation.unlessFailed_ok h
  obtain ⟨-, h⟩ := Relaxation.unlessFailed_ok h
  obtain ⟨hlaid, h⟩ := Relaxation.unlessFailed_ok h
  dsimp only at h
  split at h
  · cases h
    exact ⟨_, _, rfl, hlaid⟩
  · obtain ⟨-, h⟩ := Relaxation.unlessFailed_ok h
    obtain ⟨-, h⟩ := Relaxation.unlessFailed_ok h
    obtain ⟨hend, h⟩ := Relaxation.unlessFailed_ok h
    cases h
    exact ⟨_, _, rfl, hend⟩

end SpanLayout
