import Mathlib.Data.Prod.Lex
import Mathlib.Logic.Relation
import SpanLayout.Proofs.Relaxation.Phases

/-!
# The budget of a run

A directive may answer every expansion with another length and another window, so nothing in the queues need ever
decrease. Only an expansion queues spans, though, and expansions are counted: a round either uses up some of the budget,
or it leaves one span less in the queues. So every run ends, within its budget, and it reports that the budget is used
up exactly if it comes to a span that needs one expansion more. -/

namespace SpanLayout.Relaxation

open Relation

variable {κ : Type} [Directive κ] {s t u v : Relaxation κ}

/-! ## Rounds -/

/-- A round of a run: the next span is taken from the queues and, if it needs to be, expanded. -/
inductive Round (s : Relaxation κ) : Relaxation κ → Prop
  | missing {i : Nat} {t : Relaxation κ} (hp : s.pop = some (i, t)) (hi : t.spans[i]? = none) : Round s t
  | inactive {i : Nat} {t : Relaxation κ} {span : Span} (hp : s.pop = some (i, t)) (hi : t.spans[i]? = some span)
    (hs : span.status = .inactive) : Round s t
  | settled {i : Nat} {t : Relaxation κ} {span : Span} (hp : s.pop = some (i, t)) (hi : t.spans[i]? = some span)
    (hs : span.status ≠ .inactive) (hx : span.woken.exceeded = false) :
    Round s ((t.setSpan i span.woken).countRecalcs 1)
  | expanded {i : Nat} {t : Relaxation κ} {span : Span} (hp : s.pop = some (i, t)) (hi : t.spans[i]? = some span)
    (hs : span.status ≠ .inactive) (hx : span.woken.exceeded = true)
    (hb : s.stats.expansions < s.config.maxExpansions) :
    Round s (((t.setSpan i span.woken).countRecalcs 1).expandSpan i span.woken)

/-- The next span needs an expansion, and the budget is used up. -/
def Overruns (s : Relaxation κ) : Prop :=
  ∃ i t span, s.pop = some (i, t) ∧ t.spans[i]? = some span ∧ span.status ≠ .inactive ∧ span.woken.exceeded = true ∧
    s.config.maxExpansions ≤ s.stats.expansions

/-- How a run ends that has come to `u`: there is nothing left to do, or all that is done is to report the limit. -/
inductive Finish (u : Relaxation κ) : Relaxation κ → Prop
  | idle (hc : u.counts = []) (ho : u.others = []) : Finish u u
  | exhausted {t : Relaxation κ} (hu : u.Overruns) (hsections : t.sections = u.sections)
    (hexpansions : t.stats.expansions = u.stats.expansions)
    (hdiags : t.diags = u.diags.report (Cause.relaxationLimit u.config.maxExpansions)) : Finish u t

/-! ## What is kept -/

/-- The error is how the expansion of a fragment fails. -/
def Raised (κ : Type) [Directive κ] (e : Error) : Prop :=
  ∃ (f : Fragment (Tail κ)) (id old new : Int), (f.expand id old new).result = .error e

/-- The budget is what it was, and nothing was reported but failures of fragments. -/
structure Spares (s t : Relaxation κ) : Prop where
  config : t.config = s.config
  expansions : t.stats.expansions = s.stats.expansions
  diags : ∃ failures : List Error, (∀ e ∈ failures, Raised κ e) ∧ t.diags = failures.foldl .report s.diags

namespace Spares

theorem of_eq (config : t.config = s.config) (expansions : t.stats.expansions = s.stats.expansions)
    (diags : t.diags = s.diags) : Spares s t :=
  ⟨config, expansions, [], by simp, diags⟩

theorem trans (h : Spares s t) (h' : Spares t u) : Spares s u := by
  obtain ⟨failures, hraised, hdiags⟩ := h.diags
  obtain ⟨failures', hraised', hdiags'⟩ := h'.diags
  refine ⟨h'.config.trans h.config, h'.expansions.trans h.expansions, failures ++ failures', ?_, ?_⟩
  · intro e he
    rcases List.mem_append.mp he with he | he
    · exact hraised e he
    · exact hraised' e he
  · rw [List.foldl_append, ← hdiags, hdiags']

end Spares

theorem spares_shiftTerm (d : Int) (s : Relaxation κ) (hit : Nat × Nat) : Spares s (shiftTerm d s hit) := by
  unfold shiftTerm
  split
  · exact .of_eq rfl rfl rfl
  · split
    · exact .of_eq rfl rfl rfl
    · exact .of_eq rfl rfl rfl
    · dsimp only
      split
      · unfold enqueue
        dsimp only
        split
        · exact .of_eq rfl rfl rfl
        · exact .of_eq rfl rfl rfl
      · exact .of_eq rfl rfl rfl

theorem spares_shift (s : Relaxation κ) (i : Nat) (d : Int) : Spares s (s.shift i d) := by
  unfold shift
  generalize s.index.query i i = hits
  induction hits generalizing s with
  | nil => exact .of_eq rfl rfl rfl
  | cons hit hits ih => exact (spares_shiftTerm d s hit).trans (ih _)

theorem spares_reportFailure (f : Fragment (Tail κ)) (id old new : Int) (s : Relaxation κ) :
    Spares s (s.reportFailure (f.expand id old new).result) := by
  unfold reportFailure Diagnostics.reportFailure
  cases h : (f.expand id old new).result with
  | ok x => exact .of_eq rfl rfl rfl
  | error e => exact ⟨rfl, rfl, [e], by simpa using ⟨f, id, old, new, h⟩, rfl⟩

theorem spares_ripple (sec k : Nat) (setters : List Setter) (d : Int) (s : Relaxation κ) :
    Spares s (ripple sec k setters d s) := by
  induction setters generalizing k d s with
  | nil => exact .of_eq rfl rfl rfl
  | cons x setters ih =>
    unfold ripple
    split
    · exact .of_eq rfl rfl rfl
    · split
      · exact .of_eq rfl rfl rfl
      · rename_i f _
        dsimp only
        have hfailed := spares_reportFailure f 1 (signed x.tailOffset) (signed (x.tailOffset + d).toNat)
          (s.setFragment x.ref (f.expand 1 (signed x.tailOffset) (signed (x.tailOffset + d).toNat)).state)
        refine Spares.trans ?_ (ih _ _ _)
        split
        · exact ⟨hfailed.config, hfailed.expansions, hfailed.diags⟩
        · refine Spares.trans ?_ (spares_shift _ _ _)
          exact ⟨hfailed.config, hfailed.expansions, hfailed.diags⟩

theorem spares_expandSpan (s : Relaxation κ) (i : Nat) (span : Span) :
    Spares { s with stats := { s.stats with expansions := s.stats.expansions + 1 } } (s.expandSpan i span) := by
  unfold expandSpan
  dsimp only
  split
  · exact .of_eq rfl rfl rfl
  · rename_i f _
    split
    · rename_i e he
      exact ⟨rfl, rfl, [e], by simpa using ⟨f, span.id, span.current, span.latest, he⟩, rfl⟩
    · split
      · exact .of_eq rfl rfl rfl
      · refine Spares.trans ?_ (spares_ripple _ _ _ _ _)
        refine Spares.trans ?_ (spares_shift _ _ _)
        exact .of_eq rfl rfl rfl

omit [Directive κ] in
theorem pop_effect {i : Nat} (h : s.pop = some (i, t)) :
    t.config = s.config ∧ t.sections = s.sections ∧ t.diags = s.diags ∧ t.stats.expansions = s.stats.expansions ∧
      s.queued = t.queued + 1 := by
  unfold pop at h
  split at h
  · rename_i hc
    cases h
    refine ⟨rfl, rfl, rfl, rfl, ?_⟩
    simp only [queued, hc, List.length_cons]
    omega
  · rename_i hc ho
    cases h
    refine ⟨rfl, rfl, rfl, rfl, ?_⟩
    simp only [queued, ho, List.length_cons]
    omega
  · cases h

omit [Directive κ] in
theorem pop_eq_none (h : s.pop = none) : s.counts = [] ∧ s.others = [] := by
  unfold pop at h
  split at h
  · cases h
  · cases h
  · exact ⟨by assumption, by assumption⟩

/-! ## Steps -/

theorem step_outcome (s : Relaxation κ) :
    (s.step = .idle ∧ s.pop = none) ∨
      (∃ t, s.step = .settled t ∧ Round s t ∧ Spares s t ∧ t.queued < s.queued) ∨
      (∃ t, s.step = .expanded t ∧ Round s t ∧ s.stats.expansions < s.config.maxExpansions ∧
        Spares { s with stats := { s.stats with expansions := s.stats.expansions + 1 } } t) ∨
      ∃ t, s.step = .exhausted t ∧ s.Overruns ∧ Finish s t := by
  unfold step
  cases hp : s.pop with
  | none => exact .inl ⟨rfl, rfl⟩
  | some p =>
    obtain ⟨i, t⟩ := p
    obtain ⟨hconfig, hsections, hdiags, hexpansions, hqueued⟩ := pop_effect hp
    dsimp only
    cases hi : t.spans[i]? with
    | none => exact .inr (.inl ⟨t, rfl, .missing hp hi, .of_eq hconfig hexpansions hdiags, by omega⟩)
    | some span =>
      dsimp only
      split
      · rename_i hs
        exact .inr (.inl ⟨t, rfl, .inactive hp hi hs, .of_eq hconfig hexpansions hdiags, by omega⟩)
      · rename_i hs
        split
        · rename_i hx
          refine .inr (.inl ⟨_, rfl, .settled hp hi hs hx, .of_eq hconfig hexpansions hdiags, ?_⟩)
          show t.queued < s.queued
          omega
        · rename_i hx
          have hx : span.woken.exceeded = true := Bool.not_eq_false _ ▸ hx
          split
          · rename_i hb
            have hover : s.Overruns := ⟨i, t, span, hp, hi, hs, hx, hconfig ▸ hexpansions ▸ hb⟩
            refine .inr (.inr (.inr ⟨_, rfl, hover, .exhausted hover hsections hexpansions ?_⟩))
            rw [← hconfig, ← hdiags]
            rfl
          · rename_i hb
            have hb : s.stats.expansions < s.config.maxExpansions := by
              rw [← hconfig, ← hexpansions]
              exact Nat.lt_of_not_le hb
            refine .inr (.inr (.inl ⟨_, rfl, .expanded hp hi hs hx hb, hb, ?_⟩))
            refine Spares.trans ?_ (spares_expandSpan _ _ _)
            refine .of_eq hconfig ?_ hdiags
            show t.stats.expansions + 1 = s.stats.expansions + 1
            rw [hexpansions]

theorem Round.step_eq (h : Round s t) : s.step = .settled t ∨ s.step = .expanded t := by
  unfold step
  cases h with
  | missing hp hi =>
    left
    rw [hp]
    dsimp only
    rw [hi]
  | inactive hp hi hs =>
    left
    rw [hp]
    dsimp only
    rw [hi]
    exact if_pos hs
  | settled hp hi hs hx =>
    left
    rw [hp]
    dsimp only
    rw [hi]
    exact (if_neg hs).trans (if_pos hx)
  | @expanded i t span hp hi hs hx hb =>
    right
    obtain ⟨hconfig, -, -, hexpansions, -⟩ := pop_effect hp
    rw [← hconfig, ← hexpansions] at hb
    rw [hp]
    dsimp only
    rw [hi]
    have hx : ¬ span.woken.exceeded = false := by simp [hx]
    exact (if_neg hs).trans ((if_neg hx).trans (if_neg (Nat.not_le_of_lt hb)))

theorem Round.unique (h : Round s t) (h' : Round s u) : t = u := by
  rcases h.step_eq with h | h <;> rcases h'.step_eq with h' | h' <;> cases h.symm.trans h' <;> rfl

theorem Round.effect (h : Round s t) :
    (Spares s t ∧ t.queued < s.queued) ∨
      (s.stats.expansions < s.config.maxExpansions ∧
        Spares { s with stats := { s.stats with expansions := s.stats.expansions + 1 } } t) := by
  rcases s.step_outcome with ⟨hs, -⟩ | ⟨u, hs, hu, hspares, hqueued⟩ | ⟨u, hs, hu, hb, hspares⟩ | ⟨u, hs, -⟩
  · rcases h.step_eq with h | h <;> cases hs.symm.trans h
  · exact .inl (h.unique hu ▸ ⟨hspares, hqueued⟩)
  · exact .inr (h.unique hu ▸ ⟨hb, hspares⟩)
  · rcases h.step_eq with h | h <;> cases hs.symm.trans h

theorem Overruns.not_round (h : u.Overruns) : ¬ Round u v := by
  obtain ⟨i, t, span, hp, hi, hs, hx, hb⟩ := h
  intro hround
  cases hround with
  | missing hp' hi' =>
    cases hp.symm.trans hp'
    cases hi.symm.trans hi'
  | inactive hp' hi' hs' =>
    cases hp.symm.trans hp'
    cases hi.symm.trans hi'
    exact hs hs'
  | settled hp' hi' _ hx' =>
    cases hp.symm.trans hp'
    cases hi.symm.trans hi'
    cases hx.symm.trans hx'
  | expanded _ _ _ _ hb' => exact Nat.not_le_of_lt hb' hb

theorem Finish.not_round (h : Finish u t) : ¬ Round u v := by
  cases h with
  | exhausted hu => exact hu.not_round
  | idle hc ho =>
    intro hround
    have hp : t.pop = none := by simp only [pop, hc, ho]
    cases hround with
    | missing hp' => cases hp.symm.trans hp'
    | inactive hp' => cases hp.symm.trans hp'
    | settled hp' => cases hp.symm.trans hp'
    | expanded hp' => cases hp.symm.trans hp'

/-! ## Runs -/

/-- The budget left and the queues, the budget first, decrease with every round. -/
theorem wellFounded_round : WellFounded fun t s : Relaxation κ => Round s t := by
  apply Subrelation.wf (r := InvImage (Prod.Lex (· < ·) (· < ·)) fun s : Relaxation κ =>
    (s.config.maxExpansions - s.stats.expansions, s.queued))
  · intro t s h
    apply Prod.lex_iff.mpr
    dsimp only
    rcases h.effect with ⟨hspares, hqueued⟩ | ⟨hb, hspares⟩
    · rw [hspares.config, hspares.expansions]
      exact .inr ⟨rfl, hqueued⟩
    · rw [hspares.config, hspares.expansions]
      left
      dsimp only
      omega
  · exact InvImage.wf _ (WellFounded.prod_lex Nat.lt_wfRel.wf Nat.lt_wfRel.wf)

theorem rounds_effect (h : ReflTransGen Round s u) :
    u.config = s.config ∧ s.stats.expansions ≤ u.stats.expansions ∧
      u.stats.expansions ≤ max s.stats.expansions s.config.maxExpansions ∧
      ∃ failures : List Error, (∀ e ∈ failures, Raised κ e) ∧ u.diags = failures.foldl .report s.diags := by
  induction h with
  | refl => exact ⟨rfl, le_rfl, le_max_left _ _, [], by simp, rfl⟩
  | @tail u v _ hround ih =>
    obtain ⟨hconfig, hlower, hupper, failures, hraised, hdiags⟩ := ih
    have hreports {w : Relaxation κ} (hspares : Spares w v) (hw : w.diags = u.diags) :
        ∃ failures : List Error, (∀ e ∈ failures, Raised κ e) ∧ v.diags = failures.foldl .report s.diags := by
      obtain ⟨failures', hraised', hdiags'⟩ := hspares.diags
      refine ⟨failures ++ failures', fun e he => ?_, ?_⟩
      · exact (List.mem_append.mp he).elim (hraised e) (hraised' e)
      · rw [List.foldl_append, ← hdiags, ← hw, hdiags']
    rcases hround.effect with ⟨hspares, -⟩ | ⟨hb, hspares⟩
    · rw [hspares.config, hspares.expansions]
      exact ⟨hconfig, hlower, hupper, hreports hspares rfl⟩
    · have hexpansions : v.stats.expansions = u.stats.expansions + 1 := hspares.expansions
      rw [hconfig] at hb
      refine ⟨hspares.config.trans hconfig, by omega, ?_, hreports hspares rfl⟩
      rw [hexpansions]
      exact le_max_of_le_right hb

theorem drain_effect (next : Relaxation κ → Relaxation κ) {n : Nat} (hn : s.queued ≤ n) :
    ∃ u, ReflTransGen Round s u ∧
      (Finish u (drain next n s) ∨
        u.stats.expansions < u.config.maxExpansions ∧
          ∃ v, Round u v ∧ v.stats.expansions = u.stats.expansions + 1 ∧ drain next n s = next v) := by
  induction n generalizing s with
  | zero =>
    unfold queued at hn
    exact ⟨s, .refl, .inl (.idle (List.eq_nil_of_length_eq_zero (by omega)) (List.eq_nil_of_length_eq_zero (by omega)))⟩
  | succ n ih =>
    unfold drain
    rcases s.step_outcome with ⟨hs, hp⟩ | ⟨t, hs, hround, -, hq⟩ | ⟨t, hs, hround, hb, hspares⟩ | ⟨t, hs, -, hfinish⟩
    · rw [hs]
      exact ⟨s, .refl, .inl (.idle (pop_eq_none hp).1 (pop_eq_none hp).2)⟩
    · rw [hs]
      obtain ⟨u, hu, h⟩ := ih (s := t) (by omega)
      exact ⟨u, .head hround hu, h⟩
    · rw [hs]
      exact ⟨s, .refl, .inr ⟨hb, t, hround, hspares.expansions, rfl⟩⟩
    · rw [hs]
      exact ⟨s, .refl, .inl hfinish⟩

/-- A run whose budget covers what the limit leaves makes rounds until it is over. -/
theorem run_effect {budget : Nat} (h : s.config.maxExpansions ≤ s.stats.expansions + budget) :
    ∃ u, ReflTransGen Round s u ∧ Finish u (run budget s) := by
  induction budget generalizing s with
  | zero =>
    obtain ⟨u, hu, hfinish | ⟨hb, -⟩⟩ := drain_effect id (s := s) le_rfl
    · exact ⟨u, hu, hfinish⟩
    · obtain ⟨hconfig, hlower, -⟩ := rounds_effect hu
      rw [hconfig] at hb
      omega
  | succ budget ih =>
    obtain ⟨u, hu, hfinish | ⟨hb, v, hround, hexpansions, hv⟩⟩ := drain_effect (run budget) (s := s) le_rfl
    · exact ⟨u, hu, hfinish⟩
    · have hsv := hu.tail hround
      obtain ⟨-, hlower, -⟩ := rounds_effect hu
      obtain ⟨hconfig, -⟩ := rounds_effect hsv
      obtain ⟨w, hw, hfinish⟩ := ih (s := v) (by rw [hconfig]; omega)
      unfold run
      rw [hv]
      exact ⟨w, hsv.trans hw, hfinish⟩

theorem end_unique (hu : ReflTransGen Round s u) (hv : ReflTransGen Round s v) (hend : ∀ w, ¬ Round u w)
    (hend' : ∀ w, ¬ Round v w) : u = v := by
  have hunique : Relator.RightUnique (Round (κ := κ)) := fun _ _ _ => Round.unique
  rcases ReflTransGen.total_of_right_unique hunique hu hv with huv | hvu
  · rcases huv.cases_head with rfl | ⟨w, hw, -⟩
    · rfl
    · exact absurd hw (hend w)
  · rcases hvu.cases_head with rfl | ⟨w, hw, -⟩
    · rfl
    · exact absurd hw (hend' w)

theorem overruns_iff (hu : ReflTransGen Round s u) (hfinish : Finish u t) :
    u.Overruns ↔ ∃ v, ReflTransGen Round s v ∧ v.Overruns := by
  constructor
  · exact fun h => ⟨u, hu, h⟩
  · rintro ⟨v, hv, hover⟩
    rw [end_unique hu hv (fun _ => hfinish.not_round) fun _ => hover.not_round]
    exact hover

theorem report_one_ne (d : Diagnostics) (c : Cause) : d.report (.one c) ≠ d := by
  intro h
  have hcount := congrArg (fun d => d.errors.length + d.dropped) h
  simp only [Diagnostics.report, Error.parts, List.foldl_cons, List.foldl_nil, Diagnostics.keep] at hcount
  split at hcount
  · simp at hcount
  · simp at hcount

omit [Directive κ] in
theorem Finish.reports_iff (h : Finish u t) :
    t.diags = u.diags.report (Cause.relaxationLimit u.config.maxExpansions) ↔ u.Overruns := by
  cases h with
  | exhausted hu _ _ hdiags => exact ⟨fun _ => hu, fun _ => hdiags⟩
  | idle hc ho =>
    constructor
    · intro h
      exact absurd h.symm (report_one_ne _ _)
    · rintro ⟨i, t, span, hp, -⟩
      simp only [pop, hc, ho] at hp
      cases hp

omit [Directive κ] in
theorem Finish.of_clean (h : Finish u t) (hclean : t.diags.hasErrors = false) :
    t = u ∧ u.counts = [] ∧ u.others = [] := by
  cases h with
  | idle hc ho => exact ⟨rfl, hc, ho⟩
  | exhausted _ _ _ hdiags =>
    rw [hdiags] at hclean
    cases hclean.symm.trans (Diagnostics.hasErrors_report_one _ _)

/-! ## Before and after the run -/

/-- Nothing of the budget has been used. -/
structure Fresh (config : Config) (s : Relaxation κ) : Prop where
  config : s.config = config
  expansions : s.stats.expansions = 0

namespace Fresh

variable {config : Config}

theorem watch (h : s.Fresh config) (seed : Seed) : (s.watch seed).Fresh config := by
  obtain ⟨hconfig, hexpansions⟩ := h
  unfold Relaxation.watch
  split
  · exact ⟨hconfig, hexpansions⟩
  · dsimp only
    split
    · split
      · exact ⟨hconfig, hexpansions⟩
      · split
        · exact ⟨hconfig, hexpansions⟩
        · exact ⟨hconfig, hexpansions⟩
        · split
          · exact ⟨hconfig, hexpansions⟩
          · exact ⟨hconfig, hexpansions⟩
    · exact ⟨hconfig, hexpansions⟩

theorem watchAll (h : s.Fresh config) (seeds : List Seed) : (seeds.foldl Relaxation.watch s).Fresh config := by
  induction seeds generalizing s with
  | nil => exact h
  | cons seed seeds ih => exact ih (h.watch seed)

omit [Directive κ] in
theorem checkCycles (h : s.Fresh config) : s.checkCycles.Fresh config := by
  unfold Relaxation.checkCycles
  dsimp only
  generalize Cycle.closingEdges s.spans.length s.dependents _ = edges
  induction edges generalizing s with
  | nil => exact h
  | cons i edges ih =>
    rw [List.foldl_cons]
    split
    · exact ih ⟨h.config, h.expansions⟩
    · exact ih h

omit [Directive κ] in
theorem prepare (h : s.Fresh config) : s.prepare.Fresh config := by
  unfold Relaxation.prepare
  apply Fresh.checkCycles
  exact ⟨h.config, h.expansions⟩

end Fresh

omit [Directive κ] in
theorem expansions_unlessFailed_le {n : Nat} {next : Relaxation κ → Attempt Error (Relaxation κ) Stats}
    (h : s.stats.expansions ≤ n) (hnext : (next s).state.stats.expansions ≤ n) :
    (s.unlessFailed next).state.stats.expansions ≤ n := by
  unfold unlessFailed
  split
  · exact h
  · exact hnext

omit [Directive κ] in
theorem Finish.expansions (h : Finish u t) : t.stats.expansions = u.stats.expansions := by
  cases h with
  | idle => rfl
  | exhausted _ _ hexpansions => exact hexpansions

theorem Fresh.expansions_run_le {config : Config} (h : s.Fresh config) :
    (s.run config.maxExpansions).stats.expansions ≤ config.maxExpansions := by
  have hcovered : s.config.maxExpansions ≤ s.stats.expansions + config.maxExpansions := by
    rw [h.config]
    exact Nat.le_add_left _ _
  obtain ⟨u, hu, hfinish⟩ := run_effect hcovered
  rw [hfinish.expansions]
  have hupper := (rounds_effect hu).2.2.1
  rwa [h.expansions, h.config, Nat.zero_max] at hupper

theorem expansions_relax_le (config : Config) (diags : Diagnostics) (ss : Sections κ) :
    (ss.relax config diags).state.stats.expansions ≤ config.maxExpansions := by
  have hfresh {s : Relaxation κ} (h : s.Fresh config) : s.stats.expansions ≤ config.maxExpansions := by
    rw [h.expansions]
    exact Nat.zero_le _
  unfold Sections.relax
  extract_lets survey _ start
  have hstart : start.Fresh config := ⟨rfl, rfl⟩
  have hwatched := hstart.watchAll survey.seeds
  have hlaid : (survey.seeds.foldl watch start).lay.Fresh config := ⟨hwatched.config, hwatched.expansions⟩
  have hrechecked : (survey.seeds.foldl watch start).lay.recheck.Fresh config := ⟨hlaid.config, hlaid.expansions⟩
  have hrun := hrechecked.prepare.expansions_run_le
  apply expansions_unlessFailed_le (hfresh hstart)
  apply expansions_unlessFailed_le (hfresh hwatched)
  apply expansions_unlessFailed_le (hfresh hlaid)
  dsimp only
  split
  · exact hfresh hrechecked
  · apply expansions_unlessFailed_le (hfresh hrechecked.prepare)
    apply expansions_unlessFailed_le hrun
    exact expansions_unlessFailed_le hrun hrun

/-- Whatever the directives of an object do, rounds cannot go on forever. A run makes rounds until nothing is queued, or
until a span needs an expansion that the budget does not cover; this is when it reports the limit, and nothing is
expanded any more. -/
theorem run_within_budget :
    (WellFounded fun t s : Relaxation κ => Round s t) ∧
    (∀ s : Relaxation κ, ∃ (u : Relaxation κ) (failures : List Error),
      ReflTransGen Round s u ∧ Finish u (s.run s.config.maxExpansions) ∧
      u.stats.expansions ≤ max s.stats.expansions s.config.maxExpansions ∧
      (∀ e ∈ failures, Raised κ e) ∧ u.diags = failures.foldl .report s.diags ∧
      ((s.run s.config.maxExpansions).diags = u.diags.report (Cause.relaxationLimit s.config.maxExpansions) ↔
        ∃ v, ReflTransGen Round s v ∧ v.Overruns)) ∧
    ∀ (o : Object κ) (diags : Diagnostics),
      (o.sections.relax o.config diags).state.stats.expansions ≤ o.config.maxExpansions := by
  refine ⟨wellFounded_round, fun s => ?_, fun o diags => expansions_relax_le _ _ _⟩
  obtain ⟨u, hu, hfinish⟩ := run_effect (s := s) (Nat.le_add_left _ _)
  obtain ⟨hconfig, -, hupper, failures, hraised, hdiags⟩ := rounds_effect hu
  refine ⟨u, failures, hu, hfinish, hupper, hraised, hdiags, ?_⟩
  have hreports := hfinish.reports_iff
  rwa [overruns_iff hu hfinish, hconfig] at hreports

end SpanLayout.Relaxation
