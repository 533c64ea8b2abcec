import SpanLayout.Proofs.Relaxation.Phases
import SpanLayout.Proofs.Relaxation.Upkeep

/-!
# Limits

All that the limits of a relaxation decide is where its run stops. A run that its budget does not stop is the same with
every other budget that does not stop it.
-/

namespace SpanLayout

namespace Relaxation

/-- The relaxation with other limits. -/
def withConfig (c : Config) (s : Relaxation Empty) : Relaxation Empty := { s with config := c }

/-! ## Before the run -/

theorem watch_withConfig (c : Config) (s : Relaxation Empty) (seed : Seed) :
    (s.withConfig c).watch seed = (s.watch seed).withConfig c := by
  unfold watch withConfig countRecalcs
  dsimp only
  cases Span.ofSeed s.sections seed with
  | error e => rfl
  | ok span =>
    dsimp only
    cases span.recalc.exceeded with
    | false => rfl
    | true =>
      rw [if_pos rfl, if_pos rfl]
      cases s.sections.fragment? seed.ref with
      | none => rfl
      | some f =>
        dsimp only [setFragment]
        split
        · rfl
        · rfl
        · cases span.recalc.status <;> rfl

theorem foldl_watch_withConfig (c : Config) (seeds : List Seed) (s : Relaxation Empty) :
    seeds.foldl watch (s.withConfig c) = (seeds.foldl watch s).withConfig c := by
  induction seeds generalizing s with
  | nil => rfl
  | cons seed seeds ih => rw [List.foldl_cons, List.foldl_cons, watch_withConfig, ih]

theorem checkCycles_withConfig (c : Config) (s : Relaxation Empty) :
    (s.withConfig c).checkCycles = s.checkCycles.withConfig c := by
  unfold checkCycles
  show List.foldl _ _ (Cycle.closingEdges s.spans.length s.dependents _) = _
  dsimp only
  rw [show (s.withConfig c).spans = s.spans from rfl]
  generalize Cycle.closingEdges s.spans.length s.dependents _ = edges
  induction edges generalizing s with
  | nil => rfl
  | cons i edges ih =>
    rw [List.foldl_cons, List.foldl_cons, show (s.withConfig c).spans = s.spans from rfl]
    cases s.spans[i]? with
    | none => exact ih s
    | some span => exact ih (s.report (Cause.circularReference span.seed.source))

/-! ## The run -/

theorem shiftTerm_withConfig (c : Config) (d : Int) (s : Relaxation Empty) (hit : Nat × Nat) :
    shiftTerm d (s.withConfig c) hit = (shiftTerm d s hit).withConfig c := by
  unfold shiftTerm
  rw [show (s.withConfig c).spans = s.spans from rfl]
  cases s.spans[hit.1]? with
  | none => rfl
  | some span =>
    dsimp only
    cases span.status with
    | inactive => rfl
    | queued => rfl
    | active =>
      dsimp only
      split
      · unfold enqueue
        dsimp only
        split
        · rfl
        · rfl
      · rfl

theorem shift_withConfig (c : Config) (s : Relaxation Empty) (i : Nat) (d : Int) :
    (s.withConfig c).shift i d = (s.shift i d).withConfig c := by
  unfold shift
  rw [show (s.withConfig c).index = s.index from rfl]
  generalize s.index.query i i = hits
  induction hits generalizing s with
  | nil => rfl
  | cons hit hits ih => rw [List.foldl_cons, List.foldl_cons, shiftTerm_withConfig, ih]

theorem moveSetter_withConfig (c : Config) (k : Nat) (x : Setter) (d : Int) (f : Fragment (Tail Empty))
    (s : Relaxation Empty) : (s.withConfig c).moveSetter k x d f = (s.moveSetter k x d f).withConfig c := by
  unfold moveSetter
  dsimp only
  split
  · rfl
  · rw [← shift_withConfig]
    rfl

theorem ripple_withConfig (c : Config) (j k : Nat) (setters : List Setter) (d : Int) (s : Relaxation Empty) :
    ripple j k setters d (s.withConfig c) = (ripple j k setters d s).withConfig c := by
  induction setters generalizing k d s with
  | nil => rfl
  | cons x setters ih =>
    rw [ripple_cons, ripple_cons]
    split
    · rfl
    · rw [show (s.withConfig c).sections = s.sections from rfl]
      cases s.sections.fragment? x.ref with
      | none => rfl
      | some f =>
        dsimp only
        rw [moveSetter_withConfig, ih]

theorem expandSpan_withConfig (c : Config) (s : Relaxation Empty) (n : Nat) (span : Span) :
    (s.withConfig c).expandSpan n span = (s.expandSpan n span).withConfig c := by
  unfold expandSpan
  dsimp only
  rw [show (s.withConfig c).sections = s.sections from rfl]
  cases s.sections.fragment? span.seed.ref with
  | none => rfl
  | some f =>
    dsimp only
    split
    · rfl
    · split
      · rfl
      · rw [← ripple_withConfig, ← shift_withConfig]
        rfl

theorem pop_withConfig (c : Config) (s : Relaxation Empty) :
    (s.withConfig c).pop = s.pop.map fun p => (p.1, p.2.withConfig c) := by
  unfold pop
  rw [show (s.withConfig c).counts = s.counts from rfl, show (s.withConfig c).others = s.others from rfl]
  cases s.counts with
  | cons n counts => rfl
  | nil =>
    cases s.others with
    | cons n others => rfl
    | nil => rfl

theorem Steps.of_withConfig {c : Config} {s t : Relaxation Empty} (h : (s.withConfig c).Steps t)
    (hlasts : ∀ u, s.step ≠ .exhausted u) : ∃ u, s.Steps u ∧ t = u.withConfig c := by
  unfold Steps step at h
  unfold Steps
  unfold step at hlasts ⊢
  rw [pop_withConfig] at h
  cases hp : s.pop with
  | none =>
    rw [hp] at h
    rcases h with h | h <;> cases h
  | some p =>
    obtain ⟨n, s'⟩ := p
    rw [hp] at h hlasts
    dsimp only [Option.map_some] at h hlasts ⊢
    rw [show (s'.withConfig c).spans = s'.spans from rfl] at h
    cases hn : s'.spans[n]? with
    | none =>
      rw [hn] at h
      rcases h with h | h
      · exact ⟨s', .inl rfl, (Step.settled.inj h).symm⟩
      · cases h
    | some span =>
      rw [hn] at h hlasts
      dsimp only at h hlasts ⊢
      by_cases hs : span.status = .inactive
      · rw [if_pos hs] at h ⊢
        rcases h with h | h
        · exact ⟨s', .inl rfl, (Step.settled.inj h).symm⟩
        · cases h
      · rw [if_neg hs] at h hlasts ⊢
        generalize ({ span with status := .active } : Span).recalc = x at h hlasts ⊢
        by_cases hx : x.exceeded = false
        · rw [if_pos hx] at h ⊢
          rcases h with h | h
          · exact ⟨_, .inl rfl, (Step.settled.inj h).symm⟩
          · cases h
        · rw [if_neg hx] at h hlasts ⊢
          split at hlasts
          · exact absurd rfl (hlasts _)
          · rename_i hlow
            rw [if_neg hlow]
            split at h
            · rcases h with h | h <;> cases h
            · rcases h with h | h
              · cases h
              · have hsame := expandSpan_withConfig c ((s'.setSpan n x).countRecalcs 1) n x
                exact ⟨_, .inr rfl, (Step.expanded.inj h).symm.trans hsame⟩

/-- With other limits a run goes through the same states, as long as its budget does not stop it. -/
theorem Draining.of_withConfig {c : Config} {s t : Relaxation Empty} (h : (s.withConfig c).Draining t)
    (hlasts : ∀ u, s.Draining u → ∀ v, u.step ≠ .exhausted v) : ∃ u, s.Draining u ∧ t = u.withConfig c := by
  induction h with
  | start => exact ⟨s, .start, rfl⟩
  | step _ hs ih =>
    obtain ⟨u, hu, rfl⟩ := ih
    obtain ⟨v, hv, rfl⟩ := hs.of_withConfig (hlasts u hu)
    exact ⟨v, hu.step hv, rfl⟩

end Relaxation

namespace Sections

theorem prepared_withConfig (c config : Config) (diags : Diagnostics) (ss : Sections Empty) :
    ss.watched c diags = (ss.watched config diags).withConfig c ∧
      ss.prepared c diags = (ss.prepared config diags).withConfig c := by
  have hwatched : ss.watched c diags = (ss.watched config diags).withConfig c :=
    Relaxation.foldl_watch_withConfig c _ (ss.surveyed config diags)
  refine ⟨hwatched, ?_⟩
  unfold prepared rechecked
  rw [hwatched]
  exact Relaxation.checkCycles_withConfig c (ss.watched config diags).lay.recheck.indexed

theorem config_prepared (config : Config) (diags : Diagnostics) (ss : Sections Empty) :
    (ss.prepared config diags).config = config := by
  rw [(prepared_withConfig config config diags ss).2]
  rfl

end Sections

end SpanLayout
