import SpanLayout.Proofs.Relaxation.Upkeep

/-!
# What a relaxation reports

Every error that a relaxation reports lies somewhere in the source, except for the one that ends a run whose budget is
used up. So a run that never asks for more than its budget allows reports no such error.
-/

namespace SpanLayout

/-! ## Gaining errors -/

/-- `d'` has the errors of `d` and others with the property `P`. -/
def Diagnostics.Adds (P : Cause → Prop) (d d' : Diagnostics) : Prop :=
  ∃ new, d'.errors = d.errors ++ new ∧ ∀ e ∈ new, ∃ c : Cause, e = .one c ∧ P c

/-- `d'` has the errors of `d` and others that lie somewhere in the source. -/
def Diagnostics.Gains (d d' : Diagnostics) : Prop := Adds (fun c => c.pos?.isSome = true) d d'

namespace Diagnostics

variable {P : Cause → Prop}

namespace Adds

theorem refl (d : Diagnostics) : Adds P d d := ⟨[], (List.append_nil _).symm, nofun⟩

theorem trans {a b c : Diagnostics} (h : Adds P a b) (h' : Adds P b c) : Adds P a c := by
  obtain ⟨new, he, hnew⟩ := h
  obtain ⟨new', he', hnew'⟩ := h'
  refine ⟨new ++ new', by rw [he', he, List.append_assoc], fun e hmem => ?_⟩
  rcases List.mem_append.mp hmem with hmem | hmem
  · exact hnew e hmem
  · exact hnew' e hmem

theorem report {d d' : Diagnostics} (h : Adds P d d') {e : Error} (he : ∃ c : Cause, e = .one c ∧ P c) :
    Adds P d (d'.report e) := by
  obtain ⟨c, rfl, hc⟩ := he
  refine h.trans ?_
  unfold Diagnostics.report Error.parts
  rw [List.foldl_cons, List.foldl_nil]
  unfold keep
  split
  · exact ⟨[.one c], rfl, fun e he => ⟨c, List.mem_singleton.mp he, hc⟩⟩
  · exact ⟨[], (List.append_nil _).symm, nofun⟩

theorem reportFailure {α : Type} {d d' : Diagnostics} (h : Adds P d d') {r : Except Error α}
    (hr : ∀ e, r = .error e → ∃ c : Cause, e = .one c ∧ P c) : Adds P d (d'.reportFailure r) := by
  cases r with
  | ok a => exact h
  | error e => exact h.report (hr e rfl)

theorem not_mem {d d' : Diagnostics} (h : Adds P d d') (hd : d.errors = []) {e : Error} (he : d'.toError? = some e)
    {c : Cause} (hc : ¬P c) (hshown : ∀ n, c ≠ .suppressed n) : .one c ∉ e.parts := by
  have hone : ∀ x ∈ d'.summary, ∃ c' : Cause, x = .one c' ∧ c' ≠ c := by
    obtain ⟨new, hnew, hall⟩ := h
    rw [hd, List.nil_append] at hnew
    have hkept : ∀ x ∈ d'.errors, ∃ c' : Cause, x = .one c' ∧ c' ≠ c := by
      intro x hx
      obtain ⟨c', rfl, hc'⟩ := hall x (hnew ▸ hx)
      refine ⟨c', rfl, ?_⟩
      rintro rfl
      exact hc hc'
    unfold summary
    split
    · intro x hx
      rcases List.mem_append.mp hx with hx | hx
      · exact hkept x hx
      · exact ⟨_, List.mem_singleton.mp hx, fun heq => hshown _ heq.symm⟩
    · exact hkept
  have hparts : ∀ x ∈ e.parts, x ∈ d'.summary := by
    unfold toError? at he
    split at he
    · cases he
    · rename_i x hs
      obtain rfl := Option.some.inj he
      obtain ⟨c', rfl, -⟩ := hone x (by rw [hs]; exact List.mem_cons_self)
      rw [hs]
      exact fun y hy => hy
    · obtain rfl := Option.some.inj he
      exact fun y hy => hy
  intro hmem
  obtain ⟨c', hc', hne⟩ := hone _ (hparts _ hmem)
  exact hne (Error.one.inj hc').symm

end Adds

theorem toError?_of_toResult {α : Type} {d : Diagnostics} {a : α} {e : Error} (h : d.toResult a = .error e) :
    d.toError? = some e := by
  unfold toResult at h
  split at h
  · rename_i e' he
    exact he.trans (congrArg some (Except.error.inj h))
  · cases h

theorem Gains.limit_not_mem {d d' : Diagnostics} (h : Gains d d') (hd : d.errors = []) {e : Error}
    (he : d'.toError? = some e) (n : Nat) : .one (.relaxationLimit n) ∉ e.parts :=
  Adds.not_mem h hd he (c := .relaxationLimit n) nofun nofun

end Diagnostics

/-! ## The phases -/

theorem Fragment.moveTo_error {offset : Nat} {f : Fragment (Tail Empty)} {e : Error}
    (h : (f.moveTo offset).result = .error e) : ∃ c : Cause, e = .one c ∧ c.pos?.isSome = true := by
  unfold moveTo at h
  dsimp only at h
  split at h
  · generalize hx : Fragment.expand 1 0 _ ({ f with offset } : Fragment (Tail Empty)) = x at h
    cases hr : x.result with
    | ok a =>
      simp only [Attempt.mapResult, hr, Except.map] at h
      cases h
    | error e' =>
      simp only [Attempt.mapResult, hr, Except.map] at h
      obtain rfl := Except.error.inj h
      exact expand_error _ _ _ _ (by rw [hx]; exact hr)
  · cases h

theorem gains_layFragments (offset : Nat) (diags : Diagnostics) (fs : List (Fragment (Tail Empty))) :
    diags.Gains (layFragments offset diags fs).2 := by
  induction fs generalizing offset diags with
  | nil => exact .refl diags
  | cons f fs ih =>
    rw [layFragments]
    exact ((Diagnostics.Adds.refl diags).reportFailure fun e => Fragment.moveTo_error).trans (ih _ _)

theorem Sections.gains_lay (diags : Diagnostics) (ss : Sections Empty) : diags.Gains (ss.lay diags).2 := by
  induction ss generalizing diags with
  | nil => exact .refl diags
  | cons s ss ih =>
    rw [Sections.lay]
    exact (gains_layFragments 0 diags s.block.fragments).trans (ih _)

namespace Relaxation

theorem gains_surveyFragments (index offset setters : Nat) (diags : Diagnostics) (fs : List (Fragment (Tail Empty))) :
    diags.Gains (surveyFragments index offset setters diags fs).diags := by
  induction fs generalizing index offset setters diags with
  | nil => exact .refl diags
  | cons f fs ih =>
    rw [surveyFragments]
    exact ((Diagnostics.Adds.refl diags).reportFailure fun e => Fragment.measureAt_error _ _ e).trans (ih _ _ _ _)

theorem gains_surveySections (index setters : Nat) (diags : Diagnostics) (ss : Sections Empty) :
    diags.Gains (surveySections index setters diags ss).diags := by
  induction ss generalizing index setters diags with
  | nil => exact .refl diags
  | cons s ss ih =>
    rw [surveySections]
    exact (gains_surveyFragments index 0 setters diags s.block.fragments).trans (ih _ _ _)

theorem adds_watch {P : Cause → Prop} (s : Relaxation Empty) (seed : Seed)
    (hseed : ∀ e, Span.ofSeed s.sections seed = .error e → ∃ c : Cause, e = .one c ∧ P c)
    (hexpand : ∀ f, s.sections.fragment? seed.ref = some f → ∀ id old new e, (f.expand id old new).result = .error e →
      ∃ c : Cause, e = .one c ∧ P c)
    (hsecond : ∀ pos, P (.secondaryExpansion pos)) : s.diags.Adds P (s.watch seed).diags := by
  have hrefl := Diagnostics.Adds.refl (P := P) s.diags
  unfold watch
  split
  · rename_i e he
    exact hrefl.report (hseed e he)
  · dsimp only
    split
    · split
      · exact hrefl
      · rename_i f hf
        split
        · rename_i e he
          exact hrefl.report (hexpand f hf _ _ _ e he)
        · exact hrefl
        · split
          · exact hrefl.report ⟨_, rfl, hsecond _⟩
          · exact hrefl
    · exact hrefl

theorem gains_watch (s : Relaxation Empty) (seed : Seed) : s.diags.Gains (s.watch seed).diags :=
  adds_watch s seed (fun _ => Span.ofSeed_error) (fun f _ id old new _ => Fragment.expand_error id old new f)
    fun _ => rfl

theorem gains_foldl_watch (s : Relaxation Empty) (seeds : List Seed) : s.diags.Gains (seeds.foldl watch s).diags := by
  induction seeds generalizing s with
  | nil => exact .refl _
  | cons seed seeds ih => exact (gains_watch s seed).trans (ih _)

theorem adds_checkCycles {P : Cause → Prop} (hP : ∀ pos, P (.circularReference pos)) (s : Relaxation Empty) :
    s.diags.Adds P s.checkCycles.diags := by
  unfold checkCycles
  dsimp only
  generalize Cycle.closingEdges s.spans.length s.dependents _ = edges
  induction edges generalizing s with
  | nil => exact .refl _
  | cons i edges ih =>
    rw [List.foldl_cons]
    split
    · exact ((Diagnostics.Adds.refl s.diags).report ⟨_, rfl, hP _⟩).trans (ih (s.report _))
    · exact ih s

theorem gains_checkCycles (s : Relaxation Empty) : s.diags.Gains s.checkCycles.diags :=
  adds_checkCycles (fun _ => rfl) s

/-! ## The run -/

theorem gains_moveSetter (k : Nat) (x : Setter) (d : Int) (f : Fragment (Tail Empty)) (s : Relaxation Empty) :
    s.diags.Gains (s.moveSetter k x d f).diags := by
  rw [(moveSetter_requeued k x d f s).diags]
  exact (Diagnostics.Adds.refl s.diags).reportFailure fun e => Fragment.expand_error _ _ _ _

theorem gains_ripple (sec k : Nat) (setters : List Setter) (d : Int) (s : Relaxation Empty) :
    s.diags.Gains (ripple sec k setters d s).diags := by
  induction setters generalizing k d s with
  | nil => exact .refl _
  | cons x setters ih =>
    rw [ripple_cons]
    split
    · exact .refl _
    · split
      · exact .refl _
      · exact (gains_moveSetter k x d _ s).trans (ih _ _ _)

theorem gains_expandSpan (s : Relaxation Empty) (n : Nat) (span : Span) :
    s.diags.Gains (s.expandSpan n span).diags := by
  unfold expandSpan
  dsimp only
  split
  · exact .refl _
  · split
    · rename_i e he
      exact (Diagnostics.Adds.refl s.diags).report (Fragment.expand_error _ _ _ _ he)
    · split
      · exact .refl _
      · refine Diagnostics.Adds.trans ?_ (gains_ripple _ _ _ _ _)
        rw [(shift_requeued _ _ _).diags]
        exact .refl _

theorem Steps.gains {s t : Relaxation Empty} (hs : s.Steps t) : s.diags.Gains t.diags := by
  rcases s.step_diags with he | ⟨u, he, hd⟩ | ⟨u, n, span, he, hd⟩ | ⟨u, he, -⟩ <;> rcases hs with hs | hs <;>
    rw [he] at hs
  case inr.inl.inl =>
    rw [← Step.settled.inj hs, hd]
    exact .refl _
  case inr.inr.inl.inr =>
    rw [← Step.expanded.inj hs, ← hd]
    exact gains_expandSpan u n span
  all_goals exact nomatch hs

theorem Draining.gains {start s : Relaxation Empty} (h : Draining start s) : start.diags.Gains s.diags := by
  induction h with
  | start => exact .refl _
  | step _ hs ih => exact ih.trans hs.gains

theorem drain_reaches {start : Relaxation Empty} {next : Relaxation Empty → Relaxation Empty}
    (hnext : ∀ t, Draining start t → Draining start (next t) ∨ ∃ s, Draining start s ∧ s.step = .exhausted (next t))
    {n : Nat} {s : Relaxation Empty} (hs : Draining start s) :
    Draining start (drain next n s) ∨ ∃ s', Draining start s' ∧ s'.step = .exhausted (drain next n s) := by
  induction n generalizing s with
  | zero => exact .inl hs
  | succ n ih =>
    unfold drain
    split
    · exact .inl hs
    · rename_i t ht
      exact ih (hs.step (.inl ht))
    · rename_i t ht
      exact hnext t (hs.step (.inr ht))
    · rename_i t ht
      exact .inr ⟨s, hs, ht⟩

theorem run_reaches {start : Relaxation Empty} (budget : Nat) {s : Relaxation Empty} (hs : Draining start s) :
    Draining start (run budget s) ∨ ∃ s', Draining start s' ∧ s'.step = .exhausted (run budget s) := by
  induction budget generalizing s with
  | zero => exact drain_reaches (fun t ht => .inl ht) hs
  | succ budget ih => exact drain_reaches (fun t ht => ih ht) hs

theorem stats_watch (s : Relaxation Empty) (seed : Seed) :
    (s.watch seed).stats.expansions = s.stats.expansions ∧ (s.watch seed).stats.spans = s.stats.spans := by
  unfold watch
  split
  · exact ⟨rfl, rfl⟩
  · dsimp only
    split
    · split
      · exact ⟨rfl, rfl⟩
      · split
        · exact ⟨rfl, rfl⟩
        · exact ⟨rfl, rfl⟩
        · split <;> exact ⟨rfl, rfl⟩
    · exact ⟨rfl, rfl⟩

theorem stats_foldl_watch (s : Relaxation Empty) (seeds : List Seed) :
    (seeds.foldl watch s).stats.expansions = s.stats.expansions ∧
      (seeds.foldl watch s).stats.spans = s.stats.spans := by
  induction seeds generalizing s with
  | nil => exact ⟨rfl, rfl⟩
  | cons seed seeds ih => exact ⟨(ih _).1.trans (stats_watch s seed).1, (ih _).2.trans (stats_watch s seed).2⟩

theorem stats_prepare (s : Relaxation Empty) :
    s.prepare.stats.expansions = s.stats.expansions ∧ s.prepare.stats.spans = s.stats.spans := by
  obtain ⟨diags, he, -⟩ := s.prepare_eq
  rw [he]
  exact ⟨rfl, rfl⟩

theorem gains_prepare (s : Relaxation Empty) : s.diags.Gains s.prepare.diags := gains_checkCycles s.indexed

theorem gains_laid (s : Relaxation Empty) : s.diags.Gains s.lay.diags := s.sections.gains_lay s.diags

end Relaxation

/-! ## The end -/

namespace Sections

open Relaxation

variable {config : Config} {diags : Diagnostics} {ss : Sections Empty}

theorem unlessFailed_ends (s : Relaxation Empty) (next : Relaxation Empty → Attempt Error (Relaxation Empty) Stats) :
    s.unlessFailed next = ⟨s, s.diags.toResult s.stats⟩ ∧ s.diags.hasErrors = true ∨
      s.unlessFailed next = next s ∧ s.diags.hasErrors = false := by
  unfold Relaxation.unlessFailed Diagnostics.toResult
  cases h : s.diags.toError? with
  | none => exact .inr ⟨rfl, Diagnostics.hasErrors_of_toError? h⟩
  | some e => exact .inl ⟨rfl, by rw [← Diagnostics.toError?_isSome, h]; rfl⟩

theorem done_eq {s : Relaxation Empty} (h : s.diags.hasErrors = false) :
    (.done s s.stats : Attempt Error (Relaxation Empty) Stats) = ⟨s, s.diags.toResult s.stats⟩ := by
  rw [Diagnostics.toResult, Diagnostics.toError?_of_hasErrors h]
  rfl

/-- A relaxation ends with the state of some phase, and fails if an error was reported by then. -/
theorem relax_ends (config : Config) (diags : Diagnostics) (ss : Sections Empty) :
    ∃ s, ss.relax config diags = ⟨s, s.diags.toResult s.stats⟩ ∧
      (s ∈ [ss.surveyed config diags, ss.watched config diags, (ss.watched config diags).lay, ss.rechecked config diags,
          ss.prepared config diags] ∨
        ((ss.rechecked config diags).diags.hasErrors = false ∧ (ss.prepared config diags).diags.hasErrors = false ∧
          (s = (ss.prepared config diags).run config.maxExpansions ∨
            s = ((ss.prepared config diags).run config.maxExpansions).lay))) := by
  unfold relax
  dsimp only
  rcases unlessFailed_ends (ss.surveyed config diags) _ with ⟨he, -⟩ | ⟨he, -⟩
  · exact ⟨_, he, .inl (by simp)⟩
  rcases unlessFailed_ends (ss.watched config diags) _ with ⟨he', -⟩ | ⟨he', -⟩
  · exact ⟨_, he.trans he', .inl (by simp)⟩
  rcases unlessFailed_ends (ss.watched config diags).lay _ with ⟨he'', -⟩ | ⟨he'', hlaid⟩
  · exact ⟨_, he.trans (he'.trans he''), .inl (by simp)⟩
  have hrechecked : (ss.rechecked config diags).diags.hasErrors = false := hlaid
  have hlay := he.trans (he'.trans he'')
  by_cases ho : (ss.rechecked config diags).others = []
  · exact ⟨ss.rechecked config diags, hlay.trans ((if_pos ho).trans (done_eq hrechecked)), .inl (by simp)⟩
  have hprep := hlay.trans (if_neg ho)
  rcases unlessFailed_ends (ss.prepared config diags) _ with ⟨hp, -⟩ | ⟨hp, hprepared⟩
  · exact ⟨ss.prepared config diags, hprep.trans hp, .inl (by simp)⟩
  rcases unlessFailed_ends ((ss.prepared config diags).run config.maxExpansions) _ with ⟨hrun, -⟩ | ⟨hrun, -⟩
  · exact ⟨_, hprep.trans (hp.trans hrun), .inr ⟨hrechecked, hprepared, .inl rfl⟩⟩
  rcases unlessFailed_ends ((ss.prepared config diags).run config.maxExpansions).lay _ with ⟨hl, -⟩ | ⟨hl, hd⟩
  · exact ⟨_, hprep.trans (hp.trans (hrun.trans hl)), .inr ⟨hrechecked, hprepared, .inr rfl⟩⟩
  · exact ⟨_, hprep.trans (hp.trans (hrun.trans (hl.trans (done_eq hd)))), .inr ⟨hrechecked, hprepared, .inr rfl⟩⟩

theorem gains_watched (config : Config) (diags : Diagnostics) (ss : Sections Empty) :
    diags.Gains (ss.watched config diags).diags :=
  (gains_surveySections 0 0 diags ss).trans (gains_foldl_watch (ss.surveyed config diags) _)

theorem gains_prepared (config : Config) (diags : Diagnostics) (ss : Sections Empty) :
    diags.Gains (ss.prepared config diags).diags :=
  ((gains_watched config diags ss).trans (gains_laid _)).trans (gains_prepare (ss.rechecked config diags))

theorem stats_watched (config : Config) (diags : Diagnostics) (ss : Sections Empty) :
    (ss.watched config diags).stats.expansions = 0 ∧
      (ss.watched config diags).stats.spans = (surveySections 0 0 diags ss).seeds.length :=
  stats_foldl_watch (ss.surveyed config diags) _

theorem stats_prepared (config : Config) (diags : Diagnostics) (ss : Sections Empty) :
    (ss.prepared config diags).stats.expansions = 0 ∧
      (ss.prepared config diags).stats.spans = (surveySections 0 0 diags ss).seeds.length := by
  obtain ⟨hexp, hspans⟩ := stats_prepare (ss.rechecked config diags)
  exact ⟨hexp.trans (stats_watched config diags ss).1, hspans.trans (stats_watched config diags ss).2⟩

theorem expansions_relax_le {n : Nat}
    (hrun : (ss.rechecked config diags).diags.hasErrors = false → (ss.prepared config diags).diags.hasErrors = false →
      ∀ s, (ss.prepared config diags).Draining s → s.stats.expansions ≤ n ∧
        s.stats.spans = (surveySections 0 0 diags ss).seeds.length) :
    (ss.relax config diags).state.stats.expansions ≤ n ∧
      (ss.relax config diags).state.stats.spans = (surveySections 0 0 diags ss).seeds.length := by
  obtain ⟨hexp, hspans⟩ := stats_watched config diags ss
  obtain ⟨hexp', hspans'⟩ := stats_prepared config diags ss
  obtain ⟨s, he, hs⟩ := ss.relax_ends config diags
  rw [he]
  dsimp only
  rcases hs with hs | ⟨hrechecked, hprepared, hs⟩
  · simp only [List.mem_cons, List.not_mem_nil, or_false] at hs
    rcases hs with rfl | rfl | rfl | rfl | rfl
    · exact ⟨Nat.zero_le _, rfl⟩
    · exact ⟨by omega, hspans⟩
    · exact ⟨Nat.le_trans (Nat.le_of_eq hexp) (Nat.zero_le _), hspans⟩
    · exact ⟨Nat.le_trans (Nat.le_of_eq hexp) (Nat.zero_le _), hspans⟩
    · exact ⟨by omega, hspans'⟩
  · have hend : ((ss.prepared config diags).run config.maxExpansions).stats.expansions ≤ n ∧
        ((ss.prepared config diags).run config.maxExpansions).stats.spans =
          (surveySections 0 0 diags ss).seeds.length := by
      rcases run_reaches config.maxExpansions (.start : (ss.prepared config diags).Draining _) with hd | ⟨u, hu, hx⟩
      · exact hrun hrechecked hprepared _ hd
      · obtain ⟨-, -, -, -, -, -, hexp, hspans⟩ := step_exhausted hx
        rw [hexp, hspans]
        exact hrun hrechecked hprepared u hu
    rcases hs with rfl | rfl
    · exact hend
    · exact hend

/-- A relaxation whose run never uses up its budget reports nothing but errors that lie somewhere in the source. -/
theorem gains_relax
    (hrun : (ss.rechecked config diags).diags.hasErrors = false → (ss.prepared config diags).diags.hasErrors = false →
      ∀ s, (ss.prepared config diags).Draining s → ∀ t, s.step ≠ .exhausted t) :
    diags.Gains (ss.relax config diags).state.diags := by
  obtain ⟨s, he, hs⟩ := ss.relax_ends config diags
  rw [he]
  dsimp only
  rcases hs with hs | ⟨hrechecked, hprepared, hs⟩
  · simp only [List.mem_cons, List.not_mem_nil, or_false] at hs
    rcases hs with rfl | rfl | rfl | rfl | rfl
    · exact gains_surveySections 0 0 diags ss
    · exact gains_watched config diags ss
    · exact (gains_watched config diags ss).trans (gains_laid _)
    · exact (gains_watched config diags ss).trans (gains_laid _)
    · exact gains_prepared config diags ss
  · have hdraining : (ss.prepared config diags).Draining ((ss.prepared config diags).run config.maxExpansions) := by
      rcases run_reaches config.maxExpansions (.start : (ss.prepared config diags).Draining _) with hd | ⟨u, hu, hx⟩
      · exact hd
      · exact absurd hx (hrun hrechecked hprepared u hu _)
    have hgains := (gains_prepared config diags ss).trans hdraining.gains
    rcases hs with rfl | rfl
    · exact hgains
    · exact hgains.trans (gains_laid _)

theorem toError?_of_error {e : Error} (h : (ss.relax config diags).result = .error e) :
    (ss.relax config diags).state.diags.toError? = some e := by
  obtain ⟨s, he, -⟩ := ss.relax_ends config diags
  rw [he] at h ⊢
  exact Diagnostics.toError?_of_toResult h

end Sections

end SpanLayout
