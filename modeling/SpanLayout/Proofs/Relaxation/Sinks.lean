import SpanLayout.Proofs.Telling

/-!
# Relaxations and their sinks

A relaxation goes the same way whatever its sink keeps, phase by phase: a phase runs if nothing was reported before, and
that does not depend on how much of it was kept.
-/

namespace SpanLayout

/-! ## Measuring and laying out -/

theorem layFragments_tells (offset : Nat) (fs : List (Fragment (Tail Empty))) :
    ∃ gs a, ∀ d, layFragments offset d fs = (gs, d.tell a) := by
  induction fs generalizing offset with
  | nil => exact ⟨[], .silent, fun d => by rw [layFragments, d.tell_silent]⟩
  | cons f fs ih =>
    obtain ⟨gs, a, ih⟩ := ih (f.moveTo offset).state.nextOffset
    have hone : OneCause (f.moveTo offset).result := fun e he => (Fragment.moveTo_error he).imp fun _ h => h.1
    obtain ⟨b, hb⟩ := Diagnostics.reportFailure_tells hone
    refine ⟨(f.moveTo offset).state :: gs, b.andThen a, fun d => ?_⟩
    simp only [layFragments, hb, ih, Diagnostics.tell_tell]

theorem Sections.lay_tells (ss : Sections Empty) : ∃ tt a, ∀ d, ss.lay d = (tt, d.tell a) := by
  induction ss with
  | nil => exact ⟨[], .silent, fun d => by rw [Sections.lay, d.tell_silent]⟩
  | cons s ss ih =>
    obtain ⟨gs, a, hs⟩ := layFragments_tells 0 s.block.fragments
    obtain ⟨tt, b, hss⟩ := ih
    refine ⟨{ s with block := { s.block with fragments := gs } } :: tt, a.andThen b, fun d => ?_⟩
    simp only [Sections.lay, Block.lay, hs, hss, Diagnostics.tell_tell]

namespace Relaxation

theorem surveyFragments_tells (index offset setters : Nat) (fs : List (Fragment (Tail Empty))) :
    ∃ gs seeds refs a, ∀ d, surveyFragments index offset setters d fs = ⟨gs, seeds, refs, d.tell a⟩ := by
  induction fs generalizing index offset setters with
  | nil => exact ⟨[], [], [], .silent, fun d => by rw [surveyFragments, d.tell_silent]⟩
  | cons f fs ih =>
    have hone : OneCause (({ f with index } : Fragment (Tail Empty)).measureAt offset).result := fun e he =>
      (Fragment.measureAt_error _ _ e he).imp fun _ h => h.1
    obtain ⟨b, hb⟩ := Diagnostics.reportFailure_tells hone
    simp only [surveyFragments, hb]
    generalize ({ f with index } : Fragment (Tail Empty)).measureAt offset = x
    obtain ⟨gs, seeds, refs, a, ih⟩ := ih (index + 1) (if x.result.isOk then x.state.1.nextOffset else offset)
      (if x.result.isOk && x.state.1.setsOffset then setters + 1 else setters)
    simp only [ih, Diagnostics.tell_tell]
    exact ⟨_, _, _, b.andThen a, fun _ => rfl⟩

theorem surveySections_tells (index setters : Nat) (ss : Sections Empty) :
    ∃ tt seeds refs a, ∀ d, surveySections index setters d ss = ⟨tt, seeds, refs, d.tell a⟩ := by
  induction ss generalizing index setters with
  | nil => exact ⟨[], [], [], .silent, fun d => by rw [surveySections, d.tell_silent]⟩
  | cons s ss ih =>
    obtain ⟨gs, seeds, refs, a, hs⟩ := surveyFragments_tells index 0 setters s.block.fragments
    obtain ⟨tt, seeds', refs', b, ih⟩ := ih (index + gs.length) (setters + refs.length)
    simp only [surveySections, hs, ih, Diagnostics.tell_tell]
    exact ⟨_, _, _, a.andThen b, fun _ => rfl⟩

/-! ## Operations -/

/-- The relaxation with another sink, and another limit on the errors that are kept. -/
def under (limit : Nat) (d : Diagnostics) (s : Relaxation Empty) : Relaxation Empty :=
  { s with config := { s.config with maxErrors := limit }, diags := d }

/-- What an operation makes of a relaxation, and what it reports, does not depend on the sink. -/
def TellsAt (op : Relaxation Empty → Relaxation Empty) (s : Relaxation Empty) : Prop :=
  ∃ a, ∀ limit d, op (s.under limit d) = (op s).under limit (d.tell a)

namespace TellsAt

variable {op op' : Relaxation Empty → Relaxation Empty} {s : Relaxation Empty}

theorem silently (h : ∀ limit d, op (s.under limit d) = (op s).under limit d) : TellsAt op s :=
  ⟨.silent, fun limit d => by rw [h, d.tell_silent]⟩

theorem comp (h : TellsAt op s) (h' : TellsAt op' (op s)) : TellsAt (fun s => op' (op s)) s := by
  obtain ⟨a, h⟩ := h
  obtain ⟨b, h'⟩ := h'
  refine ⟨a.andThen b, fun limit d => ?_⟩
  show op' (op (s.under limit d)) = _
  rw [h, h', d.tell_tell]

theorem foldl {α : Type} {f : Relaxation Empty → α → Relaxation Empty} (h : ∀ s x, TellsAt (f · x) s) (xs : List α)
    (s : Relaxation Empty) : TellsAt (xs.foldl f ·) s := by
  induction xs generalizing s with
  | nil => exact silently fun _ _ => rfl
  | cons x xs ih => exact (h s x).comp (ih (f s x))

theorem report (s : Relaxation Empty) (c : Cause) : TellsAt (·.report (.one c)) s :=
  ⟨.ofCause c, fun _ d => congrArg (fun d => under _ d _) (d.report_one c)⟩

end TellsAt

/-! ## Before the run -/

theorem oneCause_expand (id old new : Int) (f : Fragment (Tail Empty)) : OneCause (f.expand id old new).result :=
  fun e h => Fragment.expand_cause e h

theorem watch_tells (s : Relaxation Empty) (seed : Seed) : TellsAt (·.watch seed) s := by
  unfold TellsAt watch
  dsimp only [under, countRecalcs]
  cases hs : Span.ofSeed s.sections seed with
  | error e =>
    obtain ⟨c, rfl, -⟩ := Span.ofSeed_error hs
    exact TellsAt.report s c
  | ok span =>
    dsimp only
    cases span.recalc.exceeded with
    | false => exact ⟨.silent, fun _ d => by rw [d.tell_silent]; rfl⟩
    | true =>
      simp only [if_true]
      cases s.sections.fragment? seed.ref with
      | none => exact ⟨.silent, fun _ d => by rw [d.tell_silent]⟩
      | some f =>
        dsimp only [setFragment]
        cases hx : (f.expand span.recalc.id span.recalc.current span.recalc.latest).result with
        | error e =>
          obtain ⟨c, rfl⟩ := oneCause_expand _ _ _ f e hx
          exact ⟨.ofCause c, fun _ d => by rw [← d.report_one]; rfl⟩
        | ok x =>
          obtain ⟨_, _ | window⟩ := x
          · exact ⟨.silent, fun _ d => by rw [d.tell_silent]⟩
          · dsimp only
            split
            · exact ⟨.ofCause _, fun _ d => by rw [← d.report_one]; rfl⟩
            · exact ⟨.silent, fun _ d => by rw [d.tell_silent]⟩

/-- Reports that span number `i` depends on itself. -/
def reportCircular {κ : Type} (s : Relaxation κ) (i : Nat) : Relaxation κ :=
  match s.spans[i]? with
  | some span => s.report (Cause.circularReference span.seed.source)
  | none => s

theorem checkCycles_tells (s : Relaxation Empty) : TellsAt checkCycles s := by
  have hedges : ∀ (edges : List Nat) (s : Relaxation Empty), TellsAt (edges.foldl reportCircular) s := by
    refine fun edges s => TellsAt.foldl (fun s i => ?_) edges s
    show TellsAt (fun s : Relaxation Empty => s.reportCircular i) s
    cases hi : s.spans[i]? with
    | none =>
      refine .silently fun limit d => ?_
      dsimp only [under, reportCircular]
      rw [hi]
    | some span =>
      refine ⟨.ofCause (.circularReference span.seed.source), fun limit d => ?_⟩
      dsimp only [under, reportCircular]
      rw [hi, ← d.report_one]
      rfl
  obtain ⟨a, h⟩ := hedges (Cycle.closingEdges s.spans.length s.dependents
    ((List.range s.spans.length).filter fun i => s.spans[i]?.any Span.isCount)) s
  exact ⟨a, h⟩

theorem lay_tells (s : Relaxation Empty) : TellsAt lay s := by
  obtain ⟨tt, a, h⟩ := s.sections.lay_tells
  refine ⟨a, fun limit d => ?_⟩
  unfold lay under
  simp only [h]

theorem prepare_tells (s : Relaxation Empty) : TellsAt prepare s := by
  obtain ⟨a, h⟩ := checkCycles_tells s.indexed
  exact ⟨a, h⟩

/-! ## The run -/

theorem shiftTerm_under (limit : Nat) (d : Diagnostics) (n : Int) (s : Relaxation Empty) (hit : Nat × Nat) :
    shiftTerm n (s.under limit d) hit = (shiftTerm n s hit).under limit d := by
  unfold shiftTerm
  rw [show (s.under limit d).spans = s.spans from rfl]
  cases s.spans[hit.1]? with
  | none => rfl
  | some span =>
    dsimp only
    cases span.status with
    | inactive => rfl
    | queued => rfl
    | active =>
      dsimp only
      split
      · unfold enqueue
        dsimp only
        split
        · rfl
        · rfl
      · rfl

theorem shift_under (limit : Nat) (d : Diagnostics) (s : Relaxation Empty) (i : Nat) (n : Int) :
    (s.under limit d).shift i n = (s.shift i n).under limit d := by
  unfold shift
  rw [show (s.under limit d).index = s.index from rfl]
  generalize s.index.query i i = hits
  induction hits generalizing s with
  | nil => rfl
  | cons hit hits ih => rw [List.foldl_cons, List.foldl_cons, shiftTerm_under, ih]

theorem moveSetter_tells (k : Nat) (x : Setter) (n : Int) (f : Fragment (Tail Empty)) (s : Relaxation Empty) :
    TellsAt (moveSetter k x n f) s := by
  obtain ⟨a, ha⟩ := Diagnostics.reportFailure_tells
    (oneCause_expand 1 (signed x.tailOffset) (signed (x.tailOffset + n).toNat) f)
  refine ⟨a, fun limit d => ?_⟩
  unfold moveSetter
  dsimp only
  split
  · rw [← ha]
    rfl
  · rw [← shift_under, ← ha]
    rfl

theorem ripple_tells (j k : Nat) (setters : List Setter) (n : Int) (s : Relaxation Empty) :
    TellsAt (ripple j k setters n) s := by
  induction setters generalizing k n s with
  | nil => exact .silently fun _ _ => rfl
  | cons x setters ih =>
    unfold TellsAt
    simp only [ripple_cons]
    split
    · exact ⟨.silent, fun _ d => by rw [d.tell_silent]⟩
    · dsimp only [under]
      cases s.sections.fragment? x.ref with
      | none => exact ⟨.silent, fun _ d => by rw [d.tell_silent]⟩
      | some f => exact (moveSetter_tells k x n f s).comp (ih _ _ _)

theorem follow_tells (s : Relaxation Empty) (seed : Seed) (f g : Fragment (Tail Empty)) :
    TellsAt (·.follow seed f g) s := by
  unfold TellsAt follow
  dsimp only
  split
  · exact ⟨.silent, fun _ d => by rw [d.tell_silent]; rfl⟩
  · obtain ⟨a, h⟩ := ripple_tells seed.ref.sectionIndex seed.settersBefore (s.setters.drop seed.settersBefore)
      (signed g.totalLen - signed f.totalLen)
      ((s.setFragment seed.ref g).shift seed.index (signed g.totalLen - signed f.totalLen))
    exact ⟨a, fun limit d =>
      (congrArg _ (shift_under limit d (s.setFragment seed.ref g) seed.index _)).trans (h limit d)⟩

theorem expandSpan_tells (s : Relaxation Empty) (n : Nat) (span : Span) :
    TellsAt (fun s => ((s.setSpan n span).countRecalcs 1).expandSpan n span) s := by
  cases hf : s.sections.fragment? span.seed.ref with
  | none =>
    refine .silently fun limit d => ?_
    rw [expandSpan_of_none hf]
    exact expandSpan_of_none hf
  | some f =>
    cases hx : (f.expand span.id span.current span.latest).result with
    | error e =>
      have heq (t : Relaxation Empty) (ht : t.sections.fragment? span.seed.ref = some f) :
          ((t.setSpan n span).countRecalcs 1).expandSpan n span =
            ((t.renewed n (span.expanded none)).setFragment span.seed.ref
              (f.expand span.id span.current span.latest).state).report e := by
        obtain ⟨e', he, h⟩ | ⟨x, he, -⟩ := expandSpan_effect n ht
        · cases hx.symm.trans he
          exact h
        · cases hx.symm.trans he
      obtain ⟨c, rfl⟩ := oneCause_expand _ _ _ f e hx
      refine ⟨.ofCause c, fun limit d => ?_⟩
      dsimp only
      rw [heq s hf, heq (s.under limit d) hf, ← d.report_one]
      rfl
    | ok x =>
      have heq (t : Relaxation Empty) (ht : t.sections.fragment? span.seed.ref = some f) :
          ((t.setSpan n span).countRecalcs 1).expandSpan n span =
            (t.renewed n (span.expanded x.window)).follow span.seed f
              (f.expand span.id span.current span.latest).state := by
        obtain ⟨e', he, -⟩ | ⟨y, he, h⟩ := expandSpan_effect n ht
        · cases hx.symm.trans he
        · cases hx.symm.trans he
          exact h
      obtain ⟨a, h⟩ := follow_tells (s.renewed n (span.expanded x.window)) span.seed f
        (f.expand span.id span.current span.latest).state
      refine ⟨a, fun limit d => ?_⟩
      dsimp only
      rw [heq s hf, heq (s.under limit d) hf]
      exact h limit d

/-- A step with another sink. -/
def Step.under (limit : Nat) (d : Diagnostics) : Step Empty → Step Empty
  | .idle => .idle
  | .settled s => .settled (s.under limit d)
  | .expanded s => .expanded (s.under limit d)
  | .exhausted s => .exhausted (s.under limit d)

theorem pop_under (limit : Nat) (d : Diagnostics) (s : Relaxation Empty) :
    (s.under limit d).pop = s.pop.map fun p => (p.1, p.2.under limit d) := by
  unfold pop
  rw [show (s.under limit d).counts = s.counts from rfl, show (s.under limit d).others = s.others from rfl]
  cases s.counts with
  | cons n counts => rfl
  | nil =>
    cases s.others with
    | cons n others => rfl
    | nil => rfl

theorem step_tells (s : Relaxation Empty) : ∃ a, ∀ limit d, (s.under limit d).step = s.step.under limit (d.tell a) := by
  unfold step
  simp only [pop_under]
  cases s.pop with
  | none => exact ⟨.silent, fun _ _ => rfl⟩
  | some p =>
    obtain ⟨i, s'⟩ := p
    dsimp only [Option.map_some, under]
    cases s'.spans[i]? with
    | none => exact ⟨.silent, fun _ d => by rw [d.tell_silent]; rfl⟩
    | some span =>
      dsimp only
      split
      · exact ⟨.silent, fun _ d => by rw [d.tell_silent]; rfl⟩
      · split
        · exact ⟨.silent, fun _ d => by rw [d.tell_silent]; rfl⟩
        · by_cases hlimit : s'.config.maxExpansions ≤ s'.stats.expansions
          · refine ⟨.ofCause (.relaxationLimit s'.config.maxExpansions), fun limit d => ?_⟩
            rw [← d.report_one]
            rw [if_pos, if_pos]
            · rfl
            · exact hlimit
            · exact hlimit
          · obtain ⟨a, h⟩ := expandSpan_tells s' i ({ span with status := .active } : Span).recalc
            refine ⟨a, fun limit d => ?_⟩
            rw [if_neg, if_neg]
            · exact congrArg Step.expanded (h limit d)
            · exact hlimit
            · exact hlimit

theorem drain_tells {next : Relaxation Empty → Relaxation Empty} (h : ∀ s, TellsAt next s) (n : Nat)
    (s : Relaxation Empty) : TellsAt (drain next n) s := by
  induction n generalizing s with
  | zero => exact .silently fun _ _ => rfl
  | succ n ih =>
    obtain ⟨a, hstep⟩ := step_tells s
    unfold TellsAt
    simp only [drain, hstep]
    cases s.step with
    | idle => exact ⟨.silent, fun _ d => by rw [d.tell_silent]; rfl⟩
    | settled t =>
      obtain ⟨b, ih⟩ := ih t
      exact ⟨a.andThen b, fun limit d => by rw [← d.tell_tell]; exact ih limit (d.tell a)⟩
    | expanded t =>
      obtain ⟨b, h⟩ := h t
      exact ⟨a.andThen b, fun limit d => by rw [← d.tell_tell]; exact h limit (d.tell a)⟩
    | exhausted t => exact ⟨a, fun _ _ => rfl⟩

theorem run_tells (budget : Nat) (s : Relaxation Empty) : TellsAt (run budget) s := by
  induction budget generalizing s with
  | zero => exact drain_tells (fun _ => .silently fun _ _ => rfl) s.queued s
  | succ budget ih => exact drain_tells ih s.queued s

/-! ## From phase to phase -/

/-- What goes on from a relaxation without reports ends in the same state whatever the sink, and with the error of what
it has reported if that is one. -/
def Concludes (next : Relaxation Empty → Attempt Error (Relaxation Empty) Stats) (s : Relaxation Empty) : Prop :=
  ∃ (t : Relaxation Empty) (a : Account), ∀ limit d, d.hasErrors = false →
    next (s.under limit d) = ⟨t.under limit (d.tell a), (d.tell a).toResult t.stats⟩

namespace Concludes

variable {next : Relaxation Empty → Attempt Error (Relaxation Empty) Stats} {s : Relaxation Empty}

theorem done (s : Relaxation Empty) : Concludes (fun s => .done s s.stats) s := by
  refine ⟨s, .silent, fun limit d hd => ?_⟩
  rw [d.tell_silent, Diagnostics.toResult, Diagnostics.toError?_of_hasErrors hd]
  rfl

theorem unlessFailed {op : Relaxation Empty → Relaxation Empty} (h : TellsAt op s) (hnext : Concludes next (op s)) :
    Concludes (fun s => (op s).unlessFailed next) s := by
  obtain ⟨a, h⟩ := h
  obtain ⟨t, b, hnext⟩ := hnext
  obtain hclean | hfailed := Diagnostics.tell_cases a
  · refine ⟨t, a.andThen b, fun limit d hd => ?_⟩
    dsimp only
    rw [h, Relaxation.unlessFailed, show ((op s).under limit (d.tell a)).diags = d.tell a from rfl,
      Diagnostics.toError?_of_hasErrors (hclean d hd), ← d.tell_tell]
    exact hnext limit _ (hclean d hd)
  · refine ⟨op s, a, fun limit d hd => ?_⟩
    obtain ⟨e, he⟩ := hfailed d hd
    dsimp only
    rw [h, Relaxation.unlessFailed, show ((op s).under limit (d.tell a)).diags = d.tell a from rfl, he,
      Diagnostics.toResult, he]
    rfl

end Concludes

/-- A relaxation that starts without reports ends in the same state whatever the sink, and with the error of what it has
reported if that is one. -/
theorem relax_tells (config : Config) (ss : Sections Empty) :
    ∃ (t : Relaxation Empty) (a : Account), ∀ limit d, d.hasErrors = false →
      ss.relax { config with maxErrors := limit } d =
        ⟨Relaxation.under limit (d.tell a) t, (d.tell a).toResult t.stats⟩ := by
  obtain ⟨tt, seeds, refs, a, hsurvey⟩ := Relaxation.surveySections_tells 0 0 ss
  -- The phases, the last one first.
  have hrun (s : Relaxation Empty) : Concludes (fun s =>
      (s.run config.maxExpansions).unlessFailed fun s => s.lay.unlessFailed fun s => .done s s.stats) s :=
    .unlessFailed (run_tells _ s) (.unlessFailed (lay_tells _) (.done _))
  have hqueued (s : Relaxation Empty) : Concludes (fun s =>
      if s.others = [] then .done s s.stats
      else s.prepare.unlessFailed fun s =>
        (s.run config.maxExpansions).unlessFailed fun s => s.lay.unlessFailed fun s => .done s s.stats) s := by
    by_cases hidle : s.others = []
    · obtain ⟨t, a, h⟩ := Concludes.done s
      exact ⟨t, a, fun limit d hd => (if_pos hidle).trans (h limit d hd)⟩
    · obtain ⟨t, a, h⟩ := Concludes.unlessFailed (prepare_tells s) (hrun s.prepare)
      exact ⟨t, a, fun limit d hd => (if_neg hidle).trans (h limit d hd)⟩
  have hphases (s : Relaxation Empty) : Concludes (fun s =>
      ({ s with diags := s.diags.tell a } : Relaxation Empty).unlessFailed fun s =>
      (seeds.foldl .watch s).unlessFailed fun s => s.lay.unlessFailed fun s =>
      if s.recheck.others = [] then .done s.recheck s.recheck.stats
      else s.recheck.prepare.unlessFailed fun s =>
        (s.run config.maxExpansions).unlessFailed fun s => s.lay.unlessFailed fun s => .done s s.stats) s :=
    .unlessFailed ⟨a, fun _ _ => rfl⟩ <| .unlessFailed (.foldl watch_tells seeds _) <|
      .unlessFailed (lay_tells _) (hqueued (recheck _))
  obtain ⟨t, b, h⟩ := hphases ⟨config, tt, [], [], [], .empty, refs.map (⟨·, 0⟩),
    { Stats.zero with spans := seeds.length }, .empty 0⟩
  refine ⟨t, b, fun limit d hd => ?_⟩
  unfold Sections.relax
  rw [hsurvey]
  exact h limit d hd

end Relaxation

end SpanLayout
