import SpanLayout.Proofs.Relaxation.Survey

/-!
# The first expansions

Every span is computed on the offsets of the smallest forms. One that is out of its window is expanded at once. What is
watched afterwards has a sound plan.
-/

namespace SpanLayout

/-! ## Spans of seeds -/

theorem Span.measureTerm_ok {κ : Type} [Directive κ] {ss : Sections κ} {seed : Seed} {d : Distance} {t : Term}
    (h : measureTerm ss seed d = .ok t) :
    t.distance = d ∧ t.Anchored ss.frame? ∧ ss.distance? d.origin d.target = some t.length := by
  unfold measureTerm at h
  split at h
  · rename_i length f g hd hf hg
    dsimp only at h
    split at h
    · cases h
    · obtain rfl := Except.ok.inj h
      have hs : d.origin.sameSection d.target = true := by
        by_contra hn
        simp [Sections.distance?, hn] at hd
      exact ⟨rfl, ⟨by simpa [Location.sameSection] using hs, ⟨f.frame, by simp [Sections.frame?, hf], rfl⟩,
        ⟨g.frame, by simp [Sections.frame?, hg], rfl⟩⟩, hd⟩
  · cases h

theorem Span.measureTerm_error {P : Cause → Prop} (hcircular : ∀ p, P (.circularReference p))
    (hcomplex : ∀ what p, P (.tooComplex what p)) {ss : Sections Empty} {seed : Seed} {d : Distance} {e : Error}
    (h : measureTerm ss seed d = .error e) : ∃ c : Cause, e = .one c ∧ P c := by
  unfold measureTerm at h
  split at h
  · dsimp only at h
    split at h
    · exact ⟨_, (Except.error.inj h).symm, hcircular _⟩
    · exact nomatch h
  · exact ⟨_, (Except.error.inj h).symm, hcomplex _ _⟩

theorem mapM_ok {α β : Type} {f : α → Except Error β} {as : List α} {bs : List β} (h : as.mapM f = .ok bs) :
    List.Forall₂ (fun a b => f a = .ok b) as bs := by
  induction as generalizing bs with
  | nil =>
    obtain rfl := Except.ok.inj h
    exact .nil
  | cons a as ih =>
    rw [List.mapM_cons] at h
    cases hf : f a with
    | error e => simp [hf, bind, Except.bind] at h
    | ok b =>
      cases hm : as.mapM f with
      | error e => simp [hf, hm, bind, Except.bind] at h
      | ok bs' =>
        simp only [hf, hm, bind, Except.bind, pure, Except.pure, Except.ok.injEq] at h
        exact h ▸ .cons hf (ih hm)

theorem mapM_error {α β : Type} {f : α → Except Error β} {as : List α} {e : Error} (h : as.mapM f = .error e) :
    ∃ a ∈ as, f a = .error e := by
  induction as with
  | nil => exact nomatch h
  | cons a as ih =>
    rw [List.mapM_cons] at h
    cases hf : f a with
    | error e' =>
      simp only [hf, bind, Except.bind, Except.error.injEq] at h
      exact ⟨a, List.mem_cons_self, h ▸ hf⟩
    | ok b =>
      cases hm : as.mapM f with
      | error e' =>
        simp only [hf, hm, bind, Except.bind, Except.error.injEq] at h
        obtain ⟨a', ha', hfa⟩ := ih (h ▸ hm)
        exact ⟨a', List.mem_cons_of_mem a ha', hfa⟩
      | ok bs' => simp [hf, hm, bind, Except.bind, pure, Except.pure] at h

theorem Span.ofSeed_ok {κ : Type} {ss : Sections κ} {seed : Seed} {span : Span} (h : ofSeed ss seed = .ok span) :
    span.seed = seed ∧ span.window = seed.request.window ∧ span.current = 0 ∧ span.status = .active ∧
      span.expr = seed.request.value.abs.map (·.distances.1) ∧
      List.Forall₂ (fun d t => measureTerm ss seed d = .ok t)
        ((seed.request.value.abs.map (·.distances.2)).getD []) span.terms := by
  unfold ofSeed at h
  dsimp only at h
  split at h
  · rename_i hv
    obtain rfl := Except.ok.inj h
    rw [hv]
    exact ⟨rfl, rfl, rfl, rfl, rfl, .nil⟩
  · rename_i e hv
    rw [hv]
    cases hm : e.distances.2.mapM (measureTerm ss seed) with
    | error err => simp [hm, bind, Except.bind] at h
    | ok terms =>
      simp only [hm, bind, Except.bind, pure, Except.pure, Except.ok.injEq] at h
      subst h
      exact ⟨rfl, rfl, rfl, rfl, rfl, mapM_ok hm⟩

theorem Span.anchored_ofSeed {κ : Type} [Directive κ] {ss : Sections κ} {seed : Seed} {span : Span}
    (h : ofSeed ss seed = .ok span) {t : Term} (ht : t ∈ span.terms) : t.Anchored ss.frame? := by
  obtain ⟨-, -, -, -, -, hterms⟩ := ofSeed_ok h
  obtain ⟨d, -, hd⟩ := exists_of_forall₂_right hterms ht
  exact (measureTerm_ok hd).2.1

theorem Span.ofSeed_error_of {P : Cause → Prop} (hcircular : ∀ p, P (.circularReference p))
    (hcomplex : ∀ what p, P (.tooComplex what p)) {ss : Sections Empty} {seed : Seed} {e : Error}
    (h : ofSeed ss seed = .error e) : ∃ c : Cause, e = .one c ∧ P c := by
  unfold ofSeed at h
  dsimp only at h
  split at h
  · exact nomatch h
  · rename_i v hv
    cases hm : v.distances.2.mapM (measureTerm ss seed) with
    | error err =>
      simp only [hm, bind, Except.bind, Except.error.injEq] at h
      obtain ⟨d, -, hd⟩ := mapM_error hm
      exact measureTerm_error hcircular hcomplex (h ▸ hd)
    | ok terms => simp [hm, bind, Except.bind, pure, Except.pure] at h

theorem Span.ofSeed_error {ss : Sections Empty} {seed : Seed} {e : Error} (h : ofSeed ss seed = .error e) :
    ∃ c : Cause, e = .one c ∧ c.pos?.isSome = true := ofSeed_error_of (fun _ => rfl) (fun _ _ => rfl) h

/-- A span whose value counts as the one it was last expanded for. -/
def Span.kept (span : Span) : Span := { span with current := span.latest }

namespace Relaxation

/-! ## Watching -/

/-- Watches a span with what comes of its first expansion: another fragment, and the spans that are kept. -/
def watching (s : Relaxation Empty) (seed : Seed) (f : Option (Fragment (Tail Empty))) (terms : Nat)
    (spans : List Span) : Relaxation Empty :=
  { s with
    sections := f.elim s.sections (s.sections.setFragment seed.ref)
    spans := s.spans ++ spans
    stats := { s.stats with distances := s.stats.distances + terms, recalcs := s.stats.recalcs + 1 } }

theorem watch_cases {s : Relaxation Empty} {seed : Seed} {f : Fragment (Tail Empty)}
    (hf : s.sections.fragment? seed.ref = some f) (h : (s.watch seed).diags.hasErrors = false) :
    ∃ span, Span.ofSeed s.sections seed = .ok span ∧
      ((span.recalc.exceeded = false ∧ s.watch seed = s.watching seed none span.terms.length [span.recalc.kept]) ∨
        ∃ x : Expansion, span.recalc.exceeded = true ∧
          (f.expand seed.request.id 0 span.compute).result = .ok x ∧
          (x.window.isSome = true → span.recalc.status = .active) ∧
          s.watch seed = s.watching seed (f.expand seed.request.id 0 span.compute).state span.terms.length
            (x.window.toList.map fun window => { span.recalc.kept with window })) := by
  cases ho : Span.ofSeed s.sections seed with
  | error e =>
    obtain ⟨c, rfl, -⟩ := Span.ofSeed_error ho
    rw [watch, ho] at h
    exact absurd (h.symm.trans (Diagnostics.hasErrors_report_one _ c)) (by decide)
  | ok span =>
    refine ⟨span, rfl, ?_⟩
    obtain ⟨hseed, -, hcurrent, hstatus, -, -⟩ := Span.ofSeed_ok ho
    have hid : span.recalc.id = seed.request.id := by rw [← hseed]; rfl
    have hcur : span.recalc.current = 0 := hcurrent
    have hlat : span.recalc.latest = span.compute := rfl
    rw [watch, ho] at h ⊢
    dsimp only at h ⊢
    by_cases he : span.recalc.exceeded = true
    · rw [if_pos he] at h ⊢
      generalize hs : ({ s with stats := { s.stats with distances := s.stats.distances + span.recalc.terms.length } } :
        Relaxation Empty).countRecalcs 1 = s' at h ⊢
      have hf' : s'.sections.fragment? seed.ref = some f := by
        rw [← hs]
        exact hf
      rw [hf', hid, hcur, hlat] at h ⊢
      dsimp only at h ⊢
      cases hx : (f.expand seed.request.id 0 span.compute).result with
      | error e =>
        obtain ⟨c, rfl, -⟩ := Fragment.expand_error _ _ _ f hx
        rw [hx] at h
        exact absurd (h.symm.trans (Diagnostics.hasErrors_report_one _ c)) (by decide)
      | ok x =>
        obtain ⟨len, window⟩ := x
        rw [hx] at h
        refine .inr ⟨⟨len, window⟩, he, rfl, ?_⟩
        cases window with
        | none =>
          subst hs
          refine ⟨nofun, ?_⟩
          simp [watching, countRecalcs, Relaxation.setFragment, Span.recalc]
        | some window =>
          dsimp only at h ⊢
          -- An expansion that may have to be made again needs a value.
          have hactive : span.recalc.status ≠ .inactive := by
            intro hi
            rw [if_pos hi] at h
            exact absurd (h.symm.trans (Diagnostics.hasErrors_report_one _ _)) (by decide)
          rw [if_neg hactive]
          subst hs
          refine ⟨fun _ => ?_, rfl⟩
          rcases span.recalc_status with hr | hr
          · rw [hr, hstatus]
          · exact absurd hr hactive
    · rw [if_neg he]
      exact .inl ⟨by simpa using he, rfl⟩

theorem hasErrors_watch {s : Relaxation Empty} (h : s.diags.hasErrors = true) (seed : Seed) :
    (s.watch seed).diags.hasErrors = true := by
  unfold watch
  split
  · exact Diagnostics.hasErrors_report h _
  · dsimp only
    split
    · split
      · exact h
      · split
        · exact Diagnostics.hasErrors_report h _
        · exact h
        · split
          · exact Diagnostics.hasErrors_report h _
          · exact h
    · exact h

theorem hasErrors_foldl_watch {s : Relaxation Empty} (h : s.diags.hasErrors = true) (seeds : List Seed) :
    (seeds.foldl watch s).diags.hasErrors = true := by
  induction seeds generalizing s with
  | nil => exact h
  | cons seed seeds ih => exact ih (hasErrors_watch h seed)

/-- A relaxation that has a sound plan, and nothing queued and no index yet. -/
structure Watching (s : Relaxation Empty) : Prop where
  sound : s.plan.Sound
  status : ∀ span ∈ s.spans, span.status ≠ .queued
  counts : s.counts = []
  others : s.others = []
  index : s.index = .empty

/-- The relaxations differ in the forms of fragments and in spans only. -/
structure SameFrames (s t : Relaxation Empty) : Prop where
  frame? : t.sections.frame? = s.sections.frame?
  base : t.sections.base = s.sections.base
  setters : t.setters = s.setters
  reshaped : s.sections.Reshaped t.sections
  offset? : t.sections.offset? = s.sections.offset?

theorem SameFrames.refl (s : Relaxation Empty) : SameFrames s s := ⟨rfl, rfl, rfl, .refl _, rfl⟩

theorem SameFrames.trans {s t u : Relaxation Empty} (h : SameFrames s t) (h' : SameFrames t u) : SameFrames s u :=
  ⟨h'.frame?.trans h.frame?, h'.base.trans h.base, h'.setters.trans h.setters, h.reshaped.trans h'.reshaped,
    h'.offset?.trans h.offset?⟩

theorem sameFrames_watching (s : Relaxation Empty) (seed : Seed) {f : Fragment (Tail Empty)}
    (hf : s.sections.fragment? seed.ref = some f) (id old new : Int) (terms : Nat) (spans : List Span) :
    SameFrames s (s.watching seed (f.expand id old new).state terms spans) := by
  refine ⟨Sections.frame?_setFragment hf (Fragment.frame_expand id old new f), Sections.base_setFragment .., rfl,
    Sections.reshaped_setFragment hf (.expand .refl id old new), ?_⟩
  funext l
  unfold Sections.offset?
  by_cases hl : seed.ref = l.fragment
  · rw [← hl, hf, show (s.watching seed (f.expand id old new).state terms spans).sections.fragment? seed.ref = _ from
      Sections.fragment?_setFragment_self hf _, Option.map_some, Option.map_some, Fragment.offset_expand]
  · exact congrArg _ (Sections.fragment?_setFragment_ne hl _ _)

theorem Watching.add {s t : Relaxation Empty} (h : s.Watching) (ht : SameFrames s t)
    {spans : List Span} (hspans : t.spans = s.spans ++ spans)
    (hseeds : ∀ span ∈ spans, span.seed.Placed s.plan.frame? s.plan.setters)
    (hterms : ∀ span ∈ spans, ∀ u ∈ span.terms, u.Anchored s.plan.frame?)
    (hstatus : ∀ span ∈ spans, span.status ≠ .queued) (hcounts : t.counts = s.counts) (hothers : t.others = s.others)
    (hindex : t.index = s.index) : t.Watching := by
  have hmem {x : Span} (hx : x ∈ t.plan.spans) : x ∈ s.plan.spans ∨ ∃ span ∈ spans, span.outline = x := by
    obtain ⟨span, hspan, rfl⟩ := List.mem_map.mp hx
    rw [hspans] at hspan
    rcases List.mem_append.mp hspan with hspan | hspan
    · exact .inl (List.mem_map_of_mem hspan)
    · exact .inr ⟨span, hspan, rfl⟩
  have hframe : t.plan.frame? = s.plan.frame? := ht.frame?
  have hsetters : t.plan.setters = s.plan.setters := congrArg (·.map Setter.ref) ht.setters
  refine ⟨⟨hframe ▸ h.sound.ref, hframe ▸ h.sound.order, hsetters ▸ h.sound.sorted,
    by rw [hsetters, hframe]; exact h.sound.mem_setters, fun x hx => ?_, fun x hx u hu => ?_⟩, fun x hx => ?_,
    hcounts.trans h.counts, hothers.trans h.others, hindex.trans h.index⟩
  · rw [hframe, hsetters]
    rcases hmem hx with hx | ⟨span, hspan, rfl⟩
    · exact h.sound.seeds x hx
    · exact hseeds span hspan
  · rw [hframe]
    rcases hmem hx with hx | ⟨span, hspan, rfl⟩
    · exact h.sound.terms x hx u hu
    · obtain ⟨v, hv, rfl⟩ := List.mem_map.mp hu
      obtain ⟨h1, h2, h3⟩ := hterms span hspan v hv
      exact ⟨h1, h2, h3⟩
  · rw [hspans] at hx
    rcases List.mem_append.mp hx with hx | hx
    · exact h.status x hx
    · exact hstatus x hx

theorem Watching.watch {s : Relaxation Empty} (h : s.Watching) {seed : Seed}
    (hseed : seed.Placed s.plan.frame? s.plan.setters) (hd : (s.watch seed).diags.hasErrors = false) :
    (s.watch seed).Watching ∧ SameFrames s (s.watch seed) := by
  obtain ⟨a, ha, -, -⟩ := hseed.frame
  obtain ⟨f, hf, -⟩ := Sections.exists_fragment_of_frame? ha
  obtain ⟨span, ho, hcases⟩ := watch_cases hf hd
  obtain ⟨hs, -, -, hstatus, -, -⟩ := Span.ofSeed_ok ho
  have hplaced {span' : Span} (he : span'.seed = span.seed) : span'.seed.Placed s.plan.frame? s.plan.setters := by
    rw [he, hs]
    exact hseed
  have hnq : span.recalc.status ≠ .queued := by
    rcases span.recalc_status with hr | hr <;> rw [hr]
    · rw [hstatus]
      decide
    · decide
  rcases hcases with ⟨-, he⟩ | ⟨x, -, -, -, he⟩ <;> rw [he]
  · have hsame : SameFrames s (s.watching seed none span.terms.length [span.recalc.kept]) :=
      ⟨rfl, rfl, rfl, .refl _, rfl⟩
    refine ⟨h.add hsame rfl ?_ ?_ ?_ rfl rfl rfl, hsame⟩
    · exact List.forall_mem_singleton.mpr (hplaced rfl)
    · exact List.forall_mem_singleton.mpr fun u hu => Span.anchored_ofSeed ho hu
    · exact List.forall_mem_singleton.mpr hnq
  · have hsame :=
      sameFrames_watching s seed hf seed.request.id 0 span.compute span.terms.length
        (x.window.toList.map fun window => { span.recalc.kept with window })
    refine ⟨h.add hsame rfl ?_ ?_ ?_ rfl rfl rfl, hsame⟩
    · intro span' hspan'
      obtain ⟨w, -, rfl⟩ := List.mem_map.mp hspan'
      exact hplaced rfl
    · intro span' hspan' u hu
      obtain ⟨w, -, rfl⟩ := List.mem_map.mp hspan'
      exact Span.anchored_ofSeed ho hu
    · intro span' hspan'
      obtain ⟨w, -, rfl⟩ := List.mem_map.mp hspan'
      exact hnq

theorem Watching.foldl {seeds : List Seed} {s : Relaxation Empty} (h : s.Watching)
    (hseeds : ∀ seed ∈ seeds, seed.Placed s.plan.frame? s.plan.setters)
    (hd : (seeds.foldl Relaxation.watch s).diags.hasErrors = false) :
    (seeds.foldl Relaxation.watch s).Watching ∧ SameFrames s (seeds.foldl Relaxation.watch s) := by
  induction seeds generalizing s with
  | nil => exact ⟨h, .refl s⟩
  | cons seed seeds ih =>
    have hd' : (s.watch seed).diags.hasErrors = false := by
      by_contra he
      rw [Bool.not_eq_false] at he
      exact absurd (hd.symm.trans (hasErrors_foldl_watch he seeds)) (by decide)
    obtain ⟨hw, hsame⟩ := h.watch (hseeds seed List.mem_cons_self) hd'
    have hseeds' : ∀ seed' ∈ seeds, seed'.Placed (s.watch seed).plan.frame? (s.watch seed).plan.setters := by
      intro seed' hs
      rw [show (s.watch seed).plan.frame? = s.plan.frame? from hsame.frame?,
        show (s.watch seed).plan.setters = s.plan.setters from congrArg (·.map Setter.ref) hsame.setters]
      exact hseeds seed' (List.mem_cons_of_mem seed hs)
    obtain ⟨hw', hsame'⟩ := ih hw hseeds' hd
    exact ⟨hw', hsame.trans hsame'⟩

end Relaxation

end SpanLayout
