import SpanLayout.Proofs.Image
import SpanLayout.Proofs.Relaxation.Rounds

/-!
# What every fragment keeps

A relaxation measures the fragments, and from then on it only expands and moves them. What both of these keep of a
fragment is true of all fragments at the end, whatever the directives are and whether the relaxation succeeds or not.
-/

namespace SpanLayout

variable {κ : Type}

/-- All fragments of some sections have a property. -/
def Sections.Each (P : Fragment (Tail κ) → Prop) (ss : Sections κ) : Prop := ∀ s ∈ ss, ∀ f ∈ s.block.fragments, P f

theorem Sections.Each.fragment? {P : Fragment (Tail κ) → Prop} {ss : Sections κ} (h : ss.Each P) {r : FragmentRef}
    {f : Fragment (Tail κ)} (hf : ss.fragment? r = some f) : P f := by
  obtain ⟨s, hs, hf⟩ := Option.bind_eq_some_iff.1 hf
  exact h s (List.mem_of_getElem? hs) f (List.mem_of_getElem? hf)

theorem Sections.Each.setFragment {P : Fragment (Tail κ) → Prop} {ss : Sections κ} (h : ss.Each P) (r : FragmentRef)
    {g : Fragment (Tail κ)} (hg : P g) : (ss.setFragment r g).Each P := by
  intro s hs f hf
  obtain ⟨k, hk⟩ := List.mem_iff_getElem?.1 hs
  rw [Sections.setFragment, List.getElem?_modify] at hk
  obtain ⟨t, ht, rfl⟩ := Option.map_eq_some_iff.1 hk
  have ht := h t (List.mem_of_getElem? ht)
  split at hf
  · rcases List.mem_or_eq_of_mem_set hf with hf | rfl
    · exact ht f hf
    · exact hg
  · exact ht f hf

variable [Directive κ]

/-- A property that sections keep when one of their fragments is expanded and when they are laid out. -/
structure Sections.Endures (I : Sections κ → Prop) : Prop where
  expand : ∀ {ss : Sections κ} {r : FragmentRef} {f : Fragment (Tail κ)} (id old new : Int),
    I ss → ss.fragment? r = some f → I (ss.setFragment r (f.expand id old new).state)
  lay : ∀ {ss : Sections κ} (diags : Diagnostics), I ss → I (ss.lay diags).1

/-- A property that a fragment keeps when it is expanded or moved. -/
structure Fragment.Persists (P : Fragment (Tail κ) → Prop) : Prop where
  expand : ∀ (f : Fragment (Tail κ)) (id old new : Int), P f → P (f.expand id old new).state
  moved : ∀ (f : Fragment (Tail κ)) (offset : Nat), P f → P { f with offset }

namespace Fragment.Persists

variable {P : Fragment (Tail κ) → Prop} (hP : Persists P)

include hP

theorem moveTo {f : Fragment (Tail κ)} (h : P f) (offset : Nat) : P (f.moveTo offset).state := by
  unfold Fragment.moveTo
  dsimp only
  split
  · exact hP.expand _ _ _ _ (hP.moved f offset h)
  · exact hP.moved f offset h

theorem layFragments {fs : List (Fragment (Tail κ))} (h : ∀ f ∈ fs, P f) (offset : Nat) (diags : Diagnostics) :
    ∀ f ∈ (layFragments offset diags fs).1, P f := by
  induction fs generalizing offset diags with
  | nil => exact h
  | cons f fs ih =>
    intro g hg
    rw [SpanLayout.layFragments] at hg
    rcases List.mem_cons.1 hg with rfl | hg
    · exact hP.moveTo (h f List.mem_cons_self) offset
    · exact ih (fun x hx => h x (List.mem_cons_of_mem f hx)) _ _ g hg

theorem lay {ss : Sections κ} (h : ss.Each P) (diags : Diagnostics) : (ss.lay diags).1.Each P := by
  induction ss generalizing diags with
  | nil => exact h
  | cons s ss ih =>
    intro t ht
    rw [Sections.lay] at ht
    rcases List.mem_cons.1 ht with rfl | ht
    · exact hP.layFragments (h s List.mem_cons_self) 0 diags
    · exact ih (fun x hx => h x (List.mem_cons_of_mem s hx)) _ t ht

theorem endures : Sections.Endures (Sections.Each P) where
  expand id old new h hf := h.setFragment _ (hP.expand _ id old new (h.fragment? hf))
  lay diags h := hP.lay h diags

end Fragment.Persists

/-! ## Relaxing -/

namespace Relaxation

open Sections (Endures)

variable {I : Sections κ → Prop} {s t : Relaxation κ}

omit [Directive κ] in
theorem sections_shiftTerm (d : Int) (s : Relaxation κ) (hit : Nat × Nat) :
    (shiftTerm d s hit).sections = s.sections := by
  unfold shiftTerm
  split
  · rfl
  · split
    · rfl
    · rfl
    · dsimp only
      split
      · unfold enqueue
        dsimp only
        split <;> rfl
      · rfl

omit [Directive κ] in
theorem sections_shift (s : Relaxation κ) (i : Nat) (d : Int) : (s.shift i d).sections = s.sections := by
  unfold shift
  generalize s.index.query i i = hits
  induction hits generalizing s with
  | nil => rfl
  | cons hit hits ih => exact (ih _).trans (sections_shiftTerm d s hit)

theorem endure_ripple (hI : Endures I) (sec k : Nat) (setters : List Setter) (d : Int) (h : I s.sections) :
    I (ripple sec k setters d s).sections := by
  induction setters generalizing k d s with
  | nil => exact h
  | cons x setters ih =>
    unfold ripple
    split
    · exact h
    · split
      · exact h
      · rename_i f hf
        dsimp only
        refine ih _ _ ?_
        have hset := hI.expand 1 (signed x.tailOffset) (signed (x.tailOffset + d).toNat) h hf
        split
        · exact hset
        · rw [sections_shift]
          exact hset

theorem endure_expandSpan (hI : Endures I) (i : Nat) (span : Span) (h : I s.sections) :
    I (s.expandSpan i span).sections := by
  unfold expandSpan
  dsimp only
  split
  · exact h
  · rename_i f hf
    have hset := hI.expand span.id span.current span.latest h hf
    split
    · exact hset
    · split
      · exact hset
      · refine endure_ripple hI _ _ _ _ ?_
        rw [sections_shift]
        exact hset

theorem Round.endure (hI : Endures I) (hround : Round s t) (h : I s.sections) : I t.sections := by
  cases hround with
  | missing hp _ =>
    rw [(pop_effect hp).2.1]
    exact h
  | inactive hp _ _ =>
    rw [(pop_effect hp).2.1]
    exact h
  | settled hp _ _ _ =>
    show I (Relaxation.sections _)
    have := (pop_effect hp).2.1
    exact this ▸ h
  | expanded hp _ _ _ _ =>
    refine endure_expandSpan hI _ _ ?_
    exact (pop_effect hp).2.1 ▸ h

omit [Directive κ] in
theorem Finish.sections (h : Finish s t) : t.sections = s.sections := by
  cases h with
  | idle => rfl
  | exhausted _ hsections => exact hsections

theorem endure_drain (hI : Endures I) {next : Relaxation κ → Relaxation κ}
    (hnext : ∀ s : Relaxation κ, I s.sections → I (next s).sections) (n : Nat) (h : I s.sections) :
    I (drain next n s).sections := by
  induction n generalizing s with
  | zero => exact h
  | succ n ih =>
    unfold drain
    rcases s.step_outcome with ⟨hs, -⟩ | ⟨t, hs, hround, -⟩ | ⟨t, hs, hround, -⟩ | ⟨t, hs, -, hfinish⟩
    · rw [hs]
      exact h
    · rw [hs]
      exact ih (hround.endure hI h)
    · rw [hs]
      exact hnext t (hround.endure hI h)
    · rw [hs]
      dsimp only
      rw [hfinish.sections]
      exact h

theorem endure_run (hI : Endures I) (budget : Nat) (h : I s.sections) : I (s.run budget).sections := by
  induction budget generalizing s with
  | zero => exact endure_drain hI (fun _ h => h) _ h
  | succ budget ih => exact endure_drain hI (fun _ h => ih h) _ h

theorem endure_watch (hI : Endures I) (seed : Seed) (h : I s.sections) : I (s.watch seed).sections := by
  unfold watch
  split
  · exact h
  · rename_i span _
    dsimp only
    split
    · split
      · exact h
      · rename_i f hf
        have hset := hI.expand span.recalc.id span.recalc.current span.recalc.latest h hf
        split
        · exact hset
        · exact hset
        · split <;> exact hset
    · exact h

theorem endure_watchAll (hI : Endures I) (seeds : List Seed) (h : I s.sections) :
    I (seeds.foldl watch s).sections := by
  induction seeds generalizing s with
  | nil => exact h
  | cons seed seeds ih => exact ih (endure_watch hI seed h)

omit [Directive κ] in
theorem sections_checkCycles (s : Relaxation κ) : s.checkCycles.sections = s.sections := by
  unfold checkCycles
  dsimp only
  generalize Cycle.closingEdges s.spans.length s.dependents _ = edges
  induction edges generalizing s with
  | nil => rfl
  | cons i edges ih =>
    rw [List.foldl_cons, ih]
    split <;> rfl

omit [Directive κ] in
theorem sections_prepare (s : Relaxation κ) : s.prepare.sections = s.sections := by
  unfold prepare
  exact sections_checkCycles _

omit [Directive κ] in
theorem endure_unlessFailed {next : Relaxation κ → Attempt Error (Relaxation κ) Stats} (h : I s.sections)
    (hnext : I (next s).state.sections) : I (s.unlessFailed next).state.sections := by
  unfold unlessFailed
  split
  · exact h
  · exact hnext

end Relaxation

/-! ## Measuring -/

namespace Relaxation

variable {P Q : Fragment (Tail κ) → Prop}

theorem each_surveyFragments
    (hm : ∀ (f : Fragment (Tail κ)) (index offset : Nat), Q f → P ({ f with index }.measureAt offset).state.1)
    {fs : List (Fragment (Tail κ))} (h : ∀ f ∈ fs, Q f) (index offset setters : Nat) (diags : Diagnostics) :
    ∀ f ∈ (surveyFragments index offset setters diags fs).measured, P f := by
  induction fs generalizing index offset setters diags with
  | nil => exact fun f hf => absurd hf List.not_mem_nil
  | cons f fs ih =>
    intro g hg
    rw [surveyFragments] at hg
    rcases List.mem_cons.1 hg with rfl | hg
    · exact hm f index offset (h f List.mem_cons_self)
    · exact ih (fun x hx => h x (List.mem_cons_of_mem f hx)) _ _ _ _ g hg

theorem each_surveySections
    (hm : ∀ (f : Fragment (Tail κ)) (index offset : Nat), Q f → P ({ f with index }.measureAt offset).state.1)
    {ss : Sections κ} (h : ss.Each Q) (index setters : Nat) (diags : Diagnostics) :
    Sections.Each P (surveySections index setters diags ss).measured := by
  induction ss generalizing index setters diags with
  | nil => exact fun s hs => absurd hs List.not_mem_nil
  | cons s ss ih =>
    intro t ht
    rw [surveySections] at ht
    rcases List.mem_cons.1 ht with rfl | ht
    · exact each_surveyFragments hm (h s List.mem_cons_self) _ _ _ _
    · exact ih (fun x hx => h x (List.mem_cons_of_mem s hx)) _ _ _ t ht

theorem exact_surveyFragments [LawfulDirective κ] {index offset setters : Nat} {diags : Diagnostics}
    {fs : List (Fragment (Tail κ))} (h : (surveyFragments index offset setters diags fs).diags.hasErrors = false) :
    ∀ f ∈ (surveyFragments index offset setters diags fs).measured, f.Exact := by
  induction fs generalizing index offset setters diags with
  | nil => exact fun f hf => absurd hf List.not_mem_nil
  | cons f fs ih =>
    intro g hg
    rw [surveyFragments] at h hg
    rcases List.mem_cons.1 hg with rfl | hg
    · refine Fragment.exact_measureAt offset _ ?_
      cases hr : ({ f with index }.measureAt offset).result with
      | ok u => rfl
      | error e =>
        rw [hr] at h
        have hreport := Diagnostics.hasErrors_report_of_parts (Fragment.reported_measureAt offset _ hr) diags
        exact absurd (h.symm.trans (hasErrors_surveyFragments _ _ _ hreport fs)) (by decide)
    · exact ih h g hg

theorem exact_surveySections [LawfulDirective κ] {index setters : Nat} {diags : Diagnostics} {ss : Sections κ}
    (h : (surveySections index setters diags ss).diags.hasErrors = false) :
    Sections.Each Fragment.Exact (surveySections index setters diags ss).measured := by
  induction ss generalizing index setters diags with
  | nil => exact fun s hs => absurd hs List.not_mem_nil
  | cons s ss ih =>
    intro t ht
    have hs := hasErrors_surveySections_cons h
    rw [surveySections] at h ht
    rcases List.mem_cons.1 ht with rfl | ht
    · exact exact_surveyFragments hs
    · exact ih h t ht

end Relaxation

/-! ## The whole relaxation -/

/-- What is kept when a fragment is expanded and when sections are laid out is true after a relaxation, if it is true of
the measured sections. -/
theorem Sections.Endures.relax {I : Sections κ → Prop} (hI : Endures I) (config : Config) (diags : Diagnostics)
    {ss : Sections κ} (h : I (Relaxation.surveySections 0 0 diags ss).measured) :
    I (ss.relax config diags).state.sections := by
  unfold Sections.relax
  extract_lets survey _ start
  have hstart : I start.sections := h
  have hwatched := Relaxation.endure_watchAll hI survey.seeds hstart
  have hlaid : I (survey.seeds.foldl .watch start).lay.recheck.sections := hI.lay _ hwatched
  have hrun : I ((survey.seeds.foldl .watch start).lay.recheck.prepare.run config.maxExpansions).sections := by
    refine Relaxation.endure_run hI _ ?_
    rw [Relaxation.sections_prepare]
    exact hlaid
  refine Relaxation.endure_unlessFailed hstart ?_
  refine Relaxation.endure_unlessFailed hwatched ?_
  refine Relaxation.endure_unlessFailed hlaid ?_
  dsimp only
  split
  · exact hlaid
  · refine Relaxation.endure_unlessFailed (by rw [Relaxation.sections_prepare]; exact hlaid) ?_
    refine Relaxation.endure_unlessFailed hrun ?_
    exact Relaxation.endure_unlessFailed (hI.lay _ hrun) (hI.lay _ hrun)

theorem Fragment.Persists.relax {P : Fragment (Tail κ) → Prop} (hP : Persists P) (config : Config) (diags : Diagnostics)
    {ss : Sections κ} (h : Sections.Each P (Relaxation.surveySections 0 0 diags ss).measured) :
    (ss.relax config diags).state.sections.Each P :=
  hP.endures.relax config diags h

theorem Fragment.persists_exact : Persists (@Fragment.Exact κ) :=
  ⟨fun f id old new h => exact_expand id old new f h, fun _ offset h => h.moved offset⟩

theorem Sections.exact_relax [LawfulDirective κ] {config : Config} {diags : Diagnostics} {ss : Sections κ}
    {t : Relaxation κ} {stats : Stats} (h : ss.relax config diags = .done t stats) :
    t.sections.Each Fragment.Exact := by
  have hclean : (Relaxation.surveySections 0 0 diags ss).diags.hasErrors = false := by
    unfold relax at h
    exact (Relaxation.unlessFailed_ok h).1
  have hrelax := Fragment.persists_exact.relax config diags (Relaxation.exact_surveySections hclean)
  rw [h] at hrelax
  exact hrelax

theorem Sections.relax_writable [LawfulDirective κ] {config : Config} {diags : Diagnostics} {ss : Sections κ}
    {t : Relaxation κ} {stats : Stats} (h : ss.relax config diags = .done t stats) {s : Section κ}
    (hs : s ∈ t.sections) :
    s.block.fragments = Fragment.placeFrom 0 s.block.fragments ∧ ExactFragments s.block.fragments := by
  constructor
  · obtain ⟨tt, d, he, -⟩ := relax_laid h
    exact placed_of_mem_lay (he ▸ hs)
  · exact (exactFragments_iff _).2 (exact_relax h s hs)

end SpanLayout
