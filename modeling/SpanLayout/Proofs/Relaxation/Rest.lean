import SpanLayout.Proofs.Relaxation.Settled

/-!
# Sections at rest

Sections are at rest if every fragment lies where it belongs, is measured to itself there, and whatever it asks to be
told about has a value in its window. A relaxation of such sections has nothing to do: it measures every fragment to
what it is, keeps every span without an expansion, and queues nothing. -/

namespace SpanLayout

namespace Sections

/-- The value that is asked about can be computed, and lies in the window. -/
structure Grants (ss : Sections Empty) (q : SpanRequest) : Prop where
  pos : 0 < q.id
  distances : ∀ e, q.value.abs = some e → ∀ d ∈ e.distances.2, ss.distance? d.origin d.target = some (ss.extent d)
  window : q.window.contains ((ss.valueOf? q.value).getD unknownValue) = true

structure AtRest (ss : Sections Empty) : Prop where
  measured : ∀ r f, ss.fragment? r = some f →
    f.index = Relaxation.number ss r ∧ f.measureAt f.offset = .done (f, f.requests) ()
  placed : ∀ s ∈ ss, s.block.fragments = Fragment.placeFrom 0 s.block.fragments
  padded : ss.Padded
  lengths : ∀ k, ss.length k < 9223372036854775808
  grants : ∀ r f, ss.fragment? r = some f → ∀ q ∈ f.requests, ss.Grants q

end Sections

/-! ## Measuring -/

namespace Relaxation

/-- A survey that leaves what it measures as it is, reports nothing, and asks only about what satisfies `P`. -/
structure Survey.Leaves {α : Type} (x : Survey α) (as : List α) (diags : Diagnostics) (P : SpanRequest → Prop) :
    Prop where
  measured : x.measured = as
  diags : x.diags = diags
  seeds : ∀ seed ∈ x.seeds, P seed.request

theorem surveyFragments_leaves {P : SpanRequest → Prop} {index offset setters : Nat} {diags : Diagnostics}
    {fs : List (Fragment (Tail Empty))} (hplaced : fs = Fragment.placeFrom offset fs)
    (h : ∀ (i : Nat) (f : Fragment (Tail Empty)), fs[i]? = some f →
      f.index = index + i ∧ f.measureAt f.offset = .done (f, f.requests) () ∧ ∀ q ∈ f.requests, P q) :
    (surveyFragments index offset setters diags fs).Leaves fs diags P := by
  induction fs generalizing index offset setters with
  | nil => exact ⟨rfl, rfl, by simp [surveyFragments]⟩
  | cons f fs ih =>
    rw [Fragment.placeFrom] at hplaced
    obtain ⟨hf, hfs⟩ := List.cons.inj hplaced
    have hoffset : f.offset = offset := congrArg Fragment.offset hf
    obtain ⟨hindex, hm, hq⟩ := h 0 f rfl
    rw [Nat.add_zero] at hindex
    subst hindex hoffset
    have hself : ({ f with index := f.index } : Fragment (Tail Empty)).measureAt f.offset = .done (f, f.requests) () :=
      hm
    have hrest (n : Nat) : (surveyFragments (f.index + 1) f.nextOffset n diags fs).Leaves fs diags P := by
      refine ih hfs fun i g hg => ?_
      obtain ⟨hindex, hg⟩ := h (i + 1) g hg
      exact ⟨by omega, hg⟩
    rw [surveyFragments, hself]
    refine ⟨congrArg (f :: ·) (hrest _).measured, (hrest _).diags, fun seed hseed => ?_⟩
    rcases List.mem_append.1 hseed with hseed | hseed
    · obtain ⟨q, hmem, rfl⟩ := List.mem_map.1 hseed
      exact hq q hmem
    · exact (hrest _).seeds seed hseed

theorem surveySections_leaves {P : SpanRequest → Prop} {index setters : Nat} {diags : Diagnostics} {ss : Sections Empty}
    (hplaced : ∀ s ∈ ss, s.block.fragments = Fragment.placeFrom 0 s.block.fragments)
    (h : ∀ r f, ss.fragment? r = some f →
      f.index = index + number ss r ∧ f.measureAt f.offset = .done (f, f.requests) () ∧ ∀ q ∈ f.requests, P q) :
    (surveySections index setters diags ss).Leaves ss diags P := by
  induction ss generalizing index setters with
  | nil => exact ⟨rfl, rfl, by simp [surveySections]⟩
  | cons s ss ih =>
    have hfirst : (surveyFragments index 0 setters diags s.block.fragments).Leaves s.block.fragments diags P := by
      refine surveyFragments_leaves (hplaced s List.mem_cons_self) fun i f hf => ?_
      obtain ⟨hindex, hf⟩ := h ⟨0, i⟩ f hf
      exact ⟨by simpa [number] using hindex, hf⟩
    have hrest (n : Nat) : (surveySections (index + s.block.fragments.length) n diags ss).Leaves ss diags P := by
      refine ih (fun s' hs' => hplaced s' (List.mem_cons_of_mem s hs')) ?_
      rintro ⟨k, i⟩ f hf
      obtain ⟨hindex, hf⟩ := h ⟨k + 1, i⟩ f hf
      rw [number_succ] at hindex
      exact ⟨by omega, hf⟩
    rw [surveySections]
    dsimp only
    rw [hfirst.measured, hfirst.diags]
    refine ⟨congrArg (s :: ·) (hrest _).measured, (hrest _).diags, fun seed hseed => ?_⟩
    rcases List.mem_append.1 hseed with hseed | hseed
    · exact hfirst.seeds seed hseed
    · exact (hrest _).seeds seed hseed

end Relaxation

/-! ## Watching -/

/-- A span as it was asked for, with a value that can be computed and lies in the window. -/
structure Span.Rests (ss : Sections Empty) (span : Span) : Prop where
  grants : ss.Grants span.seed.request
  window : span.window = span.seed.request.window
  expr : span.expr = span.seed.request.value.abs.map (·.distances.1)
  distances : span.terms.map (·.distance) = (span.seed.request.value.abs.map (·.distances.2)).getD []

theorem Sections.fragment?_of_distance? {ss : Sections Empty} {a b : Location} {x : Int}
    (h : ss.distance? a b = some x) : ∃ f g, ss.fragment? a.fragment = some f ∧ ss.fragment? b.fragment = some g := by
  unfold distance? at h
  split at h
  · obtain ⟨m, hm, h⟩ := Option.bind_eq_some_iff.1 h
    obtain ⟨n, hn, -⟩ := Option.map_eq_some_iff.1 h
    obtain ⟨f, hf, -⟩ := Option.map_eq_some_iff.1 hm
    obtain ⟨g, hg, -⟩ := Option.map_eq_some_iff.1 hn
    exact ⟨f, g, hf, hg⟩
  · cases h

theorem Sections.Grants.measure {ss : Sections Empty} {seed : Seed} (h : ss.Grants seed.request) :
    ∃ span, Span.ofSeed ss seed = .ok span := by
  unfold Span.ofSeed
  cases hv : seed.request.value.abs with
  | none => exact ⟨_, rfl⟩
  | some e =>
    have hterm : ∀ d ∈ e.distances.2, ∃ t, Span.measureTerm ss seed d = .ok t := by
      intro d hd
      have hdist := h.distances e hv d hd
      obtain ⟨f, g, hf, hg⟩ := fragment?_of_distance? hdist
      unfold Span.measureTerm
      rw [hdist, hf, hg]
      exact ⟨_, if_neg fun hid => absurd hid.1 (Int.not_le.2 h.pos)⟩
    cases hm : e.distances.2.mapM (Span.measureTerm ss seed) with
    | error err =>
      obtain ⟨d, hd, herr⟩ := mapM_error hm
      obtain ⟨t, ht⟩ := hterm d hd
      cases herr.symm.trans ht
    | ok terms =>
      dsimp only
      rw [hm]
      exact ⟨_, rfl⟩

namespace Span

theorem rests_ofSeed {ss : Sections Empty} {seed : Seed} (h : ss.Grants seed.request) {span : Span}
    (ho : ofSeed ss seed = .ok span) : span.Rests ss ∧ ∀ t ∈ span.terms, t.length = ss.span t := by
  obtain ⟨rfl, hwindow, -, -, hexpr, hterms⟩ := ofSeed_ok ho
  refine ⟨⟨h, hwindow, hexpr, Relaxation.distances_of_measureTerm hterms⟩, fun t ht => ?_⟩
  obtain ⟨d, hd, hm⟩ := exists_of_forall₂_right hterms ht
  obtain ⟨rfl, -, hlen⟩ := measureTerm_ok hm
  cases hv : span.seed.request.value.abs with
  | none =>
    rw [hv] at hd
    cases hd
  | some e =>
    rw [hv] at hd
    exact Option.some.inj (hlen.symm.trans (h.distances e hv _ hd))

theorem Rests.within {ss : Sections Empty} {span : Span} (h : span.Rests ss)
    (ht : ∀ t ∈ span.terms, t.length = ss.span t) : span.recalc.exceeded = false := by
  have hcount : span.recalc.isCount = false := by
    have hpos := h.grants.pos
    rw [isCount, decide_eq_false_iff_not, Int.not_le]
    exact hpos
  have hin := h.grants.window
  rw [← compute_of_terms h.expr h.distances ht, ← h.window] at hin
  unfold exceeded
  rw [hcount]
  simpa [recalc] using hin

theorem Rests.remeasure {ss : Sections Empty} {span : Span} (h : span.Rests ss) :
    ({ span with terms := span.terms.map (Term.remeasure ss) }.recalc).exceeded = false := by
  have hmap : (span.terms.map (Term.remeasure ss)).map (·.distance) = span.terms.map (·.distance) := by
    rw [List.map_map]
    rfl
  refine Rests.within ⟨h.grants, h.window, h.expr, hmap.trans h.distances⟩ fun u hu => ?_
  obtain ⟨t, ht, rfl⟩ := List.mem_map.1 hu
  have hmem := List.mem_map_of_mem (f := fun t : Term => t.distance) ht
  rw [h.distances] at hmem
  cases hv : span.seed.request.value.abs with
  | none =>
    rw [hv] at hmem
    cases hmem
  | some e =>
    rw [hv] at hmem
    unfold Term.remeasure
    dsimp only
    rw [h.grants.distances e hv _ hmem]
    rfl

end Span

namespace Relaxation

theorem watch_of_grants {s : Relaxation Empty} {seed : Seed} (h : s.sections.Grants seed.request) :
    ∃ span n, span.Rests s.sections ∧ s.watch seed = s.watching seed none n [span] := by
  obtain ⟨span, ho⟩ := h.measure
  obtain ⟨hrests, hterms⟩ := Span.rests_ofSeed h ho
  refine ⟨span.recalc.kept, span.terms.length, ⟨hrests.grants, hrests.window, hrests.expr, hrests.distances⟩, ?_⟩
  rw [watch, ho]
  dsimp only
  rw [if_neg (by rw [hrests.within hterms]; decide)]
  rfl

/-- Watching for what is met changes no fragment and reports nothing. -/
theorem foldl_watch_of_grants {seeds : List Seed} {s : Relaxation Empty}
    (h : ∀ seed ∈ seeds, s.sections.Grants seed.request) (hs : ∀ span ∈ s.spans, span.Rests s.sections) :
    (seeds.foldl watch s).sections = s.sections ∧ (seeds.foldl watch s).diags = s.diags ∧
      (seeds.foldl watch s).others = s.others ∧ ∀ span ∈ (seeds.foldl watch s).spans, span.Rests s.sections := by
  induction seeds generalizing s with
  | nil => exact ⟨rfl, rfl, rfl, hs⟩
  | cons seed seeds ih =>
    obtain ⟨span, n, hspan, he⟩ := watch_of_grants (h seed List.mem_cons_self)
    rw [List.foldl_cons, he]
    refine ih (fun x hx => h x (List.mem_cons_of_mem seed hx)) fun x hx => ?_
    rcases List.mem_append.1 hx with hx | hx
    · exact hs x hx
    · rw [List.mem_singleton.1 hx]
      exact hspan

theorem lay_eq_self {s : Relaxation Empty} (h : s.sections.lay s.diags = (s.sections, s.diags)) : s.lay = s := by
  unfold lay
  rw [h]

theorem others_recheck {s : Relaxation Empty} (h : ∀ span ∈ s.spans, span.Rests s.sections) :
    s.recheck.others = s.others := by
  unfold recheck
  dsimp only
  rw [List.append_right_eq_self, List.filter_eq_nil_iff]
  intro i _
  rw [List.getElem?_map]
  cases hi : s.spans[i]? with
  | none => simp
  | some span => simp [(h span (List.mem_of_getElem? hi)).remeasure]

end Relaxation

/-! ## The whole relaxation -/

namespace Sections

variable {ss : Sections Empty}

theorem lay_self (diags : Diagnostics) (hplaced : ∀ s ∈ ss, s.block.fragments = Fragment.placeFrom 0 s.block.fragments)
    (hpad : ss.Padded) (hb : ∀ k, ss.length k < 9223372036854775808) : ss.lay diags = (ss, diags) := by
  rw [padded_iff] at hpad
  induction ss with
  | nil => rfl
  | cons s ss ih =>
    have hs : s.block.lay diags = (s.block, diags) := by
      rw [Block.lay_of_padded diags (hpad 0) (hb 0), ← hplaced s List.mem_cons_self]
    have hrest := ih (fun s' hs' => hplaced s' (List.mem_cons_of_mem s hs')) (fun k => hpad (k + 1)) fun k => hb (k + 1)
    rw [Sections.lay, hs]
    dsimp only
    rw [hrest]

/-- A relaxation of sections at rest changes nothing, reports nothing and expands nothing. -/
theorem AtRest.relax (h : ss.AtRest) (config : Config) {diags : Diagnostics} (hd : diags.hasErrors = false) :
    ∃ s stats, ss.relax config diags = .done s stats ∧ s.sections = ss ∧ s.diags = diags ∧ stats.expansions = 0 := by
  have hsurvey : (Relaxation.surveySections 0 0 diags ss).Leaves ss diags ss.Grants := by
    refine Relaxation.surveySections_leaves h.placed fun r f hf => ?_
    obtain ⟨hindex, hm⟩ := h.measured r f hf
    exact ⟨by omega, hm, h.grants r f hf⟩
  have hsections : (ss.surveyed config diags).sections = ss := hsurvey.measured
  have hclean : (ss.surveyed config diags).diags = diags := hsurvey.diags
  obtain ⟨hwatched, hdiags, hothers, hspans⟩ :
      (ss.watched config diags).sections = ss ∧ (ss.watched config diags).diags = diags ∧
        (ss.watched config diags).others = [] ∧ ∀ span ∈ (ss.watched config diags).spans, span.Rests ss := by
    have hfold := Relaxation.foldl_watch_of_grants (s := ss.surveyed config diags)
      (by rw [hsections]; exact hsurvey.seeds) (by rw [hsections]; exact fun span hspan => by cases hspan)
    rwa [hsections, hclean] at hfold
  have hlay : (ss.watched config diags).lay = ss.watched config diags := by
    refine Relaxation.lay_eq_self ?_
    rw [hwatched]
    exact lay_self _ h.placed h.padded h.lengths
  have hrecheck : (ss.rechecked config diags).others = [] := by
    rw [rechecked, hlay, Relaxation.others_recheck (by rwa [hwatched]), hothers]
  have hsame : (ss.rechecked config diags).sections = ss ∧ (ss.rechecked config diags).diags = diags := by
    rw [rechecked, hlay]
    exact ⟨hwatched, hdiags⟩
  refine ⟨_, _, relax_of_idle (by rw [hsame.2]; exact hd) hrecheck, hsame.1, hsame.2, ?_⟩
  exact (stats_watched config diags ss).1

end Sections

end SpanLayout
