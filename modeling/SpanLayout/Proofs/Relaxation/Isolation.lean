import SpanLayout.Proofs.Relaxation.Mirror

/-!
# Sections do not interfere

If the spans of a section mention no other section, then what becomes of its fragments depends on the section alone, as
long as the relaxation succeeds.
-/

namespace SpanLayout

section

variable {α : Type}

theorem getElem?_between (before : List α) {own : List α} (after : List α) {i : Nat} (h : i < own.length) :
    (before ++ (own ++ after))[before.length + i]? = own[i]? := by
  rw [List.getElem?_append_right (Nat.le_add_right _ _), Nat.add_sub_cancel_left, List.getElem?_append_left h]

theorem mem_of_not_between {before own after : List α} {j : Nat} {x : α} (hx : (before ++ (own ++ after))[j]? = some x)
    (hj : ¬ (before.length ≤ j ∧ j < before.length + own.length)) : x ∈ before ∨ x ∈ after := by
  by_cases hlt : j < before.length
  · rw [List.getElem?_append_left hlt] at hx
    exact .inl (List.mem_of_getElem? hx)
  · rw [List.getElem?_append_right (by omega), List.getElem?_append_right (by omega)] at hx
    exact .inr (List.mem_of_getElem? hx)

theorem filter_range_between {P Q : Nat → Bool} (a b c : Nat) (h : ∀ i < b, P (a + i) = Q i) :
    ((List.range (a + (b + c))).filter P).filter (fun n => decide (a ≤ n) && decide (n < a + b)) =
      ((List.range b).filter Q).map (a + ·) := by
  rw [List.range_add, List.range_add, List.map_append, List.filter_append, List.filter_append, List.filter_append,
    List.filter_append]
  have hfirst : ((List.range a).filter P).filter (fun n => decide (a ≤ n) && decide (n < a + b)) = [] := by
    refine List.filter_eq_nil_iff.2 fun n hn => ?_
    have := List.mem_range.1 (List.mem_filter.1 hn).1
    simp only [Bool.and_eq_true, decide_eq_true_eq]
    omega
  have hlast : ((((List.range c).map (b + ·)).map (a + ·)).filter P).filter
      (fun n => decide (a ≤ n) && decide (n < a + b)) = [] := by
    refine List.filter_eq_nil_iff.2 fun n hn => ?_
    obtain ⟨i, hi, rfl⟩ := List.mem_map.1 (List.mem_filter.1 hn).1
    obtain ⟨i', -, rfl⟩ := List.mem_map.1 hi
    simp only [Bool.and_eq_true, decide_eq_true_eq]
    omega
  have hown : (((List.range b).map (a + ·)).filter P).filter (fun n => decide (a ≤ n) && decide (n < a + b)) =
      ((List.range b).filter Q).map (a + ·) := by
    rw [List.filter_map, List.filter_map, List.filter_filter]
    congr 1
    refine List.filter_congr fun i hi => ?_
    have := List.mem_range.1 hi
    simp [h i this, this]
  rw [hfirst, hlast, hown, List.nil_append, List.append_nil]

end

variable {κ : Type}

/-- The entry of a setter once its tail has been found. -/
def Setter.located (ss : Sections κ) (x : Setter) : Setter :=
  { x with tailOffset := ((ss.fragment? x.ref).map (·.tailOffset)).getD x.tailOffset }

namespace Relaxation

/-! ## The start of the run -/

/-- The spans that are out of their windows are queued, and the index is that of all spans. -/
structure Poised (s : Relaxation κ) : Prop where
  counts : s.counts = []
  others : s.others = (List.range s.spans.length).filter fun i => s.spans[i]?.any Span.exceeded
  index : s.index = indexOf s.spans

theorem poised_prepare {s : Relaxation κ} (hcounts : s.counts = []) (hothers : s.others = [])
    (hindex : s.index = .empty) : s.recheck.prepare.Poised := by
  obtain ⟨d, hd, -⟩ := s.recheck.prepare_eq
  rw [hd]
  refine ⟨hcounts, ?_, ?_⟩
  · change s.recheck.others = (List.range s.recheck.spans.length).filter fun i => s.recheck.spans[i]?.any Span.exceeded
    rw [spans_recheck, List.length_map]
    unfold recheck
    dsimp only
    rw [hothers, List.length_map, List.nil_append]
    refine List.filter_congr fun i _ => ?_
    rw [List.getElem?_map, List.getElem?_map]
    cases s.spans[i]? with
    | none => rfl
    | some span =>
      simp only [Option.map_some, Option.any_some]
      unfold Span.rechecked
      dsimp only
      split <;> rfl
  · rw [indexed, show s.recheck.index = .empty from hindex]
    rfl

section

variable {k n m : Nat} {s u : Relaxation κ}

theorem Embeds.recheck (h : Embeds k n m s u) : Embeds k n m s.recheck u.recheck := by
  obtain ⟨before, after, hspans, hbefore, hafter⟩ := h.spans
  have helsewhere {spans : List Span} (hk : ∀ span ∈ spans, span.seed.ref.sectionIndex ≠ k) :
      ∀ span ∈ spans.map (Span.rechecked s.sections), span.seed.ref.sectionIndex ≠ k := by
    intro span hspan
    obtain ⟨x, hx, rfl⟩ := List.mem_map.1 hspan
    rw [Span.seed_of_outline (x.outline_rechecked s.sections)]
    exact hk x hx
  refine ⟨h.fragments, ⟨_, _, ?_, helsewhere hbefore, helsewhere hafter⟩, ?_, h.setters, h.ownSetters⟩
  · rw [spans_recheck, spans_recheck, hspans, List.map_append, List.map_append, List.map_map, List.map_map]
    congr 2
    exact List.map_congr_left fun span hspan => Span.rechecked_later h.fragments (h.own span hspan)
  · intro span hspan
    rw [spans_recheck] at hspan
    obtain ⟨x, hx, rfl⟩ := List.mem_map.1 hspan
    exact (h.own x hx).of_outline (x.outline_rechecked u.sections)

theorem Embeds.prepare (h : Embeds k n m s u) : Embeds k n m s.prepare u.prepare := by
  obtain ⟨first, last, hsetters, hlen, hfirst, hlast⟩ := h.setters
  obtain ⟨d, hd, -⟩ := s.prepare_eq
  obtain ⟨d', hd', -⟩ := u.prepare_eq
  rw [hd, hd']
  have hown : u.setters.map (Setter.located s.sections) = u.indexed.setters := by
    refine List.map_congr_left fun x hx => ?_
    rw [Setter.located, Sections.fragment?_later h.fragments (h.ownSetters x hx), Option.map_map]
    rfl
  refine ⟨h.fragments, h.spans, h.own, ⟨first.map (Setter.located s.sections), last.map (Setter.located s.sections), ?_,
    by rw [List.length_map, hlen], ?_, ?_⟩, ?_⟩
  · change s.setters.map (Setter.located s.sections) = _
    rw [hsetters, List.map_append, List.map_append, hown]
  · intro x hx
    obtain ⟨y, hy, rfl⟩ := List.mem_map.1 hx
    exact hfirst y hy
  · intro x hx
    obtain ⟨y, hy, rfl⟩ := List.mem_map.1 hx
    exact hlast y hy
  · intro x hx
    obtain ⟨y, hy, rfl⟩ := List.mem_map.1 hx
    exact h.ownSetters y hy

variable [Directive κ]

theorem poised_prepared (config : Config) (diags : Diagnostics) (ss : Sections κ) :
    (ss.prepared config diags).Poised := by
  obtain ⟨hcounts, hothers, hindex, -⟩ :=
    foldl_watch_effect (ss.surveyed config diags) (surveySections 0 0 diags ss).seeds
  exact poised_prepare (s := (ss.watched config diags).lay) hcounts hothers hindex

theorem Embeds.mirrors (h : Embeds k n m s u) (hs : s.Poised) (hu : u.Poised)
    (hexp : u.stats.expansions ≤ s.stats.expansions) (hbudget : s.config.maxExpansions ≤ u.config.maxExpansions)
    {before after : List Span} (hspans : s.spans = before ++ (u.spans.map (·.later n m) ++ after)) :
    Mirrors ⟨k, n, m, before.length, u.spans.length⟩ s.plan.chart u.plan.chart s u := by
  refine ⟨rfl, rfl, h.fragments, ?_, ?_, ?_, ?_, hexp, hbudget⟩
  · intro i hi
    rw [hspans, ← List.getElem?_map]
    exact getElem?_between before after (by rw [List.length_map]; exact hi)
  · intro i hi
    obtain ⟨first, last, hsetters, rfl, -⟩ := h.setters
    rw [hsetters]
    exact getElem?_between first last hi
  · rw [hs.counts, hu.counts]
    rfl
  · rw [hs.others, hu.others, hspans, List.length_append, List.length_append, List.length_map]
    refine filter_range_between _ _ _ fun i hi => ?_
    rw [getElem?_between before after (by rw [List.length_map]; exact hi), List.getElem?_map]
    cases u.spans[i]? <;> rfl

theorem not_within {c : Chart} (hc : c.Sound) {span : Span} (hspan : span ∈ c.spans) {t : Term} (ht : t ∈ span.terms)
    (ho : t.distance.origin.fragment.sectionIndex = k) (htarget : t.distance.target.fragment.sectionIndex = k)
    {r : FragmentRef} {i : Nat} (hi : c.number? r = some i) (hr : r.sectionIndex ≠ k) : ¬ (t.low ≤ i ∧ i < t.high) := by
  obtain ⟨horigin, hend⟩ := hc.terms span hspan t ht
  have hob := hc.order r _ i _ hi horigin
  have hoc := hc.order r _ i _ hi hend
  have hbefore {l : Location} (hl : l.fragment.sectionIndex = k) : r.Before l.fragment ↔ r.sectionIndex < k := by
    unfold FragmentRef.Before
    omega
  rw [hbefore ho] at hob
  rw [hbefore htarget] at hoc
  unfold Term.low Term.high
  omega

theorem Embeds.fits (h : Embeds k n m s u) (hs : s.Poised) (hu : u.Poised) (hsound : s.plan.chart.Sound)
    {before after : List Span} (hspans : s.spans = before ++ (u.spans.map (·.later n m) ++ after))
    (hbefore : ∀ span ∈ before, span.seed.ref.sectionIndex ≠ k)
    (hafter : ∀ span ∈ after, span.seed.ref.sectionIndex ≠ k) :
    Place.Fits ⟨k, n, m, before.length, u.spans.length⟩ s.plan.chart u.plan.chart := by
  obtain ⟨first, last, hsetters, hlen, hfirst, hlast⟩ := h.setters
  refine ⟨List.length_map _, ?_, ?_, ?_, ?_, hsound.seeds, ?_, ?_⟩
  · intro j span hj hown
    change (s.spans.map Span.outline)[j]? = some span at hj
    rw [List.getElem?_map] at hj
    obtain ⟨x, hx, rfl⟩ := Option.map_eq_some_iff.1 hj
    rw [hspans] at hx
    have hnot : ¬ (before.length ≤ j ∧ j < before.length + (u.spans.map (·.later n m)).length) := by
      simpa [Place.owns] using hown
    rcases mem_of_not_between hx hnot with hmem | hmem
    · exact hbefore x hmem
    · exact hafter x hmem
  · intro span hspan
    obtain ⟨x, hx, rfl⟩ := List.mem_map.1 hspan
    exact (h.own x hx).ref
  · intro j r hj hr
    change (s.setters.map (·.ref))[j]? = some r at hj
    rw [List.getElem?_map] at hj
    obtain ⟨x, hx, rfl⟩ := Option.map_eq_some_iff.1 hj
    by_contra hnot
    rw [hsetters] at hx
    have hnot' : ¬ (first.length ≤ j ∧ j < first.length + u.setters.length) := by
      rw [hlen]
      simpa [Plan.chart, Relaxation.plan] using hnot
    rcases mem_of_not_between hx hnot' with hmem | hmem
    · exact hfirst x hmem hr
    · exact hlast x hmem hr
  · intro r hr
    obtain ⟨x, hx, rfl⟩ := List.mem_map.1 hr
    exact h.ownSetters x hx
  · intro i
    change (s.index.query _ _).filter _ = (u.index.query _ _).map _
    rw [hs.index, hu.index, hspans]
    exact filter_query_indexOf n m i before u.spans after
  · intro r a ha hr hit hhit
    by_contra hown
    rw [Bool.not_eq_false] at hown
    obtain ⟨i, hi, hn⟩ := Place.exists_of_owns hown
    dsimp only at hi hn
    obtain ⟨span, t, hspan, ht, hlow, hhigh⟩ := ((indexed_of_build hs.index).mem a hit.1 hit.2).1 hhit
    have hmem := List.mem_of_getElem? hspan
    change (s.spans.map Span.outline)[hit.1]? = some span at hspan
    rw [List.getElem?_map, hn, hspans, getElem?_between before after (by rw [List.length_map]; exact hi),
      List.getElem?_map] at hspan
    obtain ⟨y, hy, rfl⟩ := Option.map_eq_some_iff.1 hspan
    obtain ⟨x, hx, rfl⟩ := Option.map_eq_some_iff.1 hy
    have hterm := List.mem_of_getElem? ht
    obtain ⟨t', ht', rfl⟩ := List.mem_map.1 (List.mem_of_getElem? ht)
    obtain ⟨ho, htarget⟩ := ((h.own x (List.mem_of_getElem? hx)).later n m).terms t' ht'
    exact not_within hsound hmem hterm ho htarget ha hr ⟨hlow, hhigh⟩

end

end Relaxation

namespace Sections

open Relation

variable [Directive κ] {config : Config} {diags : Diagnostics} {ss : Sections κ}

theorem fresh_prepared (config : Config) (diags : Diagnostics) (ss : Sections κ) :
    (ss.prepared config diags).Fresh config := by
  have hsurveyed : (ss.surveyed config diags).Fresh config := ⟨rfl, rfl⟩
  have hwatched := hsurveyed.watchAll (Relaxation.surveySections 0 0 diags ss).seeds
  have hrechecked : (ss.rechecked config diags).Fresh config := ⟨hwatched.config, hwatched.expansions⟩
  exact hrechecked.prepare

theorem fragmentsOf_prepared (config : Config) (diags d : Diagnostics) (ss : Sections κ) (k : Nat) :
    (ss.prepared config diags).sections.fragmentsOf k =
      (layFragments 0 d ((ss.watched config diags).sections.fragmentsOf k)).1 := by
  obtain ⟨d', hd', -⟩ := (ss.rechecked config diags).prepare_eq
  unfold prepared
  rw [hd']
  exact fragmentsOf_lay _ d _ k

/-- What a successful relaxation makes of a section is what a run makes of it if there is no other. -/
theorem relax_alone [LocalDirective κ] {k : Nat} {t : Relaxation κ} {stats : Stats} (c : Config) (d : Diagnostics)
    (hr : ss.RefsMatch)
    (hin : ∀ seed ∈ (Relaxation.surveySections 0 0 diags ss).seeds, seed.ref.sectionIndex = k → seed.request.StaysIn k)
    (h : ss.relax config diags = .done t stats) (hc : config.maxExpansions ≤ c.maxExpansions) :
    ∃ v n, ReflTransGen Relaxation.Round ((ss.alone k).prepared c d) v ∧ (∀ w, ¬ Relaxation.Round v w) ∧
      t.sections.fragmentsOf k = (layFragments 0 d (v.sections.fragmentsOf k)).1.map (·.later n) := by
  obtain ⟨-, -, -, hend⟩ := relax_done h
  obtain ⟨n, m, hwatch⟩ : ∃ n m, Relaxation.Embeds k n m (ss.watched config diags) ((ss.alone k).watched c d) :=
    Relaxation.embeds_watched hr hin
  have he : Relaxation.Embeds k n m (ss.prepared config diags) ((ss.alone k).prepared c d) := hwatch.lay.recheck.prepare
  obtain ⟨before, after, hspans, hbefore, hafter⟩ := he.spans
  have hs := Relaxation.poised_prepared config diags ss
  have hu := Relaxation.poised_prepared c d (ss.alone k)
  have hfits := he.fits hs hu (charted_prepared hr config diags) hspans hbefore hafter
  have hfresh := fresh_prepared config diags ss
  have hfresh' := fresh_prepared c d (ss.alone k)
  have hmirrors := he.mirrors hs hu (by rw [hfresh.expansions, hfresh'.expansions])
    (by rw [hfresh.config, hfresh'.config]; exact hc) hspans
  obtain ⟨d', hprepared, -⟩ := (ss.rechecked config diags).prepare_eq
  rcases hend with ⟨hidle, rfl⟩ | ⟨-, hrun, -, rfl⟩
  · have hothers : (ss.prepared config diags).others = [] := by
      unfold prepared
      rw [hprepared]
      exact hidle
    obtain ⟨hcounts', hothers'⟩ := hmirrors.idle hs.counts hothers
    refine ⟨_, n, .refl, fun w => (Relaxation.Finish.idle hcounts' hothers').not_round, ?_⟩
    have hsections : (ss.prepared config diags).sections = (ss.rechecked config diags).sections := by
      unfold prepared
      rw [hprepared]
      rfl
    rw [← hsections, he.fragments, fragmentsOf_prepared c d d, layFragments_layFragments]
  · have hcovered : (ss.prepared config diags).config.maxExpansions ≤
        (ss.prepared config diags).stats.expansions + config.maxExpansions := by
      rw [hfresh.config]
      exact Nat.le_add_left _ _
    obtain ⟨x, hx, hfinish⟩ := Relaxation.run_effect hcovered
    obtain ⟨hx', hcounts, hothers⟩ := hfinish.of_clean hrun
    obtain ⟨v, hv, hm⟩ := hmirrors.rounds hfits hx
    obtain ⟨hcounts', hothers'⟩ := hm.idle hcounts hothers
    refine ⟨v, n, hv, fun w => (Relaxation.Finish.idle hcounts' hothers').not_round, ?_⟩
    unfold Relaxation.lay
    rw [hx', fragmentsOf_lay _ d, hm.fragments, layFragments_later]

theorem staysIn_of_alone [LocalDirective κ] {k : Nat} (diags' : Diagnostics) {ss' : Sections κ} (hr : ss.RefsMatch)
    (hr' : ss'.RefsMatch) (halone : ss'.alone k = ss.alone k)
    (hin : ∀ seed ∈ (Relaxation.surveySections 0 0 diags ss).seeds, seed.ref.sectionIndex = k →
    seed.request.StaysIn k) :
    ∀ seed ∈ (Relaxation.surveySections 0 0 diags' ss').seeds, seed.ref.sectionIndex = k → seed.request.StaysIn k := by
  intro seed hseed hk
  let survey := Relaxation.surveySections 0 0 diags (ss.alone k)
  obtain ⟨n, m, hs⟩ : ∃ n m, Relaxation.SurveysAlone k (0 + k) 0 n m _ survey :=
    Relaxation.surveysAlone k hr.zero_add
  obtain ⟨n', m', hs'⟩ : ∃ n m, Relaxation.SurveysAlone k (0 + k) 0 n m _ survey :=
    halone ▸ Relaxation.surveysAlone k hr'.zero_add
  rw [Nat.zero_add] at hs hs'
  obtain ⟨before, after, hseeds, -⟩ := hs.seeds
  obtain ⟨before', after', hseeds', hbefore, hafter⟩ := hs'.seeds
  rw [hseeds', List.mem_append, List.mem_append] at hseed
  rcases hseed with hseed | hseed | hseed
  · exact absurd hk (hbefore seed hseed)
  · obtain ⟨x, hx, rfl⟩ := List.mem_map.1 hseed
    refine hin (x.later n m) ?_ (hs.own.1 x hx)
    rw [hseeds]
    exact List.mem_append_right _ (List.mem_append_left _ (List.mem_map_of_mem hx))
  · exact absurd hk (hafter seed hseed)

end Sections

/-- The fragment without its number in the whole object. -/
def Fragment.unnumbered (f : Fragment (Tail κ)) : Fragment (Tail κ) := { f with index := 0 }

namespace Object

/-- The fragments of section `k` after the object has been finalized. -/
def finalizedBlock {κ : Type} [Directive κ] (o : Object κ) (k : Nat) : Block (Tail κ) :=
  (((o.finalize (.empty 64)).1.sections[k]?).map (·.block)).getD (.empty k)

/-- Code with a jump that is in reach of its target until the next one has been widened. -/
def code {κ : Type} [Directive κ] : Block (Tail κ) :=
  let o := (((Object.empty .standard).addSection ".data" 0).addSection ".text" 0).modifyBlock 1 fun b =>
    ((b.appendTail (.branch (.jump (.sym "near"))) .unknown).appendTail
      (.branch (.jump (.sym "far"))) .unknown).appendGap 125 .unknown
  let o := (o.defineLabel 1 "near" .unknown).state.modifyBlock 1 fun b =>
    (b.appendTail (.align ⟨.const 4, none, none, false, 0, .zeros, none⟩) .unknown).appendGap 100 .unknown
  (o.defineLabel 1 "far" .unknown).state.finalizedBlock 1

/-- A jump that has to be widened, and a padding. -/
def jumpAndPadding : Block (Tail Empty) :=
  let o := ((Object.empty .standard).addSection ".data" 0).modifyBlock 0 fun b =>
    (b.appendTail (.branch (.jump (.sym "there"))) .unknown).appendGap 200 .unknown
  let o := (o.defineLabel 0 "there" .unknown).state.modifyBlock 0 fun b =>
    b.appendTail (.align ⟨.const 64, none, none, false, 0, .zeros, none⟩) .unknown
  o.finalizedBlock 0

/-- The code behind another section. -/
def codeBehind (data : Block (Tail Empty)) (start : Nat) : Object Empty :=
  { (Object.empty .standard : Object Empty) with sections := [⟨".data", start, data⟩, ⟨".text", 4096, code⟩] }

/-- A filler that does not keep to itself: it has a byte for every fragment before it, or one more each time it is told
its offset. -/
inductive Filler where
  | counting
  | growing (len : Nat)

instance : Directive Filler where
  kind _ := "filler"
  setsOffset
    | .counting => false
    | .growing _ => true
  finalize _ _ diags d := .done (d, diags) ()
  measure info
    | .counting => .done (.counting, []) info.index
    | .growing len => .done (.growing len, []) len
  expand info _ _ _
    | .counting => Directive.cannotExpand "filler" info .counting
    | .growing len => .done (.growing (len + 1)) (.settled (len + 1))
  emit _ _ info _ := .ok (.fill 0 info.tailLen)

/-- The lengths of the fragments of section `k` after the relaxation of two sections, if it succeeds. -/
def lengths (first second : Block (Tail Filler)) (k : Nat) : Option (List Nat) :=
  let o : Object Filler := ⟨[⟨".a", 0, first⟩, ⟨".b", 0, second⟩], .empty, .standard⟩
  (o.relax (.empty 64)).result.toOption.map fun _ =>
    ((o.relax (.empty 64)).state.1.sections.fragmentsOf k).map (·.tailLen)

-- More fragments in another section make it longer.
example :
    let filler := (Block.empty 1).appendTail (.other .counting) .unknown
    lengths (Block.empty 0) filler 1 = some [0, 2] ∧
      lengths ((Block.empty 0).appendGap 1 .unknown) filler 1 = some [0, 3] := by
  decide +kernel

-- It is laid out once more if something in another section is expanded.
example :
    let filler := (Block.empty 0).appendTail (.other (.growing 0)) .unknown
    lengths filler (Block.empty 1) 0 = some [0, 1] ∧ lengths filler code 0 = some [0, 2] := by
  decide +kernel

end Object

end SpanLayout
