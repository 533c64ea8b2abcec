import SpanLayout.Proofs.Finalize
import SpanLayout.Proofs.Relaxation.Convergence

/-!
# Budgets

How many expansions a relaxation can need. If no count depends on the layout, nine for each span are enough, whatever
the paddings do. If counts do, some number is enough, unless a count measures a distance over a fragment whose length
follows its offset and which lies behind a repetition with such a count.
-/

namespace SpanLayout

/-! ## Counts -/

/-- Whether the number of copies is known before layout. -/
def Tail.countKnown : Tail Empty → Bool
  | .times count _ _ => count.const?.isSome
  | _ => true

theorem Tail.countRequests_of_known {t : Tail Empty} (h : t.countKnown = true) : t.countRequests = [] := by
  cases t with
  | times count body reps => exact if_pos h
  | gap _ | align _ | origin _ | leb128 _ | branch _ | other _ => rfl

/-- The number of copies in a fragment, if it is not known before layout. -/
def Fragment.awaited? (f : Fragment (Tail Empty)) : Option Expr :=
  match f.tail with
  | some (.times count _ _) => if count.const?.isSome then none else some count
  | _ => none

/-- Whether a distance extends over a fragment. -/
def Distance.Over (d : Distance) (r : FragmentRef) : Prop :=
  d.origin.fragment.sectionIndex = r.sectionIndex ∧ min d.origin.fragment.index d.target.fragment.index ≤ r.index ∧
    r.index < max d.origin.fragment.index d.target.fragment.index

instance (d : Distance) (r : FragmentRef) : Decidable (d.Over r) :=
  inferInstanceAs (Decidable (_ ∧ _ ∧ _))

/-- Whether the step did not find the budget used up. -/
def Relaxation.Step.inBudget : Relaxation.Step Empty → Bool
  | .exhausted _ => false
  | _ => true

namespace Sections

variable {config : Config} {diags : Diagnostics} {ss : Sections Empty}

/-- The number of copies of every repetition is known before layout. -/
def CountsKnown (ss : Sections Empty) : Prop := ∀ r f, ss.fragment? r = some f → f.tail.all Tail.countKnown = true

instance (ss : Sections Empty) : Decidable ss.CountsKnown :=
  inferInstanceAs (Decidable (∀ r f, ss.fragment? r = some f → f.tail.all Tail.countKnown = true))

/-- The number of copies in the fragment is the value of `count`, which is not known before layout. -/
def Awaited (ss : Sections Empty) (r : FragmentRef) (count : Expr) : Prop :=
  ∃ f, ss.fragment? r = some f ∧ f.awaited? = some count

/-- No count measures a distance over a fragment that follows its offset and lies behind a repetition whose number of
copies is not known before layout. -/
def CountsClear (ss : Sections Empty) : Prop :=
  ∀ r count, ss.Awaited r count → ∀ r' g, ss.fragment? r' = some g → g.setsOffset = true →
    r'.sectionIndex = r.sectionIndex → r.index < r'.index →
      ∀ r'' count', ss.Awaited r'' count' → ∀ d ∈ count'.distances.2, ¬ d.Over r'

instance (ss : Sections Empty) : Decidable ss.CountsClear :=
  decidable_of_iff (∀ r f, ss.fragment? r = some f → f.awaited?.isSome = true → ∀ r' g, ss.fragment? r' = some g →
    g.setsOffset = true → r'.sectionIndex = r.sectionIndex → r.index < r'.index → ∀ r'' h, ss.fragment? r'' = some h →
      ∀ count ∈ h.awaited?, ∀ d ∈ count.distances.2, ¬ d.Over r')
    ⟨fun h r _ ⟨f, hf, ha⟩ r' g hg hset hsec hlt r'' count ⟨f', hf', ha'⟩ =>
        h r f hf (by rw [ha]; rfl) r' g hg hset hsec hlt r'' f' hf' count ha',
      fun h r f hf ha r' g hg hset hsec hlt r'' f' hf' count ha' =>
        h r _ ⟨f, hf, Option.eq_some_of_isSome ha⟩ r' g hg hset hsec hlt r'' count ⟨f', hf', ha'⟩⟩

theorem count_of_seed (hflat : ss.Flat) (hd : (ss.surveyed config diags).diags.hasErrors = false) {seed : Seed}
    (hseed : seed ∈ (Relaxation.surveySections 0 0 diags ss).seeds) (hid : seed.request.id ≤ 0) :
    ∃ r f, ss.fragment? r = some f ∧ seed.ref = f.ref ∧ seed.request ∈ f.countRequests := by
  obtain ⟨r, f, g, requests, hf, -, hm, hq, href, -⟩ := Relaxation.mem_seeds_surveySections hd hseed
  rw [(hm.requests (hflat r f hf)).2] at hq
  rcases List.mem_append.mp hq with hq | hq
  · have := Fragment.requests_pos hq
    omega
  · exact ⟨r, f, hf, href, hq⟩

theorem awaited_of_count (hr : ss.RefsMatch) (hflat : ss.Flat)
    (hd : (ss.rechecked config diags).diags.hasErrors = false)
    {x : Span} (hx : x ∈ (ss.prepared config diags).plan.spans) (hcount : x.isCount = true) :
    ∃ count, ss.Awaited x.seed.ref count ∧ ∀ t ∈ x.terms, t.distance ∈ count.distances.2 := by
  have hdw := hasErrors_watched hd
  obtain ⟨hds, -, -⟩ := watching_watched hr hdw
  obtain ⟨y, hy, rfl⟩ := List.mem_map.mp hx
  obtain ⟨span, hspan, ho, -⟩ := spans_prepared hy
  obtain ⟨hseed, hderived⟩ := derived_watched hr hdw span hspan
  have hid : span.seed.request.id ≤ 0 := by
    rw [← Span.seed_of_outline ho]
    exact of_decide_eq_true hcount
  obtain ⟨r, f, hf, href, hq⟩ := count_of_seed hflat hds hseed hid
  obtain ⟨tail, htail, hq⟩ := Fragment.exists_of_mem_countRequests hq
  obtain ⟨count, body, reps, rfl, hconst, hq⟩ := Tail.mem_countRequests hq
  refine ⟨count, ⟨f, ?_, ?_⟩, fun t ht => ?_⟩
  · rw [show y.outline.seed = y.seed from rfl, Span.seed_of_outline ho, href, hr r f hf]
    exact hf
  · unfold Fragment.awaited?
    rw [htail]
    dsimp only
    rw [hconst]
    rfl
  · obtain ⟨u, hu, rfl⟩ := List.mem_map.mp ht
    obtain ⟨e, he, hdist⟩ := Span.derived_outline ho.symm hderived u hu
    rw [Span.seed_of_outline ho, hq] at he
    obtain rfl := Option.some.inj he
    exact hdist

/-- Where no count measures a distance over a setter behind a count's repetition, no term of a count extends over one.
-/
theorem clear_prepared (hr : ss.RefsMatch) (hflat : ss.Flat) (hclear : ss.CountsClear)
    (hl : (ss.watched config diags).lay.sections.InWords (ss.watched config diags).measured)
    (hd : (ss.rechecked config diags).diags.hasErrors = false) : (ss.prepared config diags).plan.Clear := by
  obtain ⟨hds, -, -⟩ := watching_watched hr (hasErrors_watched hd)
  have hsound := (consistent_prepared hr hl hd).1.tracked.sound
  intro x hx hcount r hsetter hsec a ha y hy hcount' t ht ⟨hlow, hhigh⟩
  obtain ⟨count, hawaited, -⟩ := awaited_of_count hr hflat hd hx hcount
  obtain ⟨count', hawaited', hdist⟩ := awaited_of_count hr hflat hd hy hcount'
  -- The setter is one of the fragments that were measured.
  obtain ⟨b, hb, hset⟩ := (hsound.mem_setters r).mp (List.mem_of_mem_drop hsetter)
  obtain rfl := Option.some.inj (ha.symm.trans hb)
  rw [show (ss.prepared config diags).plan.frame? = (ss.surveyed config diags).sections.frame? from
    (frame?_prepared hr hd hl.lengths).2] at hb
  rw [show (ss.surveyed config diags).sections.frame? r = _ from Relaxation.frame?_surveySections hds r] at hb
  obtain ⟨c, hc, rfl⟩ := Option.map_eq_some_iff.mp hb
  obtain ⟨g, hg, rfl⟩ := exists_fragment_of_frame? hc
  -- It lies behind the repetition of the first count.
  obtain ⟨m, hm⟩ := List.mem_iff_getElem?.mp hsetter
  rw [List.getElem?_drop] at hm
  obtain ⟨hplace, hbefore⟩ := hsound.seeds x hx
  have hafter : x.seed.ref.Before r := by
    have hnot : ¬ r.Before x.seed.ref := fun hb => absurd ((hbefore _ r hm).mpr hb) (by omega)
    have hne : x.seed.ref ≠ r := by
      rintro rfl
      obtain ⟨b, hb, hunset, -⟩ := hplace
      obtain rfl := Option.some.inj (ha.symm.trans hb)
      exact absurd (hunset.symm.trans hset) (by decide)
    exact (FragmentRef.before_or_before hne).resolve_right hnot
  -- Numbers are in the order of places.
  obtain ⟨hsame, ⟨u, hu, hui⟩, v, hv, hvi⟩ := hsound.terms _ hy t ht
  have hru := hsound.order r _ _ u ha hu
  have hrv := hsound.order r _ _ v ha hv
  refine hclear x.seed.ref count hawaited r g hg hset hsec ?_ y.seed.ref count' hawaited' t.distance (hdist t ht) ?_
  · unfold FragmentRef.Before at hafter
    omega
  · unfold Term.low at hlow
    unfold Term.high at hhigh
    unfold FragmentRef.Before at hru hrv
    unfold Distance.Over
    omega

/-! ## Budgets that last -/

/-- No step of the run finds the budget used up. -/
def BudgetLasts (config : Config) (diags : Diagnostics) (ss : Sections Empty) : Prop :=
  (ss.prepared config diags).diags.hasErrors = false →
    ∀ s, (ss.prepared config diags).Draining s → ∀ t, s.step ≠ .exhausted t

theorem BudgetLasts.limit_not_mem (h : ss.BudgetLasts config diags) (hd : diags.errors = []) {e : Error}
    (he : (ss.relax config diags).result = .error e) (n : Nat) : .one (.relaxationLimit n) ∉ e.parts :=
  (gains_relax fun _ hprepared => h hprepared).limit_not_mem hd (toError?_of_error he) n

theorem cost_le_of_countsKnown (hr : ss.RefsMatch) (hflat : ss.Flat) (hs : ss.Sized) (hc : ss.CountsKnown)
    (hd : (ss.rechecked config diags).diags.hasErrors = false) :
    (∀ span ∈ (ss.prepared config diags).spans, span.isCount = false) ∧
      (ss.prepared config diags).cost ⟨(ss.surveyed config diags).sections, fun _ => 0, 1⟩ ≤
        9 * (Relaxation.surveySections 0 0 diags ss).seeds.length := by
  obtain ⟨hds, -, -⟩ := watching_watched hr (hasErrors_watched hd)
  obtain ⟨horigin, hadmitted, -, hlength⟩ := registered_prepared hr hflat hs hd
  have hform : ∀ span ∈ (ss.prepared config diags).spans, span.isCount = false := by
    intro span hspan
    by_contra hcount
    have hid : span.seed.request.id ≤ 0 := of_decide_eq_true ((Bool.not_eq_false _).mp hcount)
    obtain ⟨r, f, hf, -, hq⟩ := count_of_seed hflat hds (horigin span hspan) hid
    obtain ⟨t, ht, hq⟩ := Fragment.exists_of_mem_countRequests hq
    have hknown := hc r f hf
    rw [ht, Option.all_some] at hknown
    rw [Tail.countRequests_of_known hknown] at hq
    cases hq
  refine ⟨hform, ?_⟩
  have hprice : ∀ n ∈ Finset.range (ss.prepared config diags).spans.length,
      (ss.prepared config diags).priceAt ⟨(ss.surveyed config diags).sections, fun _ => 0, 1⟩ n ≤ 9 := by
    intro n hn
    obtain ⟨span, hspan⟩ : ∃ span, (ss.prepared config diags).spans[n]? = some span :=
      ⟨_, List.getElem?_eq_getElem (Finset.mem_range.mp hn)⟩
    have hmem := List.mem_of_getElem? hspan
    rw [Relaxation.priceAt_of_some hspan]
    by_cases hstatus : span.status = .inactive
    · rw [Span.price_of_inactive hstatus]
      exact Nat.zero_le 9
    · obtain ⟨f, hf, ha⟩ := hadmitted span hmem (hform span hmem)
      rw [Span.price_of_form hstatus (hform span hmem), hf]
      simpa using ha.headroom_le
  calc (ss.prepared config diags).cost ⟨(ss.surveyed config diags).sections, fun _ => 0, 1⟩
      ≤ (Finset.range (ss.prepared config diags).spans.length).card * 9 := Finset.sum_le_card_nsmul _ _ _ hprice
    _ ≤ 9 * (Relaxation.surveySections 0 0 diags ss).seeds.length := by
        rw [Finset.card_range]
        simp only [List.length_nil, Nat.add_zero] at hlength
        omega

theorem draining_of_countsKnown (hr : ss.RefsMatch) (hflat : ss.Flat) (hs : ss.Sized) (hc : ss.CountsKnown)
    (hw : ss.RunsInWords config diags) (hd : (ss.rechecked config diags).diags.hasErrors = false) {s : Relaxation Empty}
    (h : (ss.prepared config diags).Draining s) :
    s.stats.expansions ≤ 9 * (Relaxation.surveySections 0 0 diags ss).seeds.length ∧
      s.stats.spans = (Relaxation.surveySections 0 0 diags ss).seeds.length ∧
      (9 * (Relaxation.surveySections 0 0 diags ss).seeds.length ≤ config.maxExpansions →
      ∀ t, s.step ≠ .exhausted t) := by
  obtain ⟨hform, hcost⟩ := cost_le_of_countsKnown hr hflat hs hc hd
  have hplan : ∀ x ∈ (ss.prepared config diags).plan.spans, x.isCount = false := by
    intro x hx
    obtain ⟨span, hspan, rfl⟩ := List.mem_map.mp hx
    exact hform span hspan
  have hcovers : (⟨(ss.surveyed config diags).sections, fun _ => 0, 1⟩ : Tariff).Covers
      (ss.prepared config diags).plan := by
    constructor
    · intro n x hx hcount
      exact absurd ((hplan x (List.mem_of_getElem? hx)).symm.trans hcount) (by decide)
    · intro x _
      rw [Plan.load_zero]
      exact Nat.one_pos
  obtain ⟨hexp, hspans, hlasts⟩ := draining_within hr hflat hs hw hd rfl hcovers h
  exact ⟨hexp.trans hcost, hspans, fun hb => hlasts (hcost.trans hb)⟩

/-- Where no count measures a distance over a setter behind a count's repetition, some budget lasts. -/
theorem exists_budget (hr : ss.RefsMatch) (hflat : ss.Flat) (hs : ss.Sized) (hclear : ss.CountsClear)
    (diags : Diagnostics) :
    ∃ n, ∀ config : Config, n ≤ config.maxExpansions →
      ss.FitsThroughout config diags → ss.BudgetLasts config diags := by
  by_cases hex : ∃ config, (ss.prepared config diags).diags.hasErrors = false ∧ ss.RunsInWords config diags
  · obtain ⟨config, hd, hw⟩ := hex
    have hdr := hasErrors_rechecked hd
    obtain ⟨p, hp, hcovers⟩ := Relaxation.exists_covers (ss.surveyed config diags).sections
      (consistent_prepared hr hw.laid hdr).1.tracked.indexed (clear_prepared hr hflat hclear hw.laid hdr)
      (registered_prepared hr hflat hs hdr).apart (closingEdges_prepared hd)
    refine ⟨(ss.prepared config diags).cost p, fun c hc hsizes hdc s hdraining => ?_⟩
    have hdrc := hasErrors_rechecked hdc
    have hwc := runsInWords hr hflat hdrc hsizes
    -- The weights do not depend on the limits.
    have hsame := (prepared_withConfig c config diags ss).2
    have hcost : (ss.prepared c diags).cost p = (ss.prepared config diags).cost p := by rw [hsame]; rfl
    have hplan : (ss.prepared c diags).plan = (ss.prepared config diags).plan := by rw [hsame]; rfl
    have hcoversc : p.Covers (ss.prepared c diags).plan := by
      rw [hplan]
      exact hcovers
    have hpc : p.sections = (ss.surveyed c diags).sections := hp
    obtain ⟨-, -, hlasts⟩ := draining_within hr hflat hs hwc hdrc hpc hcoversc hdraining
    exact hlasts (Nat.le_trans (Nat.le_of_eq hcost) hc)
  · refine ⟨0, fun config _ hsizes hd => ?_⟩
    exact absurd ⟨config, hd, runsInWords hr hflat (hasErrors_rechecked hd) hsizes⟩ hex

/-- A relaxation that ends within some budget, and whose layouts are all small, stays within words with any budget. -/
theorem fitsThroughout_of_drainsWithin {n : Nat} (hs : ss.strays = [])
    (hsurveyed : (ss.surveyed config diags).sections.Small) (hlaid : (ss.watched config diags).lay.sections.Small)
    (hd : (ss.prepared config diags).drainsWithin
      (fun s => decide s.sections.Small && s.step.inBudget) n = true) (c : Config) : ss.FitsThroughout c diags := by
  obtain ⟨hwatched, hprepared⟩ := prepared_withConfig c config diags ss
  have hrun : ∀ s, (ss.prepared config diags).Draining s → s.sections.Small ∧ s.step.inBudget = true := by
    intro s h
    have hp := h.of_drainsWithin hd
    rw [Bool.and_eq_true, decide_eq_true_eq] at hp
    exact hp
  refine fitsThroughout_of_small hs hsurveyed ?_ fun s h => ?_
  · rw [hwatched]
    exact hlaid
  · rw [hprepared] at h
    obtain ⟨t, ht, rfl⟩ := h.of_withConfig fun u hu v he => by
      have := (hrun u hu).2
      rw [he] at this
      cases this
    exact (hrun t ht).1

end Sections

/-! ## Objects -/

namespace Object

/-- No step of the relaxation finds the budget used up, and no error says that one did. -/
def StaysInBudget (o : Object Empty) (diags : Diagnostics) : Prop :=
  o.sections.BudgetLasts o.config diags ∧ (diags.errors = [] → ∀ e, (o.relax diags).result = .error e →
    ∀ n, .one (.relaxationLimit n) ∉ e.parts)

theorem staysInBudget_of_lasts {o : Object Empty} {diags : Diagnostics} (h : o.sections.BudgetLasts o.config diags) :
    o.StaysInBudget diags :=
  ⟨h, fun hd _ he n => h.limit_not_mem hd he n⟩

/-- If no number of copies depends on the layout, a relaxation makes at most nine expansions for each span, however the
paddings grow and shrink, and so many are enough. -/
theorem expansions_le_nine_mul_spans (o : Object Empty) (diags : Diagnostics) (hb : o.Built) (hflat : o.sections.Flat)
    (hc : o.sections.CountsKnown) (hw : o.sections.FitsThroughout o.config diags) :
    let stats := (o.sections.relax o.config diags).state.stats
    stats.expansions ≤ 9 * stats.spans ∧ (9 * stats.spans ≤ o.config.maxExpansions → o.StaysInBudget diags) := by
  have hrun : (o.sections.rechecked o.config diags).diags.hasErrors = false → ∀ s,
      (o.sections.prepared o.config diags).Draining s → _ := fun hd s hs =>
    Sections.draining_of_countsKnown hb.refsMatch hflat (fun r f hf => hb.sized hf) hc
      (Sections.runsInWords hb.refsMatch hflat hd hw) hd hs
  obtain ⟨hexp, hspans⟩ := Sections.expansions_relax_le fun hd _ s hs => ⟨(hrun hd s hs).1, (hrun hd s hs).2.1⟩
  refine ⟨hspans ▸ hexp, fun hbudget => staysInBudget_of_lasts fun hd s hs => ?_⟩
  exact (hrun (Sections.hasErrors_rechecked hd) s hs).2.2 (hspans ▸ hbudget)

/-- Jumps to a near and to a far label, a number that depends on how far the near one is, and paddings. The first jump
is in reach of the near label until the second one has been widened. -/
def paddedJumps : Object Empty :=
  let o := ((Object.empty .standard).addSection ".text" 4096).modifyBlock 0 fun b =>
    (b.appendTail (.branch (.jump (.sym "near"))) .unknown).appendTail (.branch (.jump (.sym "far"))) .unknown
  let o := (o.defineLabel 0 "here" .unknown).state.modifyBlock 0 fun b =>
    (((b.appendTail (.leb128 ⟨.minus (.sym "near") (.sym "here"), false, 1⟩) .unknown).appendTail
      (.align ⟨.const 16, none, some (.const 8), false, 0, .zeros, none⟩) .unknown).appendTail
      (.times (.const 2) ((Block.empty 0).appendTail (.branch (.jump (.sym "near"))) .unknown) 0)
      .unknown).appendGap 119 .unknown
  let o := (o.defineLabel 0 "near" .unknown).state.modifyBlock 0 fun b =>
    (b.appendGap 100 .unknown).appendTail (.origin ⟨512, 0⟩) .unknown
  (o.defineLabel 0 "far" .unknown).state

theorem built_paddedJumps : paddedJumps.Built := by
  refine Built.defineLabel (Built.modifyBlock (Built.defineLabel (Built.modifyBlock (Built.defineLabel
    (Built.modifyBlock ((built_empty _).addSection _ _) 0 fun b hb => ?_) _ _ _) 0 fun b hb => ?_) _ _ _) 0
    fun b hb => ?_) _ _ _
  · exact (hb.appendTail (by decide)).appendTail (by decide)
  · exact (((hb.appendTail (by decide)).appendTail (by decide)).appendTail (by decide)).appendGap _ _
  · exact (hb.appendGap _ _).appendTail (by decide)

theorem expansions_le_nine_mul_spans_paddedJumps :
    let o := (paddedJumps.finalize (.empty 64)).1
    o.Built ∧ o.sections.Flat ∧ o.sections.CountsKnown ∧ o.sections.FitsThroughout o.config (.empty 64) ∧
      (o.sections.rechecked o.config (.empty 64)).others = [0, 1] ∧
      let stats := (o.sections.relax o.config (.empty 64)).state.stats
      stats.expansions ≤ 9 * stats.spans ∧
      (9 * stats.spans ≤ o.config.maxExpansions → o.StaysInBudget (.empty 64)) := by
  have hb := built_paddedJumps.finalize (.empty 64)
  have hflat : (paddedJumps.finalize (.empty 64)).1.sections.Flat := by decide +kernel
  have hc : (paddedJumps.finalize (.empty 64)).1.sections.CountsKnown := by decide +kernel
  have hw : (paddedJumps.finalize (.empty 64)).1.sections.FitsThroughout .standard (.empty 64) := by
    refine @Sections.fitsThroughout_of_drainsWithin .standard (.empty 64) _ 4 (by decide +kernel) (by decide +kernel)
      (by decide +kernel) ?_ _
    rw [Sections.prepared_of_sorted hb.refsMatch (by decide +kernel) (by decide +kernel)]
    decide +kernel
  exact ⟨hb, hflat, hc, hw, by decide +kernel, expansions_le_nine_mul_spans _ (.empty 64) hb hflat hc hw⟩

/-- The object with another limit on expansions. -/
def withBudget (n : Nat) (o : Object Empty) : Object Empty :=
  { o with config := { o.config with maxExpansions := n } }

/-- If nothing follows its offset, some budget is enough, whatever the numbers of copies depend on. -/
theorem exists_budget_of_no_setters (o : Object Empty) (diags : Diagnostics) (hb : o.Built) (hflat : o.sections.Flat)
    (hs : ∀ r f, o.sections.fragment? r = some f → f.setsOffset = false) :
    ∃ n, ∀ m, n ≤ m → o.sections.FitsThroughout (o.withBudget m).config diags →
      (o.withBudget m).StaysInBudget diags := by
  have hclear : o.sections.CountsClear := fun _ _ _ r' g hg hset => absurd (hset.symm.trans (hs r' g hg)) (by decide)
  obtain ⟨n, hn⟩ := Sections.exists_budget hb.refsMatch hflat (fun r f hf => hb.sized hf) hclear diags
  exact ⟨n, fun m hm hw => staysInBudget_of_lasts (hn (o.withBudget m).config hm hw)⟩

/-- As many bytes as a jump to a near label is long, before that jump, which is in reach of its target until the next
jump has been widened. -/
def countedJumps : Object Empty :=
  let o := ((Object.empty .standard).addSection ".text" 4096).modifyBlock 0 fun b =>
    b.appendTail (.times (.minus (.sym "b") (.sym "a")) ((Block.empty 0).appendBytes [0x90]) 0) .unknown
  let o := (o.defineLabel 0 "a" .unknown).state.modifyBlock 0 fun b =>
    b.appendTail (.branch (.jump (.sym "near"))) .unknown
  let o := (o.defineLabel 0 "b" .unknown).state.modifyBlock 0 fun b =>
    (b.appendTail (.branch (.jump (.sym "far"))) .unknown).appendGap 125 .unknown
  let o := (o.defineLabel 0 "near" .unknown).state.modifyBlock 0 fun b => b.appendGap 100 .unknown
  (o.defineLabel 0 "far" .unknown).state

theorem built_countedJumps : countedJumps.Built := by
  refine Built.defineLabel (Built.modifyBlock (Built.defineLabel (Built.modifyBlock (Built.defineLabel
    (Built.modifyBlock (Built.defineLabel (Built.modifyBlock ((built_empty _).addSection _ _) 0 fun b hb => ?_) _ _ _) 0
    fun b hb => ?_) _ _ _) 0 fun b hb => ?_) _ _ _) 0 fun b hb => ?_) _ _ _
  · exact hb.appendTail (by decide)
  · exact hb.appendTail (by decide)
  · exact (hb.appendTail (by decide)).appendGap _ _
  · exact hb.appendGap _ _

theorem exists_budget_of_no_setters_countedJumps :
    let o := (countedJumps.finalize (.empty 64)).1
    o.Built ∧ o.sections.Flat ∧ (∀ r f, o.sections.fragment? r = some f → f.setsOffset = false) ∧
      (∀ m, o.sections.FitsThroughout (o.withBudget m).config (.empty 64)) ∧ ¬ o.sections.CountsKnown ∧
      ∃ n, ∀ m, n ≤ m → (o.withBudget m).StaysInBudget (.empty 64) := by
  have hb := built_countedJumps.finalize (.empty 64)
  have hflat : (countedJumps.finalize (.empty 64)).1.sections.Flat := by decide +kernel
  have hs : ∀ r f, (countedJumps.finalize (.empty 64)).1.sections.fragment? r = some f → f.setsOffset = false := by
    decide +kernel
  have hw : ∀ m, (countedJumps.finalize (.empty 64)).1.sections.FitsThroughout
      ((countedJumps.finalize (.empty 64)).1.withBudget m).config (.empty 64) := by
    refine fun m => @Sections.fitsThroughout_of_drainsWithin .standard (.empty 64) _ 8 (by decide +kernel)
      (by decide +kernel) (by decide +kernel) ?_ _
    rw [Sections.prepared_of_sorted hb.refsMatch (by decide +kernel) (by decide +kernel)]
    decide +kernel
  obtain ⟨n, hn⟩ := exists_budget_of_no_setters _ (.empty 64) hb hflat hs
  exact ⟨hb, hflat, hs, hw, by decide +kernel, n, fun m hm => hn m hm (hw m)⟩

end Object

end SpanLayout
