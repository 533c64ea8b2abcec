import SpanLayout.Proofs.Relaxation.Guarded

/-!
# Least layouts

A relaxation of an object made of branches succeeds if it may make as many expansions as there are branches. It leaves
exactly those branches long that have to be: those that were long at first, and those that would not reach their targets
in any layout where all short branches do.
-/

namespace SpanLayout

/-! ## The budget -/

/-- Whether a fragment ends with a branch. -/
def Fragment.isBranch (f : Fragment (Tail Empty)) : Bool :=
  match f.tail with
  | some (.branch _) => true
  | _ => false

/-- The number of branches. -/
def Sections.branchCount (ss : Sections Empty) : Nat := (ss.map fun s => s.block.fragments.countP Fragment.isBranch).sum

theorem Fragment.length_own_le (f : Fragment (Tail Empty)) (h : f.tail.all Tail.branching = true) :
    f.own.length ≤ if f.isBranch then 1 else 0 := by
  unfold own isBranch
  cases ht : f.tail with
  | none => exact Nat.le_refl 0
  | some t =>
    rw [ht] at h
    cases t with
    | gap _ => exact Nat.le_refl 0
    | align _ | origin _ | leb128 _ | times _ _ _ => cases h
    | other d => exact nomatch d
    | branch b =>
      show b.measure.state.2.length ≤ 1
      unfold Branch.measure
      dsimp only [Attempt.done]
      split <;> simp

namespace Relaxation

theorem length_seeds_surveyFragments (index offset setters : Nat) (diags : Diagnostics)
    {fs : List (Fragment (Tail Empty))} (h : ∀ f ∈ fs, f.tail.all Tail.branching = true) :
    (surveyFragments index offset setters diags fs).seeds.length ≤ fs.countP Fragment.isBranch := by
  induction fs generalizing index offset setters with
  | nil => exact Nat.le_refl 0
  | cons f fs ih =>
    have hf := h f List.mem_cons_self
    obtain ⟨len, hm, -⟩ := Fragment.measureAt_branching (f := { f with index }) hf offset
    have hown : ({ f with index } : Fragment (Tail Empty)).own.length ≤ if f.isBranch then 1 else 0 :=
      f.length_own_le hf
    rw [surveyFragments]
    dsimp only
    rw [hm, List.length_append, List.length_map, List.countP_cons]
    have := ih (index + 1) (({ f with index, offset, tailLen := len } : Fragment (Tail Empty)).nextOffset)
      (if ({ f with index, offset, tailLen := len } : Fragment (Tail Empty)).setsOffset then setters + 1 else setters)
      fun g hg => h g (List.mem_cons_of_mem f hg)
    exact Nat.add_comm _ _ ▸ Nat.add_le_add this hown

theorem length_seeds_surveySections (index setters : Nat) (diags : Diagnostics) {ss : Sections Empty}
    (h : ∀ s ∈ ss, ∀ f ∈ s.block.fragments, f.tail.all Tail.branching = true) :
    (surveySections index setters diags ss).seeds.length ≤ ss.branchCount := by
  induction ss generalizing index setters diags with
  | nil => exact Nat.le_refl 0
  | cons s ss ih =>
    rw [surveySections]
    dsimp only
    rw [List.length_append, Sections.branchCount, List.map_cons, List.sum_cons]
    exact Nat.add_le_add (length_seeds_surveyFragments _ _ _ _ (h s List.mem_cons_self))
      (ih _ _ _ fun s' hs' => h s' (List.mem_cons_of_mem s hs'))

end Relaxation

namespace Sections

variable {config : Config} {diags : Diagnostics} {ss : Sections Empty}

theorem cost_le_branchCount (hr : ss.RefsMatch) (hsized : ss.Sized) (h : ss.Branching) (hd : diags.hasErrors = false)
    (hb : ∀ k, (ss.surveyed config diags).sections.length k < 2 ^ 63) :
    (ss.prepared config diags).cost ⟨(ss.surveyed config diags).sections, fun _ => 0, 1⟩ ≤ ss.branchCount := by
  obtain ⟨hdr, -⟩ := guarded_rechecked hr h hd hb
  obtain ⟨-, hguarded⟩ := guarded_prepared hr h hd hb
  have hlength := (registered_prepared hr h.flat hsized hdr).length
  have hprice : ∀ n ∈ Finset.range (ss.prepared config diags).spans.length,
      (ss.prepared config diags).priceAt ⟨(ss.surveyed config diags).sections, fun _ => 0, 1⟩ n ≤ 1 := by
    intro n hn
    obtain ⟨span, hspan⟩ : ∃ span, (ss.prepared config diags).spans[n]? = some span :=
      ⟨_, List.getElem?_eq_getElem (Finset.mem_range.mp hn)⟩
    have hmem := List.mem_of_getElem? hspan
    rw [Relaxation.priceAt_of_some hspan]
    by_cases hstatus : span.status = .inactive
    · rw [Span.price_of_inactive hstatus]
      exact Nat.zero_le 1
    · obtain ⟨-, f, b, -, hf, hbranch⟩ := hguarded.watched span hmem
      have htail : f.spanTail? span.id = some (.branch b) := by
        rw [Fragment.spanTail?_of_plain (by rw [hbranch]; rfl), hbranch]
      rw [Span.price_of_form hstatus (hguarded.isCount hmem), hf, Option.elim_some, Fragment.headroom_of_spanTail htail]
      exact Nat.le_refl 1
  calc (ss.prepared config diags).cost ⟨(ss.surveyed config diags).sections, fun _ => 0, 1⟩
      ≤ (Finset.range (ss.prepared config diags).spans.length).card * 1 := Finset.sum_le_card_nsmul _ _ _ hprice
    _ ≤ (Relaxation.surveySections 0 0 diags ss).seeds.length := by
        rw [Finset.card_range, Nat.mul_one]
        exact hlength
    _ ≤ ss.branchCount := Relaxation.length_seeds_surveySections 0 0 diags (forall_fragments h.tails)

theorem branching_lasts (hr : ss.RefsMatch) (hsized : ss.Sized) (h : ss.Branching) (hd : diags.hasErrors = false)
    (hw : ss.StaysBelow config diags) (hbudget : ss.branchCount ≤ config.maxExpansions) {s t : Relaxation Empty}
    (hs : (ss.prepared config diags).Draining s) : s.step ≠ .exhausted t := by
  have hb := hw _ .surveyed
  obtain ⟨hdr, -⟩ := guarded_rechecked hr h hd hb
  obtain ⟨-, hguarded⟩ := guarded_prepared hr h hd hb
  have hwords := runsInWords hr h.flat hdr (h.fitsThroughout hw)
  have hcovers : (⟨(ss.surveyed config diags).sections, fun _ => 0, 1⟩ : Tariff).Covers
      (ss.prepared config diags).plan := by
    constructor
    · intro n x hx hcount
      obtain ⟨span, hspan, rfl⟩ := List.mem_map.mp (List.mem_of_getElem? hx)
      exact absurd ((hguarded.isCount hspan).symm.trans hcount) (by decide)
    · intro x _
      rw [Plan.load_zero]
      exact Nat.one_pos
  obtain ⟨-, -, hlasts⟩ := draining_within hr h.flat hsized hwords hdr rfl hcovers hs
  exact hlasts ((cost_le_branchCount hr hsized h hd hb).trans hbudget) t

/-! ## The end -/

/-- The forms of `tt` have grown from those of `base` as far as they have to, and no further. -/
structure Least (base tt : Sections Empty) : Prop where
  grown : base.Under tt
  meets : tt.Meets
  under : ∀ goal : Sections Empty, base.Under goal → goal.Meets → tt.Under goal

theorem Meets.lay (h : ss.Meets) (diags : Diagnostics) (hnone : ∀ r f, ss.fragment? r = some f → f.setsOffset = false) :
    (ss.lay diags).1.Meets := by
  have hposition (l : Location) : (ss.lay diags).1.position l = ss.position l := by
    rw [position, position, begins, begins, (lay_of_not_setsOffset diags hnone).2, Fragment.take_placeFrom,
      Fragment.sumLen_placeFrom]
  intro r g hg q hq d hd
  rw [fragment?_lay_of_not_setsOffset diags hnone] at hg
  obtain ⟨f, hf, rfl⟩ := Option.map_eq_some_iff.mp hg
  rw [extent, hposition, hposition]
  exact h r f hf q hq d hd

section

variable (hr : ss.RefsMatch) (h : ss.Branching) (hd : diags.hasErrors = false) (hw : ss.StaysBelow config diags)
include hr h hd hw

theorem guarded_of_draining {s : Relaxation Empty} (hs : (ss.prepared config diags).Draining s) :
    s.diags.hasErrors = false ∧ s.Consistent ∧ s.Guarded (ss.surveyed config diags).sections [] := by
  obtain ⟨hdr, -⟩ := guarded_rechecked hr h hd (hw _ .surveyed)
  obtain ⟨hdp, hguarded⟩ := guarded_prepared hr h hd (hw _ .surveyed)
  have hwords := runsInWords hr h.flat hdr (h.fitsThroughout hw)
  have hupheld := (consistent_prepared hr hwords.laid hdr).1.upheld
  obtain ⟨hdiags, hs'⟩ := hguarded.draining (h.surveyed config hd) hupheld (fun u hu => hw _ (.draining hu)) hs
  have hclean : s.diags.hasErrors = false := by rwa [hdiags]
  exact ⟨hclean, (consistent_of_draining hr h.steady hwords.stays hs hclean).1, hs'⟩

theorem least_of_drained {s : Relaxation Empty} (hs : (ss.prepared config diags).Draining s) (hidle : s.queued = 0) :
    (ss.surveyed config diags).sections.Least s.sections := by
  have hlen (u : Relaxation Empty) (hu : (ss.prepared config diags).Draining u) : ∀ k, u.sections.length k < 2 ^ 63 :=
    hw _ (.draining hu)
  obtain ⟨hdr, -⟩ := guarded_rechecked hr h hd (hw _ .surveyed)
  obtain ⟨-, hc, hguarded⟩ := guarded_of_draining hr h hd hw hs
  have hstart := (guarded_of_draining hr h hd hw (s := ss.prepared config diags) .start).2.1
  refine ⟨hguarded.grown, hguarded.meets hc hidle (hlen s hs), fun goal hgoal hmeets => ?_⟩
  have hseeds : ∀ seed ∈ (Relaxation.surveySections 0 0 diags ss).seeds,
      ∃ d, seed.Direct (ss.surveyed config diags).sections d := by
    intro seed hseed
    obtain ⟨d, -, -, hdirect, -⟩ := @direct_of_seed config diags ss hr h hd seed hseed
    exact ⟨d, hdirect⟩
  have htowards := towards_prepared hr hdr hseeds (under_surveyed h hd) (hw _ .surveyed) (hw _ .laid) hmeets hgoal
  exact (htowards.draining hmeets hstart.upheld hlen hs).under

/-- A relaxation of branches that has the budget for it succeeds, and leaves the least forms. -/
theorem relax_branching (hsized : ss.Sized) (hbudget : ss.branchCount ≤ config.maxExpansions) :
    ∃ t stats, ss.relax config diags = .done t stats ∧ (ss.surveyed config diags).sections.Least t.sections := by
  obtain ⟨hdw, -⟩ := guarded_watched hr h hd (hw _ .surveyed)
  obtain ⟨hdr, -⟩ := guarded_rechecked hr h hd (hw _ .surveyed)
  obtain ⟨hdp, -⟩ := guarded_prepared hr h hd (hw _ .surveyed)
  by_cases ho : (ss.rechecked config diags).others = []
  · refine ⟨_, _, relax_of_idle hdr ho, ?_⟩
    rw [← sections_prepared]
    exact least_of_drained hr h hd hw .start (queued_prepared hr hdw ho)
  · have hrun : (ss.prepared config diags).Draining ((ss.prepared config diags).run config.maxExpansions) := by
      rcases Relaxation.run_reaches config.maxExpansions (.start : (ss.prepared config diags).Draining _)
        with hrun | ⟨s, hs, he⟩
      · exact hrun
      · exact absurd he (branching_lasts hr hsized h hd hw hbudget hs)
    obtain ⟨hclean, hc, hguarded⟩ := guarded_of_draining hr h hd hw hrun
    have hexp := (stats_prepared config diags ss).1
    obtain ⟨-, hidle⟩ := Relaxation.run_drains config.maxExpansions .start
      (by rw [config_prepared, hexp, Nat.zero_add]) hclean
    obtain ⟨hlay, hlaid⟩ := hguarded.lay (h.surveyed config hd)
    have hdl : ((ss.prepared config diags).run config.maxExpansions).lay.diags.hasErrors = false := by rwa [hlay]
    have hnone : ∀ r f, ((ss.prepared config diags).run config.maxExpansions).sections.fragment? r = some f →
        f.setsOffset = false := fun _ _ hf => hguarded.setsOffset (h.surveyed config hd) hf
    have hleast := least_of_drained hr h hd hw hrun hidle
    have hrelax : ss.relax config diags = .done ((ss.prepared config diags).run config.maxExpansions).lay
        ((ss.prepared config diags).run config.maxExpansions).lay.stats := by
      rw [relax_of_queued hdp ho, unlessFailed_of_clean hclean, unlessFailed_of_clean hdl]
    refine ⟨_, _, hrelax, hlaid.grown, hleast.meets.lay _ hnone, fun goal hgoal hmeets => ?_⟩
    refine (repadded_lay hdl fun k => ?_).under_left (hleast.under goal hgoal hmeets)
    rw [length_lay_of_not_setsOffset _ hnone]
    exact hw _ (.draining hrun) k

end

end Sections

end SpanLayout
