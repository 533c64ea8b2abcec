import SpanLayout.Proofs.Relaxation.Approach
import SpanLayout.Proofs.Relaxation.Direct
import SpanLayout.Proofs.Relaxation.LongBranches

/-!
# Overlaps

An origin that lies before the end of what stands in front of it is reported. Where what fits a form fits it in all
smaller layouts too, fragments only take the forms that they have in every solution, so an overlap says that there is
none. Where a branch goes over an origin, it may be widened for a distance that shrinks later, and the overlap may be
due to that. -/

namespace SpanLayout

/-! ## Reports of overlaps -/

theorem Fragment.Reshaped.steady {f g : Fragment (Tail Empty)} (h : f.Reshaped g) (hf : f.steady = true) :
    g.steady = true := by
  rw [steady_iff] at hf ⊢
  exact ⟨(congrArg Frame.setsOffset h.frame).trans hf.1, h.steadyInside hf.2⟩

namespace Relaxation

theorem reshaped_watch (s : Relaxation Empty) (seed : Seed) : s.sections.Reshaped (s.watch seed).sections := by
  unfold watch
  split
  · exact .refl _
  · dsimp only
    split
    · split
      · exact .refl _
      · rename_i f hf
        have hset (id old new : Int) : s.sections.Reshaped
            (s.sections.setFragment seed.ref (f.expand id old new).state) :=
          Sections.reshaped_setFragment hf (.expand .refl id old new)
        split
        · exact hset _ _ _
        · exact hset _ _ _
        · split <;> exact hset _ _ _
    · exact .refl _

theorem adds_foldl_watch {seeds : List Seed} {s : Relaxation Empty}
    (h : ∀ seed ∈ seeds, ∀ f, s.sections.fragment? seed.ref = some f → f.steady = true) :
    s.diags.Adds (fun c => c.isOverlap = false) (seeds.foldl watch s).diags := by
  -- The first expansions never find an overlap, whether they fail or not.
  induction seeds generalizing s with
  | nil => exact .refl _
  | cons seed seeds ih =>
    have hwatch : s.diags.Adds (fun c => c.isOverlap = false) (s.watch seed).diags :=
      adds_watch s seed (fun e => Span.ofSeed_error_of (fun _ => rfl) fun _ _ => rfl) (fun f hf id old new e he => by
        obtain ⟨c, hc, -, hsteady⟩ := f.expand_failure id old new he
        exact ⟨c, hc, hsteady (h seed List.mem_cons_self f hf)⟩) fun _ => rfl
    refine hwatch.trans (ih fun seed' hseed' f hf => ?_)
    obtain ⟨g, hg, hgf⟩ := reshaped_watch s seed _ f hf
    exact hgf.steady (h seed' (List.mem_cons_of_mem seed hseed') g hg)

theorem diags_exhausted {s t : Relaxation Empty} (hs : s.step = .exhausted t) :
    t.diags = s.diags.report (.one (.relaxationLimit s.config.maxExpansions)) := by
  rcases s.step_effect with ⟨hi, -⟩ | ⟨n, s', -, -, hreq, ht | ⟨span, -, -, hx⟩⟩
  · exact nomatch hi.symm.trans hs
  · exact nomatch ht.symm.trans hs
  rcases hx with ⟨-, ht⟩ | ⟨-, -, ht⟩ | ⟨-, -, ht⟩
  · exact nomatch ht.symm.trans hs
  · obtain rfl := Step.exhausted.inj (ht.symm.trans hs)
    exact congrArg (fun d : Diagnostics => d.report _) hreq.diags
  · exact nomatch ht.symm.trans hs

/-! ## Below a solution -/

/-- The relaxation has reported nothing, and its forms are not larger than those of a solution. -/
structure Below (base goal : Sections Empty) (s : Relaxation Empty) : Prop where
  clean : s.diags.hasErrors = false
  consistent : s.Consistent
  steady : s.sections.Steady
  words : goal.InWords s.measured
  approaches : s.Approaches base goal

namespace Below

variable {ss base goal : Sections Empty} {s t : Relaxation Empty}

theorem settled (h : s.Below base goal) (hs : s.step = .settled t) : t.Below base goal := by
  obtain ⟨n, span, he⟩ := h.consistent.settles hs
  obtain ⟨s', -, -, hreq, ht⟩ := he.follows
  have hd : t.diags.hasErrors = false := by
    rw [ht, show ((s'.setSpan n span.woken).countRecalcs 1).diags = s.diags from hreq.diags]
    exact h.clean
  have hplan := (h.consistent.kept (.inl hs) hd).1
  refine ⟨hd, h.consistent.settled he, he.sections ▸ h.steady, ?_, h.approaches.settled hs⟩
  rw [measured_of_plan (congrArg Plan.spans hplan)]
  exact h.words

theorem expanded (h : s.Below base goal) (hp : ss.Prospect base goal) (hs : s.step = .expanded t) :
    t.Below base goal := by
  have hgoal := hp.solved.candidate.padded
  have hpad := h.consistent.padded
  have hwords := Sections.InWords.of_atMost h.approaches.under.atMost hpad hgoal h.words
  obtain ⟨n, span, f, hn, hqueued, hexceeded, hf, hcases⟩ := h.consistent.expands_or_fails hs
  obtain ⟨⟨y, hy, -⟩, -, hset⟩ := h.approaches.expand hp h.consistent.upheld hpad hwords (List.mem_of_getElem? hn)
    (by simp [hqueued]) hexceeded hf
  rcases hcases with ⟨e, he, -⟩ | ⟨x, he⟩
  · cases he.symm.trans hy
  · obtain ⟨u, hu, hsections, hdiags, -, hmem, ht⟩ := h.consistent.renewed h.steady hwords he
    have hseed : (span.woken.expanded x.window).seed = span.seed := Span.seed_expanded x.window span.woken
    obtain ⟨hfollow, hlength⟩ := follow_atMost hgoal h.words.lengths hu (hsections ▸ h.approaches.under.atMost) hmem
      (by rw [hsections, hseed]; exact hf) (Fragment.frame_expand span.id span.current span.compute f)
      (by rw [hsections, hseed]; exact hset.atMost)
    rw [← ht] at hfollow hlength
    have hd : t.diags.hasErrors = false := by
      rw [hfollow, hdiags]
      exact h.clean
    obtain ⟨n', span', f', htries⟩ := h.consistent.upheld.tries hs
    refine ⟨hd, ?_, h.steady.reshaped (h.consistent.reshaped (.inr hs) hd), ?_,
      h.approaches.tried hp h.consistent.upheld hpad hwords htries⟩
    · exact (h.consistent.expanded h.steady hwords he hd fun k => Nat.lt_of_le_of_lt (hlength k) (h.words.lengths k)).1
    · rw [measured_of_plan (congrArg Plan.spans (h.consistent.kept (.inr hs) hd).1)]
      exact h.words

theorem draining (h : s.Below base goal) (hp : ss.Prospect base goal) (hd : Draining s t) : t.Below base goal := by
  induction hd with
  | start => exact h
  | step _ hs ih =>
    rcases hs with hs | hs
    · exact ih.settled hs
    · exact ih.expanded hp hs

end Below

end Relaxation

/-! ## The phases -/

namespace Sections

variable {config : Config} {diags : Diagnostics} {ss goal : Sections Empty}

theorem relax_of_failed (hd : (ss.surveyed config diags).diags.hasErrors = false)
    (hw : (ss.watched config diags).diags.hasErrors = true) :
    (ss.relax config diags).result = (ss.watched config diags).diags.toResult (ss.watched config diags).stats := by
  unfold relax
  refine (congrArg Attempt.result (unlessFailed_of_clean hd _)).trans ?_
  rcases unlessFailed_ends (ss.watched config diags) _ with ⟨he, -⟩ | ⟨-, hclean⟩
  · exact congrArg Attempt.result he
  · cases hw.symm.trans hclean

theorem relax_of_cyclic (hd : (ss.rechecked config diags).diags.hasErrors = false)
    (ho : (ss.rechecked config diags).others ≠ []) (hp : (ss.prepared config diags).diags.hasErrors = true) :
    (ss.relax config diags).result = (ss.prepared config diags).diags.toResult (ss.prepared config diags).stats := by
  have hw := hasErrors_watched hd
  unfold relax
  refine (congrArg Attempt.result (unlessFailed_of_clean (hasErrors_surveyed hw) _)).trans ?_
  refine (congrArg Attempt.result (unlessFailed_of_clean hw _)).trans ?_
  refine (congrArg Attempt.result (unlessFailed_of_clean (s := (ss.watched config diags).lay) hd _)).trans ?_
  refine (congrArg Attempt.result (if_neg ho)).trans ?_
  rcases unlessFailed_ends (ss.prepared config diags) _ with ⟨he, -⟩ | ⟨-, hclean⟩
  · exact congrArg Attempt.result he
  · cases hp.symm.trans hclean

theorem Prospect.seed (h : ss.Prospect (ss.surveyed config diags).sections goal) (hr : ss.RefsMatch)
    (hd : (ss.surveyed config diags).diags.hasErrors = false) {seed : Seed}
    (hseed : seed ∈ (Relaxation.surveySections 0 0 diags ss).seeds) :
    (∃ f, (ss.surveyed config diags).sections.fragment? seed.ref = some f ∧ f.Asks seed.request) ∧
      ∀ e, seed.request.value.abs = some e → ∀ l ∈ e.locs, goal.position l < 2 ^ 63 := by
  obtain ⟨r, f, g, requests, hf, hg, hm, hq, href, -⟩ := Relaxation.mem_seeds_surveySections hd hseed
  have hflat := h.fits.flat r f hf
  rw [hr r f hf] at href
  refine ⟨⟨g, href ▸ hg, hm.asks hflat hq⟩, fun e he l hl => ?_⟩
  rw [(hm.requests hflat).2] at hq
  exact h.solved.words r f hf _ hq e he l hl

theorem Prospect.watched (h : ss.Prospect (ss.surveyed config diags).sections goal) (hr : ss.RefsMatch)
    (hd : (ss.watched config diags).diags.hasErrors = false) :
    (ss.watched config diags).Approaches (ss.surveyed config diags).sections goal ∧
      goal.InWords (ss.watched config diags).measured := by
  have hds := hasErrors_surveyed hd
  have hbase := h.beneath.atMost
  constructor
  · have hnone : ∀ span ∈ (ss.surveyed config diags).spans, span.Asked (ss.surveyed config diags).sections := by
      intro span hspan
      cases hspan
    refine (Relaxation.Watching.induct (P := fun seeds s => s.Approaches (ss.surveyed config diags).sections goal ∧
        s.sections.offset? = (ss.surveyed config diags).sections.offset? ∧
        s.sections.frame? = (ss.surveyed config diags).sections.frame? ∧
        ∀ seed ∈ seeds, seed ∈ (Relaxation.surveySections 0 0 diags ss).seeds)
      (watching_surveyed hr hds) (fun seed hseed => placed_surveyed hr hds hseed) hd
      ⟨⟨h.beneath.refl_left, h.beneath, hnone⟩, rfl, rfl, fun _ hseed => hseed⟩ ?_).1
    rintro seed seeds s f hf - hd' hsame ⟨hs, hoff, hframe, hseeds⟩
    obtain ⟨hasks, hpos⟩ := h.seed hr hds (hseeds seed List.mem_cons_self)
    refine ⟨hs.watch h (Relaxation.placed_surveySections hds) hoff hframe hasks (fun e he l hl => ?_) hf hd',
      hsame.offset?.trans hoff, hsame.frame?.trans hframe, fun seed' hseed' =>
      hseeds seed' (List.mem_cons_of_mem seed hseed')⟩
    exact Nat.lt_of_le_of_lt (hbase.position_le h.solved.candidate.padded h.start.padded l) (hpos e he l hl)
  · refine ⟨fun k => Nat.lt_of_lt_of_le (h.solved.small k) (by decide), fun l hl => ?_⟩
    obtain ⟨span, hspan, hl⟩ := List.mem_flatMap.mp hl
    obtain ⟨t, ht, hl⟩ := List.mem_flatMap.mp hl
    obtain ⟨hseed, hderived⟩ := derived_watched hr hd span hspan
    obtain ⟨e, he, hdist⟩ := hderived t ht
    obtain ⟨horigin, htarget⟩ := Expr.mem_distances hdist
    refine (h.seed hr hds hseed).2 e he l ?_
    rcases List.mem_cons.mp hl with rfl | hl
    · exact horigin
    · rw [List.mem_singleton.mp hl]
      exact htarget

/-- Unless the first expansions fail, laying them out reports nothing, and the queues are drained below the solution. -/
theorem Prospect.prepared (h : ss.Prospect (ss.surveyed config diags).sections goal) (hr : ss.RefsMatch)
    (hs : ss.Steady) (hd : (ss.watched config diags).diags.hasErrors = false) :
    (ss.rechecked config diags).diags.hasErrors = false ∧ ((ss.prepared config diags).diags.hasErrors = false →
      (ss.prepared config diags).Below (ss.surveyed config diags).sections goal) := by
  obtain ⟨happroaches, hwords⟩ := h.watched hr hd
  have hgoal := h.solved.candidate.padded
  obtain ⟨hlay, hlen⟩ := happroaches.under.atMost.lay hgoal hwords.lengths (ss.watched config diags).diags
  have hdr : (ss.rechecked config diags).diags.hasErrors = false := by
    show (ss.watched config diags).lay.diags.hasErrors = false
    rwa [show (ss.watched config diags).lay.diags = (ss.watched config diags).diags from hlay]
  have hlaid := happroaches.lay
  have hpad : (ss.watched config diags).lay.sections.Padded :=
    padded_lay hdr fun k => Nat.lt_of_le_of_lt (hlen k) (hwords.lengths k)
  have hlaidWords := InWords.of_atMost hlaid.under.atMost hpad hgoal hwords
  obtain ⟨hconsistent, hmeasured⟩ := consistent_prepared hr hlaidWords hdr
  refine ⟨hdr, fun hclean => ⟨hclean, hconsistent, steady_prepared hr hs hlaidWords hdr, hmeasured ▸ hwords, ?_⟩⟩
  exact hlaid.congr (sections_prepared config diags ss) fun _ hx => spans_prepared hx

/-- A relaxation of sections that have a solution reports no overlap. -/
theorem SolvedBy.overlap_not_mem (h : ss.SolvedBy goal) (hfits : ss.FitsBelow) (hr : ss.RefsMatch) (hs : ss.Steady)
    (hsized : ss.Sized) (hd : diags.hasErrors = false) {e : Error} (he : (ss.relax config diags).result = .error e)
    {c : Cause} (hc : c.isOverlap = true) : .one c ∉ e.parts := by
  obtain ⟨hdiags, hcandidate, hbeneath⟩ := h.surveyed hr hs hsized hfits.lengthens config hd
  have hp : ss.Prospect (ss.surveyed config diags).sections goal := ⟨h, hfits, hcandidate, hbeneath⟩
  have hds : (ss.surveyed config diags).diags.hasErrors = false := by rwa [hdiags]
  -- Nothing but other errors was added to none.
  have hspared {d d' : Diagnostics} (hadds : d.Adds (fun c => c.isOverlap = false) d') (hclean : d.hasErrors = false)
      {stats : Stats} (hresult : d'.toResult stats = .error e) : .one c ∉ e.parts := by
    obtain ⟨herrors, -⟩ : d.errors = [] ∧ d.dropped = 0 := by simpa [Diagnostics.hasErrors] using hclean
    refine hadds.not_mem herrors (Diagnostics.toError?_of_toResult hresult) (by rw [hc]; decide) ?_
    rintro n rfl
    cases hc
  by_cases hw : (ss.watched config diags).diags.hasErrors = true
  · rw [relax_of_failed hds hw] at he
    refine hspared (Relaxation.adds_foldl_watch fun seed hseed f hf => ?_) hds he
    obtain ⟨a, ha, hns, -⟩ := (placed_surveyed hr hds hseed).frame
    obtain ⟨f', hf', rfl⟩ := exists_fragment_of_frame? ha
    obtain rfl := Option.some.inj (hf.symm.trans hf')
    exact (Fragment.steady_iff f).mpr ⟨hns, steady_surveyed hs hds _ f hf⟩
  · obtain ⟨hdr, hbelow⟩ := hp.prepared hr hs (by simpa using hw)
    by_cases ho : (ss.rechecked config diags).others = []
    · rw [relax_of_idle hdr ho] at he
      cases he
    by_cases hcyclic : (ss.prepared config diags).diags.hasErrors = true
    · rw [relax_of_cyclic hdr ho hcyclic] at he
      exact hspared (Relaxation.adds_checkCycles (fun _ => rfl) (ss.rechecked config diags).indexed) hdr he
    have hclean : (ss.prepared config diags).diags.hasErrors = false := by simpa using hcyclic
    rw [relax_of_queued hclean ho] at he
    rcases Relaxation.run_reaches config.maxExpansions (.start : (ss.prepared config diags).Draining _)
      with hrun | ⟨s, hdrain, hx⟩
    · have hend := (hbelow hclean).draining hp hrun
      have hlay : ((ss.prepared config diags).run config.maxExpansions).lay.diags.hasErrors = false := by
        rw [show Relaxation.diags (Relaxation.lay _) = _ from
          (hend.approaches.under.atMost.lay hp.solved.candidate.padded hend.words.lengths _).1]
        exact hend.clean
      rw [unlessFailed_of_clean hend.clean, unlessFailed_of_clean hlay] at he
      cases he
    · have hend := (hbelow hclean).draining hp hdrain
      rcases unlessFailed_ends ((ss.prepared config diags).run config.maxExpansions) _ with ⟨hfail, -⟩ | ⟨-, hnone⟩
      · rw [hfail, Relaxation.diags_exhausted hx] at he
        exact hspared ((Diagnostics.Adds.refl s.diags).report ⟨_, rfl, rfl⟩) hend.clean he
      · rw [Relaxation.diags_exhausted hx] at hnone
        cases hnone.symm.trans (Diagnostics.hasErrors_report_one _ _)

end Sections

/-! ## Objects -/

theorem Fragment.candidate_inForm {form : Form} {f : Fragment (Tail Empty)}
    (h : f.tail.all (fun t => t.branching || t.setsOffset) = true)
    (hlong : ∀ b, f.tail = some (.branch b) → b.form = .long → form = .long) : f.Candidate (f.inForm form) := by
  unfold inForm
  cases ht : f.tail with
  | none => exact .plain ⟨rfl, .inl ⟨ht, rfl⟩, rfl⟩
  | some t =>
    rw [ht] at h
    refine .plain ⟨rfl, .inr ⟨t, t.inForm form, ht, rfl, ?_⟩, ?_⟩
    · cases t with
      | branch b =>
        cases form with
        | short =>
          rw [Tail.inForm, Branch.inForm_of_ne_long fun hb => by cases hlong b ht hb]
          exact .same rfl
        | long => exact .long b
      | leb128 _ | times _ _ _ => cases h
      | other d => cases d
      | _ => exact .same rfl
    · cases t with
      | leb128 _ | times _ _ _ => cases h
      | other d => cases d
      | align _ | origin _ => trivial
      | _ => exact rfl

namespace Object

/-- If what fits a form fits it in all smaller layouts, an origin is found to overlap what stands in front of it only if
it does so in every layout: there are no forms and no numbers of copies for which all values fit, all counts are right
and all origins lie behind what stands in front of them. -/
theorem no_solution_of_originOverlap (o : Object Empty) (diags diags' : Diagnostics) (hb : o.Built)
    (hd : (o.finalize diags).2.hasErrors = false) (hd' : diags'.hasErrors = false)
    (hfits : (o.finalize diags).1.sections.FitsBelow) {e : Error}
    (he : ((o.finalize diags).1.relax diags').result = .error e) {target current : Nat} {pos : SourcePos}
    (hoverlap : .one (.originOverlap target current pos) ∈ e.parts) :
    ¬∃ goal, (o.finalize diags).1.sections.SolvedBy goal := by
  rintro ⟨goal, h⟩
  have hbuilt := hb.finalize diags
  exact h.overlap_not_mem hfits hbuilt.refsMatch (steady_finalize hd) (fun _ _ hf => hbuilt.sized hf) hd' he rfl
    hoverlap

/-- A jump that does not reach its target in its short form, and an origin for which there is room only if it does. The
gap before the origin has as many bytes as the jump has. -/
def tightOrigin : Object Empty :=
  let o := (Object.empty .standard).addSection ".text" 0
  let o := (o.defineLabel 0 "start" .unknown).state.modifyBlock 0 fun b =>
    b.appendTail (.branch (.jump (.sym "far"))) .unknown
  let o := (o.defineLabel 0 "next" .unknown).state.modifyBlock 0 fun b =>
    ((b.appendGap 200 .unknown).appendTail (.times (.minus (.sym "next") (.sym "start"))
      ((Block.empty 0).appendBytes [144]) 0) .unknown)
  (o.defineLabel 0 "far" .unknown).state.modifyBlock 0 fun b => b.appendTail (.origin ⟨206, 0⟩) .unknown

theorem built_tightOrigin : tightOrigin.Built := by
  refine Built.modifyBlock (Built.defineLabel (Built.modifyBlock (Built.defineLabel (Built.modifyBlock
    (Built.defineLabel ((built_empty _).addSection _ _) _ _ _) 0 fun b hb => ?_) _ _ _) 0 fun b hb => ?_) _ _ _) 0
    fun b hb => ?_
  · exact hb.appendTail (by decide)
  · exact (hb.appendGap _ _).appendTail (by decide)
  · exact hb.appendTail (by decide)

theorem no_solution_of_originOverlap_tightOrigin :
    let p := (tightOrigin.finalize (.empty 64)).1
    tightOrigin.Built ∧ (tightOrigin.finalize (.empty 64)).2.hasErrors = false ∧ p.sections.FitsBelow ∧
      (p.relax (.empty 64)).result = .error (.one (.originOverlap 206 207 .unknown)) ∧
      ¬∃ goal, p.sections.SolvedBy goal := by
  have hd : (tightOrigin.finalize (.empty 64)).2.hasErrors = false := by decide +kernel
  have hdirect : (tightOrigin.finalize (.empty 64)).1.sections.Direct := by decide +kernel
  have he : ((tightOrigin.finalize (.empty 64)).1.relax (.empty 64)).result =
      .error (.one (.originOverlap 206 207 .unknown)) := by decide +kernel
  exact ⟨built_tightOrigin, hd, hdirect.fitsBelow, he, no_solution_of_originOverlap tightOrigin (.empty 64) (.empty 64)
    built_tightOrigin hd rfl hdirect.fitsBelow he (List.mem_singleton.mpr rfl)⟩

/-- Two jumps over a gap. The first one has to be long. The second one goes to an origin, for which there is room if the
second one is short. -/
def crossedOrigin : Object Empty :=
  let o := ((Object.empty .standard).addSection ".text" 0).modifyBlock 0 fun b =>
    (((b.appendTail (.branch (.jump (.sym "far"))) .unknown).appendTail
      (.branch (.jump (.sym "near"))) .unknown).appendGap 127 .unknown).appendTail (.origin ⟨134, 0⟩) .unknown
  let o := (o.defineLabel 0 "near" .unknown).state.modifyBlock 0 fun b => b.appendGap 10 .unknown
  (o.defineLabel 0 "far" .unknown).state

/-- The second jump is widened since the padding in front of the origin is still there when both jumps are looked at.
Then the origin overlaps the gap, though there would have been room if only the first one had been widened. -/
theorem originOverlap_despite_solution :
    let p := (crossedOrigin.finalize (.empty 64)).1
    (crossedOrigin.finalize (.empty 64)).2.hasErrors = false ∧
      (p.relax (.empty 64)).result = .error (.one (.originOverlap 134 137 .unknown)) ∧
      p.sections.SolvedBy (p.sections.inForms {⟨0, 1⟩}) := by
  intro p
  have hkinds : ∀ r f, p.sections.fragment? r = some f → f.tail.all (fun t => t.branching || t.setsOffset) = true ∧
      f.isLong = false := by decide +kernel
  have hpadded : ∀ r f, (p.sections.inForms {⟨0, 1⟩}).fragment? r = some f →
      f.tail.all (fun t => !t.setsOffset || t.padding? ((p.sections.inForms {⟨0, 1⟩}).begins r + f.fixedLen) =
      some f.tailLen)
        = true := by decide +kernel
  have hcounts : ∀ r f, (p.sections.inForms {⟨0, 1⟩}).fragment? r = some f → f.tail.all Tail.plain = true := by
    decide +kernel
  have hwords : ∀ r f, p.sections.fragment? r = some f → ∀ q ∈ f.requests ++ f.countRequests,
      ∀ l ∈ q.value.abs.elim [] Expr.locs, (p.sections.inForms {⟨0, 1⟩}).position l < 2 ^ 63 := by decide +kernel
  refine ⟨by decide +kernel, by decide +kernel, ⟨fun r => ?_, fun r f hf t ht hs => ?_, by decide +kernel⟩,
    by decide +kernel, fun r g count body n hg ht => ?_, fun k => ?_, fun r f hf q hq e he l hl => ?_⟩
  · rw [Sections.fragment?_inForms]
    cases hf : p.sections.fragment? r with
    | none => exact .inl ⟨rfl, rfl⟩
    | some f =>
      obtain ⟨hkind, hshort⟩ := hkinds r f hf
      refine .inr ⟨f, _, rfl, rfl, Fragment.candidate_inForm hkind fun b ht hb => ?_⟩
      rw [Fragment.isLong, ht] at hshort
      simp [hb] at hshort
  · have := hpadded r f hf
    rw [ht] at this
    simpa [hs] using this
  · have hp := hcounts r g hg
    rw [ht] at hp
    cases hp
  · cases k with
    | zero => decide +kernel
    | succ k => exact (by decide : 0 < 2 ^ 63 - 1)
  · exact hwords r f hf q hq l (by rwa [he])

end Object

end SpanLayout
