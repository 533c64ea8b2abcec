import SpanLayout.Proofs.Provenance
import SpanLayout.Proofs.Relaxation.Budget
import SpanLayout.Proofs.Tail.Remeasure

/-!
# What a relaxation leaves alone

Only the spans that measuring asked for expand a fragment, and they belong to fields of unknown width and to branches.
So what measuring has settled for good, the widths of known values and the copies of known counts, is still so in the
end. -/

namespace SpanLayout

/-- Every fragment is in the form that its own data ask for, as far as no span decides it. -/
def Sections.Tight (ss : Sections Empty) : Prop := ∀ r f, ss.fragment? r = some f → f.Tight

/-- The span belongs to a tail whose form it can change. -/
def Seed.Widens (ss : Sections Empty) (seed : Seed) : Prop :=
  ∀ f, ss.fragment? seed.ref = some f → f.Widens seed.request.id

theorem Seed.Widens.reshaped {ss tt : Sections Empty} {seed : Seed} (h : seed.Widens ss) (hflat : ss.Flat)
    (ht : ss.Reshaped tt) : seed.Widens tt := by
  intro g hg
  obtain ⟨f, hf, hfg⟩ := ht _ g hg
  exact (hfg.spansGrow (hflat _ f hf)).widens (h f hf)

namespace Sections

variable {ss : Sections Empty}

theorem Tight.setFragment (h : ss.Tight) {r : FragmentRef} {f g : Fragment (Tail Empty)} (hf : ss.fragment? r = some f)
    (hg : g.Tight) : (ss.setFragment r g).Tight := by
  intro r' f' hf'
  by_cases hr : r = r'
  · subst hr
    rw [fragment?_setFragment_self hf] at hf'
    obtain rfl := Option.some.inj hf'
    exact hg
  · rw [fragment?_setFragment_ne hr] at hf'
    exact h r' f' hf'

theorem Tight.lay (h : ss.Tight) {diags : Diagnostics} (hd : (ss.lay diags).2.hasErrors = false)
    (hb : ∀ k, (ss.lay diags).1.length k < 9223372036854775808) : (ss.lay diags).1.Tight := by
  intro r g hg
  rcases fragment?_lay hd hb r with ⟨-, hnone⟩ | ⟨f, g', hf, hg', hr⟩
  · cases hnone.symm.trans hg
  · obtain rfl := Option.some.inj (hg'.symm.trans hg)
    exact (h r f hf).of_tail hr.tail

end Sections

namespace Relaxation

theorem tight_watch {s : Relaxation Empty} {seed : Seed} (h : s.sections.Tight) (hflat : s.sections.Flat)
    (hseed : seed.Widens s.sections) {f : Fragment (Tail Empty)} (hf : s.sections.fragment? seed.ref = some f)
    (hd : (s.watch seed).diags.hasErrors = false) : (s.watch seed).sections.Tight := by
  obtain ⟨span, -, ⟨-, he⟩ | ⟨x, -, hx, -, he⟩⟩ := watch_cases hf hd <;> rw [he]
  · exact h
  · exact h.setFragment hf ((h _ f hf).expand (hflat _ f hf) (hseed f hf) hx)

theorem Expands.tight {s t : Relaxation Empty} (hs : s.plan.Sound) (hplan : t.plan = s.plan) {n : Nat} {span : Span}
    {f : Fragment (Tail Empty)} {x : Expansion} (he : Expands s t n span f x) (h : s.sections.Tight)
    (hflat : s.sections.Flat) (hspan : span.seed.Widens s.sections) : t.sections.Tight := by
  intro r g hg
  by_cases hr : span.seed.ref = r
  · subst hr
    rw [he.fragment?_self hs] at hg
    obtain rfl := Option.some.inj hg
    exact (h _ f he.fragment).expand (hflat _ f he.fragment) (hspan f he.fragment) he.result
  · cases hset : g.setsOffset with
    | false => exact h r g (he.fragment?_ne hs hplan hr hg hset)
    | true =>
      -- Padding has no form that its own data ask for.
      obtain ⟨t, ht, hs⟩ := Fragment.exists_tail_of_setsOffset hset
      refine Fragment.tight_of_plain ?_ fun t' ht' => ?_
      · rw [ht]
        cases t <;> first | rfl | cases hs
      · obtain rfl := Option.some.inj (ht.symm.trans ht')
        rintro f rfl
        cases hs

theorem Draining.tight {start s : Relaxation Empty} (h : Draining start s) (hc : start.Consistent)
    (hsteady : start.sections.Steady)
    (hw : ∀ t, Draining start t → t.diags.hasErrors = false → t.sections.InWords start.measured)
    (hflat : start.sections.Flat) (hspans : ∀ span ∈ start.spans, span.seed.Widens start.sections)
    (ht : start.sections.Tight) (hd : s.diags.hasErrors = false) : s.sections.Tight := by
  induction h with
  | start => exact ht
  | @step s t h hs ih =>
    have hds : s.diags.hasErrors = false := by
      by_contra he
      rw [Bool.not_eq_false] at he
      exact absurd (hd.symm.trans (hs.hasErrors he)) (by decide)
    obtain ⟨hcons, hplan, -, hreshaped⟩ := h.consistent hc hsteady hw hds
    have hkept := (hcons.kept hs hd).1
    rcases hs with hs | hs
    · obtain ⟨n, span, he⟩ := hcons.settles hs
      obtain ⟨s', -, -, hreq, rfl⟩ := he.follows
      have hsame : ((s'.setSpan n span.woken).countRecalcs 1).sections = s.sections := hreq.sections
      rw [hsame]
      exact ih hds
    · obtain ⟨n, span, f, x, he⟩ := hcons.expands hs hd
      -- The span is one of those that the run began with.
      have hmem : span.outline ∈ start.plan.spans := by
        rw [← hplan]
        exact List.mem_map_of_mem (List.mem_of_getElem? he.found)
      obtain ⟨span', hspan', ho⟩ := List.mem_map.1 hmem
      have hwidens := hspans span' hspan'
      rw [Span.seed_of_outline ho] at hwidens
      exact he.tight hcons.tracked.sound hkept (ih hds) (hflat.reshaped hreshaped) (hwidens.reshaped hflat hreshaped)

end Relaxation

namespace Sections

variable {config : Config} {diags : Diagnostics} {ss : Sections Empty}

theorem CountsKnown.countRequests (h : ss.CountsKnown) {r : FragmentRef} {f : Fragment (Tail Empty)}
    (hf : ss.fragment? r = some f) : f.countRequests = [] := by
  have hknown := h r f hf
  unfold Fragment.countRequests
  cases ht : f.tail with
  | none => rfl
  | some t =>
    rw [ht] at hknown
    exact Tail.countRequests_of_known hknown

theorem tight_surveyed (hflat : ss.Flat) (hc : ss.CountsKnown)
    (hd : (ss.surveyed config diags).diags.hasErrors = false) : (ss.surveyed config diags).sections.Tight := by
  intro r g hg
  obtain ⟨f, requests, hf, ⟨offset, hm⟩, -⟩ := measured_surveyed hd hg
  have hcount : f.countRequests = [] := hc.countRequests hf
  exact Fragment.tight_measureAt (f := { f with index := Relaxation.number ss r }) (hflat r f hf) hcount hm

theorem widens_surveyed (hr : ss.RefsMatch) (hflat : ss.Flat) (hc : ss.CountsKnown)
    (hd : (ss.surveyed config diags).diags.hasErrors = false) {seed : Seed}
    (hseed : seed ∈ (Relaxation.surveySections 0 0 diags ss).seeds) :
    seed.Widens (ss.surveyed config diags).sections := by
  obtain ⟨r, f, g, requests, hf, hg, hm, hq, href, -⟩ := Relaxation.mem_seeds_surveySections hd hseed
  obtain ⟨hsame, rfl⟩ := hm.requests (hflat r f hf)
  rw [hc.countRequests hf, List.append_nil, ← hsame] at hq
  intro g' hg'
  rw [href, hr r f hf] at hg'
  obtain rfl := Option.some.inj (hg.symm.trans hg')
  exact Fragment.requests_widens (hm.flat.trans (hflat r f hf)) hq

theorem tight_watched (hr : ss.RefsMatch) (hflat : ss.Flat) (hc : ss.CountsKnown)
    (hd : (ss.watched config diags).diags.hasErrors = false) : (ss.watched config diags).sections.Tight := by
  obtain ⟨hds, -, -⟩ := watching_watched hr hd
  have hstart := flat_surveyed hflat hds
  refine (Relaxation.Watching.induct (P := fun seeds s =>
      s.sections.Tight ∧ (ss.surveyed config diags).sections.Reshaped s.sections ∧
        ∀ seed ∈ seeds, seed.Widens (ss.surveyed config diags).sections)
    (watching_surveyed hr hds) (fun seed hseed => placed_surveyed hr hds hseed) hd
    ⟨tight_surveyed hflat hc hds, .refl _, fun seed hseed => widens_surveyed hr hflat hc hds hseed⟩ ?_).1
  rintro seed seeds s f hf - hd hsame ⟨htight, hreshaped, hwidens⟩
  refine ⟨?_, hreshaped.trans hsame.reshaped, fun x hx => hwidens x (List.mem_cons_of_mem seed hx)⟩
  exact Relaxation.tight_watch htight (hstart.reshaped hreshaped)
    ((hwidens seed List.mem_cons_self).reshaped hstart hreshaped) hf hd

/-- A relaxation that succeeds leaves alone what no span decides. -/
theorem relax_tight (hr : ss.RefsMatch) (hs : ss.Steady) (hflat : ss.Flat) (hc : ss.CountsKnown)
    (hwords : ss.RunsInWords config diags) {t : Relaxation Empty} {stats : Stats}
    (h : ss.relax config diags = .done t stats) : t.sections.Tight := by
  obtain ⟨hsurvey, hwatched, hlaid, hend⟩ := relax_done h
  have hd : (ss.rechecked config diags).diags.hasErrors = false := hlaid
  have hfirst : (ss.rechecked config diags).sections.Tight :=
    (tight_watched hr hflat hc hwatched).lay hlaid hwords.laid.lengths
  rcases hend with ⟨-, rfl⟩ | ⟨-, hrun, -, rfl⟩
  · exact hfirst
  · obtain ⟨hconsistent, hmeasured⟩ := consistent_prepared hr hwords.laid hd
    have hreshaped := reshaped_prepared hr hwords.laid hd
    have hstart := flat_surveyed hflat hsurvey
    have hsteady := steady_prepared hr hs hwords.laid hd
    obtain ⟨hdrain, -⟩ := Relaxation.run_drains config.maxExpansions .start
      (by rw [config_prepared, (stats_prepared config diags ss).1, Nat.zero_add]) hrun
    have hstays (u : Relaxation Empty) (hu : (ss.prepared config diags).Draining u) :
        u.sections.InWords (ss.prepared config diags).measured := hmeasured ▸ hwords.draining u hu
    have hwidens : ∀ span ∈ (ss.prepared config diags).spans, span.seed.Widens (ss.prepared config diags).sections := by
      intro x hx
      obtain ⟨span, hspan, ho, -⟩ := spans_prepared hx
      rw [Span.seed_of_outline ho]
      exact (widens_surveyed hr hflat hc hsurvey (derived_watched hr hwatched span hspan).1).reshaped hstart hreshaped
    rw [← sections_prepared] at hfirst
    have htight :=
      hdrain.tight hconsistent hsteady (fun u hu _ => hstays u hu) (hstart.reshaped hreshaped) hwidens hfirst hrun
    obtain ⟨hend, -⟩ := hdrain.consistent hconsistent hsteady (fun u hu _ => hstays u hu) hrun
    intro r g hg
    obtain ⟨f, hf, rfl⟩ := Option.map_eq_some_iff.1
      ((fragment?_lay_of_padded _ hend.padded (hstays _ hdrain).lengths r).symm.trans hg)
    exact (htight r f hf).of_tail rfl

end Sections

/-! ## Objects -/

/-- What a fragment of the layout in the end has to do with the finalized one it comes from. -/
structure Fragment.Relaxed (index : Nat) (f g : Fragment (Tail Empty)) : Prop where
  flat : g.flat = true
  steadyInside : g.steadyInside = true
  tight : g.Tight
  frame : g.frame = { f.frame with index }
  parts : ∀ p ∈ g.parts, GrownFrom f.parts p

namespace Object

variable {o u : Object Empty} {diags diags' : Diagnostics}

/-- The object was finalized and its relaxation ended in `u`, both without an error. No repetition of it is nested, and
their counts do not depend on the layout. -/
structure RelaxesInto (o : Object Empty) (diags diags' : Diagnostics) (u : Object Empty) : Prop where
  built : o.Built
  flat : o.sections.Flat
  modest : o.sections.Modest
  counts : (o.finalize diags).1.sections.CountsKnown
  clean : (o.finalize diags).2.hasErrors = false
  words : (o.finalize diags).1.sections.RunsInWords o.config diags'
  done : ∃ d stats, (o.finalize diags).1.relax diags' = .done (u, d) stats

theorem RelaxesInto.fragment (h : o.RelaxesInto diags diags' u) {r : FragmentRef} {g : Fragment (Tail Empty)}
    (hg : u.sections.fragment? r = some g) :
    ∃ f, (o.finalize diags).1.sections.fragment? r = some f ∧ g.ref = r ∧
      f.Relaxed (Relaxation.number (o.finalize diags).1.sections r) g := by
  obtain ⟨d, stats, hdone⟩ := h.done
  have hrefs := (h.built.finalize diags).refsMatch
  have hsteady := steady_finalize h.clean
  obtain ⟨-, s, hends, hgrown⟩ := relax_grows h.built h.modest h.clean h.words hdone
  obtain ⟨t, ht, rfl⟩ := relax_done hdone
  obtain ⟨f, hf, hfg, hframe, hparts⟩ := hgrown r g hg
  have hflat := hfg.trans (flat_finalize h.flat diags r f hf)
  refine ⟨f, hf, (congrArg Frame.ref hframe).trans (hrefs r f hf), hflat, ?_, ?_, hframe, hparts hflat⟩
  · obtain ⟨g', hg', rfl⟩ := hends.fragment? hg
    exact ((Sections.steady_surveyed hsteady (Sections.relax_done ht).1).reshaped hends.reshaped) r g' hg'
  · exact Sections.relax_tight hrefs hsteady (flat_finalize h.flat diags) h.counts h.words ht r g hg

end Object

end SpanLayout
