import SpanLayout.Proofs.Lay
import SpanLayout.Proofs.Relaxation.Towards

/-!
# Objects made of branches

An object in which the only forms are those of branches, each to a location of its own section, has nothing that could
go wrong: measuring, watching, laying out and draining report no error, as long as the budget lasts.
-/

namespace SpanLayout

/-- Whether a tail is a gap or a branch. -/
def Tail.branching {κ : Type} : Tail κ → Bool
  | .gap _ | .branch _ => true
  | _ => false

theorem Tail.setsOffset_of_branching {t : Tail Empty} (h : t.branching = true) : t.setsOffset = false := by
  cases t with
  | gap _ | branch _ => rfl
  | align _ | origin _ | leb128 _ | times _ _ _ => cases h
  | other d => exact nomatch d

theorem Expr.IsDifference.mem_locs {a b l : Location} {c : Int64} {e : Expr} (h : e.IsDifference a b c)
    (hl : l ∈ e.locs) : l = a ∨ l = b := by
  by_cases hab : a = b
  · subst hab
    rw [h.const_of_eq] at hl
    cases hl
  · obtain ⟨reversed, rfl⟩ := h.eq_sum hab
    rw [locs, mem_locsAll] at hl
    obtain ⟨t, ht, hl⟩ := hl
    cases reversed <;> by_cases hc : c = 0 <;> simp_all [differenceTerms] <;> rcases ht with rfl | rfl | rfl <;>
      simp_all [locs]

/-- Every fragment ends with nothing, a gap or a branch. A branch is no longer in its short form than in its long one,
and counts its distance from where its instruction begins to a location of its section. -/
structure Sections.Branching (ss : Sections Empty) : Prop where
  tails : ∀ r f, ss.fragment? r = some f → f.tail.all Tail.branching = true
  shorter : ∀ r f b e, ss.fragment? r = some f → f.tail = some (.branch b) → b.short = some e → e.len ≤ b.long.len
  targets : ∀ r f b, ss.fragment? r = some f → f.tail = some (.branch b) → ∃ l v,
    l.fragment.sectionIndex = r.sectionIndex ∧ ss.holds l = true ∧ b.value = some v ∧ v.Spans ⟨⟨r, f.fixedLen⟩, l⟩

theorem Sections.forall_fragments {P : Fragment (Tail Empty) → Prop} {ss : Sections Empty}
    (h : ∀ r f, ss.fragment? r = some f → P f) : ∀ s ∈ ss, ∀ f ∈ s.block.fragments, P f := by
  intro s hs f hf
  obtain ⟨k, hk⟩ := List.mem_iff_getElem?.mp hs
  obtain ⟨i, hi⟩ := List.mem_iff_getElem?.mp hf
  exact h ⟨k, i⟩ f (by rw [fragment?, hk]; exact hi)

/-! ## The survey -/

theorem Fragment.measureAt_branching {f : Fragment (Tail Empty)} (h : f.tail.all Tail.branching = true) (offset : Nat) :
    ∃ len, f.measureAt offset = .done ({ f with offset, tailLen := len }, f.own) () ∧
      ({ f with offset, tailLen := len } : Fragment (Tail Empty)).Fits := by
  cases ht : f.tail with
  | none =>
    rw [measureAt_of_none ht]
    refine ⟨0, ?_, ?_⟩
    · rw [own, ht]
      rfl
    · exact (rfl : 0 = 0)
  | some t =>
    rw [measureAt_of_some ht, own, ht]
    cases t with
    | gap g =>
      refine ⟨g.size, ?_, ?_⟩
      · cases f
        cases ht
        rfl
      · exact (rfl : g.size = g.size)
    | branch b =>
      refine ⟨b.encoding.len, ?_, ?_⟩
      · cases f
        cases ht
        rfl
      · exact (rfl : b.encoding.len = b.encoding.len)
    | align _ | origin _ | leb128 _ | times _ _ _ =>
      rw [ht] at h
      cases h
    | other d => cases d

namespace Relaxation

theorem diags_surveyFragments (index offset setters : Nat) (diags : Diagnostics) {fs : List (Fragment (Tail Empty))}
    (h : ∀ f ∈ fs, f.tail.all Tail.branching = true) :
    (surveyFragments index offset setters diags fs).diags = diags := by
  induction fs generalizing index offset setters with
  | nil => rfl
  | cons f fs ih =>
    obtain ⟨len, hm, -⟩ := Fragment.measureAt_branching (f := { f with index }) (h f List.mem_cons_self) offset
    rw [surveyFragments]
    dsimp only
    rw [hm]
    exact ih _ _ _ fun g hg => h g (List.mem_cons_of_mem f hg)

theorem diags_surveySections (index setters : Nat) (diags : Diagnostics) {ss : Sections Empty}
    (h : ∀ s ∈ ss, ∀ f ∈ s.block.fragments, f.tail.all Tail.branching = true) :
    (surveySections index setters diags ss).diags = diags := by
  induction ss generalizing index setters diags with
  | nil => rfl
  | cons s ss ih =>
    rw [surveySections]
    dsimp only
    rw [ih _ _ _ fun s' hs' => h s' (List.mem_cons_of_mem s hs'),
      diags_surveyFragments _ _ _ _ (h s List.mem_cons_self)]

theorem Measured.branching {index : Nat} {f g : Fragment (Tail Empty)} {requests : List SpanRequest}
    (hm : Measured index f g requests) (h : f.tail.all Tail.branching = true) :
    g.tail = f.tail ∧ g.fixed = f.fixed ∧ g.Fits ∧ requests = f.own := by
  obtain ⟨offset, hm⟩ := hm
  obtain ⟨len, he, hfits⟩ := Fragment.measureAt_branching (f := { f with index }) h offset
  rw [he] at hm
  obtain ⟨rfl, rfl⟩ := Prod.mk.inj (congrArg Attempt.state hm)
  exact ⟨rfl, rfl, hfits, rfl⟩

end Relaxation

namespace Sections

variable {config : Config} {diags : Diagnostics} {ss : Sections Empty}

theorem Branching.setsOffset (h : ss.Branching) {r : FragmentRef} {f : Fragment (Tail Empty)}
    (hf : ss.fragment? r = some f) : f.setsOffset = false := by
  have htail := h.tails r f hf
  cases ht : f.tail with
  | none => rw [Fragment.setsOffset, ht]; rfl
  | some t =>
    rw [ht] at htail
    rw [Fragment.setsOffset_of_some ht, Tail.setsOffset_of_branching htail]

theorem Branching.encoding_le (h : ss.Branching) {r : FragmentRef} {f : Fragment (Tail Empty)} {b : Branch}
    (hf : ss.fragment? r = some f) (hb : f.tail = some (.branch b)) : b.encoding.len ≤ b.long.len := by
  unfold Branch.encoding
  cases hs : b.shortInUse? with
  | none => exact Nat.le_refl _
  | some e => exact h.shorter r f b e hf hb (Branch.short_of_shortInUse? hs).2

theorem diags_surveyed (h : ss.Branching) (config : Config) (diags : Diagnostics) :
    (ss.surveyed config diags).diags = diags :=
  Relaxation.diags_surveySections 0 0 diags (forall_fragments h.tails)

theorem exists_of_surveyed (h : ss.Branching) (hd : diags.hasErrors = false) {r : FragmentRef}
    {g : Fragment (Tail Empty)} (hg : (ss.surveyed config diags).sections.fragment? r = some g) :
    ∃ f, ss.fragment? r = some f ∧ g.tail = f.tail ∧ g.fixed = f.fixed ∧ g.Fits := by
  obtain ⟨f, requests, hf, hm, -⟩ := measured_surveyed (by rw [diags_surveyed h]; exact hd) hg
  obtain ⟨htail, hfixed, hfits, -⟩ := hm.branching (h.tails r f hf)
  exact ⟨f, hf, htail, hfixed, hfits⟩

theorem Branching.surveyed (h : ss.Branching) (config : Config) (hd : diags.hasErrors = false) :
    (ss.surveyed config diags).sections.Branching := by
  have hds : (ss.surveyed config diags).diags.hasErrors = false := by rwa [diags_surveyed h]
  refine ⟨fun r g hg => ?_, fun r g b e hg hb he => ?_, fun r g b hg hb => ?_⟩ <;>
    obtain ⟨f, hf, htail, hfixed, -⟩ := exists_of_surveyed h hd hg
  · rw [htail]
    exact h.tails r f hf
  · exact h.shorter r f b e hf (htail ▸ hb) he
  · obtain ⟨l, v, hl, hholds, hv, hspans⟩ := h.targets r f b hf (htail ▸ hb)
    refine ⟨l, v, hl, ?_, hv, ?_⟩
    · obtain ⟨k, hk, hle⟩ := exists_of_holds hholds
      obtain ⟨k', hk', hlen⟩ := fixedLen_surveyed hds _ k hk
      rw [holds, hk']
      exact decide_eq_true (hlen ▸ hle)
    · rwa [Fragment.fixedLen, hfixed]

theorem fits_surveyed (h : ss.Branching) (hd : diags.hasErrors = false) {r : FragmentRef} {g : Fragment (Tail Empty)}
    (hg : (ss.surveyed config diags).sections.fragment? r = some g) : g.Fits := by
  obtain ⟨f, -, -, -, hfits⟩ := exists_of_surveyed h hd hg
  exact hfits

theorem Branching.direct (h : ss.Branching) {r : FragmentRef} {f : Fragment (Tail Empty)} (hf : ss.fragment? r = some f)
    {seed : Seed} (href : seed.ref = r) (hq : seed.request ∈ f.own) :
    ∃ d b, seed.Direct ss d ∧ f.tail = some (.branch b) := by
  subst href
  obtain ⟨t, ht, hq⟩ : ∃ t, f.tail = some t ∧ seed.request ∈ t.own := by
    unfold Fragment.own at hq
    cases ht : f.tail with
    | none =>
      rw [ht] at hq
      cases hq
    | some t =>
      rw [ht] at hq
      exact ⟨t, rfl, hq⟩
  rcases Tail.mem_own hq with ⟨x, rfl, -⟩ | ⟨b, e, v, rfl, -, hv, hreq⟩
  · have := h.tails _ f hf
    rw [ht] at this
    cases this
  · obtain ⟨l, v', hl, hholds, hv', hspans⟩ := h.targets _ f b hf ht
    obtain rfl := Option.some.inj (hv.symm.trans hv')
    refine ⟨⟨⟨seed.ref, f.fixedLen⟩, l⟩, b, ⟨⟨hl.symm, ?_, hholds, fun r g _ hg => h.setsOffset hg⟩, ?_, ?_⟩, ht⟩
    · rw [holds, hf]
      exact decide_eq_true (Nat.le_refl _)
    · rw [hreq]
      exact hspans
    · refine ⟨f, _, hf, ht, hq, fun b' hb' => ⟨rfl, ?_⟩⟩
      exact h.encoding_le hf (hb' ▸ ht)

theorem direct_of_seed (hr : ss.RefsMatch) (h : ss.Branching) (hd : diags.hasErrors = false) {seed : Seed}
    (hseed : seed ∈ (Relaxation.surveySections 0 0 diags ss).seeds) :
    ∃ d f b, seed.Direct (ss.surveyed config diags).sections d ∧
      (ss.surveyed config diags).sections.fragment? seed.ref = some f ∧ f.tail = some (.branch b) := by
  have hds : (ss.surveyed config diags).diags.hasErrors = false := by rwa [diags_surveyed h]
  obtain ⟨r, f, g, requests, hf, hg, hm, hq, href, -⟩ := Relaxation.mem_seeds_surveySections hds hseed
  obtain ⟨htail, -, -, rfl⟩ := hm.branching (h.tails r f hf)
  rw [hr r f hf] at href
  obtain ⟨d, b, hdirect, hb⟩ := (h.surveyed config hd).direct (r := r) hg href (by rw [Fragment.own, htail]; exact hq)
  exact ⟨d, g, b, hdirect, href ▸ hg, hb⟩

end Sections

/-! ## Laying out -/

theorem layFragments_of_not_setsOffset (offset : Nat) (diags : Diagnostics) {fs : List (Fragment (Tail Empty))}
    (h : ∀ f ∈ fs, f.setsOffset = false) : layFragments offset diags fs = (Fragment.placeFrom offset fs, diags) := by
  induction fs generalizing offset with
  | nil => rfl
  | cons f fs ih =>
    have hmove : f.moveTo offset = .done { f with offset } (offset + f.totalLen) := by
      have hs : ({ f with offset } : Fragment (Tail Empty)).setsOffset = false := h f List.mem_cons_self
      unfold Fragment.moveTo
      dsimp only
      rw [hs]
      rfl
    rw [layFragments_cons_of_done hmove rfl]
    exact congrArg (fun x => ({ f with offset } :: x.1, x.2)) (ih _ fun g hg => h g (List.mem_cons_of_mem f hg))

namespace Sections

variable {ss : Sections Empty}

theorem lay_of_not_setsOffset (diags : Diagnostics) (h : ∀ r f, ss.fragment? r = some f → f.setsOffset = false) :
    (ss.lay diags).2 = diags ∧ ∀ k, (ss.lay diags).1.fragmentsOf k = Fragment.placeFrom 0 (ss.fragmentsOf k) := by
  constructor
  · have hall := forall_fragments h
    clear h
    induction ss with
    | nil => rfl
    | cons s ss ih =>
      have hblock :
          s.block.lay diags = ({ s.block with fragments := Fragment.placeFrom 0 s.block.fragments }, diags) := by
        rw [Block.lay, layFragments_of_not_setsOffset _ _ (hall s List.mem_cons_self)]
      rw [lay, hblock]
      exact ih fun s' hs' => hall s' (List.mem_cons_of_mem s hs')
  · intro k
    rw [fragmentsOf_lay diags diags, layFragments_of_not_setsOffset]
    intro f hf
    obtain ⟨i, hi⟩ := List.mem_iff_getElem?.mp hf
    exact h ⟨k, i⟩ f (by rw [fragment?_eq]; exact hi)

theorem length_lay_of_not_setsOffset (diags : Diagnostics) (h : ∀ r f, ss.fragment? r = some f → f.setsOffset = false)
    (k : Nat) : (ss.lay diags).1.length k = ss.length k := by
  rw [length, (lay_of_not_setsOffset diags h).2, Fragment.sumLen_placeFrom, length]

theorem fragment?_lay_of_not_setsOffset (diags : Diagnostics)
    (h : ∀ r f, ss.fragment? r = some f → f.setsOffset = false) (r : FragmentRef) :
    (ss.lay diags).1.fragment? r = (ss.fragment? r).map fun f => { f with offset := ss.begins r } := by
  rw [fragment?_eq, fragment?_eq, (lay_of_not_setsOffset diags h).2, Fragment.getElem?_placeFrom, begins, Nat.zero_add]

end Sections

/-! ## Watching -/

theorem Span.ofSeed_of_measured {ss : Sections Empty} {seed : Seed}
    (h : ∀ d ∈ (seed.request.value.abs.map (·.distances.2)).getD [], ∃ t, measureTerm ss seed d = .ok t) :
    ∃ span, ofSeed ss seed = .ok span := by
  unfold ofSeed
  cases ha : seed.request.value.abs with
  | none => exact ⟨_, rfl⟩
  | some e =>
    rw [ha, Option.map_some, Option.getD_some] at h
    cases hm : e.distances.2.mapM (measureTerm ss seed) with
    | error err =>
      obtain ⟨d, hd, he⟩ := mapM_error hm
      obtain ⟨t, ht⟩ := h d hd
      rw [ht] at he
      cases he
    | ok terms =>
      dsimp only
      rw [hm]
      exact ⟨_, rfl⟩

namespace Seed.Direct

variable {base ss : Sections Empty} {d : Distance} {seed : Seed}

theorem id_eq (h : seed.Direct base d) : seed.request.id = 1 := by
  obtain ⟨_, t, _, _, hq, _⟩ := h.asked
  exact Tail.own_id hq

theorem exists_span (h : seed.Direct base d) (hss : base.Under ss) : ∃ span, Span.ofSeed ss seed = .ok span := by
  refine Span.ofSeed_of_measured fun d' hd' => ?_
  obtain rfl := h.value.eq_of_mem h.clear.sameSection hd'
  have hclear := hss.clear h.clear
  obtain ⟨f, hf, -⟩ := Sections.exists_of_holds hclear.origin
  obtain ⟨g, hg, -⟩ := Sections.exists_of_holds hclear.target
  have hdist : ss.distance? d'.origin d'.target =
      some (signed (g.offset + d'.target.offset) - signed (f.offset + d'.origin.offset)) := by
    rw [Sections.distance?, Location.sameSection, if_pos (beq_iff_eq.mpr hclear.sameSection), Sections.offset?,
      Sections.offset?, hf, hg]
    rfl
  unfold Span.measureTerm
  rw [hdist, hf, hg]
  dsimp only
  rw [if_neg (by rw [h.id_eq]; omega)]
  exact ⟨_, rfl⟩

end Seed.Direct

namespace Relaxation

theorem diags_watch_of_ok {s : Relaxation Empty} {seed : Seed} {f : Fragment (Tail Empty)}
    (hf : s.sections.fragment? seed.ref = some f) {span : Span} (ho : Span.ofSeed s.sections seed = .ok span)
    {x : Expansion} (hx : (f.expand seed.request.id 0 span.compute).result = .ok x)
    (hlost : x.window.isSome = true → span.compute ≠ unknownValue) : (s.watch seed).diags = s.diags := by
  obtain ⟨hseed, -, hcurrent, hactive, -, -⟩ := Span.ofSeed_ok ho
  unfold watch
  rw [ho]
  dsimp only
  split
  · rw [show (Relaxation.countRecalcs 1
      { s with stats := { s.stats with distances := s.stats.distances + span.recalc.terms.length } }).sections
        = s.sections from rfl, hf]
    dsimp only
    rw [show span.recalc.id = seed.request.id by rw [Span.id, show span.recalc.seed = span.seed from rfl, hseed],
      show span.recalc.current = 0 from hcurrent, show span.recalc.latest = span.compute from rfl, hx]
    obtain ⟨len, window⟩ := x
    cases window with
    | none => rfl
    | some w =>
      dsimp only
      rw [if_neg]
      · rfl
      · rw [Span.recalc, if_neg (hlost rfl), hactive]
        decide
  · rfl

theorem diags_watch {s : Relaxation Empty} {seed : Seed} {f : Fragment (Tail Empty)} {b : Branch}
    (hf : s.sections.fragment? seed.ref = some f) (hb : f.tail = some (.branch b)) {span : Span}
    (ho : Span.ofSeed s.sections seed = .ok span) : (s.watch seed).diags = s.diags := by
  refine diags_watch_of_ok hf ho (x := .settled b.long.len) ?_ fun hw => ?_
  · rw [Fragment.expand_branch hb]
    rfl
  · cases hw

theorem checkCycles_of_no_counts {s : Relaxation Empty} (h : ∀ span ∈ s.spans, span.isCount = false) :
    s.checkCycles = s := by
  have hcounts : s.countNumbers = [] := by
    refine List.filter_eq_nil_iff.mpr fun i _ hi => ?_
    cases hspan : s.spans[i]? with
    | none =>
      rw [hspan] at hi
      cases hi
    | some span =>
      rw [hspan, Option.any_some, h span (List.mem_of_getElem? hspan)] at hi
      cases hi
  unfold checkCycles
  rw [show (List.range s.spans.length).filter _ = [] from hcounts]
  rfl

end Relaxation

end SpanLayout
