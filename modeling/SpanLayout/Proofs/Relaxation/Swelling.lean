import SpanLayout.Proofs.Lay
import SpanLayout.Proofs.Relaxation.Fitting
import SpanLayout.Proofs.Relaxation.Tight

/-!
# Layouts that only grow

Where no branch is longer in its short form than in its long one, and no number of copies depends on the layout, an
expansion makes no fragment shorter. Nothing is then longer on the way than in the end, however large it is, and a
relaxation that ends with small sections has stayed within words all the time.
-/

namespace SpanLayout

/-! ## One fragment -/

/-- Whether a tail that is no repetition is no longer than in its largest form. -/
def Tail.ownLengthens : Tail Empty → Bool
  | .branch b => decide (b.encoding.len ≤ b.long.len)
  | _ => true

theorem Branch.encoding_le_long {b : Branch} (h : (Tail.branch b).ownLengthens = true) : b.encoding.len ≤ b.long.len :=
  of_decide_eq_true h

theorem Branch.ownLengthens_lengthen (b : Branch) : (Tail.branch b.lengthen).ownLengthens = true :=
  decide_eq_true (Nat.le_refl b.long.len)

/-- The fragment is as long as the forms in it, and these can only be made longer. -/
structure Fragment.Swells (f : Fragment (Tail Empty)) : Prop where
  flat : f.flat = true
  fits : f.Fits
  parts : ∀ p ∈ f.parts, p.Fits ∧ p.tail.all Tail.ownLengthens = true

namespace Fragment

variable {f g : Fragment (Tail Empty)}

theorem Grown.ownLengthens (hg : f.Grown g) (h : f.tail.all Tail.ownLengthens = true) :
    g.tail.all Tail.ownLengthens = true := by
  rcases hg.tail with ⟨-, hn⟩ | ⟨t, t', ht, ht', hgrows⟩
  · rw [hn]
    rfl
  · rw [ht] at h
    rw [ht']
    cases hgrows with
    | same => exact h
    | lengthened b => exact b.ownLengthens_lengthen
    | widened => rfl

theorem kept_lengthens : Kept fun p => p.Fits ∧ p.tail.all Tail.ownLengthens = true where
  expand := fun _ id old new hp h =>
    ⟨fits_expand_plain hp h.1 id old new, (grown_expand hp id old new).ownLengthens h.2⟩
  relaid := fun _ _ hr h => ⟨h.1.relaid hr, hr.grown.ownLengthens h.2⟩

theorem under_expand_of_ownLengthens (hp : f.tail.all Tail.plain = true) (hfits : f.Fits)
    (h : f.tail.all Tail.ownLengthens = true) (id old new : Int) : f.Under (f.expand id old new).state := by
  refine under_expand hp hfits (fun b hb => ?_) id old new
  rw [hb] at h
  exact Branch.encoding_le_long h

theorem sumLen_set_le {fs : List (Fragment (Tail Empty))} {slot : Nat} (hf : fs[slot]? = some f)
    (hle : f.totalLen ≤ g.totalLen) : sumLen fs ≤ sumLen (fs.set slot g) := by
  have hsum := sumLen_take_set hf g fs.length
  rw [if_pos (List.getElem?_eq_some_iff.mp hf).1, List.take_length, List.take_of_length_le (by simp)] at hsum
  omega

theorem set_of_getElem? {fs : List (Fragment (Tail Empty))} {slot : Nat} (hf : fs[slot]? = some f) :
    fs.set slot f = fs := by
  obtain ⟨hlt, rfl⟩ := List.getElem?_eq_some_iff.mp hf
  exact List.set_getElem_self hlt

theorem expand_of_error (hp : f.tail.all Tail.plain = true) (h : f.Fits) {id old new : Int} {e : Error}
    (he : (f.expand id old new).result = .error e) : (f.expand id old new).state = f := by
  rcases expand_plain hp h id old new with ⟨g, x, hx, -⟩ | ⟨e', hx⟩ <;> rw [hx] at he ⊢
  · cases he
  · rfl

theorem Swells.fits_expand (h : f.Swells) (id old new : Int) : (f.expand id old new).state.Fits := by
  rcases (flat_iff f).1 h.flat with hp | ⟨count, body, reps, ht, hbody⟩
  · exact fits_expand_plain hp h.fits id old new
  · rcases expand_times ht id old new with
      ⟨e, he⟩ | ⟨n, x, he, hlen⟩ | ⟨slot, id', p, hslot, ⟨e, e', hp, he⟩ | ⟨x, he, hlen⟩⟩ <;> rw [he]
    · exact h.fits
    · refine (fits_of_some rfl).mpr ?_
      exact hlen
    · have hmem := List.mem_of_getElem? hslot
      have hfits := (h.parts p (by rwa [parts_of_times ht])).1
      rw [expand_of_error (hbody p hmem) hfits hp, set_of_getElem? hslot]
      exact (fits_of_some rfl).mpr ((fits_of_some ht).mp h.fits)
    · refine (fits_of_some rfl).mpr ?_
      show x.len = sumLen (placeFrom 0 _) * reps
      rw [sumLen_placeFrom, hlen]

theorem Swells.reshaped (h : f.Swells) (hg : f.Reshaped g) : g.Swells := by
  have hparts := hg.parts kept_lengthens h.flat h.parts
  refine ⟨hg.flat.trans h.flat, ?_, hparts⟩
  induction hg with
  | refl => exact h.fits
  | @expand g hg id old new ih =>
    have hswells : g.Swells :=
      ⟨hg.flat.trans h.flat, ih (hg.parts kept_lengthens h.flat h.parts), hg.parts kept_lengthens h.flat h.parts⟩
    exact hswells.fits_expand id old new
  | relaid hg hr ih => exact (ih (hg.parts kept_lengthens h.flat h.parts)).relaid hr

theorem not_setsOffset_of_widens {t : Tail Empty} (ht : f.tail = some t) (hw : t.widens = true) :
    f.setsOffset = false := by
  rw [setsOffset_of_some ht]
  cases t with
  | align _ | origin _ => cases hw
  | other d => cases d
  | gap _ | leb128 _ | branch _ | times _ _ _ => rfl

theorem Widens.not_setsOffset {id : Int} (hw : f.Widens id) (hf : f.flat = true) : f.setsOffset = false := by
  obtain ⟨t, ht, hwide⟩ := hw
  rcases (flat_iff f).1 hf with hp | ⟨count, body, reps, htimes, -⟩
  · rw [spanTail?_of_plain hp] at ht
    exact not_setsOffset_of_widens ht hwide
  · rw [setsOffset_of_some htimes]
    rfl

theorem Swells.tailLen_le_expand (h : f.Swells) {id : Int} (hw : f.Widens id) (old new : Int) :
    f.tailLen ≤ (f.expand id old new).state.tailLen := by
  rcases (flat_iff f).1 h.flat with hp | ⟨count, body, reps, ht, hbody⟩
  · have hself := h.parts f (by rw [parts_of_plain hp]; exact List.mem_singleton_self f)
    exact (under_expand_of_ownLengthens hp hself.1 hself.2 id old new).tailLen_le (hw.not_setsOffset h.flat)
  · obtain ⟨t, hspan, hwide⟩ := hw
    rw [spanTail?_of_times ht] at hspan
    obtain ⟨⟨slot, id'⟩, hunpack, hspan⟩ := Option.bind_eq_some_iff.1 hspan
    obtain ⟨p, hslot, hpt⟩ := Option.bind_eq_some_iff.1 hspan
    rw [expand_of_some ht]
    rcases Tail.expand_times_cases f.info id old new count body reps with
      ⟨e, he⟩ | ⟨n, hid, -⟩ | ⟨slot', id'', p', hunpack', hslot', ⟨e, -, he⟩ | ⟨x, -, he⟩⟩
    · rw [he]
      exact Nat.le_refl _
    · -- The number of copies is known, so no span asks for another one.
      rw [hid] at hunpack
      cases hunpack
    · rw [he]
      exact Nat.le_refl _
    · rw [hunpack] at hunpack'
      obtain ⟨rfl, rfl⟩ := Prod.mk.inj (Option.some.inj hunpack')
      obtain rfl := Option.some.inj (hslot.symm.trans hslot')
      rw [he]
      have hmem := List.mem_of_getElem? hslot
      obtain ⟨hfits, hlong⟩ := h.parts p (by rwa [parts_of_times ht])
      have hlen : f.tailLen = sumLen body.fragments * reps := (fits_of_some ht).mp h.fits
      have hle := (under_expand_of_ownLengthens (hbody p hmem) hfits hlong id' old new).totalLen_le
        (not_setsOffset_of_widens hpt hwide)
      rw [hlen]
      exact Nat.mul_le_mul_right reps (sumLen_set_le hslot hle)

theorem Swells.atMost_expand (h : f.Swells) {id : Int} (hw : f.Widens id) (old new : Int) :
    f.AtMost (f.expand id old new).state := by
  have hframe := frame_expand id old new f
  have hns := hw.not_setsOffset h.flat
  exact ⟨congrArg (fun a => a.fixed.length) hframe, congrArg Frame.setsOffset hframe,
    fun _ => h.tailLen_le_expand hw old new, fun hs => absurd (hns.symm.trans hs) (by decide)⟩

theorem swells_measureAt (hf : f.flat = true) (hm : f.tail.all (Tail.throughout Tail.ownModest) = true)
    (hl : f.tail.all (Tail.throughout Tail.ownLengthens) = true) {offset : Nat} {requests : List SpanRequest}
    (h : f.measureAt offset = .done (g, requests) ()) : g.Swells := by
  have hparts : ∀ p ∈ g.parts, p.Fits ∧ p.tail.all Tail.ownLengthens = true := by
    intro p hp
    obtain ⟨⟨p', hp', hgrown⟩, hfits⟩ := grownFrom_measureAt hf ((throughout_iff _ f).1 hm) h p hp
    exact ⟨hfits, hgrown.ownLengthens ((throughout_iff _ f).1 hl p' hp')⟩
  refine ⟨?_, ?_, hparts⟩
  · have hflat := flat_measureAt offset f
    rw [h] at hflat
    exact hflat.trans hf
  · rcases (flat_iff f).1 hf with hp | ⟨count, body, reps, ht, -⟩
    · have hplain : g.tail.all Tail.plain = true := by
        have hsame := plain_measureAt offset f
        rw [h] at hsame
        exact hsame.trans hp
      exact (hparts g (by rw [parts_of_plain hplain]; exact List.mem_singleton_self g)).1
    · obtain ⟨fragments, n, hg, hlen, -⟩ := measureAt_times ht h
      exact (fits_of_some hg).mpr hlen

/-! ## Laying out, however large the sections are -/

theorem reshaped_moveTo (f : Fragment (Tail Empty)) (offset : Nat) : f.Reshaped (f.moveTo offset).state := by
  have hmoved : f.Reshaped { f with offset } := Reshaped.refl.relaid (relaid_offset f offset)
  unfold moveTo
  dsimp only
  split
  · exact hmoved.expand _ _ _
  · exact hmoved

theorem repadded_moveTo (f : Fragment (Tail Empty)) (offset : Nat) : f.Repadded (f.moveTo offset).state := by
  by_cases hs : f.setsOffset = true
  · exact (reshaped_moveTo f offset).repadded hs
  · unfold moveTo
    dsimp only
    rw [if_neg (show ¬ ({ f with offset } : Fragment (Tail Empty)).setsOffset = true from hs)]
    exact ⟨rfl, rfl, fun _ => rfl⟩

end Fragment

theorem layFragments_moves (offset : Nat) (d : Diagnostics) (fs : List (Fragment (Tail Empty))) :
    List.Forall₂ (fun f g => ∃ m, g = (f.moveTo m).state) fs (layFragments offset d fs).1 := by
  induction fs generalizing offset d with
  | nil => exact .nil
  | cons f fs ih => exact .cons ⟨offset, rfl⟩ (ih _ _)

namespace Sections

variable {ss : Sections Empty}

theorem fragment?_lay_moves (ss : Sections Empty) (d : Diagnostics) (r : FragmentRef) :
    (ss.fragment? r = none ∧ (ss.lay d).1.fragment? r = none) ∨
      ∃ f m, ss.fragment? r = some f ∧ (ss.lay d).1.fragment? r = some (f.moveTo m).state := by
  rw [fragment?_eq, fragment?_eq, fragmentsOf_lay d d]
  rcases forall₂_getElem? (layFragments_moves 0 d (ss.fragmentsOf r.sectionIndex)) r.index with
    hn | ⟨f, g, hf, hg, m, rfl⟩
  · exact .inl hn
  · exact .inr ⟨f, m, hf, hg⟩

theorem repadded_of_lay (ss : Sections Empty) (d : Diagnostics) : ss.Repadded (ss.lay d).1 := by
  intro r
  rcases ss.fragment?_lay_moves d r with hn | ⟨f, m, hf, hg⟩
  · exact .inl hn
  · exact .inr ⟨f, _, hf, hg, f.repadded_moveTo m⟩

theorem reshaped_of_lay (ss : Sections Empty) (d : Diagnostics) : ss.Reshaped (ss.lay d).1 := by
  intro r g hg
  rcases ss.fragment?_lay_moves d r with ⟨-, hn⟩ | ⟨f, m, hf, hg'⟩
  · cases hn.symm.trans hg
  · obtain rfl := Option.some.inj (hg'.symm.trans hg)
    exact ⟨f, hf, f.reshaped_moveTo m⟩

end Sections

/-! ## Steps -/

/-- The fragments have grown from those of `base`, and every span can change the form of its fragment. -/
structure Relaxation.Swelling (base : Sections Empty) (s : Relaxation Empty) : Prop where
  sound : s.plan.Sound
  reshaped : base.Reshaped s.sections
  spans : ∀ span ∈ s.plan.spans, span.seed.Widens base

namespace Relaxation

variable {base : Sections Empty} {s t : Relaxation Empty}

theorem Swelling.congr (h : s.Swelling base) (hplan : t.plan = s.plan) (ht : s.sections.Reshaped t.sections) :
    t.Swelling base :=
  ⟨hplan ▸ h.sound, h.reshaped.trans ht, hplan ▸ h.spans⟩

theorem Swelling.steps (h : s.Swelling base) (hb : ∀ r f, base.fragment? r = some f → f.Swells) (hs : s.Steps t) :
    t.Swelling base ∧ s.sections.AtMost t.sections := by
  have hflat : base.Flat := fun r f hf => (hb r f hf).flat
  rcases hs with hs | hs
  · obtain ⟨s', hspans, hreq, rfl | ⟨n, span, hn, -, rfl⟩⟩ := step_settled hs
    · exact ⟨h.congr hreq.plan (hreq.sections ▸ .refl _), hreq.sections ▸ .refl _⟩
    · have hsections : ((s'.setSpan n span.woken).countRecalcs 1).sections = s.sections := hreq.sections
      have hplan : ((s'.setSpan n span.woken).countRecalcs 1).plan = s.plan :=
        (plan_setSpan (hspans ▸ hn) span.outline_woken).trans hreq.plan
      exact ⟨h.congr hplan (hsections ▸ .refl _), hsections ▸ .refl _⟩
  · obtain ⟨n, span, f, ht⟩ := tries_of_sound h.sound hs
    obtain ⟨hplan, -, -, -, hreshaped⟩ := ht.kept
    have hwidens := (h.spans span.outline (List.mem_map_of_mem (List.mem_of_getElem? ht.found))).reshaped hflat
      h.reshaped f ht.fragment
    obtain ⟨f', hf', hff⟩ := h.reshaped _ f ht.fragment
    have hswells := (hb _ f' hf').reshaped hff
    exact ⟨h.congr hplan hreshaped, (Sections.atMost_setFragment ht.fragment
      (hswells.atMost_expand hwidens span.current span.compute)).trans (ht.repadded h.sound).atMost⟩

theorem Swelling.draining (h : s.Swelling base) (hb : ∀ r f, base.fragment? r = some f → f.Swells) (hd : Draining s t) :
    t.Swelling base ∧ s.sections.AtMost t.sections := by
  induction hd with
  | start => exact ⟨h, .refl _⟩
  | step _ hs ih =>
    obtain ⟨hswelling, hle⟩ := ih.1.steps hb hs
    exact ⟨hswelling, ih.2.trans hle⟩

end Relaxation

/-! ## Paddings of the smallest forms -/

theorem Fragment.paddedAt_of_measureAt {f g k : Fragment (Tail Empty)} {m n : Nat} {requests : List SpanRequest}
    (h : f.measureAt m = .done (g, requests) ()) (hgk : g.AtMost k) (hk : k.PaddedAt n) (hmn : m ≤ n)
    (hb : n + k.totalLen < 9223372036854775808) : g.PaddedAt m := by
  intro t ht hs
  have hset : g.setsOffset = true := (setsOffset_of_some ht).trans hs
  have hframe := frame_measureAt m f
  rw [h] at hframe
  have hfixed : g.fixedLen = f.fixedLen := congrArg (fun a => a.fixed.length) hframe
  obtain ⟨u, hu, hus⟩ := exists_tail_of_setsOffset ((congrArg Frame.setsOffset hframe).symm.trans hset)
  have hp : u.plain = true := by
    cases u with
    | times _ _ _ => cases hus
    | gap _ | align _ | origin _ | leb128 _ | branch _ | other _ => rfl
  -- Measuring leaves padding what it is.
  obtain rfl : u = t := by
    rcases (grown_measureAt (by rw [hu]; exact hp) h).tail with ⟨hn, -⟩ | ⟨u', t', hu', ht', hgrows⟩
    · cases hn.symm.trans hu
    · obtain rfl := Option.some.inj (hu.symm.trans hu')
      obtain rfl := Option.some.inj (ht.symm.trans ht')
      cases hgrows with
      | same => rfl
      | widened | lengthened => cases hs
  have hkfixed := hgk.fixedLen
  have hkle : k.fixedLen ≤ k.totalLen := Nat.le_add_right _ _
  obtain ⟨len, hlen, -⟩ := Tail.padding?_of_le (hk u ((hgk.tail hset).trans ht) hs)
    (show m + g.fixedLen ≤ n + k.fixedLen by omega)
  rw [hfixed] at hlen ⊢
  rw [measureAt_of_some hu, @Tail.measure_padding u hs { f.info with offset := m }
    (show m + f.fixedLen < _ by omega) len hlen] at h
  obtain ⟨rfl, -⟩ := Prod.mk.inj (congrArg Attempt.state h)
  exact hlen

namespace Relaxation

theorem paddedFrom_surveyFragments {index m setters : Nat} {diags : Diagnostics} {fs gs : List (Fragment (Tail Empty))}
    (h : (surveyFragments index m setters diags fs).diags.hasErrors = false)
    (hle : List.Forall₂ Fragment.AtMost (surveyFragments index m setters diags fs).measured gs) {n : Nat}
    (hpad : Fragment.PaddedFrom n gs) (hmn : m ≤ n) (hb : n + Fragment.sumLen gs < 9223372036854775808) :
    Fragment.PaddedFrom m (surveyFragments index m setters diags fs).measured := by
  induction fs generalizing index m setters n gs with
  | nil => exact trivial
  | cons f fs ih =>
    obtain ⟨g, requests, ⟨offset, hm⟩, hoffset, he⟩ := surveyFragments_cons h
    obtain rfl : offset = m := by
      have hmeasured := Fragment.offset_measureAt offset { f with index }
      rw [hm] at hmeasured
      exact hmeasured.symm.trans hoffset
    rw [he] at h hle ⊢
    cases hle with
    | @cons _ k _ ks hgk hrest =>
      rw [Fragment.sumLen_cons] at hb
      have hfirst := Fragment.paddedAt_of_measureAt hm hgk hpad.1 hmn (by omega)
      exact ⟨hfirst, ih h hrest hpad.2 (hgk.end_le hfirst hpad.1 hmn) (by omega)⟩

theorem paddedFrom_surveySections {index setters : Nat} {diags : Diagnostics} {ss : Sections Empty}
    {gs : Nat → List (Fragment (Tail Empty))} (h : (surveySections index setters diags ss).diags.hasErrors = false)
    (hle : ∀ k,
    List.Forall₂ Fragment.AtMost (Sections.fragmentsOf (surveySections index setters diags ss).measured k) (gs k))
    (hpad : ∀ k, Fragment.PaddedFrom 0 (gs k)) (hb : ∀ k, Fragment.sumLen (gs k) < 9223372036854775808) (k : Nat) :
    Fragment.PaddedFrom 0 (Sections.fragmentsOf (surveySections index setters diags ss).measured k) := by
  induction ss generalizing index setters diags gs k with
  | nil => exact trivial
  | cons s ss ih =>
    have hfirst := paddedFrom_surveyFragments (hasErrors_surveySections_cons h) (hle 0) (hpad 0) (Nat.le_refl 0)
      (by have := hb 0; omega)
    rw [surveySections] at h hle ⊢
    cases k with
    | zero => exact hfirst
    | succ k => exact ih h (fun k => hle (k + 1)) (fun k => hpad (k + 1)) (fun k => hb (k + 1)) k

/-! ## Draining is deterministic -/

theorem Steps.unique {s t t' : Relaxation Empty} (h : s.Steps t) (h' : s.Steps t') : t = t' := by
  rcases h with h | h <;> rcases h' with h' | h' <;> cases h.symm.trans h' <;> rfl

theorem not_steps_of_queued {s : Relaxation Empty} (hq : s.queued = 0) (t : Relaxation Empty) : ¬ s.Steps t := by
  unfold queued at hq
  have hpop : s.pop = none := by
    unfold pop
    rw [List.eq_nil_of_length_eq_zero (show s.counts.length = 0 by omega),
      List.eq_nil_of_length_eq_zero (show s.others.length = 0 by omega)]
  rintro (h | h) <;> unfold step at h <;> rw [hpop] at h <;> cases h

theorem Draining.after {s t t' : Relaxation Empty} (hs : s.Steps t) (h : Draining s t') : t' = s ∨ Draining t t' := by
  induction h with
  | start => exact .inl rfl
  | step _ hs' ih =>
    rcases ih with rfl | hd
    · exact .inr (hs.unique hs' ▸ .start)
    · exact .inr (hd.step hs')

theorem Draining.total {s t t' : Relaxation Empty} (h : Draining s t) (h' : Draining s t') :
    Draining t t' ∨ Draining t' t := by
  induction h with
  | start => exact .inl h'
  | step _ hs ih =>
    rcases ih with hd | hd
    · rcases hd.after hs with rfl | hd
      · exact .inr (Draining.start.step hs)
      · exact .inl hd
    · exact .inr (hd.step hs)

theorem Draining.eq_of_queued {s t : Relaxation Empty} (h : Draining s t) (hq : s.queued = 0) : t = s := by
  induction h with
  | start => rfl
  | step _ hs ih =>
    subst ih
    exact absurd hs (not_steps_of_queued hq _)

/-! ## The phases -/

theorem plan_lay (s : Relaxation Empty) : s.lay.plan = s.plan := by
  unfold plan lay
  dsimp only
  rw [Sections.frames_lay, Sections.base_lay]

end Relaxation

namespace Sections

variable {config : Config} {diags : Diagnostics} {ss goal : Sections Empty}

/-- No branch is longer in its short form than in its long one. -/
def Lengthens (ss : Sections Empty) : Prop :=
  ∀ r f, ss.fragment? r = some f → f.tail.all (Tail.throughout Tail.ownLengthens) = true

instance (ss : Sections Empty) : Decidable ss.Lengthens :=
  inferInstanceAs (Decidable (∀ r f, ss.fragment? r = some f → f.tail.all (Tail.throughout Tail.ownLengthens) = true))

theorem swells_surveyed (hflat : ss.Flat) (hm : ss.Modest) (hl : ss.Lengthens)
    (hd : (ss.surveyed config diags).diags.hasErrors = false) (r : FragmentRef) (g : Fragment (Tail Empty))
    (hg : (ss.surveyed config diags).sections.fragment? r = some g) : g.Swells := by
  obtain ⟨f, requests, hf, ⟨offset, hmeasure⟩, -⟩ := measured_surveyed hd hg
  exact Fragment.swells_measureAt (f := { f with index := Relaxation.number ss r }) (hflat r f hf) (hm r f hf)
    (hl r f hf) hmeasure

theorem padded_surveyed (hd : (ss.surveyed config diags).diags.hasErrors = false)
    (hle : (ss.surveyed config diags).sections.AtMost goal) (hgoal : goal.Padded)
    (hb : ∀ k, goal.length k < 9223372036854775808) : (ss.surveyed config diags).sections.Padded :=
  (padded_iff _).mpr (Relaxation.paddedFrom_surveySections hd hle.forall₂ ((padded_iff goal).mp hgoal) hb)

theorem atMost_watched (hr : ss.RefsMatch) (hflat : ss.Flat) (hm : ss.Modest) (hc : ss.CountsKnown) (hl : ss.Lengthens)
    (hd : (ss.watched config diags).diags.hasErrors = false) :
    (ss.surveyed config diags).sections.AtMost (ss.watched config diags).sections := by
  have hds := hasErrors_surveyed hd
  have hstart := flat_surveyed hflat hds
  have hswells := @swells_surveyed config diags ss hflat hm hl hds
  refine (Relaxation.Watching.induct (P := fun seeds s =>
      (ss.surveyed config diags).sections.AtMost s.sections ∧ (ss.surveyed config diags).sections.Reshaped s.sections ∧
        ∀ seed ∈ seeds, seed.Widens (ss.surveyed config diags).sections)
    (watching_surveyed hr hds) (fun seed hseed => placed_surveyed hr hds hseed) hd
    ⟨.refl _, .refl _, fun seed hseed => widens_surveyed hr hflat hc hds hseed⟩ ?_).1
  rintro seed seeds s f hf - hd' hsame ⟨hle, hreshaped, hwidens⟩
  refine ⟨?_, hreshaped.trans hsame.reshaped, fun x hx => hwidens x (List.mem_cons_of_mem seed hx)⟩
  obtain ⟨span, -, ⟨-, he⟩ | ⟨x, -, -, -, he⟩⟩ := Relaxation.watch_cases hf hd' <;> rw [he]
  · exact hle
  · obtain ⟨f', hf', hff⟩ := hreshaped _ f hf
    have hwide := (hwidens seed List.mem_cons_self).reshaped hstart hreshaped f hf
    exact hle.trans (atMost_setFragment hf (((hswells _ f' hf').reshaped hff).atMost_expand hwide 0 span.compute))

theorem sound_prepared (hr : ss.RefsMatch) (hd : (ss.watched config diags).diags.hasErrors = false) :
    (ss.prepared config diags).plan.Sound := by
  refine Relaxation.sound_prepare ?_
  unfold rechecked
  rw [Relaxation.plan_recheck, Relaxation.plan_lay]
  exact (watching_watched hr hd).2.1.sound

theorem swelling_prepared (hr : ss.RefsMatch) (hflat : ss.Flat) (hc : ss.CountsKnown)
    (hd : (ss.watched config diags).diags.hasErrors = false) :
    (ss.prepared config diags).Swelling (ss.surveyed config diags).sections := by
  obtain ⟨hds, -, hsame⟩ := watching_watched hr hd
  refine ⟨sound_prepared hr hd, ?_, fun x hx => ?_⟩
  · rw [sections_prepared]
    exact hsame.reshaped.trans (reshaped_of_lay _ _)
  · obtain ⟨span, hspan, rfl⟩ := List.mem_map.1 hx
    obtain ⟨watched, hwatched, ho, -⟩ := spans_prepared hspan
    show span.seed.Widens _
    rw [Span.seed_of_outline ho]
    exact widens_surveyed hr hflat hc hds (derived_watched hr hd watched hwatched).1

/-! ## Below the end -/

theorem InWords.of_atMost {tt : Sections Empty} (hle : tt.AtMost goal) (hpad : tt.Padded) (hgoal : goal.Padded)
    {locations : List Location} (hw : goal.InWords locations) : tt.InWords locations :=
  ⟨fun k => Nat.lt_of_le_of_lt (hle.length_le hgoal hpad k) (hw.lengths k),
    fun l hl => Nat.lt_of_le_of_lt (hle.position_le hgoal hpad l) (hw.positions l hl)⟩

end Sections

/-- Draining that stays below a layout within words keeps a relaxation consistent. -/
theorem Relaxation.Draining.consistent_of_atMost {goal : Sections Empty} {start s : Relaxation Empty}
    (h : Draining start s) (hc : start.Consistent) (hsteady : start.sections.Steady) (hgoal : goal.Padded)
    (hw : goal.InWords start.measured) (hle : ∀ t, Draining start t → t.sections.AtMost goal)
    (hd : s.diags.hasErrors = false) :
    s.Consistent ∧ s.plan = start.plan ∧ start.sections.Reshaped s.sections := by
  induction h with
  | start => exact ⟨hc, rfl, .refl _⟩
  | @step s t h hs ih =>
    have hds : s.diags.hasErrors = false := by
      by_contra he
      rw [Bool.not_eq_false] at he
      exact absurd (hd.symm.trans (hs.hasErrors he)) (by decide)
    obtain ⟨hcons, hplan, hreshaped⟩ := ih hds
    refine ⟨?_, (hcons.kept hs hd).1.trans hplan, hreshaped.trans (hcons.reshaped hs hd)⟩
    have hwords := Sections.InWords.of_atMost (hle s h) hcons.padded hgoal hw
    rw [← measured_of_plan (congrArg Plan.spans hplan)] at hwords
    rcases hs with hs | hs
    · obtain ⟨n, span, he⟩ := hcons.settles hs
      exact hcons.settled he
    · obtain ⟨n, span, f, x, he⟩ := hcons.expands hs hd
      have hsteady' := hsteady.reshaped hreshaped
      obtain ⟨u, hu, hsections, -, -, hmem, ht⟩ := hcons.renewed hsteady' hwords he
      have hseed : (span.woken.expanded x.window).seed = span.seed := Span.seed_expanded x.window span.woken
      -- The fragment is no longer than in the end after the step, so it is not while the growth is followed.
      obtain ⟨g, hg, hfg⟩ := (hle t (h.step (.inr hs))).exists_right (he.fragment?_self hcons.tracked.sound)
      obtain ⟨-, hlengths⟩ := follow_atMost hgoal hw.lengths hu (hsections ▸ hle s h) hmem
        (by rw [hsections, hseed]; exact he.fragment) (Fragment.frame_expand span.id span.current span.compute f)
        (by rw [hsections, hseed]; exact (hle s h).setFragment_left he.fragment hg hfg)
      rw [← ht] at hlengths
      exact (hcons.expanded hsteady' hwords he hd fun k => Nat.lt_of_le_of_lt (hlengths k) (hw.lengths k)).1

namespace Sections

variable {config : Config} {diags : Diagnostics} {ss : Sections Empty}

theorem exists_last (hr : ss.RefsMatch) {t : Relaxation Empty} {stats : Stats}
    (h : ss.relax config diags = .done t stats) :
    ∃ u, (ss.prepared config diags).Draining u ∧ u.queued = 0 ∧ u.sections.AtMost t.sections ∧
      (u.diags.hasErrors = false ∨ u = ss.prepared config diags) := by
  obtain ⟨-, hwatched, -, ⟨hidle, rfl⟩ | ⟨-, hrun, -, rfl⟩⟩ := relax_done h
  · exact ⟨_, .start, queued_prepared hr hwatched hidle, sections_prepared config diags ss ▸ .refl _, .inr rfl⟩
  · obtain ⟨hdrain, hqueued⟩ := Relaxation.run_drains config.maxExpansions .start
      (by rw [config_prepared, (stats_prepared config diags ss).1, Nat.zero_add]) hrun
    exact ⟨_, hdrain, hqueued, (repadded_of_lay _ _).atMost, .inl hrun⟩

/-- Halfway between two layouts of as many fragments, nothing lies further back than in both together. -/
theorem position_mixed_le {a z : Sections Empty} (h : a.AtMost z) (i : Nat) (l : Location) :
    (mixed a z i).position l ≤ a.position l + z.length l.fragment.sectionIndex := by
  have hlen : (a.fragmentsOf l.fragment.sectionIndex).length = (z.fragmentsOf l.fragment.sectionIndex).length :=
    (h.forall₂ l.fragment.sectionIndex).length_eq
  unfold position begins length
  rw [fragmentsOf_mixed]
  generalize a.fragmentsOf l.fragment.sectionIndex = fs at hlen ⊢
  generalize z.fragmentsOf l.fragment.sectionIndex = gs at hlen ⊢
  generalize l.fragment.index = n
  split
  · have hfront := Fragment.sumLen_take_le gs i
    have hfront' := Fragment.sumLen_take_le (gs.take i) n
    have hback : Fragment.sumLen ((fs.drop i).take (n - (gs.take i).length)) ≤ Fragment.sumLen (fs.take n) := by
      by_cases hi : i ≤ gs.length
      · have hsplit : Fragment.sumLen (fs.take n) =
            Fragment.sumLen ((fs.take n).take i) + Fragment.sumLen ((fs.take n).drop i) := by
          rw [← Fragment.sumLen_append, List.take_append_drop]
        rw [List.length_take, Nat.min_eq_left hi, ← List.drop_take]
        omega
      · rw [List.drop_eq_nil_of_le (by omega), List.take_nil]
        exact Nat.zero_le _
    rw [List.take_append, Fragment.sumLen_append]
    omega
  · rw [List.take_nil]
    simp only [Fragment.sumLen_nil]
    omega

/-- Where forms only grow, a relaxation that ends with small sections has stayed within words. -/
theorem fitsThroughout_of_lengthens (hr : ss.RefsMatch) (hs : ss.Steady) (hflat : ss.Flat) (hm : ss.Modest)
    (hc : ss.CountsKnown) (hl : ss.Lengthens) {t : Relaxation Empty} {stats : Stats}
    (h : ss.relax config diags = .done t stats) (hsmall : t.sections.Small)
    (hstrays : ∀ l ∈ ss.strays, t.sections.position l < 2 ^ 62) : ss.FitsThroughout config diags := by
  obtain ⟨hds, hdw, hdl, -⟩ := relax_done h
  have hlengths (k : Nat) : t.sections.length k < 9223372036854775808 := Nat.lt_trans (hsmall k) (by decide)
  have hgoal : t.sections.Padded := by
    obtain ⟨tt, d, htt, hd⟩ := relax_laid h
    rw [htt] at hlengths ⊢
    exact padded_lay hd hlengths
  have hwords : t.sections.InWords ss.strays := ⟨hlengths, fun l hl => Nat.lt_trans (hstrays l hl) (by decide)⟩
  -- Nothing is longer on the way than in the end.
  have hswells := @swells_surveyed config diags ss hflat hm hl hds
  have hswelling := swelling_prepared hr hflat hc hdw
  obtain ⟨u, hu, hidle, hut, hclean⟩ := exists_last hr h
  have hdraining : ∀ s, (ss.prepared config diags).Draining s → s.sections.AtMost t.sections := by
    intro s hs
    have hsu : s.Draining u := by
      rcases hs.total hu with hsu | hus
      · exact hsu
      · exact hus.eq_of_queued hidle ▸ .start
    exact (((hswelling.draining hswells hs).1.draining hswells hsu).2).trans hut
  have hlaid : (ss.watched config diags).lay.sections.AtMost t.sections := by
    have hprepared := hdraining _ .start
    rwa [sections_prepared] at hprepared
  have hwatched : (ss.watched config diags).sections.AtMost t.sections := (repadded_of_lay _ _).atMost.trans hlaid
  have hsurveyed := (atMost_watched hr hflat hm hc hl hdw).trans hwatched
  have hlaidPadded : (ss.watched config diags).lay.sections.Padded :=
    padded_lay hdl fun k => Nat.lt_of_le_of_lt ((hwatched.lay hgoal hlengths _).2 k) (hlengths k)
  have hmeasured : t.sections.InWords (ss.watched config diags).measured := by
    refine InWords.of_strays (fun r f hf => ?_) hwords fun l hl => measured_watched hr hflat hdw hl
    obtain ⟨g, hg, hfixed⟩ := fixedLen_surveyed hds r f hf
    obtain ⟨k, hk, hgk⟩ := hsurveyed.exists_right hg
    exact ⟨k, hk, hgk.fixedLen.trans hfixed⟩
  have hlaidWords := InWords.of_atMost hlaid hlaidPadded hgoal hmeasured
  obtain ⟨hconsistent, hsame⟩ := consistent_prepared hr hlaidWords hdl
  have hpadded : ∀ s, (ss.prepared config diags).Draining s → s.sections.Padded := by
    intro s hs'
    rcases hclean with hclean | rfl
    · refine (hs'.consistent_of_atMost hconsistent (steady_prepared hr hs hlaidWords hdl) hgoal (hsame ▸ hmeasured)
        hdraining ?_).1.padded
      by_contra he
      rw [Bool.not_eq_false] at he
      rcases hs'.total hu with hsu | hus
      · exact absurd (hclean.symm.trans (hsu.hasErrors he)) (by decide)
      · exact absurd (hclean.symm.trans ((hus.eq_of_queued hidle) ▸ he)) (by decide)
    · rw [hs'.eq_of_queued hidle]
      exact hconsistent.padded
  intro tt htt
  cases htt with
  | surveyed => exact InWords.of_atMost hsurveyed (padded_surveyed hds hsurveyed hgoal hlengths) hgoal hwords
  | laid => exact InWords.of_atMost hlaid hlaidPadded hgoal hwords
  | draining h => exact InWords.of_atMost (hdraining _ h) (hpadded _ h) hgoal hwords
  | @moving s s' h hst i =>
    have hnext := h.step hst
    have hle := (hswelling.draining hswells h).1.steps hswells hst
    refine ⟨fun k => ?_, fun l hl => ?_⟩
    · have hmixed := length_mixed_le s.sections s'.sections i k
      have ha := (hdraining _ h).length_le hgoal (hpadded _ h) k
      have hz := (hdraining _ hnext).length_le hgoal (hpadded _ hnext) k
      have := hsmall k
      omega
    · have hmixed := position_mixed_le hle.2 i l
      have ha : s.sections.begins l.fragment ≤ t.sections.begins l.fragment :=
        (hdraining _ h).begins_le hgoal fun j _ f hf => hpadded _ h _ f hf
      have hz := (hdraining _ hnext).length_le hgoal (hpadded _ hnext) l.fragment.sectionIndex
      have := hsmall l.fragment.sectionIndex
      have := hstrays l hl
      unfold position at *
      omega

end Sections

end SpanLayout
