import SpanLayout.Proofs.Decoding
import SpanLayout.Proofs.Relaxation.Rest
import SpanLayout.Proofs.Relaxation.Tight

/-!
# Where a relaxation ends

The sections that a successful relaxation leaves are at rest. Every fragment is in a form that is measured to itself,
and whatever it asks about is watched by a span that has nothing more to ask for. The value of such a span lies in its
window unless the span was given up; that happens only in windows that take any word, or any that is not negative, and
the values of the fields in question are words. -/

namespace SpanLayout

/-! ## What a fragment asks about -/

theorem Repetition.value_relay {owner : FragmentInfo} {slot : Nat} {p q : SpanRequest} (h : q ∈ relay owner slot p) :
    ∃ l, (l = owner.tailLoc ∨ l = ⟨⟨owner.ref.sectionIndex, owner.ref.index + 1⟩, 0⟩) ∧
      q.value = p.value.mapLoc fun x => if x.fragment = owner.ref then l else x := by
  unfold relay at h
  dsimp only at h
  split at h
  · rename_i hsame
    obtain rfl := List.mem_singleton.1 h
    exact ⟨_, .inr rfl, hsame.symm⟩
  · rcases List.mem_cons.1 h with rfl | h
    · exact ⟨_, .inl rfl, rfl⟩
    · obtain rfl := List.mem_singleton.1 h
      exact ⟨_, .inr rfl, rfl⟩

theorem Tail.own_cases {t : Tail Empty} {q : SpanRequest} (h : q ∈ t.own) :
    (∃ b, t = .branch b) ∨ ∃ x, t = .leb128 x ∧ x.value.const? = none ∧
      q = ⟨1, .ofExpr x.value, Leb128.window x.isSigned x.len⟩ := by
  cases t with
  | gap _ | align _ | origin _ | times _ _ _ | other _ => cases h
  | branch b => exact .inl ⟨b, rfl⟩
  | leb128 x =>
    simp only [own, Leb128.Field.measure] at h
    split at h
    · cases h
    · rename_i hc
      exact .inr ⟨x, rfl, hc, List.mem_singleton.1 h⟩

theorem Fragment.mem_requests_cases {f : Fragment (Tail Empty)} (hf : f.flat = true) {q : SpanRequest}
    (hq : q ∈ f.requests) : ∃ p ∈ f.parts, ∃ t, p.tail = some t ∧ ∃ q' ∈ t.own, q.window = q'.window ∧
      (q.value = q'.value ∨ ∃ l, (l = f.info.tailLoc ∨ l = ⟨⟨f.ref.sectionIndex, f.ref.index + 1⟩, 0⟩) ∧
        q.value = q'.value.mapLoc fun x => if x.fragment = f.ref then l else x) := by
  rcases (flat_iff f).1 hf with hp | ⟨count, body, reps, ht, hbody⟩
  · rw [requests_of_plain hp] at hq
    obtain ⟨t, ht, hq⟩ := exists_of_mem_own hq
    refine ⟨f, ?_, t, ht, q, hq, rfl, .inl rfl⟩
    rw [parts_of_plain hp]
    exact List.mem_singleton_self f
  · rw [requests_of_some ht] at hq
    obtain ⟨slot, p, q', hslot, hq', hrelay⟩ := mem_bodyRequests.1 hq
    obtain ⟨t, hpt, hq''⟩ := exists_of_mem_own hq'
    refine ⟨p, ?_, t, hpt, q', hq'', (Repetition.mem_relay hrelay (own_id hq')).1, .inr (Repetition.value_relay hrelay)⟩
    rw [parts_of_times ht]
    exact List.mem_of_getElem? hslot

theorem Sections.position_seen {tt : Sections Empty} {g : Fragment (Tail Empty)} (hg : tt.fragment? g.ref = some g)
    {l : Location} (hl : l = g.info.tailLoc ∨ l = ⟨⟨g.ref.sectionIndex, g.ref.index + 1⟩, 0⟩) {k : Nat} {x : Location}
    (hk : x.fragment.sectionIndex = k) (hx : tt.position x ≤ tt.length k) :
    (if x.fragment = g.ref then l else x).fragment.sectionIndex = k ∧
      tt.position (if x.fragment = g.ref then l else x) ≤ tt.length k := by
  split
  · rename_i hown
    subst hk
    rw [hown]
    rcases hl with rfl | rfl
    · exact ⟨rfl, position_le_length hg (Nat.le_refl _)⟩
    · exact ⟨rfl, tt.begins_le_length _⟩
  · exact ⟨hk, hx⟩

/-! ## What it asks about has its value -/

namespace Relaxation.Ends

variable {start tt : Sections Empty} {s : Relaxation Empty} {r : FragmentRef} {g : Fragment (Tail Empty)}
    {q : SpanRequest}

theorem grants (h : s.Ends start tt) (hg : tt.fragment? r = some g) (hflat : g.flat = true) (hq : q ∈ g.requests)
    (hin : q.window.contains ((tt.valueOf? q.value).getD unknownValue) = true) : tt.Grants q := by
  obtain ⟨span, hspan, hcovers⟩ := h.watched hg hflat hq
  refine ⟨Fragment.requests_pos hq, fun e he d hd => ?_, hin⟩
  obtain ⟨hsec, ho, ht⟩ := h.anchored hspan hcovers he hd
  have hmem : d ∈ span.terms.map (·.distance) := by
    rw [hcovers.distances, he]
    exact hd
  obtain ⟨t, hterm, rfl⟩ := List.mem_map.1 hmem
  have hmeasured := Relaxation.mem_measured hspan hterm
  refine Sections.distance?_of_offset? ?_ ho ht ?_ ?_
  · simp [Location.sameSection, hsec]
  · rw [h.position]
    exact h.words.positions _ hmeasured.1
  · rw [h.position]
    exact h.words.positions _ hmeasured.2

theorem within_tame (h : s.Ends start tt) (hg : tt.fragment? r = some g) (hflat : g.flat = true) (hq : q ∈ g.requests)
    (htame : q.window.contains unknownValue = false) :
    q.window.contains ((tt.valueOf? q.value).getD unknownValue) = true := by
  obtain ⟨span, hspan, hcovers⟩ := h.watched hg hflat hq
  rcases h.within (Fragment.requests_pos hq) hspan hcovers with hin | hlost
  · exact hin
  · cases htame.symm.trans (hcovers.inside _ hlost.1)

theorem within_difference (h : s.Ends start tt) (hg : tt.fragment? r = some g) (hflat : g.flat = true)
    (hq : q ∈ g.requests) {e : Expr} (hv : q.value = .ofExpr e) {a b : Location} {c : Int64} (he : e.IsDifference a b c)
    (hsec : b.fragment.sectionIndex = a.fragment.sectionIndex) {signed : Bool} {len : Nat}
    (hw : q.window = Leb128.window signed len) (hpos : 1 ≤ len) (hmax : len ≤ Leb128.maxLen)
    (hl : -wordBound ≤ (tt.position a : Int) - tt.position b + c.toInt)
    (hh : (tt.position a : Int) - tt.position b + c.toInt < wordBound) :
    q.window.contains ((tt.valueOf? q.value).getD unknownValue) = true := by
  obtain ⟨span, hspan, hcovers⟩ := h.watched hg hflat hq
  have hid := Fragment.requests_pos hq
  by_cases hab : a = b
  · -- The value is a constant, so that it is given up only if it is the one that stands for none.
    subst hab
    obtain rfl := he.const_of_eq
    have hterms : span.terms = [] := by
      have hdistances := hcovers.distances
      rw [hv] at hdistances
      exact List.map_eq_nil_iff.1 hdistances
    rcases h.within hid hspan hcovers with hin | hlost
    · exact hin
    · have hcompute : span.compute = (tt.valueOf? q.value).getD unknownValue := hcovers.compute (by simp [hterms])
      rw [← hcompute, hlost.2]
      exact hcovers.inside _ hlost.1
  · obtain ⟨hval, hin⟩ := h.contains_difference hspan hcovers hid hv he hab hsec hw hpos hmax hl hh
    rw [hval]
    exact hin

/-- Whatever a fragment asks about has its value in the end, if its fields hold constants, or differences of locations
in one section with a constant that is not too great. -/
theorem met (h : s.Ends start tt) (hplaced : ∀ s ∈ tt, s.block.fragments = Fragment.placeFrom 0 s.block.fragments)
    (hsmall : tt.Small) (hg : tt.fragment? r = some g) (href : g.ref = r) (hflat : g.flat = true)
    (hfits : ∀ p ∈ g.parts, p.Fits)
    (hshort : ∀ p ∈ g.parts, ∀ b, p.tail = some (.branch b) → b.short.all Encoding.modest = true)
    (hfield : ∀ p ∈ g.parts, ∀ x, p.tail = some (.leb128 x) → ∃ v, x.Means tt v)
    (hq : q ∈ g.requests) : tt.Grants q := by
  refine h.grants hg hflat hq ?_
  obtain ⟨p, hp, t, ht, q', hq', hw, hvalue⟩ := Fragment.mem_requests_cases hflat hq
  obtain ⟨b, rfl⟩ | ⟨x, rfl, hnone, rfl⟩ := Tail.own_cases hq'
  · refine h.within_tame hg hflat hq ?_
    rw [hw]
    exact Tail.own_tame (t := .branch b) (hshort p hp b ht) hq'
  · obtain ⟨-, hpos, hmax, -⟩ := (Fragment.fits_of_some ht).1 (hfits p hp)
    obtain ⟨v, hmeans⟩ := hfield p hp x ht
    cases hmeans with
    | constant hc => cases hnone.symm.trans hc
    | @difference a b c s' m n hd hsec hs ha hm hb hn hc =>
      have hsize : s'.size = tt.length a.fragment.sectionIndex := by
        rw [Section.size_of_placed (hplaced s' (List.mem_of_getElem? hs)), Sections.length, Sections.fragmentsOf, hs]
        rfl
      have hlength := hsmall a.fragment.sectionIndex
      rw [h.position_of_offset? ha, ← h.position, hsize] at hm
      rw [h.position_of_offset? hb, ← h.position, hsize] at hn
      rcases hvalue with hvalue | ⟨l, hl, hvalue⟩
      · exact h.within_difference hg hflat hq hvalue hd hsec.symm hw hpos hmax (by unfold wordBound; omega)
          (by unfold wordBound; omega)
      · subst href
        obtain ⟨hsa, hpa⟩ := Sections.position_seen hg hl rfl hm
        obtain ⟨hsb, hpb⟩ := Sections.position_seen hg hl hsec.symm hn
        exact h.within_difference hg hflat hq hvalue (hd.mapLoc _) (hsb.trans hsa.symm) hw hpos hmax
          (by unfold wordBound; omega) (by unfold wordBound; omega)

end Relaxation.Ends

/-! ## The sections are at rest -/

theorem Sections.Alike.number {R : Fragment (Tail Empty) → Fragment (Tail Empty) → Prop} {ss tt : Sections Empty}
    (h : ss.Alike R tt) (r : FragmentRef) : Relaxation.number tt r = Relaxation.number ss r := by
  have hlengths : tt.map (·.block.fragments.length) = ss.map (·.block.fragments.length) := by
    unfold Alike at h
    induction h with
    | nil => rfl
    | cons hst _ ih => rw [List.map_cons, List.map_cons, hst.2.2.length_eq, ih]
  unfold Relaxation.number
  rw [List.map_take, List.map_take, hlengths]

theorem Sections.small_of_placed {ss : Sections Empty}
    (hplaced : ∀ s ∈ ss, s.block.fragments = Fragment.placeFrom 0 s.block.fragments)
    (hsize : ∀ s ∈ ss, s.size < 2 ^ 62) : ss.Small := by
  intro k
  unfold Sections.length Sections.fragmentsOf
  cases hk : ss[k]? with
  | none => decide
  | some s =>
    have hs := List.mem_of_getElem? hk
    have hlt := hsize s hs
    rwa [Section.size_of_placed (hplaced s hs)] at hlt

namespace Object

variable {o u : Object Empty} {diags diags' : Diagnostics}

theorem modest_of_grown (hp : o.sections.Modest) {r : FragmentRef} {f p : Fragment (Tail Empty)}
    (hf : (o.finalize diags).1.sections.fragment? r = some f) (hgrown : Fragment.GrownFrom f.parts p) {b : Branch}
    (hb : p.tail = some (.branch b)) : b.short.all Encoding.modest = true := by
  obtain ⟨⟨p', hp', hpp⟩, -⟩ := hgrown
  have hmodest := (Fragment.throughout_iff _ f).1 (modest_finalize hp diags r f hf) p' hp'
  rcases hpp.tail with ⟨-, hnone⟩ | ⟨t, t', ht, ht', hgrows⟩
  · cases hnone.symm.trans hb
  · obtain rfl := Option.some.inj (ht'.symm.trans hb)
    obtain ⟨b', rfl, rfl | rfl⟩ := hgrows.of_branch <;> rw [ht] at hmodest <;> exact hmodest

/-- A successful relaxation ends with sections at rest. -/
theorem RelaxesInto.atRest (h : o.RelaxesInto diags diags' u) (hsize : ∀ s ∈ u.sections, s.size < 2 ^ 62)
    (hfield : ∀ r f, u.sections.fragment? r = some f → ∀ p ∈ f.parts, ∀ x, p.tail = some (.leb128 x) →
      ∃ v, x.Means u.sections v) : u.sections.AtRest := by
  obtain ⟨d, stats, hdone⟩ := h.done
  obtain ⟨-, s, hends, -⟩ := relax_grows h.built h.modest h.clean h.words hdone
  obtain ⟨t, ht, hu⟩ := relax_done hdone
  have hwritable : ∀ s ∈ u.sections, s.block.fragments = Fragment.placeFrom 0 s.block.fragments ∧
      ExactFragments s.block.fragments := by
    rw [hu]
    exact fun s hs => Sections.relax_writable ht hs
  have hplaced : ∀ s ∈ u.sections, s.block.fragments = Fragment.placeFrom 0 s.block.fragments :=
    fun s hs => (hwritable s hs).1
  have hsmall := Sections.small_of_placed hplaced hsize
  have hlengths (k : Nat) : u.sections.length k < 9223372036854775808 := Nat.lt_trans (hsmall k) (by decide)
  refine ⟨fun r f hf => ?_, hplaced, hends.padded, hlengths, fun r f hf q hq => ?_⟩
  · obtain ⟨f', -, -, hrelaxed⟩ := h.fragment hf
    have hexact : f.Exact := by
      obtain ⟨s, hs, hf⟩ := Option.bind_eq_some_iff.1 hf
      exact (exactFragments_iff _).1 (hwritable s (List.mem_of_getElem? hs)).2 f (List.mem_of_getElem? hf)
    have hnumber : Relaxation.number u.sections r = Relaxation.number (o.finalize diags).1.sections r := by
      rw [hu]
      exact (Sections.alike_relax ht).number r
    refine ⟨(congrArg Frame.index hrelaxed.frame).trans hnumber.symm, ?_⟩
    refine Fragment.measureAt_self hrelaxed.flat hrelaxed.steadyInside hexact (fun p hp => (hrelaxed.parts p hp).2)
      hrelaxed.tight ?_ ?_
    · rw [hends.placed r f hf]
      exact hends.padded r f hf
    · have hle := Nat.lt_of_le_of_lt (Sections.begins_add_totalLen_le hf) (hlengths r.sectionIndex)
      have hoffset := hends.placed r f hf
      unfold Fragment.totalLen at hle
      unfold Fragment.tailOffset
      omega
  · obtain ⟨f', hf', href, hrelaxed⟩ := h.fragment hf
    exact hends.met hplaced hsmall hf href hrelaxed.flat (fun p hp => (hrelaxed.parts p hp).2)
      (fun p hp b hpb => modest_of_grown h.modest hf' (hrelaxed.parts p hp) hpb) (hfield r f hf) hq

end Object

end SpanLayout
