import SpanLayout.Proofs.Tail.Emit
import SpanLayout.Proofs.Tail.Headroom

/-!
# Measuring again

Measuring gives a fragment the form that its own data ask for: a field whose value is known takes the width of the
value, a repetition whose count is known takes that many copies, and the copies lie one after the other. The spans of a
fragment change none of that. So a fragment that has reached its final form is measured to itself.
-/

namespace SpanLayout

/-! ## Forms that no span changes -/

namespace Tail

/-- A field whose value is known is as wide as the value. -/
def Snug (t : Tail Empty) : Prop :=
  ∀ f, t = .leb128 f → ∀ v, f.value.const? = some v → f.len = Leb128.size f.isSigned v

/-- Whether a span can change the form. -/
def widens : Tail Empty → Bool
  | .leb128 f => f.value.const?.isNone
  | .branch _ => true
  | _ => false

theorem snug_of_widens {t : Tail Empty} (h : t.widens = true) : t.Snug := by
  rintro f rfl v hv
  simp [widens, hv] at h

theorem Grows.widens {t t' : Tail Empty} (h : t.Grows t') (ht : t.widens = true) : t'.widens = true := by
  cases h <;> exact ht

theorem own_widens {t : Tail Empty} {q : SpanRequest} (hq : q ∈ t.own) : t.widens = true := by
  cases t with
  | leb128 f =>
    simp only [own, Leb128.Field.measure] at hq
    split at hq
    · cases hq
    · rename_i hc
      simp [widens, hc]
  | branch b => rfl
  | gap _ | align _ | origin _ | times _ _ _ | other _ => cases hq

theorem snug_measure (info : FragmentInfo) {t : Tail Empty} (hp : t.plain = true) : (t.measure info).state.1.Snug := by
  cases t with
  | times _ _ _ => cases hp
  | other d => cases d
  | leb128 x =>
    rintro f hf v hv
    rw [Tail.measure] at hf
    dsimp only [Directive.measure, Leb128.Field.measure] at hf
    cases hc : x.value.const? with
    | none =>
      rw [hc] at hf
      cases hf
      cases hc.symm.trans hv
    | some w =>
      rw [hc] at hf
      cases hf
      cases hc.symm.trans hv
      rfl
  | gap _ | align _ | origin _ | branch _ =>
    rintro f hf
    rw [Tail.measure] at hf
    cases hf

end Tail

theorem Repetition.reps_of_ok {info : FragmentInfo} {count : Int} {n : Nat} (h : reps info count = .ok n)
    (info' : FragmentInfo) : reps info' count = .ok n := by
  unfold reps at h ⊢
  split at h
  · cases h
  · split at h
    · cases h
    · rename_i hu hn
      rwa [if_neg hu, if_neg hn]

namespace Fragment

variable {f g : Fragment (Tail Empty)}

/-- The form of a fragment is the one that its own data ask for, as far as no span decides it. -/
structure Tight (f : Fragment (Tail Empty)) : Prop where
  snug : ∀ p ∈ f.parts, ∀ t, p.tail = some t → t.Snug
  count : ∀ count body reps, f.tail = some (.times count body reps) →
    ∃ n, count.const? = some n ∧ ∀ info, Repetition.reps info n = .ok reps
  body : ∀ count body reps, f.tail = some (.times count body reps) → body.fragments = placeFrom 0 body.fragments

/-- Whether the span `id` belongs to a tail whose form it can change. -/
def Widens (id : Int) (f : Fragment (Tail Empty)) : Prop := ∃ t, f.spanTail? id = some t ∧ t.widens = true

theorem SpansGrow.widens (h : SpansGrow f g) {id : Int} (hf : f.Widens id) : g.Widens id := by
  obtain ⟨t, ht, hw⟩ := hf
  rcases h id with ⟨hnone, -⟩ | ⟨u, u', hu, hu', hgrows⟩
  · cases hnone.symm.trans ht
  · obtain rfl := Option.some.inj (hu.symm.trans ht)
    exact ⟨u', hu', hgrows.widens hw⟩

/-- Whatever a fragment asks to be told about can change its form. -/
theorem requests_widens (hf : f.flat = true) {q : SpanRequest} (hq : q ∈ f.requests) : f.Widens q.id := by
  rcases (flat_iff f).1 hf with hp | ⟨count, body, reps, ht, hbody⟩
  · rw [requests_of_plain hp] at hq
    obtain ⟨t, ht, hq⟩ := exists_of_mem_own hq
    exact ⟨t, by rw [spanTail?_of_plain hp, ht], Tail.own_widens hq⟩
  · rw [requests_of_some ht] at hq
    obtain ⟨slot, p, r, hslot, hr, hrelay⟩ := mem_bodyRequests.mp hq
    obtain ⟨-, -, hunpack, -⟩ := Repetition.mem_relay hrelay (own_id hr)
    obtain ⟨t, hpt, hr⟩ := exists_of_mem_own hr
    refine ⟨t, ?_, Tail.own_widens hr⟩
    rw [spanTail?_of_times ht, hunpack]
    show body.fragments[slot]?.bind (·.tail) = some t
    rw [hslot]
    exact hpt

/-! ## What keeps a form tight -/

theorem placeFrom_placeFrom {τ : Type} (a b : Nat) (fs : List (Fragment τ)) :
    placeFrom a (placeFrom b fs) = placeFrom a fs := by
  induction fs generalizing a b with
  | nil => rfl
  | cons f fs ih =>
    rw [placeFrom, placeFrom, placeFrom, ih]
    rfl

theorem mem_placeFrom {offset : Nat} {fs : List (Fragment (Tail Empty))} {p : Fragment (Tail Empty)}
    (h : p ∈ placeFrom offset fs) : ∃ q ∈ fs, p.tail = q.tail := by
  obtain ⟨i, hi⟩ := List.getElem?_of_mem h
  rw [getElem?_placeFrom] at hi
  obtain ⟨q, hq, rfl⟩ := Option.map_eq_some_iff.1 hi
  exact ⟨q, List.mem_of_getElem? hq, rfl⟩

theorem Tight.of_tail (h : f.Tight) (ht : g.tail = f.tail) : g.Tight := by
  have hparts : ∀ p ∈ g.parts, ∃ q ∈ f.parts, p.tail = q.tail := by
    unfold parts
    rw [ht]
    split
    · exact fun p hp => ⟨p, hp, rfl⟩
    · intro p hp
      obtain rfl := List.mem_singleton.1 hp
      exact ⟨f, List.mem_singleton_self f, ht⟩
  refine ⟨fun p hp t hpt => ?_, fun count body reps hg => h.count count body reps (ht.symm.trans hg),
    fun count body reps hg => h.body count body reps (ht.symm.trans hg)⟩
  obtain ⟨q, hq, hpq⟩ := hparts p hp
  exact h.snug q hq t (hpq.symm.trans hpt)

theorem tight_of_plain (hp : f.tail.all Tail.plain = true) (h : ∀ t, f.tail = some t → t.Snug) : f.Tight := by
  have htimes {count : Expr} {body : Block (Tail Empty)} {reps : Nat} (ht : f.tail = some (.times count body reps)) :
      False := by
    rw [ht] at hp
    cases hp
  refine ⟨fun p hpart t ht => ?_, fun _ _ _ ht => (htimes ht).elim, fun _ _ _ ht => (htimes ht).elim⟩
  rw [parts_of_plain hp] at hpart
  obtain rfl := List.mem_singleton.1 hpart
  exact h t ht

theorem Tight.expand (h : f.Tight) (hf : f.flat = true) {id old new : Int} (hw : f.Widens id) {x : Expansion}
    (hx : (f.expand id old new).result = .ok x) : (f.expand id old new).state.Tight := by
  obtain ⟨u, hu, hwide⟩ := hw
  rcases (flat_iff f).1 hf with hp | ⟨count, body, reps, ht, hbody⟩
  · refine tight_of_plain ((plain_expand id old new f).trans hp) fun t' ht' => ?_
    rw [spanTail?_of_plain hp] at hu
    rcases (grown_expand hp id old new).tail with ⟨hnone, -⟩ | ⟨t, t'', htf, ht'', hgrows⟩
    · cases hnone.symm.trans hu
    · obtain rfl := Option.some.inj (hu.symm.trans htf)
      obtain rfl := Option.some.inj (ht''.symm.trans ht')
      exact Tail.snug_of_widens (hgrows.widens hwide)
  · rw [spanTail?_of_times ht] at hu
    obtain ⟨⟨slot, id'⟩, hunpack, hu⟩ := Option.bind_eq_some_iff.1 hu
    obtain ⟨p, hslot, hpu⟩ := Option.bind_eq_some_iff.1 hu
    rw [expand_of_some ht] at hx ⊢
    rcases Tail.expand_times_cases f.info id old new count body reps with
      ⟨e, he⟩ | ⟨n, hid, -⟩ | ⟨slot', id'', p', hunpack', hslot', ⟨e, -, he⟩ | ⟨y, hy, he⟩⟩
    · rw [he] at hx
      cases hx
    · rw [hid] at hunpack
      cases hunpack
    · rw [he] at hx
      cases hx
    · rw [hunpack] at hunpack'
      obtain ⟨rfl, rfl⟩ := Prod.mk.inj (Option.some.inj hunpack')
      obtain rfl := Option.some.inj (hslot.symm.trans hslot')
      rw [he]
      refine ⟨fun q hq t hqt => ?_, fun count' body' reps' ht' => ?_, fun count' body' reps' ht' => ?_⟩
      · rw [parts_of_times rfl] at hq
        obtain ⟨q', hq', htail⟩ := mem_placeFrom hq
        rw [htail] at hqt
        rcases List.mem_or_eq_of_mem_set hq' with hq' | rfl
        · exact h.snug q' (by rw [parts_of_times ht]; exact hq') t hqt
        · rcases (grown_expand (hbody p (List.mem_of_getElem? hslot)) id' old new).tail with
            ⟨hnone, -⟩ | ⟨t₁, t₂, ht₁, ht₂, hgrows⟩
          · cases hnone.symm.trans hpu
          · obtain rfl := Option.some.inj (hpu.symm.trans ht₁)
            obtain rfl := Option.some.inj (ht₂.symm.trans hqt)
            exact Tail.snug_of_widens (hgrows.widens hwide)
      · cases ht'
        exact h.count count body reps ht
      · cases ht'
        exact (placeFrom_placeFrom 0 0 _).symm

/-! ## Measuring gives a tight form -/

theorem snug_measureAt (hp : f.tail.all Tail.plain = true) {offset : Nat} {requests : List SpanRequest}
    (hm : f.measureAt offset = .done (g, requests) ()) {t : Tail Empty} (ht : g.tail = some t) : t.Snug := by
  cases hf : f.tail with
  | none =>
    rw [measureAt_of_none hf] at hm
    obtain ⟨rfl, -⟩ := Prod.mk.inj (congrArg Attempt.state hm)
    cases hf.symm.trans ht
  | some u =>
    rw [hf] at hp
    have hsnug := Tail.snug_measure { f.info with offset } hp
    rw [measureAt_of_some hf] at hm
    split at hm
    · rename_i heq
      obtain ⟨rfl, -⟩ := Prod.mk.inj (congrArg Attempt.state hm)
      obtain rfl := Option.some.inj ht
      rwa [heq] at hsnug
    · cases congrArg Attempt.result hm

theorem tight_measureAt (hf : f.flat = true) (hc : f.countRequests = []) {offset : Nat}
    {requests : List SpanRequest} (hm : f.measureAt offset = .done (g, requests) ()) : g.Tight := by
  rcases (flat_iff f).1 hf with hp | ⟨count, body, reps, ht, hbody⟩
  · have hplain := plain_measureAt offset f
    rw [hm] at hplain
    exact tight_of_plain (hplain.trans hp) fun t ht => snug_measureAt hp hm ht
  · obtain ⟨v, hv⟩ : ∃ v, count.const? = some v := by
      rw [countRequests, ht] at hc
      cases hv : count.const? with
      | none => simp [Tail.countRequests, hv] at hc
      | some v => exact ⟨v, rfl⟩
    obtain ⟨fragments, n, hg, -, hplaced, hreps, hparts⟩ := measureAt_times ht hm
    refine ⟨fun p hp t hpt => ?_, fun count' body' reps' hg' => ?_, fun count' body' reps' hg' => ?_⟩
    · rw [parts_of_times hg] at hp
      obtain ⟨p', hp', offset', requests', hm'⟩ := hparts p hp
      exact snug_measureAt (hbody p' hp') hm' hpt
    · cases hg.symm.trans hg'
      exact ⟨v, hv, Repetition.reps_of_ok (hreps v hv)⟩
    · cases hg.symm.trans hg'
      exact hplaced

end Fragment

/-! ## A tight form is measured to itself -/

theorem Tail.measure_self {t : Tail Empty} (hp : t.plain = true) (hs : t.setsOffset = false) {len : Nat}
    (hfits : t.Fits len) (hsnug : t.Snug) (info : FragmentInfo) : t.measure info = .done (t, t.own) len := by
  cases t with
  | times _ _ _ => cases hp
  | other d => cases d
  | align _ | origin _ => cases hs
  | gap g =>
    obtain rfl := hfits
    rw [Tail.measure]
    rfl
  | branch b =>
    obtain rfl := hfits
    rw [Tail.measure]
    rfl
  | leb128 f =>
    obtain ⟨rfl, -⟩ := hfits
    rw [Tail.measure, Tail.own]
    dsimp only [Directive.measure, Leb128.Field.measure]
    cases hc : f.value.const? with
    | none => rfl
    | some v =>
      have hlen := hsnug f rfl v hc
      dsimp only [Attempt.mapState]
      rw [← hlen]
      rfl

theorem Tail.measure_padding {t : Tail Empty} (hs : t.setsOffset = true) {info : FragmentInfo}
    (hb : info.tailOffset < 9223372036854775808) {len : Nat} (h : t.padding? info.tailOffset = some len) :
    t.measure info = .done (t, t.own) len := by
  cases t with
  | gap _ | leb128 _ | branch _ | times _ _ _ => cases hs
  | other d => cases d
  | align a =>
    obtain rfl := Option.some.inj h
    rw [Tail.measure]
    rfl
  | origin o =>
    rw [Tail.padding?] at h
    rw [Tail.measure]
    dsimp only [Directive.measure, Origin.padding]
    rw [signed_eq _ hb, Int.toNat_natCast]
    split at h
    · cases h
    · rename_i hle
      obtain rfl := Option.some.inj h
      rw [if_neg hle]
      rfl

namespace Fragment

variable {f g : Fragment (Tail Empty)}

theorem measureAt_of_measure {t : Tail Empty} (ht : f.tail = some t) {requests : List SpanRequest}
    (h : t.measure f.info = .done (t, requests) f.tailLen) : f.measureAt f.offset = .done (f, requests) () := by
  have hinfo : ({ f.info with offset := f.offset } : FragmentInfo) = f.info := rfl
  rw [measureAt_of_some ht, hinfo, h]
  dsimp only [Attempt.done]
  rw [← ht]

theorem measureAt_plain (hp : f.tail.all Tail.plain = true) (hs : f.setsOffset = false) (hfits : f.Fits)
    (hsnug : ∀ t, f.tail = some t → t.Snug) : f.measureAt f.offset = .done (f, f.own) () := by
  unfold own Fits at *
  cases ht : f.tail with
  | none =>
    rw [ht] at hfits
    have hlen : f.tailLen = 0 := hfits
    rw [measureAt_of_none ht, ← hlen]
    rfl
  | some t =>
    rw [ht] at hp hfits
    rw [setsOffset_of_some ht] at hs
    exact measureAt_of_measure ht (Tail.measure_self hp hs hfits (hsnug t ht) f.info)

theorem measureBody_self {owner : FragmentInfo} {slot offset : Nat} {fs : List (Fragment (Tail Empty))}
    (hplaced : fs = placeFrom offset fs) (h : ∀ p ∈ fs, p.measureAt p.offset = .done (p, p.own) ()) :
    measureBody owner slot offset fs = .done (fs, bodyRequests owner slot fs) () := by
  induction fs generalizing slot offset with
  | nil =>
    rw [measureBody]
    rfl
  | cons f fs ih =>
    rw [placeFrom] at hplaced
    obtain ⟨hf, hfs⟩ := List.cons.inj hplaced
    have hoffset : f.offset = offset := congrArg Fragment.offset hf
    have hm := h f List.mem_cons_self
    rw [hoffset] at hm
    rw [measureBody, hm, bodyRequests_cons]
    dsimp only [Attempt.done]
    rw [ih hfs fun p hp => h p (List.mem_cons_of_mem f hp)]
    rfl

/-- A fragment in its final form, where it lies, is measured to itself. -/
theorem measureAt_self (hf : f.flat = true) (hsteady : f.steadyInside = true) (hexact : f.Exact)
    (hfits : ∀ p ∈ f.parts, p.Fits) (htight : f.Tight) (hpad : f.PaddedAt f.offset)
    (hb : f.tailOffset < 9223372036854775808) :
    f.measureAt f.offset = .done (f, f.requests) () := by
  rcases (flat_iff f).1 hf with hp | ⟨count, body, reps, ht, hbody⟩
  · rw [requests_of_plain hp]
    rw [parts_of_plain hp] at hfits
    cases hs : f.setsOffset with
    | false =>
      refine measureAt_plain hp hs (hfits f (List.mem_singleton_self f)) fun t ht => htight.snug f ?_ t ht
      rw [parts_of_plain hp]
      exact List.mem_singleton_self f
    | true =>
      obtain ⟨t, ht, hset⟩ := exists_tail_of_setsOffset hs
      have hinfo : f.info.tailOffset < 9223372036854775808 := hb
      rw [own, ht]
      exact measureAt_of_measure ht (Tail.measure_padding hset hinfo (hpad t ht hset))
  · obtain ⟨n, hn, hreps⟩ := htight.count count body reps ht
    have hsteady : steadyFragments body.fragments = true := by
      rw [steadyInside, ht] at hsteady
      exact hsteady
    have hself : ∀ p ∈ body.fragments, p.measureAt p.offset = .done (p, p.own) () := by
      intro p hp
      have hmem : p ∈ f.parts := by rwa [parts_of_times ht]
      have hset := ((steady_iff p).1 ((steadyFragments_iff _).1 hsteady p hp)).1
      exact measureAt_plain (hbody p hp) hset (hfits p hmem) (htight.snug p hmem)
    obtain ⟨hlen, -⟩ := (exact_of_some ht).1 hexact
    rw [requests_of_some ht]
    refine measureAt_of_measure ht ?_
    rw [Tail.measure, measureBody_self (htight.body count body reps ht) hself, hn]
    dsimp only [Attempt.done]
    rw [hreps f.info, hlen]
    rfl

end Fragment

end SpanLayout
