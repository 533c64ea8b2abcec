import SpanLayout.Proofs.Relaxation.Branches

/-!
# Below a layout that fits

A padding that begins earlier ends no later. So if no fragment is longer than in some layout whose origins all fit,
everything lies where it does there or before that, and no origin overlaps what stands in front of it: neither when
fragments are measured or laid out, nor when a growth is followed. A fragment in no larger form is no longer.
-/

namespace SpanLayout

/-! ## One fragment -/

namespace Fragment

variable {f g : Fragment (Tail Empty)} {m n : Nat}

theorem Repadded.setsOffset (h : Repadded f g) : g.setsOffset = f.setsOffset := by
  rw [Fragment.setsOffset, Fragment.setsOffset, h.tail]

theorem Repadded.atMost (h : Repadded f g) : f.AtMost g :=
  ⟨congrArg List.length h.fixed, h.setsOffset, fun hs => Nat.le_of_eq (h.tailLen hs).symm, fun _ => h.tail⟩

theorem Repadded.atMost_symm (h : Repadded f g) : g.AtMost f :=
  ⟨congrArg List.length h.fixed.symm, h.setsOffset.symm,
    fun hs => Nat.le_of_eq (h.tailLen (h.setsOffset.symm.trans hs)), fun _ => h.tail.symm⟩

theorem AtMost.end_le (h : f.AtMost g) (hf : f.PaddedAt m) (hg : g.PaddedAt n) (hmn : m ≤ n) :
    m + f.totalLen ≤ n + g.totalLen := by
  have hfixed := h.fixedLen
  by_cases hs : f.setsOffset = true
  · obtain ⟨t, ht, hset⟩ := exists_tail_of_setsOffset hs
    have hpad := hf t ht hset
    have hpad' := hg t ((h.tail hs).trans ht) hset
    obtain ⟨len, hlen, hle⟩ := Tail.padding?_of_le hpad' (show m + f.fixedLen ≤ n + g.fixedLen by omega)
    obtain rfl := Option.some.inj (hpad.symm.trans hlen)
    unfold totalLen
    omega
  · have := h.totalLen_le (by simpa using hs)
    omega

theorem moveTo_of_padding {t : Tail Empty} (ht : f.tail = some t) (hs : t.setsOffset = true) {len : Nat}
    (hb : m + f.fixedLen < 9223372036854775808) (hp : t.padding? (m + f.fixedLen) = some len) :
    f.moveTo m = .done { f with offset := m, tailLen := len } (m + f.fixedLen + len) := by
  unfold moveTo
  dsimp only
  rw [if_pos (show ({ f with offset := m } : Fragment (Tail Empty)).setsOffset = true by
      rw [setsOffset_of_some (f := { f with offset := m }) ht]; exact hs),
    show signed ({ f with offset := m } : Fragment (Tail Empty)).tailOffset = ((m + f.fixedLen : Nat) : Int) from
      signed_eq _ hb]
  rcases expand_setter (f := { f with offset := m }) ht hs 1 0 (m + f.fixedLen) with ⟨len', w, hp', hx⟩ | ⟨hp', -⟩
  · obtain rfl := Option.some.inj (hp.symm.trans hp')
    rw [hx]
    simp [Attempt.done, Attempt.mapResult, Except.map, nextOffset, totalLen, fixedLen, Nat.add_assoc]
  · cases hp.symm.trans hp'

theorem AtMost.moveTo (h : f.AtMost g) (hg : g.PaddedAt n) (hmn : m ≤ n) (hb : n + g.totalLen < 9223372036854775808) :
    ∃ len, f.moveTo m = .done { f with offset := m, tailLen := len } (m + f.fixedLen + len) ∧
      PaddedAt m { f with offset := m, tailLen := len } ∧ f.Repadded { f with offset := m, tailLen := len } := by
  have hfixed := h.fixedLen
  have hle : g.fixedLen ≤ g.totalLen := Nat.le_add_right _ _
  by_cases hs : f.setsOffset = true
  · obtain ⟨t, ht, hset⟩ := exists_tail_of_setsOffset hs
    obtain ⟨len, hlen, -⟩ := Tail.padding?_of_le (hg t ((h.tail hs).trans ht) hset)
      (show m + f.fixedLen ≤ n + g.fixedLen by omega)
    refine ⟨len, moveTo_of_padding ht hset (by omega) hlen, fun u hu _ => ?_, rfl, rfl, fun hn => ?_⟩
    · obtain rfl := Option.some.inj (ht.symm.trans hu)
      exact hlen
    · exact absurd (hn.symm.trans hs) (by decide)
  · have hns : f.setsOffset = false := by simpa using hs
    refine ⟨f.tailLen, ?_, paddedAt_of_not_setsOffset hns m, rfl, rfl, fun _ => rfl⟩
    unfold Fragment.moveTo
    dsimp only
    have hns' : ¬ ({ f with offset := m } : Fragment (Tail Empty)).setsOffset = true := hs
    rw [if_neg hns']
    rw [nextOffset, totalLen, ← Nat.add_assoc]
    rfl

end Fragment

/-! ## Where fragments begin -/

theorem forall₂_of_getElem? {α β : Type} {R : α → β → Prop} {as : List α} {bs : List β}
    (h : ∀ i : Nat, (as[i]? = none ∧ bs[i]? = none) ∨ ∃ a b, as[i]? = some a ∧ bs[i]? = some b ∧ R a b) :
    List.Forall₂ R as bs := by
  induction as generalizing bs with
  | nil =>
    cases bs with
    | nil => exact .nil
    | cons b bs => rcases h 0 with ⟨-, hn⟩ | ⟨_, _, hn, -⟩ <;> cases hn
  | cons a as ih =>
    cases bs with
    | nil => rcases h 0 with ⟨hn, -⟩ | ⟨_, _, -, hn, -⟩ <;> cases hn
    | cons b bs =>
      refine .cons ?_ (ih fun i => by simpa using h (i + 1))
      rcases h 0 with ⟨hn, -⟩ | ⟨a', b', ha, hb, hR⟩
      · cases hn
      · obtain rfl := Option.some.inj ha
        obtain rfl := Option.some.inj hb
        exact hR

namespace Sections

theorem Related.forall₂ {R : Fragment (Tail Empty) → Fragment (Tail Empty) → Prop} {ss tt : Sections Empty}
    (h : ss.Related R tt) (k : Nat) : List.Forall₂ R (ss.fragmentsOf k) (tt.fragmentsOf k) :=
  forall₂_of_getElem? fun i => by
    rw [← fragment?_eq ss ⟨k, i⟩, ← fragment?_eq tt ⟨k, i⟩]
    exact h ⟨k, i⟩

variable {ss goal : Sections Empty}

theorem Repadded.atMost (h : ss.Repadded goal) : ss.AtMost goal := Related.imp h fun _ _ => Fragment.Repadded.atMost

theorem AtMost.begins_le (h : ss.AtMost goal) (hgoal : goal.Padded) {k i : Nat}
    (hpad : ∀ j < i, ∀ f, ss.fragment? ⟨k, j⟩ = some f → f.PaddedAt (ss.begins ⟨k, j⟩)) :
    ss.begins ⟨k, i⟩ ≤ goal.begins ⟨k, i⟩ := by
  induction i with
  | zero => exact Nat.le_refl 0
  | succ i ih =>
    have ih := ih fun j hj => hpad j (by omega)
    rcases h ⟨k, i⟩ with ⟨hf, hg⟩ | ⟨f, g, hf, hg, hu⟩
    · rwa [begins_succ_of_none hf, begins_succ_of_none hg]
    · rw [begins_succ hf, begins_succ hg]
      exact hu.end_le (hpad i (Nat.lt_succ_self i) f hf) (hgoal _ g hg) ih

theorem AtMost.length_le (h : ss.AtMost goal) (hgoal : goal.Padded) (hpad : ss.Padded) (k : Nat) :
    ss.length k ≤ goal.length k := by
  have hall (tt : Sections Empty) {n : Nat} (hn : (tt.fragmentsOf k).length ≤ n) : tt.begins ⟨k, n⟩ = tt.length k := by
    unfold begins length
    dsimp only
    rw [List.take_of_length_le hn]
  have hle := h.begins_le hgoal (k := k) (i := max (ss.fragmentsOf k).length (goal.fragmentsOf k).length)
    fun j _ f hf => hpad _ f hf
  rwa [hall ss (Nat.le_max_left _ _), hall goal (Nat.le_max_right _ _)] at hle

theorem AtMost.position_le (h : ss.AtMost goal) (hgoal : goal.Padded) (hpad : ss.Padded) (l : Location) :
    ss.position l ≤ goal.position l :=
  Nat.add_le_add_right (h.begins_le hgoal fun _ _ f hf => hpad _ f hf) _

end Sections

/-! ## Laying out -/

theorem layFragments_atMost {fs gs : List (Fragment (Tail Empty))} (h : List.Forall₂ Fragment.AtMost fs gs) {m n : Nat}
    (hpad : Fragment.PaddedFrom n gs) (hmn : m ≤ n) (hb : n + Fragment.sumLen gs < 9223372036854775808)
    (diags : Diagnostics) : (layFragments m diags fs).2 = diags ∧ m + Fragment.sumLen (layFragments m diags fs).1 ≤
      n + Fragment.sumLen gs := by
  induction h generalizing m n with
  | nil => exact ⟨rfl, hmn⟩
  | @cons f g fs gs hfg _ ih =>
    rw [Fragment.sumLen_cons] at hb ⊢
    obtain ⟨len, hmove, hpadded, hrepadded⟩ := hfg.moveTo hpad.1 hmn (by omega)
    have hend := (hrepadded.atMost_symm.trans hfg).end_le hpadded hpad.1 hmn
    rw [layFragments_cons_of_done hmove rfl, Fragment.sumLen_cons]
    obtain ⟨hdiags, hle⟩ := ih hpad.2 hend (by omega)
    exact ⟨hdiags, by omega⟩

namespace Sections

/-- Laying out below a layout that fits reports nothing. -/
theorem lay_atMost {ss : Sections Empty} {gs : Nat → List (Fragment (Tail Empty))}
    (h : ∀ k, List.Forall₂ Fragment.AtMost (ss.fragmentsOf k) (gs k)) (hpad : ∀ k, Fragment.PaddedFrom 0 (gs k))
    (hb : ∀ k, Fragment.sumLen (gs k) < 9223372036854775808) (diags : Diagnostics) :
    (ss.lay diags).2 = diags ∧ ∀ k, (ss.lay diags).1.length k ≤ Fragment.sumLen (gs k) := by
  induction ss generalizing gs diags with
  | nil => exact ⟨rfl, fun _ => Nat.zero_le _⟩
  | cons s ss ih =>
    obtain ⟨hdiags, hle⟩ := layFragments_atMost (h 0) (hpad 0) (Nat.le_refl 0) (by have := hb 0; omega) diags
    obtain ⟨hrest, hlengths⟩ := ih (fun k => h (k + 1)) (fun k => hpad (k + 1)) (fun k => hb (k + 1))
      (layFragments 0 diags s.block.fragments).2
    refine ⟨hrest.trans hdiags, fun k => ?_⟩
    cases k with
    | zero =>
      rw [Nat.zero_add, Nat.zero_add] at hle
      exact hle
    | succ k => exact hlengths k

theorem AtMost.lay {ss goal : Sections Empty} (h : ss.AtMost goal) (hgoal : goal.Padded)
    (hb : ∀ k, goal.length k < 9223372036854775808) (diags : Diagnostics) :
    (ss.lay diags).2 = diags ∧ ∀ k, (ss.lay diags).1.length k ≤ goal.length k :=
  lay_atMost h.forall₂ ((padded_iff goal).mp hgoal) hb diags

end Sections

/-! ## Following a growth -/

namespace Relaxation

variable {goal : Sections Empty}

theorem SettersLag.paddedAt {s : Relaxation Empty} (hs : s.plan.Sound) {sec k : Nat} {d : Int}
    (h : SettersLag sec k d s)
    {x : Setter} (hx : s.setters[k]? = some x) {j : Nat} (hj : j < x.ref.index) {f : Fragment (Tail Empty)}
    (hf : s.sections.fragment? ⟨x.ref.sectionIndex, j⟩ = some f) :
    f.PaddedAt (s.sections.begins ⟨x.ref.sectionIndex, j⟩) := by
  intro t ht hset
  have hmem : (⟨x.ref.sectionIndex, j⟩ : FragmentRef) ∈ s.plan.setters := by
    rw [hs.mem_setters]
    refine ⟨f.frame, by simp [plan, Sections.frame?, hf], ?_⟩
    show f.setsOffset = true
    rw [Fragment.setsOffset_of_some ht, hset]
  obtain ⟨y, hy, hyr⟩ := List.mem_map.mp hmem
  obtain ⟨i, hi⟩ := List.mem_iff_getElem?.mp hy
  have hlt : i < k := by
    by_contra hge
    rcases Nat.eq_or_lt_of_le (Nat.le_of_not_lt hge) with rfl | hlt
    · obtain rfl := Option.some.inj (hx.symm.trans hi)
      rw [hyr] at hj
      exact Nat.lt_irrefl _ hj
    · have hbefore := hs.before_of_lt hx hi hlt
      rw [hyr] at hbefore
      simp only [FragmentRef.Before] at hbefore
      omega
  obtain ⟨f', t', hf', ht', hp, hlag⟩ := h i y hi
  rw [hyr] at hf' hlag
  obtain rfl := Option.some.inj (hf.symm.trans hf')
  obtain rfl := Option.some.inj (ht.symm.trans ht')
  rw [if_neg (by omega)] at hlag
  rwa [show s.sections.begins ⟨x.ref.sectionIndex, j⟩ + f.fixedLen = y.tailOffset by omega]

/-- Following a growth through the setters reports nothing below a layout that fits, and stays below it. -/
theorem ripple_atMost (hgoal : goal.Padded) (hb : ∀ k, goal.length k < 9223372036854775808) {sec k : Nat} {d : Int}
    {setters : List Setter} {s : Relaxation Empty} (h : s.Tracked) (hset : setters = s.setters.drop k)
    (hlag : SettersLag sec k d s) (hsec : ∀ x ∈ setters, sec ≤ x.ref.sectionIndex)
    (hold : ∀ x ∈ setters, ∀ f, s.sections.fragment? x.ref = some f → x.tailOffset + f.tailLen < 9223372036854775808)
    (hle : s.sections.AtMost goal) :
    (ripple sec k setters d s).diags = s.diags ∧ ∀ i, (ripple sec k setters d s).sections.length i ≤ goal.length i := by
  induction setters generalizing k d s with
  | nil =>
    have htrack : s.SettersTrack := hlag.track fun m x hm hkm => by
      have hlen := (List.getElem?_eq_some_iff.mp hm).1
      have := List.drop_eq_nil_iff.mp hset.symm
      omega
    exact ⟨rfl, hle.length_le hgoal (Consistent.padded ⟨h, htrack⟩)⟩
  | cons x setters ih =>
    obtain ⟨hx, hdrop, hafter⟩ := setters_behind h.sound hset
    rw [ripple_cons]
    split
    · rename_i hstop
      have htrack : s.SettersTrack :=
        hlag.track fun m y => eq_zero_of_stop h.sound hx (hsec x List.mem_cons_self) hstop
      exact ⟨rfl, hle.length_le hgoal (Consistent.padded ⟨h, htrack⟩)⟩
    · rename_i hgo
      rw [not_or, not_not] at hgo
      obtain ⟨f, t, hf, ht, -, hl⟩ := hlag k x hx
      rw [if_pos ⟨Nat.le_refl k, hgo.2⟩] at hl
      have hs : t.setsOffset = true := by
        rw [← Fragment.setsOffset_of_some ht]
        exact setsOffset_of_setter h.sound (List.mem_of_getElem? hx) hf
      -- In front of `x` everything is in its place, so its padding fits as it does in the layout above.
      obtain ⟨g, hg, hfg⟩ := hle.exists_right hf
      have hbegins : s.sections.begins x.ref ≤ goal.begins x.ref :=
        hle.begins_le hgoal fun j hj f' hf' => hlag.paddedAt h.sound hx hj hf'
      have hfixed := hfg.fixedLen
      have hgpad := hgoal _ g hg t ((hfg.tail (by rw [Fragment.setsOffset_of_some ht, hs])).trans ht) hs
      have hglen := Sections.begins_add_totalLen_le hg
      have hgb := hb x.ref.sectionIndex
      rw [Fragment.totalLen] at hglen
      generalize ho : s.sections.begins x.ref + f.fixedLen = o at hl
      obtain ⟨len, hp, hend⟩ := Tail.padding?_of_le hgpad (show o ≤ goal.begins x.ref + g.fixedLen by omega)
      have hxo := hold x List.mem_cons_self f hf
      have hto : (x.tailOffset + d).toNat = o := by omega
      have hexp : ∃ w, f.expand 1 (signed x.tailOffset) (signed o) = .done { f with tailLen := len } ⟨len, w⟩ := by
        rw [signed_eq o (by omega)]
        rcases Fragment.expand_setter ht hs 1 (signed x.tailOffset) o with ⟨len', w, hp', he⟩ | ⟨hp', -⟩
        · obtain rfl := Option.some.inj (hp.symm.trans hp')
          exact ⟨some w, he⟩
        · cases hp.symm.trans hp'
      obtain ⟨w, hexp⟩ := hexp
      obtain ⟨htracked, -, hsections, hsetters⟩ :=
        moveSetter_spec h hx hf ht hs hl.symm (by omega) hp (by omega) (by omega)
      have hdiags : (s.moveSetter k x d f).diags = s.diags := by
        rw [(moveSetter_requeued k x d f s).diags, hto, hexp]
        rfl
      have hmoved := settersLag_moved h.sound hlag hx hgo.2 hf ht hl.symm hp hsections hsetters
      rw [hf]
      dsimp only
      rw [hto, hexp]
      simp only [Attempt.done]
      have hnext : signed (o + len) - signed (x.tailOffset + f.tailLen) = d + (len - f.tailLen) := by
        rw [signed_eq _ (by omega), signed_eq _ hxo]
        omega
      rw [hnext, ← hdiags]
      have hrepadded : f.Repadded { f with tailLen := len } :=
        ⟨rfl, rfl, fun hn => absurd (hn.symm.trans (by rw [Fragment.setsOffset_of_some ht, hs])) (by decide)⟩
      refine ih htracked ?_ hmoved (fun y hy => hsec y (List.mem_cons_of_mem x hy)) (fun y hy g' hg' => ?_) ?_
      · rw [hsetters, List.drop_set_of_lt (Nat.lt_succ_self k), hdrop]
      · refine hold y (List.mem_cons_of_mem x hy) g' ?_
        rw [← hg', hsections, Sections.fragment?_setFragment_ne (hafter y hy).ne]
      · rw [hsections]
        exact hle.setFragment_left hf hg (hrepadded.atMost_symm.trans hfg)

theorem follow_atMost (hgoal : goal.Padded) (hb : ∀ k, goal.length k < 9223372036854775808) {s : Relaxation Empty}
    (h : s.Consistent) (hle : s.sections.AtMost goal) {span : Span} (hspan : span ∈ s.spans)
    {f g : Fragment (Tail Empty)} (hf : s.sections.fragment? span.seed.ref = some f) (hg : g.frame = f.frame)
    (hset : (s.sections.setFragment span.seed.ref g).AtMost goal) :
    (s.follow span.seed f g).diags = s.diags ∧
      ∀ k, (s.follow span.seed f g).sections.length k ≤ goal.length k := by
  have hlen := fun k => Nat.lt_of_le_of_lt (hle.length_le hgoal h.padded k) (hb k)
  obtain ⟨hne, hbefore, hafter⟩ := setters_of_span h.tracked.sound hspan
  obtain ⟨htracked, hlag, -, hold⟩ := rippling_follow h.tracked h.setters hlen hspan hf hg
  have hgrown : signed g.totalLen - signed f.totalLen = (g.totalLen : Int) - f.totalLen := by
    have hgself : (s.sections.setFragment span.seed.ref g).fragment? span.seed.ref = some g :=
      Sections.fragment?_setFragment_self hf g
    obtain ⟨k, hk, hgk⟩ := hset.exists_right hgself
    have hns : f.setsOffset = false := by
      obtain ⟨a, ha, hns, -⟩ := (h.tracked.sound.seeds _ (List.mem_map_of_mem hspan)).frame
      obtain ⟨f', hf', rfl⟩ := Sections.exists_fragment_of_frame? ha
      rw [Option.some.inj (hf.symm.trans hf')]
      exact hns
    have hgns : g.setsOffset = false := (congrArg Frame.setsOffset hg).trans hns
    have := hgk.totalLen_le hgns
    have := Sections.begins_add_totalLen_le hk
    have := hb span.seed.ref.sectionIndex
    have := Sections.begins_add_totalLen_le hf
    have := hlen span.seed.ref.sectionIndex
    rw [signed_eq _ (by omega), signed_eq _ (by omega)]
  by_cases hz : signed g.totalLen - signed f.totalLen = 0
  · rw [follow_of_zero hz]
    have htrack : (s.setFragment span.seed.ref g).SettersTrack :=
      (settersLag_setFragment h.setters hf hbefore hne).track fun _ _ _ _ _ => by omega
    have hplan : (s.setFragment span.seed.ref g).plan = s.plan := plan_setFragment hf hg
    have hconsistent : (s.setFragment span.seed.ref g).Consistent :=
      ⟨⟨hplan ▸ h.tracked.sound, hplan ▸ h.tracked.indexed,
        spansTrack_setFragment h.tracked.sound h.tracked.spans hf (by omega),
        ⟨h.tracked.queues.active, h.tracked.queues.count, h.tracked.queues.lt⟩⟩, htrack⟩
    exact ⟨rfl, hset.length_le hgoal hconsistent.padded⟩
  · rw [follow_of_ne_zero hz, hgrown]
    have hreq := shift_requeued (s.setFragment span.seed.ref g) span.seed.index ((g.totalLen : Int) - f.totalLen)
    obtain ⟨hdiags, hlengths⟩ := ripple_atMost hgoal hb htracked (by rw [hreq.setters]; rfl) hlag
      (fun x hx => (hafter x hx).sectionIndex_le) hold (by rw [hreq.sections]; exact hset)
    exact ⟨hdiags.trans hreq.diags, hlengths⟩

end Relaxation

/-! ## Measuring -/

theorem Tail.measure_of_padding {t : Tail Empty} (hs : t.setsOffset = true) {info : FragmentInfo} {len : Nat}
    (hb : info.tailOffset < 9223372036854775808) (hp : t.padding? info.tailOffset = some len) :
    t.measure info = .done (t, []) len := by
  cases t with
  | align a =>
    obtain rfl := Option.some.inj hp
    rw [measure]
    rfl
  | origin o =>
    have hp : (if o.start < info.tailOffset then none else some (o.start - info.tailOffset)) = some len := hp
    split at hp
    · cases hp
    · rename_i hle
      obtain rfl := Option.some.inj hp
      rw [measure]
      dsimp only [Directive.measure]
      rw [signed_eq _ hb, Origin.padding, if_neg (by omega)]
      simp [Attempt.mapState, Attempt.done, Prod.map]
  | gap _ | leb128 _ | branch _ | times _ _ _ => cases hs
  | other d => cases d

namespace Relaxation

variable {C D B : Fragment (Tail Empty) → Fragment (Tail Empty) → Prop}

theorem surveyFragments_below (hB : ∀ k g, B k g → k.AtMost g)
    (hC : ∀ f g, C f g → ∀ index m n, g.PaddedAt n → m ≤ n → n + g.totalLen < 9223372036854775808 →
      ∃ k requests, ({ f with index } : Fragment (Tail Empty)).measureAt m = .done (k, requests) () ∧ k.offset = m ∧
        D f k ∧ B k g ∧ k.PaddedAt m)
    {fs gs : List (Fragment (Tail Empty))} (h : List.Forall₂ C fs gs)
    {m n : Nat} (hpad : Fragment.PaddedFrom n gs) (hmn : m ≤ n) (hb : n + Fragment.sumLen gs < 9223372036854775808)
    (index setters : Nat) (diags : Diagnostics) :
    (surveyFragments index m setters diags fs).diags = diags ∧
      List.Forall₂ D fs (surveyFragments index m setters diags fs).measured ∧
      List.Forall₂ B (surveyFragments index m setters diags fs).measured gs ∧
      Fragment.PaddedFrom m (surveyFragments index m setters diags fs).measured := by
  induction h generalizing m n index setters with
  | nil => exact ⟨rfl, .nil, .nil, trivial⟩
  | @cons f g fs gs hfg _ ih =>
    rw [Fragment.sumLen_cons] at hb
    obtain ⟨k, requests, hmeasure, hoffset, hmeasured, hbelow, hpadded⟩ := hC f g hfg index m n hpad.1 hmn (by omega)
    have hend := (hB k g hbelow).end_le hpadded hpad.1 hmn
    have hnext : k.nextOffset = m + k.totalLen := by rw [Fragment.nextOffset, hoffset]
    obtain ⟨hdiags, hall, hall', hrest⟩ := ih hpad.2 (hnext ▸ hend) (by omega) (index + 1)
      (if (true && k.setsOffset) = true then setters + 1 else setters)
    rw [surveyFragments, hmeasure]
    exact ⟨hdiags, .cons hmeasured hall, .cons hbelow hall', hpadded,
      hnext.subst (motive := fun o => Fragment.PaddedFrom o _) hrest⟩

theorem surveySections_below (hB : ∀ k g, B k g → k.AtMost g)
    (hC : ∀ f g, C f g → ∀ index m n, g.PaddedAt n → m ≤ n → n + g.totalLen < 9223372036854775808 →
      ∃ k requests, ({ f with index } : Fragment (Tail Empty)).measureAt m = .done (k, requests) () ∧ k.offset = m ∧
        D f k ∧ B k g ∧ k.PaddedAt m)
    {ss : Sections Empty} {gs : Nat → List (Fragment (Tail Empty))}
    (h : ∀ k, List.Forall₂ C (ss.fragmentsOf k) (gs k)) (hpad : ∀ k, Fragment.PaddedFrom 0 (gs k))
    (hb : ∀ k, Fragment.sumLen (gs k) < 9223372036854775808) (index setters : Nat) (diags : Diagnostics) :
    (surveySections index setters diags ss).diags = diags ∧
      ∀ k, List.Forall₂ D (ss.fragmentsOf k) (Sections.fragmentsOf (surveySections index setters diags ss).measured k) ∧
        List.Forall₂ B (Sections.fragmentsOf (surveySections index setters diags ss).measured k) (gs k) ∧
        Fragment.PaddedFrom 0 (Sections.fragmentsOf (surveySections index setters diags ss).measured k) := by
  induction ss generalizing gs index setters with
  | nil =>
    refine ⟨rfl, fun k => ⟨.nil, ?_, trivial⟩⟩
    have hk : List.Forall₂ C [] (gs k) := h k
    rw [List.forall₂_nil_left_iff.mp hk]
    exact .nil
  | cons s ss ih =>
    obtain ⟨hdiags, hbelow⟩ := surveyFragments_below hB hC (h 0) (hpad 0) (Nat.le_refl 0)
      (by have := hb 0; omega) index setters diags
    obtain ⟨hdiags', hrest⟩ := ih (fun k => h (k + 1)) (fun k => hpad (k + 1)) (fun k => hb (k + 1))
      (index + (surveyFragments index 0 setters diags s.block.fragments).measured.length)
      (setters + (surveyFragments index 0 setters diags s.block.fragments).setters.length)
    rw [surveySections]
    dsimp only
    rw [show (surveyFragments index 0 setters diags s.block.fragments).diags = diags from hdiags]
    refine ⟨hdiags', fun k => ?_⟩
    cases k with
    | zero => exact hbelow
    | succ k => exact hrest k

end Relaxation

theorem Sections.Related.surveyed {C D B : Fragment (Tail Empty) → Fragment (Tail Empty) → Prop}
    {ss goal : Sections Empty} (h : ss.Related C goal) (hB : ∀ k g, B k g → k.AtMost g)
    (hC : ∀ f g, C f g → ∀ index m n, g.PaddedAt n → m ≤ n → n + g.totalLen < 9223372036854775808 →
      ∃ k requests, ({ f with index } : Fragment (Tail Empty)).measureAt m = .done (k, requests) () ∧ k.offset = m ∧
        D f k ∧ B k g ∧ k.PaddedAt m)
    (hpad : goal.Padded) (hb : ∀ k, goal.length k < 9223372036854775808) (config : Config) (diags : Diagnostics) :
    (ss.surveyed config diags).diags = diags ∧ ss.Related D (ss.surveyed config diags).sections ∧
      (ss.surveyed config diags).sections.Related B goal ∧ (ss.surveyed config diags).sections.Padded := by
  obtain ⟨hdiags, hall⟩ := Relaxation.surveySections_below hB hC h.forall₂ ((padded_iff goal).mp hpad) hb 0 0 diags
  refine ⟨hdiags, fun r => ?_, fun r => ?_, (padded_iff _).mpr fun k => (hall k).2.2⟩ <;>
    rw [fragment?_eq, fragment?_eq]
  · exact forall₂_getElem? (hall r.sectionIndex).1 r.index
  · exact forall₂_getElem? (hall r.sectionIndex).2.1 r.index

end SpanLayout
