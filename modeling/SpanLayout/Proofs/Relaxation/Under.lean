import SpanLayout.Proofs.Relaxation.Solution

/-!
# Layouts in larger forms

Two layouts of the same fragments can be compared if every fragment has the form in the second one that it has in the
first, or a larger one, or at least if it is no shorter. A distance that extends over no padding is then no shorter in
the second layout, and what leaves the window of a form in the first one leaves it in the second one too. -/

namespace SpanLayout

/-! ## Forms -/

/-- The second tail is the first one, or the same in a larger form. -/
inductive Tail.Under : Tail Empty → Tail Empty → Prop
  | same (t : Tail Empty) : Under t t
  | wider (f : Leb128.Field) {len : Nat} (h : f.len ≤ len) : Under (.leb128 f) (.leb128 { f with len })
  | longer (b : Branch) (h : b.encoding.len ≤ b.long.len) : Under (.branch b) (.branch b.lengthen)

theorem Tail.Under.trans {t u v : Tail Empty} (h : t.Under u) (h' : u.Under v) : t.Under v := by
  cases h with
  | same => exact h'
  | wider f hlen =>
    cases h' with
    | same => exact .wider f hlen
    | wider _ hlen' => exact .wider f (Nat.le_trans hlen hlen')
  | longer b hlen =>
    cases h' with
    | same | longer => exact .longer b hlen

/-- The second fragment is the first one, or the same in a larger form. Both are as long as their forms. -/
structure Fragment.Under (f g : Fragment (Tail Empty)) : Prop where
  fixed : g.fixed = f.fixed
  tail : (f.tail = none ∧ g.tail = none) ∨ ∃ t u, f.tail = some t ∧ g.tail = some u ∧ t.Under u
  fits : f.Fits
  fits' : g.Fits

namespace Fragment.Under

variable {f g : Fragment (Tail Empty)}

theorem refl (h : f.Fits) : f.Under f := by
  refine ⟨rfl, ?_, h, h⟩
  cases f.tail with
  | none => exact .inl ⟨rfl, rfl⟩
  | some t => exact .inr ⟨t, t, rfl, rfl, .same t⟩

theorem trans {k : Fragment (Tail Empty)} (h : f.Under g) (h' : g.Under k) : f.Under k := by
  refine ⟨h'.fixed.trans h.fixed, ?_, h.fits, h'.fits'⟩
  rcases h.tail with ⟨hf, hg⟩ | ⟨t, u, hf, hg, hu⟩
  · rcases h'.tail with ⟨-, hk⟩ | ⟨u, _, hg', -⟩
    · exact .inl ⟨hf, hk⟩
    · rw [hg] at hg'
      cases hg'
  · rcases h'.tail with ⟨hg', -⟩ | ⟨u', v, hg', hk, hv⟩
    · rw [hg] at hg'
      cases hg'
    · obtain rfl := Option.some.inj (hg.symm.trans hg')
      exact .inr ⟨t, v, hf, hk, hu.trans hv⟩

theorem tail_of_some (h : f.Under g) {t : Tail Empty} (ht : f.tail = some t) : ∃ u, g.tail = some u ∧ t.Under u := by
  rcases h.tail with ⟨hf, -⟩ | ⟨t', u, hf, hg, hu⟩
  · rw [hf] at ht
    cases ht
  · obtain rfl := Option.some.inj (hf.symm.trans ht)
    exact ⟨u, hg, hu⟩

theorem fixedLen (h : f.Under g) : g.fixedLen = f.fixedLen := congrArg List.length h.fixed

theorem tailLen_le (h : f.Under g) (hs : f.setsOffset = false) : f.tailLen ≤ g.tailLen := by
  rcases h.tail with ⟨hf, hg⟩ | ⟨t, u, hf, hg, hu⟩
  · have hnone : f.tailLen = 0 := by
      have := h.fits
      rwa [Fits, hf] at this
    omega
  have hfits := (fits_of_some hf).mp h.fits
  have hfits' := (fits_of_some hg).mp h.fits'
  rw [setsOffset_of_some hf] at hs
  cases hu with
  | same t =>
    cases t with
    | align _ | origin _ => cases hs
    | other d => cases d
    | gap _ | branch _ | times _ _ _ => exact Nat.le_of_eq (hfits.trans hfits'.symm)
    | leb128 x => exact Nat.le_of_eq (hfits.1.trans hfits'.1.symm)
  | @wider x len hlen =>
    have := hfits.1
    have : g.tailLen = len := hfits'.1
    omega
  | longer b hlen =>
    have : f.tailLen = b.encoding.len := hfits
    have : g.tailLen = b.long.len := hfits'
    omega

theorem totalLen_le (h : f.Under g) (hs : f.setsOffset = false) : f.totalLen ≤ g.totalLen := by
  have := h.tailLen_le hs
  have := h.fixedLen
  unfold totalLen
  omega

theorem setsOffset (h : f.Under g) : g.setsOffset = f.setsOffset := by
  rcases h.tail with ⟨hf, hg⟩ | ⟨t, u, hf, hg, hu⟩
  · rw [Fragment.setsOffset, Fragment.setsOffset, hf, hg]
  · rw [setsOffset_of_some hf, setsOffset_of_some hg]
    cases hu <;> rfl

theorem branch (h : f.Under g) {b : Branch} (ht : f.tail = some (.branch b)) :
    g.tail = some (.branch b) ∨ g.tail = some (.branch b.lengthen) := by
  obtain ⟨u, hu, htu⟩ := h.tail_of_some ht
  cases htu with
  | same => exact .inl hu
  | longer => exact .inr hu

theorem tail_of_setsOffset (h : f.Under g) {t : Tail Empty} (ht : f.tail = some t) (hs : t.setsOffset = true) :
    g.tail = some t := by
  obtain ⟨u, hu, htu⟩ := h.tail_of_some ht
  cases htu with
  | same => exact hu
  | wider | longer => cases hs

end Fragment.Under

/-- The second fragment is no shorter than the first one. Lengths that follow their offsets are left open, but then the
tails are the same. -/
structure Fragment.AtMost (f g : Fragment (Tail Empty)) : Prop where
  fixedLen : g.fixedLen = f.fixedLen
  setsOffset : g.setsOffset = f.setsOffset
  tailLen : f.setsOffset = false → f.tailLen ≤ g.tailLen
  tail : f.setsOffset = true → g.tail = f.tail

namespace Fragment

variable {f g : Fragment (Tail Empty)}

theorem AtMost.refl (f : Fragment (Tail Empty)) : f.AtMost f := ⟨rfl, rfl, fun _ => Nat.le_refl _, fun _ => rfl⟩

theorem AtMost.trans {k : Fragment (Tail Empty)} (h : f.AtMost g) (h' : g.AtMost k) : f.AtMost k :=
  ⟨h'.fixedLen.trans h.fixedLen, h'.setsOffset.trans h.setsOffset,
    fun hs => Nat.le_trans (h.tailLen hs) (h'.tailLen (h.setsOffset.trans hs)),
    fun hs => (h'.tail (h.setsOffset.trans hs)).trans (h.tail hs)⟩

theorem AtMost.totalLen_le (h : f.AtMost g) (hs : f.setsOffset = false) : f.totalLen ≤ g.totalLen := by
  have := h.tailLen hs
  have := h.fixedLen
  unfold totalLen
  omega

theorem Under.atMost (h : f.Under g) : f.AtMost g := by
  refine ⟨h.fixedLen, h.setsOffset, h.tailLen_le, fun hs => ?_⟩
  obtain ⟨t, ht, hset⟩ := exists_tail_of_setsOffset hs
  rw [ht]
  exact h.tail_of_setsOffset ht hset

end Fragment

/-! ## Layouts -/

/-- The two layouts have their fragments at the same places, and those at one place are related. -/
def Sections.Related (R : Fragment (Tail Empty) → Fragment (Tail Empty) → Prop) (ss tt : Sections Empty) : Prop :=
  ∀ r, (ss.fragment? r = none ∧ tt.fragment? r = none) ∨
    ∃ f g, ss.fragment? r = some f ∧ tt.fragment? r = some g ∧ R f g

namespace Sections

section

variable {R S T : Fragment (Tail Empty) → Fragment (Tail Empty) → Prop} {ss tt uu : Sections Empty} {r : FragmentRef}
  {f g : Fragment (Tail Empty)}

theorem Related.exists_right (h : ss.Related R tt) (hf : ss.fragment? r = some f) :
    ∃ g, tt.fragment? r = some g ∧ R f g := by
  rcases h r with ⟨hn, -⟩ | ⟨f', g, hf', hg, hfg⟩
  · cases hn.symm.trans hf
  · obtain rfl := Option.some.inj (hf.symm.trans hf')
    exact ⟨g, hg, hfg⟩

theorem Related.exists_left (h : ss.Related R tt) (hg : tt.fragment? r = some g) :
    ∃ f, ss.fragment? r = some f ∧ R f g := by
  rcases h r with ⟨-, hn⟩ | ⟨f, g', hf, hg', hfg⟩
  · cases hn.symm.trans hg
  · obtain rfl := Option.some.inj (hg.symm.trans hg')
    exact ⟨f, hf, hfg⟩

theorem Related.of_both (h : ss.Related R tt) (hf : ss.fragment? r = some f) (hg : tt.fragment? r = some g) :
    R f g := by
  obtain ⟨g', hg', hfg⟩ := h.exists_right hf
  obtain rfl := Option.some.inj (hg.symm.trans hg')
  exact hfg

theorem related_self (h : ∀ r f, ss.fragment? r = some f → R f f) : ss.Related R ss := by
  intro r
  cases hf : ss.fragment? r with
  | none => exact .inl ⟨rfl, rfl⟩
  | some f => exact .inr ⟨f, f, rfl, rfl, h r f hf⟩

theorem Related.comp (h : ss.Related R tt) (h' : tt.Related S uu) (hT : ∀ f g k, R f g → S g k → T f k) :
    ss.Related T uu := by
  intro r
  rcases h r with ⟨hss, htt⟩ | ⟨f, g, hf, hg, hfg⟩
  · rcases h' r with ⟨-, huu⟩ | ⟨g, _, hg, -⟩
    · exact .inl ⟨hss, huu⟩
    · cases htt.symm.trans hg
  · obtain ⟨k, hk, hgk⟩ := h'.exists_right hg
    exact .inr ⟨f, k, hf, hk, hT f g k hfg hgk⟩

theorem Related.imp (h : ss.Related R tt) (hS : ∀ f g, R f g → S f g) : ss.Related S tt := by
  intro r
  rcases h r with hn | ⟨f, g, hf, hg, hfg⟩
  · exact .inl hn
  · exact .inr ⟨f, g, hf, hg, hS f g hfg⟩

theorem Related.swap (h : ss.Related R tt) (hS : ∀ f g, R f g → S g f) : tt.Related S ss := by
  intro r
  rcases h r with ⟨hss, htt⟩ | ⟨f, g, hf, hg, hfg⟩
  · exact .inl ⟨htt, hss⟩
  · exact .inr ⟨g, f, hg, hf, hS f g hfg⟩

theorem Related.setFragment_left (h : ss.Related R tt) {f' : Fragment (Tail Empty)} (hf : ss.fragment? r = some f)
    (hg : tt.fragment? r = some g) (hfg : R f' g) : (ss.setFragment r f').Related R tt := by
  intro r'
  by_cases hr : r = r'
  · subst hr
    exact .inr ⟨f', g, fragment?_setFragment_self hf f', hg, hfg⟩
  · rw [fragment?_setFragment_ne hr]
    exact h r'

theorem Related.setFragment_right (h : ss.Related R tt) {g' : Fragment (Tail Empty)} (hf : ss.fragment? r = some f)
    (hg : tt.fragment? r = some g) (hfg : R f g') : ss.Related R (tt.setFragment r g') := by
  intro r'
  by_cases hr : r = r'
  · subst hr
    exact .inr ⟨f, g', hf, fragment?_setFragment_self hg g', hfg⟩
  · rw [fragment?_setFragment_ne hr]
    exact h r'

end

variable {ss tt uu : Sections Empty}

/-- Every fragment of `tt` is that of `ss`, or the same in a larger form. -/
def Under (ss tt : Sections Empty) : Prop := ss.Related Fragment.Under tt

theorem under_refl (h : ∀ r f, ss.fragment? r = some f → f.Fits) : ss.Under ss :=
  related_self fun r f hf => .refl (h r f hf)

theorem Under.setFragment_right (h : ss.Under tt) {r : FragmentRef} {f g g' : Fragment (Tail Empty)}
    (hf : ss.fragment? r = some f) (hg : tt.fragment? r = some g) (hu : g.Under g') : ss.Under (tt.setFragment r g') :=
  Related.setFragment_right h hf hg ((h.of_both hf hg).trans hu)

/-- No fragment of `ss` is longer than that of `tt`. -/
def AtMost (ss tt : Sections Empty) : Prop := ss.Related Fragment.AtMost tt

theorem AtMost.refl (ss : Sections Empty) : ss.AtMost ss := related_self fun _ f _ => .refl f

theorem AtMost.trans (h : ss.AtMost tt) (h' : tt.AtMost uu) : ss.AtMost uu :=
  h.comp h' fun _ _ _ => Fragment.AtMost.trans

theorem atMost_setFragment {r : FragmentRef} {f g : Fragment (Tail Empty)} (hf : ss.fragment? r = some f)
    (hfg : f.AtMost g) : ss.AtMost (ss.setFragment r g) := (AtMost.refl ss).setFragment_right hf hf hfg

theorem Under.atMost (h : ss.Under tt) : ss.AtMost tt := h.imp fun _ _ => Fragment.Under.atMost

end Sections

/-! ## Paddings -/

/-- The fragments differ in where they lie, and in their length if it follows from that. -/
structure Fragment.Repadded (f g : Fragment (Tail Empty)) : Prop where
  tail : g.tail = f.tail
  fixed : g.fixed = f.fixed
  tailLen : f.setsOffset = false → g.tailLen = f.tailLen

namespace Fragment

variable {f g k : Fragment (Tail Empty)}

theorem Repadded.refl (f : Fragment (Tail Empty)) : Repadded f f := ⟨rfl, rfl, fun _ => rfl⟩

theorem Relaid.repadded (h : Relaid f g) : Repadded f g := by
  obtain ⟨offset, len, rfl, hlen⟩ := h
  exact ⟨rfl, rfl, hlen⟩

theorem Repadded.fits (h : Repadded f g) (hf : f.Fits) : g.Fits := by
  by_cases hs : f.setsOffset = true
  · obtain ⟨t, ht, hset⟩ := exists_tail_of_setsOffset hs
    exact (fits_of_some (h.tail.trans ht)).mpr (Tail.fits_of_setsOffset hset _)
  · rw [Fits, h.tail, h.tailLen (by simpa using hs)]
    exact hf

theorem Repadded.under_left (h : Repadded f g) (hu : f.Under k) : g.Under k :=
  ⟨hu.fixed.trans h.fixed.symm, h.tail ▸ hu.tail, h.fits hu.fits, hu.fits'⟩

theorem Repadded.under_right (h : Repadded f g) (hu : k.Under f) : k.Under g :=
  ⟨h.fixed.trans hu.fixed, h.tail ▸ hu.tail, hu.fits, h.fits hu.fits'⟩

theorem Reshaped.tail_of_setsOffset (h : f.Reshaped g) (hs : f.setsOffset = true) : g.tail = f.tail := by
  -- Whatever happens to a fragment that follows its offset, its tail stays.
  obtain ⟨t, ht, hset⟩ := exists_tail_of_setsOffset hs
  rw [ht]
  induction h with
  | refl => exact ht
  | @expand g _ id old new ih =>
    rw [expand_of_some ih]
    cases t with
    | align _ | origin _ => split <;> rename_i heq <;> obtain rfl := congrArg Attempt.state heq <;> rfl
    | gap _ | leb128 _ | branch _ | times _ _ _ => cases hset
    | other d => cases d
  | relaid _ hr ih => rw [hr.tail, ih]

theorem Reshaped.repadded (h : f.Reshaped g) (hs : f.setsOffset = true) : Repadded f g :=
  ⟨h.tail_of_setsOffset hs, congrArg Frame.fixed h.frame, fun hn => absurd (hn.symm.trans hs) (by decide)⟩

end Fragment

/-- The sections differ in the offsets of fragments, and in the lengths that follow from them. -/
def Sections.Repadded (ss tt : Sections Empty) : Prop := ss.Related Fragment.Repadded tt

namespace Sections

variable {ss tt uu : Sections Empty}

theorem Repadded.under_left (h : ss.Repadded tt) (hu : ss.Under uu) : tt.Under uu :=
  (h.swap (S := fun g f => f.Repadded g) fun _ _ => id).comp hu fun _ _ _ hfg hfk => hfg.under_left hfk

theorem Repadded.under_right (h : ss.Repadded tt) (hu : uu.Under ss) : uu.Under tt :=
  hu.comp h fun _ _ _ hkf hfg => hfg.under_right hkf

theorem repadded_lay {diags : Diagnostics} {ss : Sections Empty} (hd : (ss.lay diags).2.hasErrors = false)
    (hb : ∀ k, (ss.lay diags).1.length k < 9223372036854775808) : ss.Repadded (ss.lay diags).1 := by
  intro r
  rcases fragment?_lay hd hb r with h | ⟨f, g, hf, hg, hr⟩
  · exact .inl h
  · exact .inr ⟨f, g, hf, hg, hr.repadded⟩

/-! ## Distances -/

/-- A distance between bytes of fragments of one section that extends over nothing that follows its offset. -/
structure Clear (ss : Sections Empty) (d : Distance) : Prop where
  sameSection : d.origin.fragment.sectionIndex = d.target.fragment.sectionIndex
  origin : ss.holds d.origin = true
  target : ss.holds d.target = true
  clear : ∀ r f, d.Over r → ss.fragment? r = some f → f.setsOffset = false

theorem exists_of_holds {l : Location} (h : ss.holds l = true) :
    ∃ f, ss.fragment? l.fragment = some f ∧ l.offset ≤ f.fixedLen := by
  obtain ⟨f, hf, hl⟩ := (Option.any_eq_true _ _).mp h
  exact ⟨f, hf, of_decide_eq_true hl⟩

theorem begins_succ {k i : Nat} {f : Fragment (Tail Empty)} (h : ss.fragment? ⟨k, i⟩ = some f) :
    ss.begins ⟨k, i + 1⟩ = ss.begins ⟨k, i⟩ + f.totalLen := by
  rw [fragment?_eq] at h
  exact Fragment.sumLen_take_succ h

theorem begins_succ_of_none {k i : Nat} (h : ss.fragment? ⟨k, i⟩ = none) : ss.begins ⟨k, i + 1⟩ = ss.begins ⟨k, i⟩ := by
  rw [fragment?_eq, List.getElem?_eq_none_iff] at h
  unfold begins
  rw [List.take_of_length_le h, List.take_of_length_le (Nat.le_succ_of_le h)]

theorem Related.clear {R : Fragment (Tail Empty) → Fragment (Tail Empty) → Prop} (h : ss.Related R tt)
    (hR : ∀ f g, R f g → g.fixedLen = f.fixedLen ∧ g.setsOffset = f.setsOffset) {d : Distance} (hd : ss.Clear d) :
    tt.Clear d := by
  have hholds {l : Location} (hl : ss.holds l = true) : tt.holds l = true := by
    obtain ⟨f, hf, hle⟩ := exists_of_holds hl
    obtain ⟨g, hg, hfg⟩ := h.exists_right hf
    rw [holds, hg]
    exact decide_eq_true ((hR f g hfg).1 ▸ hle)
  refine ⟨hd.sameSection, hholds hd.origin, hholds hd.target, fun r g hr hg => ?_⟩
  obtain ⟨f, hf, hfg⟩ := h.exists_left hg
  exact (hR f g hfg).2.trans (hd.clear r f hr hf)

theorem AtMost.clear (h : ss.AtMost tt) {d : Distance} (hd : ss.Clear d) : tt.Clear d :=
  Related.clear h (fun _ _ hfg => ⟨hfg.fixedLen, hfg.setsOffset⟩) hd

theorem Under.clear (h : ss.Under tt) {d : Distance} (hd : ss.Clear d) : tt.Clear d := h.atMost.clear hd

theorem AtMost.begins_add_le (h : ss.AtMost tt) {k i j : Nat} (hij : i ≤ j)
    (hclear : ∀ m, i ≤ m → m < j → ∀ f, ss.fragment? ⟨k, m⟩ = some f → f.setsOffset = false) :
    ss.begins ⟨k, j⟩ + tt.begins ⟨k, i⟩ ≤ tt.begins ⟨k, j⟩ + ss.begins ⟨k, i⟩ := by
  induction j, hij using Nat.le_induction with
  | base => omega
  | succ j hij ih =>
    have ih := ih fun m hm hmj => hclear m hm (by omega)
    rcases h ⟨k, j⟩ with ⟨hf, hg⟩ | ⟨f, g, hf, hg, hu⟩
    · rwa [begins_succ_of_none hf, begins_succ_of_none hg]
    · have hle := hu.totalLen_le (hclear j hij (Nat.lt_succ_self j) f hf)
      rw [begins_succ hf, begins_succ hg]
      omega

theorem Clear.not_setsOffset {d : Distance} (hd : ss.Clear d) {m : Nat}
    (hl : min d.origin.fragment.index d.target.fragment.index ≤ m)
    (hh : m < max d.origin.fragment.index d.target.fragment.index) (f : Fragment (Tail Empty))
    (hf : ss.fragment? ⟨d.origin.fragment.sectionIndex, m⟩ = some f) : f.setsOffset = false :=
  hd.clear ⟨d.origin.fragment.sectionIndex, m⟩ f ⟨rfl, hl, hh⟩ hf

theorem AtMost.extent_le (h : ss.AtMost tt) {d : Distance} (hd : ss.Clear d)
    (hle : d.origin.fragment.index ≤ d.target.fragment.index) : ss.extent d ≤ tt.extent d := by
  obtain ⟨⟨⟨k, i⟩, m⟩, ⟨⟨k', j⟩, n⟩⟩ := d
  obtain rfl : k = k' := hd.sameSection
  dsimp only at hle
  have : ss.begins ⟨k, j⟩ + tt.begins ⟨k, i⟩ ≤ tt.begins ⟨k, j⟩ + ss.begins ⟨k, i⟩ :=
    h.begins_add_le hle fun m hm hmj f hf =>
      hd.not_setsOffset (Nat.le_trans (Nat.min_le_left _ _) hm) (Nat.lt_of_lt_of_le hmj (Nat.le_max_right _ _)) f hf
  unfold extent position
  dsimp only
  omega

theorem AtMost.le_extent (h : ss.AtMost tt) {d : Distance} (hd : ss.Clear d)
    (hle : d.target.fragment.index ≤ d.origin.fragment.index) : tt.extent d ≤ ss.extent d := by
  obtain ⟨⟨⟨k, i⟩, m⟩, ⟨⟨k', j⟩, n⟩⟩ := d
  obtain rfl : k = k' := hd.sameSection
  dsimp only at hle
  have : ss.begins ⟨k, i⟩ + tt.begins ⟨k, j⟩ ≤ tt.begins ⟨k, i⟩ + ss.begins ⟨k, j⟩ :=
    h.begins_add_le hle fun m hm hmj f hf =>
      hd.not_setsOffset (Nat.le_trans (Nat.min_le_right _ _) hm) (Nat.lt_of_lt_of_le hmj (Nat.le_max_left _ _)) f hf
  unfold extent position
  dsimp only
  omega

theorem le_extent_of_lt {d : Distance} (hs : d.origin.fragment.sectionIndex = d.target.fragment.sectionIndex)
    (hlt : d.origin.fragment.index < d.target.fragment.index) {f : Fragment (Tail Empty)}
    (hf : ss.fragment? d.origin.fragment = some f) : (f.totalLen : Int) - d.origin.offset ≤ ss.extent d := by
  -- What lies in a later fragment lies behind the whole of the earlier one.
  obtain ⟨⟨⟨k, i⟩, m⟩, ⟨⟨k', j⟩, n⟩⟩ := d
  obtain rfl : k = k' := hs
  dsimp only at hlt hf ⊢
  have := begins_succ hf
  have : ss.begins ⟨k, i + 1⟩ ≤ ss.begins ⟨k, j⟩ := begins_mono hlt
  unfold extent position
  dsimp only
  omega

theorem Clear.extent_nonpos {d : Distance} (hd : ss.Clear d)
    (hlt : d.target.fragment.index < d.origin.fragment.index) : ss.extent d ≤ 0 := by
  obtain ⟨f, hf, hoffset⟩ := exists_of_holds hd.target
  have hle := le_extent_of_lt (d := ⟨d.target, d.origin⟩) hd.sameSection.symm hlt hf
  have hfixed : f.fixedLen ≤ f.totalLen := Nat.le_add_right _ _
  unfold extent at hle ⊢
  dsimp only at hle
  omega

theorem Clear.extent_nonneg {d : Distance} (hd : ss.Clear d)
    (hlt : d.origin.fragment.index < d.target.fragment.index) : 0 ≤ ss.extent d := by
  obtain ⟨f, hf, hoffset⟩ := exists_of_holds hd.origin
  have hle := le_extent_of_lt hd.sameSection hlt hf
  have hfixed : f.fixedLen ≤ f.totalLen := Nat.le_add_right _ _
  omega

/-- In larger forms, a distance is further from zero, if it is not the same. -/
theorem AtMost.extent_away (h : ss.AtMost tt) {d : Distance} (hd : ss.Clear d) :
    (0 ≤ ss.extent d ∧ ss.extent d ≤ tt.extent d) ∨ (tt.extent d ≤ ss.extent d ∧ ss.extent d ≤ 0) ∨
      ss.extent d = tt.extent d := by
  rcases Nat.lt_trichotomy d.origin.fragment.index d.target.fragment.index with hlt | heq | hlt
  · exact .inl ⟨hd.extent_nonneg hlt, h.extent_le hd hlt.le⟩
  · exact .inr (.inr (Int.le_antisymm (h.extent_le hd heq.le) (h.le_extent hd heq.ge)))
  · exact .inr (.inl ⟨h.le_extent hd hlt.le, hd.extent_nonpos hlt⟩)

end Sections

/-! ## Values -/

/-- The value is how far it is from the one end of the distance to the other. -/
def Value.Spans (d : Distance) (v : Value) : Prop :=
  v.rel = none ∧ ∃ e, v.abs = some e ∧ e.IsDifference d.target d.origin 0

theorem Value.isRelative_of_spans {d : Distance} {v : Value} (h : v.Spans d) : v.isRelative = false := by
  rw [isRelative, h.1]
  rfl

theorem Value.Spans.extent_eq {d d' : Distance} {v : Value} (h : v.Spans d) (h' : v.Spans d') (ss : Sections Empty) :
    ss.extent d = ss.extent d' := by
  obtain ⟨-, e, he, hdiff⟩ := h
  obtain ⟨-, e', he', hdiff'⟩ := h'
  obtain rfl := Option.some.inj (he.symm.trans he')
  by_cases hab : d.target = d.origin <;> by_cases hab' : d'.target = d'.origin
  · rw [Sections.extent, Sections.extent, hab, hab', Int.sub_self, Int.sub_self]
  · obtain ⟨reversed, hsum⟩ := hdiff'.eq_sum hab'
    rw [hab] at hdiff
    rw [hdiff.const_of_eq] at hsum
    cases hsum
  · obtain ⟨reversed, hsum⟩ := hdiff.eq_sum hab
    rw [hab'] at hdiff'
    rw [hdiff'.const_of_eq] at hsum
    cases hsum
  · obtain ⟨reversed, hsum⟩ := hdiff.eq_sum hab
    obtain ⟨reversed', hsum'⟩ := hdiff'.eq_sum hab'
    have hboth := hsum.symm.trans hsum'
    cases reversed <;> cases reversed' <;>
      simp only [Expr.differenceTerms, Expr.sum.injEq, List.cons_append, List.cons.injEq, Expr.neg.injEq,
        Expr.loc.injEq,
        reduceCtorEq, if_true, Bool.false_eq_true, if_false, false_and, and_true, List.nil_append] at hboth
    · rw [Sections.extent, Sections.extent, hboth.1, hboth.2]
    · rw [Sections.extent, Sections.extent, hboth.1, hboth.2]

theorem Sections.valueOf?_of_spans {ss : Sections Empty} {d : Distance} {v : Value} (h : v.Spans d)
    (hs : d.origin.fragment.sectionIndex = d.target.fragment.sectionIndex) (hl : -wordBound ≤ ss.extent d)
    (hh : ss.extent d < wordBound) : ss.valueOf? v = some (ss.extent d) := by
  obtain ⟨-, e, he, hdiff⟩ := id h
  rw [valueOf?, Value.isRelative_of_spans h, if_neg (by decide), he]
  dsimp only
  by_cases hab : d.target = d.origin
  · rw [hab] at hdiff
    rw [hdiff.const_of_eq, extent, hab, Int.sub_self]
    rfl
  · have hdist := hdiff.distances hab hs
    rw [hdiff.eval hab hs (x := ss.extent d) (by rw [hdist]; rfl) hl hh, show (0 : Int64).toInt = 0 from rfl,
      Int.add_zero]
    exact Expr.checked_eq hl hh

theorem Sections.Clear.word {ss : Sections Empty} {d : Distance} (hd : ss.Clear d) (hb : ∀ k, ss.length k < 2 ^ 63) :
    -wordBound ≤ ss.extent d ∧ ss.extent d < wordBound := by
  obtain ⟨f, hf, hfl⟩ := exists_of_holds hd.origin
  obtain ⟨g, hg, hgl⟩ := exists_of_holds hd.target
  have := position_le_length hf hfl
  have := position_le_length hg hgl
  have := hb d.origin.fragment.sectionIndex
  have := hb d.target.fragment.sectionIndex
  unfold extent wordBound
  omega

/-! ## Forms that are too small -/

/-- Every distance that a form depends on lies in the window of the form. -/
def Sections.Meets (goal : Sections Empty) : Prop :=
  ∀ r g, goal.fragment? r = some g → ∀ q ∈ g.own, ∀ d, q.value.Spans d → q.window.contains (goal.extent d) = true

theorem Leb128.zero_mem_window (signed : Bool) (len : Nat) :
    (window signed len).low ≤ 0 ∧ 0 ≤ (window signed len).high := by
  have hpos (n : Nat) : 0 < 1 <<< n := by
    rw [Nat.one_shiftLeft]
    exact Nat.two_pow_pos n
  have := hpos (7 * len - 1)
  have := hpos (7 * len)
  unfold window lowest highest
  dsimp only
  constructor <;> split_ifs <;> omega

theorem Encoding.zero_mem_range (e : Encoding) : e.range.low ≤ 0 ∧ 0 ≤ e.range.high := by
  have hpos : 0 < 1 <<< (e.dispBits - 1) := by
    rw [Nat.one_shiftLeft]
    exact Nat.two_pow_pos _
  unfold range
  dsimp only
  omega

namespace Sections

variable {ss goal : Sections Empty} {d : Distance}

theorem AtMost.contains_window (h : ss.AtMost goal) (hd : ss.Clear d) {signed : Bool} {len : Nat}
    (hgoal : (Leb128.window signed len).contains (goal.extent d) = true) :
    (Leb128.window signed len).contains (ss.extent d) = true := by
  have hzero := Leb128.zero_mem_window signed len
  rw [Window.contains_iff] at hgoal ⊢
  rcases h.extent_away hd with ⟨_, _⟩ | ⟨_, _⟩ | _ <;> omega

/-- A short branch that reaches its target in larger forms reaches it in smaller ones: the target lies behind the
instruction, or it does not lie behind its beginning. -/
theorem AtMost.contains_range (h : ss.AtMost goal) (hd : ss.Clear d) {r : FragmentRef} {f : Fragment (Tail Empty)}
    {b : Branch} {e : Encoding} (hf : ss.fragment? r = some f) (ht : f.tail = some (.branch b))
    (he : b.shortInUse? = some e) (hfits : f.Fits) (ho : d.origin = ⟨r, f.fixedLen⟩) (hb : ∀ k, ss.length k < 2 ^ 63)
    (hgoal : (⟨e.range.low + signed e.len, e.range.high + signed e.len⟩ : Window).contains (goal.extent d) = true) :
    (⟨e.range.low + signed e.len, e.range.high + signed e.len⟩ : Window).contains (ss.extent d) = true := by
  have hlen : f.tailLen = e.len := by
    have hlen := (Fragment.fits_of_some ht).mp hfits
    rwa [Tail.Fits, Branch.encoding, he] at hlen
  have hsigned : signed e.len = e.len := by
    have := begins_add_totalLen_le hf
    have := hb r.sectionIndex
    have : f.totalLen = f.fixedLen + e.len := congrArg (f.fixedLen + ·) hlen
    exact signed_eq _ (by omega)
  have hzero := e.zero_mem_range
  rw [Window.contains_iff, hsigned] at hgoal ⊢
  dsimp only at hgoal ⊢
  rcases Nat.lt_trichotomy d.origin.fragment.index d.target.fragment.index with hlt | heq | hlt
  · have hbehind :=
      le_extent_of_lt hd.sameSection hlt (show ss.fragment? d.origin.fragment = some f by rw [ho]; exact hf)
    have : f.totalLen = f.fixedLen + e.len := congrArg (f.fixedLen + ·) hlen
    have := h.extent_le hd hlt.le
    rw [ho] at hbehind
    dsimp only at hbehind
    omega
  · rwa [Int.le_antisymm (h.extent_le hd heq.le) (h.le_extent hd heq.ge)]
  · have := hd.extent_nonpos hlt
    have := h.le_extent hd hlt.le
    omega

/-- A branch that is so long that even what stands for a lost value would be in its reach has its target behind it, and
reaches it in larger forms as well. -/
theorem AtMost.contains_of_lost (h : ss.AtMost goal) (hd : ss.Clear d) {e : Encoding} {len : Int}
    (hb : ∀ k, goal.length k < 2 ^ 63)
    (hss : (⟨e.range.low + len, e.range.high + len⟩ : Window).contains (ss.extent d) = true)
    (hlost : (⟨e.range.low + len, e.range.high + len⟩ : Window).contains unknownValue = true) :
    (⟨e.range.low + len, e.range.high + len⟩ : Window).contains (goal.extent d) = true := by
  obtain ⟨hlow, hhigh⟩ := e.range_bounds
  obtain ⟨-, hword⟩ := (h.clear hd).word hb
  rw [Window.contains_iff] at hss hlost ⊢
  unfold unknownValue wordBound at hlost
  unfold wordBound at hword
  dsimp only at hss hlost ⊢
  have hforward : d.origin.fragment.index ≤ d.target.fragment.index := by
    by_contra hlt
    have := hd.extent_nonpos (Nat.lt_of_not_le hlt)
    omega
  have := h.extent_le hd hforward
  omega

end Sections

/-! ## Expansions -/

theorem Tail.under_expand (info : FragmentInfo) (id old new : Int) {t : Tail Empty} (hp : t.plain = true) {len : Nat}
    (hfits : t.Fits len) (hlong : ∀ b, t = .branch b → b.encoding.len ≤ b.long.len) :
    t.Under (t.expand info id old new).state := by
  cases t with
  | gap _ | align _ | origin _ => exact .same _
  | other d => exact nomatch d
  | times _ _ _ => cases hp
  | branch b => exact .longer b (hlong b rfl)
  | leb128 x =>
    obtain ⟨-, -, hmax, -⟩ := hfits
    show (Tail.leb128 x).Under (.leb128 (x.expand info new).state)
    unfold Leb128.Field.expand
    split
    · exact .same _
    · exact .wider x (Nat.le_min.mpr ⟨Nat.le_max_left _ _, hmax⟩)

/-- A form that is not larger than that of `u` is not larger after an expansion either, if the branch is long in `u` and
the number fits the width that it has in `u`. -/
theorem Tail.Under.expand {t u : Tail Empty} (h : t.Under u) (hp : t.plain = true) (info : FragmentInfo) (id old : Int)
    {new : Int} (hbranch : ∀ b, u = .branch b → b.form = .long)
    (hnumber : ∀ x, u = .leb128 x → Leb128.size x.isSigned new ≤ x.len) : (t.expand info id old new).state.Under u := by
  cases t with
  | gap _ | align _ | origin _ => exact h
  | other d => exact nomatch d
  | times _ _ _ => cases hp
  | branch b =>
    show (Tail.branch b.lengthen).Under u
    cases h with
    | longer => exact .same _
    | same =>
      have hform := hbranch b rfl
      have hb : b.lengthen = b := by rw [Branch.lengthen, ← hform]
      rw [hb]
      exact .same _
  | leb128 x =>
    obtain ⟨len, hlen, rfl⟩ : ∃ len, x.len ≤ len ∧ u = .leb128 { x with len } := by
      cases h with
      | same => exact ⟨x.len, Nat.le_refl _, rfl⟩
      | wider _ hlen => exact ⟨_, hlen, rfl⟩
    show (Tail.leb128 (x.expand info new).state).Under _
    unfold Leb128.Field.expand
    split
    · exact .wider x hlen
    · have hsize := hnumber _ rfl
      exact .wider { x with len := min (max x.len (Leb128.size x.isSigned new)) Leb128.maxLen }
        (Nat.le_trans (Nat.min_le_left _ _) (Nat.max_le.mpr ⟨hlen, hsize⟩))

namespace Fragment

variable {f g : Fragment (Tail Empty)}

theorem tail_expand_of_some {t : Tail Empty} (ht : f.tail = some t) (id old new : Int) :
    (f.expand id old new).state.tail = some (t.expand f.info id old new).state := by
  rw [expand_of_some ht]
  split <;> rename_i heq <;> rw [heq] <;> rfl

theorem expand_branch {b : Branch} (ht : f.tail = some (.branch b)) (id old new : Int) :
    f.expand id old new =
      .done { f with tail := some (.branch b.lengthen), tailLen := b.long.len } (.settled b.long.len) := by
  rw [expand_of_some ht]
  rfl

theorem fixed_expand (id old new : Int) : (f.expand id old new).state.fixed = f.fixed :=
  congrArg Frame.fixed (frame_expand id old new f)

theorem fits_expand_plain (hp : f.tail.all Tail.plain = true) (h : f.Fits) (id old new : Int) :
    (f.expand id old new).state.Fits := by
  rcases expand_plain hp h id old new with ⟨g, x, he, hg⟩ | ⟨e, he⟩ <;> rw [he]
  · exact hg
  · exact h

theorem under_expand (hp : f.tail.all Tail.plain = true) (hfits : f.Fits)
    (hlong : ∀ b, f.tail = some (.branch b) → b.encoding.len ≤ b.long.len) (id old new : Int) :
    f.Under (f.expand id old new).state := by
  refine ⟨fixed_expand id old new, ?_, hfits, fits_expand_plain hp hfits id old new⟩
  cases ht : f.tail with
  | none =>
    rw [expand_of_none ht]
    exact .inl ⟨rfl, ht⟩
  | some t =>
    rw [ht] at hp
    refine .inr ⟨t, _, rfl, tail_expand_of_some ht id old new, t.under_expand f.info id old new hp
      ((fits_of_some ht).mp hfits) ?_⟩
    rintro b rfl
    exact hlong b ht

theorem Under.expand (h : f.Under g) (hp : f.tail.all Tail.plain = true) (id old : Int) {new : Int}
    (hbranch : ∀ b, g.tail = some (.branch b) → b.form = .long)
    (hnumber : ∀ x, g.tail = some (.leb128 x) → Leb128.size x.isSigned new ≤ x.len) :
    (f.expand id old new).state.Under g := by
  refine ⟨h.fixed.trans (fixed_expand id old new).symm, ?_, fits_expand_plain hp h.fits id old new, h.fits'⟩
  rcases h.tail with ⟨hf, hg⟩ | ⟨t, u, hf, hg, hu⟩
  · rw [expand_of_none hf]
    exact .inl ⟨hf, hg⟩
  · rw [hf] at hp
    exact .inr ⟨_, u, tail_expand_of_some hf id old new, hg,
      hu.expand hp f.info id old (fun b hb => hbranch b (hb ▸ hg)) fun x hx => hnumber x (hx ▸ hg)⟩

end Fragment

end SpanLayout
