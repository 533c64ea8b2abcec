import SpanLayout.Proofs.Relaxation.Persistence

/-!
# At every depth

A property of fragments that is meant for those in repetitions too, and for those in repetitions of repetitions. As long
as it is about what layout leaves alone, it holds of the layout if it holds of what was finalized.
-/

namespace SpanLayout

variable {κ : Type}

section

variable (P : Fragment (Tail κ) → Prop)

mutual

/-- Whether all that a tail repeats has the property. -/
def Tail.Deeply : Tail κ → Prop
  | .times _ body _ => DeeplyAll body.fragments
  | .gap _ | .align _ | .origin _ | .leb128 _ | .branch _ | .other _ => True

/-- Whether a fragment has the property, and all that it repeats. -/
def Fragment.Deeply (f : Fragment (Tail κ)) : Prop :=
  P f ∧
    match f with
    | { tail := none, .. } => True
    | { tail := some t, .. } => t.Deeply

def DeeplyAll : List (Fragment (Tail κ)) → Prop
  | [] => True
  | f :: fs => f.Deeply ∧ DeeplyAll fs

end

end

variable {P : Fragment (Tail κ) → Prop}

theorem deeplyAll_iff (fs : List (Fragment (Tail κ))) : DeeplyAll P fs ↔ ∀ f ∈ fs, f.Deeply P := by
  induction fs with
  | nil => simp [DeeplyAll]
  | cons f fs ih => simp [DeeplyAll, ih]

theorem Tail.deeply_of_plain {t : Tail κ} (h : t.plain = true) : t.Deeply P := by
  cases t with
  | times _ _ _ => cases h
  | gap _ | align _ | origin _ | leb128 _ | branch _ | other _ => simp [Tail.Deeply]

theorem Fragment.deeply_iff (f : Fragment (Tail κ)) : f.Deeply P ↔ P f ∧ ∀ t, f.tail = some t → t.Deeply P := by
  obtain ⟨fixed, fixups, tail, ref, source, offset, index, tailLen⟩ := f
  cases tail with
  | none => simp [Fragment.Deeply]
  | some t => simp [Fragment.Deeply]

/-! ## What layout leaves alone -/

/-- What a fragment can become in a layout, apart from what it repeats: only the form of a branch is of interest. -/
structure Fragment.Evolves (f g : Fragment (Tail κ)) : Prop where
  ref : g.ref = f.ref
  fixed : g.fixed = f.fixed
  fixups : g.fixups = f.fixups
  branch : ∀ b, g.tail = some (.branch b) → ∃ b', f.tail = some (.branch b') ∧ (b = b' ∨ b = b'.lengthen)

/-- A property that layout leaves alone. -/
def Lasting (P : Fragment (Tail κ) → Prop) : Prop := ∀ f g, Fragment.Evolves f g → P f → P g

theorem Fragment.evolves_of_tail {f g : Fragment (Tail κ)} (href : g.ref = f.ref) (hfixed : g.fixed = f.fixed)
    (hfixups : g.fixups = f.fixups) (htail : g.tail = f.tail) : Evolves f g :=
  ⟨href, hfixed, hfixups, fun b hb => ⟨b, htail ▸ hb, .inl rfl⟩⟩

theorem Fragment.Deeply.evolve (hP : Lasting P) {f g : Fragment (Tail κ)} (h : f.Deeply P) (hfg : Evolves f g)
    (htail : ∀ t, g.tail = some t → t.Deeply P) : g.Deeply P :=
  g.deeply_iff.2 ⟨hP f g hfg (f.deeply_iff.1 h).1, htail⟩

theorem Fragment.Deeply.moved (hP : Lasting P) {f : Fragment (Tail κ)} (h : f.Deeply P) (offset : Nat) :
    Fragment.Deeply P { f with offset } :=
  h.evolve hP (evolves_of_tail rfl rfl rfl rfl) (f.deeply_iff.1 h).2

theorem deeplyAll_placeFrom (hP : Lasting P) (offset : Nat) {fs : List (Fragment (Tail κ))} (h : DeeplyAll P fs) :
    DeeplyAll P (Fragment.placeFrom offset fs) := by
  induction fs generalizing offset with
  | nil => exact h
  | cons f fs ih =>
    rw [DeeplyAll] at h
    rw [Fragment.placeFrom, DeeplyAll]
    exact ⟨h.1.moved hP offset, ih _ h.2⟩

/-! ## Measuring -/

variable [Directive κ]

theorem Tail.branch_of_measure {info : FragmentInfo} {t : Tail κ} {b : Branch}
    (h : (t.measure info).state.1 = .branch b) : t = .branch b := by
  cases t with
  | gap g => cases h
  | align a => cases h
  | origin o => cases h
  | leb128 f => cases h
  | branch b' => exact h
  | other o => cases h
  | times count body reps =>
    rw [Tail.measure] at h
    split at h
    · cases h
    · split at h
      · cases h
      · split at h
        · cases h
        · cases h

theorem Fragment.tail_measureAt {offset : Nat} {f : Fragment (Tail κ)} {t' : Tail κ}
    (h : (f.measureAt offset).state.1.tail = some t') :
    ∃ t, f.tail = some t ∧ (t.measure { f.info with offset }).state.1 = t' := by
  cases ht : f.tail with
  | none =>
    rw [measureAt_of_none ht] at h
    exact absurd (ht.symm.trans h) nofun
  | some t =>
    rw [measureAt_of_some ht] at h
    refine ⟨t, rfl, ?_⟩
    split at h
    · rename_i hm
      rw [hm]
      exact Option.some.inj h
    · rename_i hm
      rw [hm]
      exact Option.some.inj h

theorem Fragment.evolves_measureAt (offset : Nat) (f : Fragment (Tail κ)) :
    Evolves f (f.measureAt offset).state.1 := by
  have hbranch (b : Branch) (hb : (f.measureAt offset).state.1.tail = some (.branch b)) :
      ∃ b', f.tail = some (.branch b') ∧ (b = b' ∨ b = b'.lengthen) := by
    obtain ⟨t, ht, hm⟩ := tail_measureAt hb
    exact ⟨b, ht.trans (congrArg some (Tail.branch_of_measure hm)), .inl rfl⟩
  obtain ⟨tail, tailLen, hstate⟩ := f.measureAt_state offset
  rw [hstate] at hbranch ⊢
  exact ⟨rfl, rfl, rfl, hbranch⟩

mutual

theorem Tail.deeply_measure (hP : Lasting P) (info : FragmentInfo) (t : Tail κ) (h : t.Deeply P) :
    (t.measure info).state.1.Deeply P := by
  match t with
  | .gap _ | .align _ | .origin _ | .leb128 _ | .branch _ | .other _ =>
    rw [Tail.measure]
    simp [Tail.Deeply]
  | .times count body reps =>
    have hb := deeplyAll_measureBody hP info 0 0 body.fragments h
    rw [Tail.measure]
    split
    · rename_i hm
      rw [hm] at hb
      exact hb
    · rename_i hm
      rw [hm] at hb
      split
      · exact hb
      · split
        · exact hb
        · exact hb

theorem Fragment.deeply_measureAt (hP : Lasting P) (offset : Nat) (f : Fragment (Tail κ)) (h : f.Deeply P) :
    (f.measureAt offset).state.1.Deeply P := by
  refine h.evolve hP (f.evolves_measureAt offset) fun t' ht' => ?_
  obtain ⟨t, ht, rfl⟩ := Fragment.tail_measureAt ht'
  match f with
  | { tail := none, .. } => cases ht
  | { tail := some u, .. } =>
    obtain rfl : u = t := Option.some.inj ht
    exact Tail.deeply_measure hP _ u h.2

theorem deeplyAll_measureBody (hP : Lasting P) (owner : FragmentInfo) (slot offset : Nat)
    (fs : List (Fragment (Tail κ))) (h : DeeplyAll P fs) :
    DeeplyAll P (measureBody owner slot offset fs).state.1 := by
  match fs with
  | [] => exact h
  | f :: fs =>
    rw [DeeplyAll] at h
    have hf := Fragment.deeply_measureAt hP offset f h.1
    rw [measureBody]
    split
    · rename_i hm
      rw [hm] at hf
      exact ⟨hf, h.2⟩
    · rename_i hm
      rw [hm] at hf
      exact ⟨hf, deeplyAll_measureBody hP owner (slot + 1) _ fs h.2⟩

end

/-! ## Expanding -/

theorem Tail.branch_of_expand {info : FragmentInfo} {id old new : Int} {t : Tail κ} {b : Branch}
    (h : (t.expand info id old new).state = .branch b) : ∃ b', t = .branch b' ∧ (b = b' ∨ b = b'.lengthen) := by
  cases t with
  | gap g => cases h
  | align a => cases h
  | origin o => cases h
  | leb128 f => cases h
  | branch b' =>
    cases h
    exact ⟨b', rfl, .inr rfl⟩
  | other o => cases h
  | times count body reps =>
    rw [Tail.expand] at h
    split at h
    · split at h
      · cases h
      · cases h
    · split at h
      · cases h
      · split at h
        · cases h
        · cases h
        · cases h

theorem Fragment.tail_expand {id old new : Int} {f : Fragment (Tail κ)} {t' : Tail κ}
    (h : (f.expand id old new).state.tail = some t') :
    ∃ t, f.tail = some t ∧ (t.expand f.info id old new).state = t' := by
  cases ht : f.tail with
  | none =>
    rw [expand_of_none ht] at h
    exact absurd (ht.symm.trans h) nofun
  | some t =>
    rw [expand_of_some ht] at h
    refine ⟨t, rfl, ?_⟩
    split at h
    · rename_i hx
      rw [hx]
      exact Option.some.inj h
    · rename_i hx
      rw [hx]
      exact Option.some.inj h

theorem Fragment.evolves_expand (id old new : Int) (f : Fragment (Tail κ)) :
    Evolves f (f.expand id old new).state := by
  have hbranch (b : Branch) (hb : (f.expand id old new).state.tail = some (.branch b)) :
      ∃ b', f.tail = some (.branch b') ∧ (b = b' ∨ b = b'.lengthen) := by
    obtain ⟨t, ht, hx⟩ := tail_expand hb
    obtain ⟨b', rfl, hb'⟩ := Tail.branch_of_expand hx
    exact ⟨b', ht, hb'⟩
  obtain ⟨tail, tailLen, hstate⟩ := f.expand_state id old new
  rw [hstate] at hbranch ⊢
  exact ⟨rfl, rfl, rfl, hbranch⟩

mutual

theorem Tail.deeply_expand (hP : Lasting P) (info : FragmentInfo) (id old new : Int) (t : Tail κ) (h : t.Deeply P) :
    (t.expand info id old new).state.Deeply P := by
  match t with
  | .gap _ | .align _ | .origin _ | .leb128 _ | .branch _ | .other _ =>
    rw [Tail.expand]
    simp [Tail.Deeply]
  | .times count body reps =>
    rw [Tail.expand]
    split
    · split
      · exact h
      · exact h
    · split
      · exact h
      · rename_i slot id' _
        split
        · exact h
        · rename_i hx
          exact deeplyAll_expandInBody hP id' old new slot body.fragments h hx
        · rename_i hx
          exact deeplyAll_placeFrom hP 0 (deeplyAll_expandInBody hP id' old new slot body.fragments h hx)

theorem Fragment.deeply_expand (hP : Lasting P) (id old new : Int) (f : Fragment (Tail κ)) (h : f.Deeply P) :
    (f.expand id old new).state.Deeply P := by
  refine h.evolve hP (f.evolves_expand id old new) fun t' ht' => ?_
  obtain ⟨t, ht, rfl⟩ := Fragment.tail_expand ht'
  match f with
  | { tail := none, .. } => cases ht
  | { tail := some u, .. } =>
    obtain rfl : u = t := Option.some.inj ht
    exact Tail.deeply_expand hP _ id old new u h.2

theorem deeplyAll_expandInBody (hP : Lasting P) (id old new : Int) (slot : Nat) (fs : List (Fragment (Tail κ)))
    (h : DeeplyAll P fs) {x : Attempt Error (List (Fragment (Tail κ))) Expansion}
    (hx : expandInBody id old new slot fs = some x) : DeeplyAll P x.state := by
  match slot, fs with
  | _, [] => simp [expandInBody] at hx
  | 0, f :: fs =>
    rw [DeeplyAll] at h
    rw [expandInBody] at hx
    cases hx
    exact ⟨Fragment.deeply_expand hP id old new f h.1, h.2⟩
  | slot + 1, f :: fs =>
    rw [DeeplyAll] at h
    rw [expandInBody] at hx
    obtain ⟨y, hy, rfl⟩ := Option.map_eq_some_iff.1 hx
    exact ⟨h.1, deeplyAll_expandInBody hP id old new slot fs h.2 hy⟩

end

/-! ## Sections -/

/-- Whether a fragment has a property, and all that it repeats, given the name of the fragment that repeats it. -/
def Fragment.Throughout (P : FragmentRef → Fragment (Tail κ) → Prop) (f : Fragment (Tail κ)) : Prop :=
  f.Deeply (P f.ref)

namespace Sections

variable {P : FragmentRef → Fragment (Tail κ) → Prop}

/-- Whether all fragments have the property, and all that they repeat. -/
def Deeply (P : FragmentRef → Fragment (Tail κ) → Prop) (ss : Sections κ) : Prop := ss.Each (Fragment.Throughout P)

theorem persists_throughout (hP : ∀ r, Lasting (P r)) : Fragment.Persists (Fragment.Throughout P) where
  expand f id old new h := by
    unfold Fragment.Throughout
    rw [(f.evolves_expand id old new).ref]
    exact f.deeply_expand (hP _) id old new h
  moved _ offset h := Fragment.Deeply.moved (hP _) h offset

theorem throughout_measured (hP : ∀ r, Lasting (P r)) (f : Fragment (Tail κ)) (index offset : Nat)
    (h : f.Throughout P) : ({ f with index }.measureAt offset).state.1.Throughout P := by
  have hindexed : ({ f with index } : Fragment (Tail κ)).Throughout P :=
    Fragment.Deeply.evolve (hP _) h (Fragment.evolves_of_tail rfl rfl rfl rfl) (f.deeply_iff.1 h).2
  unfold Fragment.Throughout
  rw [(Fragment.evolves_measureAt offset { f with index }).ref]
  exact Fragment.deeply_measureAt (hP _) offset { f with index } hindexed

theorem deeply_relax (hP : ∀ r, Lasting (P r)) {config : Config} {diags : Diagnostics} {ss : Sections κ}
    {t : Relaxation κ} {stats : Stats} (h : ss.relax config diags = .done t stats) (hss : ss.Deeply P) :
    t.sections.Deeply P := by
  have hrelax := (persists_throughout hP).relax config diags
    (Relaxation.each_surveySections (throughout_measured hP) hss 0 0 diags)
  rw [h] at hrelax
  exact hrelax

end Sections

/-! ## Finalizing -/

section

variable {Q : FragmentRef → Fragment (Tail κ) → Prop} {symbols : SymbolTable}

mutual

theorem Tail.FinalizesTo.deeply [CandidDirective κ]
    (hPQ : ∀ owner f g, Fragment.FinalizesTo symbols owner f g → P f → Q g.ref g)
    {info : FragmentInfo} {t t' : Tail κ} (h : Tail.FinalizesTo symbols info t t') (ht : t.Deeply P) :
    t'.Deeply (Q info.ref) := by
  match t with
  | .times count body reps =>
    obtain ⟨e, fragments, -, -, rfl, -, hfs⟩ := h.times
    exact Fragment.FinalizesTo.deeplyAll hPQ hfs ht
  | .gap _ | .align _ | .origin _ | .leb128 _ | .branch _ | .other _ => exact Tail.deeply_of_plain h.kin.plain

theorem Fragment.FinalizesTo.deeply [CandidDirective κ]
    (hPQ : ∀ owner f g, Fragment.FinalizesTo symbols owner f g → P f → Q g.ref g)
    {owner : Option FragmentRef} {f g : Fragment (Tail κ)} (h : Fragment.FinalizesTo symbols owner f g)
    (hf : f.Deeply P) : g.Deeply (Q (owner.getD f.ref)) := by
  have href : g.ref = owner.getD f.ref := h.finalized.kin.ref
  refine (Fragment.deeply_iff g).2 ⟨href ▸ hPQ owner f g h ((Fragment.deeply_iff f).1 hf).1, fun u hu => ?_⟩
  obtain ⟨fixups, -, hcases⟩ := h.cases
  match f with
  | { tail := none, .. } =>
    rcases hcases with ⟨-, rfl⟩ | ⟨t, t', hsome, -⟩
    · cases hu
    · cases hsome
  | { tail := some t, .. } =>
    rcases hcases with ⟨hnone, -⟩ | ⟨t, t', hsome, rfl, htt⟩
    · cases hnone
    · cases hsome
      cases hu
      exact htt.deeply hPQ hf.2

theorem Fragment.FinalizesTo.deeplyAll [CandidDirective κ]
    (hPQ : ∀ owner f g, Fragment.FinalizesTo symbols owner f g → P f → Q g.ref g)
    {r : FragmentRef} {fs gs : List (Fragment (Tail κ))}
    (h : List.Forall₂ (Fragment.FinalizesTo symbols (some r)) fs gs) (hfs : DeeplyAll P fs) : DeeplyAll (Q r) gs := by
  match fs, gs, h with
  | [], [], _ => exact hfs
  | f :: fs, g :: gs, .cons hf hrest =>
    rw [DeeplyAll] at hfs ⊢
    exact ⟨hf.deeply hPQ hfs.1, Fragment.FinalizesTo.deeplyAll hPQ hrest hfs.2⟩

end

/-- What finalizing gives to each fragment holds of a layout at every depth, if layout leaves it alone. -/
theorem Object.deeply_layout [CandidDirective κ] (hQ : ∀ r, Lasting (Q r)) {o : Object κ}
    (hPQ : ∀ owner f g, Fragment.FinalizesTo o.symbols owner f g → P f → Q g.ref g)
    (ho : ∀ s ∈ o.sections.fresh, ∀ f ∈ s.block.fragments, f.Deeply P) {images : List Image}
    (h : o.layout.result = .ok images) : o.layout.object.sections.Deeply Q := by
  obtain ⟨t, stats, hclean, hrelax, hobject, -⟩ := Object.layout_ok h
  rw [hobject]
  refine Sections.deeply_relax hQ hrelax fun s hs g hg => ?_
  obtain ⟨s', hs', hfs⟩ := exists_of_forall₂_right (finalizesTo_finalizeSections o.symbols hclean) hs
  obtain ⟨f, hf, hfg⟩ := exists_of_forall₂_right hfs hg
  have href : g.ref = f.ref := hfg.finalized.kin.ref
  unfold Fragment.Throughout
  rw [href]
  exact hfg.deeply hPQ (ho s' hs' f hf)

end

end SpanLayout
