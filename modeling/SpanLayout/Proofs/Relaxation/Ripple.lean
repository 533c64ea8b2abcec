import SpanLayout.Proofs.Relaxation.Growth

/-!
# Following a growth through the setters

What grows moves the fragments behind it, and those of them that follow their offset take another length, which moves
what is behind them in turn. While the growth is followed, the setters up to some number are where their entries say,
and those behind it in the section are all off by the same amount.
-/

namespace SpanLayout.Relaxation

/-! ## One setter -/

section

variable {κ : Type} [Directive κ]

/-- Setter number `k` is moved by `d`. -/
def moveSetter (k : Nat) (x : Setter) (d : Int) (f : Fragment (Tail κ)) (s : Relaxation κ) : Relaxation κ :=
  let tailOffset := (x.tailOffset + d).toNat
  let y := f.expand 1 (signed x.tailOffset) (signed tailOffset)
  let s := (s.setFragment x.ref y.state).reportFailure y.result
  let s := { s with setters := s.setters.set k { x with tailOffset } }
  let grown := signed y.state.tailLen - signed f.tailLen
  if grown = 0 then s else s.shift f.index grown

theorem ripple_cons (sec k : Nat) (x : Setter) (setters : List Setter) (d : Int) (s : Relaxation κ) :
    ripple sec k (x :: setters) d s =
      if d = 0 ∨ x.ref.sectionIndex ≠ sec then s
      else
        match s.sections.fragment? x.ref with
        | none => s
        | some f =>
          let tailOffset := (x.tailOffset + d).toNat
          let g := (f.expand 1 (signed x.tailOffset) (signed tailOffset)).state
          ripple sec (k + 1) setters (signed (tailOffset + g.tailLen) - signed (x.tailOffset + f.tailLen))
            (s.moveSetter k x d f) := by
  rw [ripple]
  split
  · rfl
  · cases s.sections.fragment? x.ref <;> rfl

variable {k : Nat} {x : Setter} {d : Int} {f : Fragment (Tail κ)} {s : Relaxation κ}

theorem moveSetter_requeued (k : Nat) (x : Setter) (d : Int) (f : Fragment (Tail κ)) (s : Relaxation κ) :
    let y := f.expand 1 (signed x.tailOffset) (signed (x.tailOffset + d).toNat)
    Requeued
      { (s.setFragment x.ref y.state).reportFailure y.result with
        setters := s.setters.set k { x with tailOffset := (x.tailOffset + d).toNat } }
      (s.moveSetter k x d f) := by
  dsimp only
  unfold moveSetter
  dsimp only
  split
  · exact .refl _
  · exact shift_requeued _ _ _

theorem sections_moveSetter :
    (s.moveSetter k x d f).sections =
      s.sections.setFragment x.ref (f.expand 1 (signed x.tailOffset) (signed (x.tailOffset + d).toNat)).state :=
  (moveSetter_requeued k x d f s).sections

theorem plan_setSetter (hx : s.setters[k]? = some x) (tailOffset : Nat) :
    ({ s with setters := s.setters.set k { x with tailOffset } } : Relaxation κ).plan = s.plan := by
  have hrefs : (s.setters.set k { x with tailOffset }).map (·.ref) = s.setters.map (·.ref) := by
    obtain ⟨hk, rfl⟩ := List.getElem?_eq_some_iff.mp hx
    rw [List.map_set, ← List.getElem_map Setter.ref (h := by simpa using hk), List.set_getElem_self]
  simp [plan, hrefs]

theorem plan_setFragment {r : FragmentRef} {g : Fragment (Tail κ)} (hf : s.sections.fragment? r = some f)
    (hg : g.frame = f.frame) : (s.setFragment r g).plan = s.plan := by
  simp [plan, setFragment, Sections.frame?_setFragment hf hg]

theorem hasErrors_moveSetter (h : s.diags.hasErrors = true) : (s.moveSetter k x d f).diags.hasErrors = true := by
  rw [(moveSetter_requeued k x d f s).diags]
  exact Diagnostics.hasErrors_reportFailure h _

end

theorem plan_moveSetter {k : Nat} {x : Setter} {d : Int} {f : Fragment (Tail Empty)} {s : Relaxation Empty}
    (hx : s.setters[k]? = some x) (hf : s.sections.fragment? x.ref = some f) :
    (s.moveSetter k x d f).plan = s.plan := by
  rw [(moveSetter_requeued k x d f s).plan, ← plan_setSetter hx (x.tailOffset + d).toNat]
  exact plan_setFragment (s := { s with setters := s.setters.set k { x with tailOffset := (x.tailOffset + d).toNat } })
    hf (Fragment.frame_expand ..)

/-! ## What following a growth leaves alone -/

theorem hasErrors_ripple (sec k : Nat) (setters : List Setter) (d : Int) {s : Relaxation Empty}
    (h : s.diags.hasErrors = true) : (ripple sec k setters d s).diags.hasErrors = true := by
  induction setters generalizing k d s with
  | nil => exact h
  | cons x setters ih =>
    rw [ripple_cons]
    split
    · exact h
    · split
      · exact h
      · exact ih _ _ (hasErrors_moveSetter h)

theorem fragment?_ripple (sec k : Nat) (setters : List Setter) (d : Int) (s : Relaxation Empty) {r : FragmentRef}
    (h : ∀ x ∈ setters, x.ref ≠ r) :
    (ripple sec k setters d s).sections.fragment? r = s.sections.fragment? r := by
  induction setters generalizing k d s with
  | nil => rfl
  | cons x setters ih =>
    rw [ripple_cons]
    split
    · rfl
    · split
      · rfl
      · rename_i f hf
        dsimp only
        rw [ih _ _ _ fun y hy => h y (List.mem_cons_of_mem x hy), sections_moveSetter,
          Sections.fragment?_setFragment_ne (h x List.mem_cons_self)]

theorem fragment?_ripple_of_le (sec k : Nat) {setters : List Setter} (d : Int) (s : Relaxation Empty) {r : FragmentRef}
    (h : ∀ x ∈ setters, r.Before x.ref) {j : Nat} (hj : j ≤ r.index) :
    (ripple sec k setters d s).sections.fragment? ⟨r.sectionIndex, j⟩ = s.sections.fragment? ⟨r.sectionIndex, j⟩ := by
  apply fragment?_ripple
  intro x hx he
  have := he ▸ h x hx
  simp only [FragmentRef.Before] at this
  omega

theorem reshaped_ripple (sec k : Nat) (setters : List Setter) (d : Int) (s : Relaxation Empty) :
    s.sections.Reshaped (ripple sec k setters d s).sections := by
  induction setters generalizing k d s with
  | nil => exact .refl _
  | cons x setters ih =>
    rw [ripple_cons]
    split
    · exact .refl _
    · split
      · exact .refl _
      · rename_i f hf
        refine Sections.Reshaped.trans ?_ (ih _ _ _)
        rw [sections_moveSetter]
        exact Sections.reshaped_setFragment hf (.expand .refl _ _ _)

/-! ## Setters and their entries -/

/-- The plan is sound, and terms and queues agree with the lengths of the fragments. -/
structure Tracked (s : Relaxation Empty) : Prop where
  sound : s.plan.Sound
  indexed : s.plan.Indexed
  spans : SpansTrack s.sections s.spans
  queues : QueuesHold s

/-- Fragments take other lengths one by one, each of them on the way from `a` to `z`. -/
inductive Growths (a z : Sections Empty) : Relaxation Empty → Relaxation Empty → Prop
  | refl (s : Relaxation Empty) : Growths a z s s
  | cons {s t u : Relaxation Empty} (hs : s.Tracked) (h : Growth s t) (hb : Sections.Between a z t.sections)
    (h' : Growths a z t u) : Growths a z s u

theorem Growths.mono {a a' z : Sections Empty} (hb : ∀ u, Sections.Between a z u → Sections.Between a' z u)
    {s t : Relaxation Empty} (h : Growths a z s t) : Growths a' z s t := by
  induction h with
  | refl s => exact .refl s
  | cons hs hg hu _ ih => exact .cons hs hg (hb _ hu) ih

/-- Every setter has the padding for the offset in its entry. It lies there, except that those from number `k` on lie
`d` further in section `sec`. -/
def SettersLag (sec k : Nat) (d : Int) (s : Relaxation Empty) : Prop :=
  ∀ (m : Nat) (x : Setter), s.setters[m]? = some x → ∃ f t, s.sections.fragment? x.ref = some f ∧ f.tail = some t ∧
    t.padding? x.tailOffset = some f.tailLen ∧
    ((s.sections.begins x.ref + f.fixedLen : Nat) : Int) =
      x.tailOffset + if k ≤ m ∧ x.ref.sectionIndex = sec then d else 0

/-- Every setter has the padding for the offset in its entry, and lies there. -/
def SettersTrack (s : Relaxation Empty) : Prop :=
  ∀ x ∈ s.setters, ∃ f t, s.sections.fragment? x.ref = some f ∧ f.tail = some t ∧
    t.padding? x.tailOffset = some f.tailLen ∧ s.sections.begins x.ref + f.fixedLen = x.tailOffset

theorem SettersLag.track {sec k : Nat} {d : Int} {s : Relaxation Empty} (h : SettersLag sec k d s)
    (hd : ∀ (m : Nat) (x : Setter), s.setters[m]? = some x → k ≤ m → x.ref.sectionIndex = sec → d = 0) :
    SettersTrack s := by
  intro x hx
  obtain ⟨m, hm⟩ := List.mem_iff_getElem?.mp hx
  obtain ⟨f, t, hf, ht, hp, hlag⟩ := h m x hm
  refine ⟨f, t, hf, ht, hp, ?_⟩
  split at hlag
  · rename_i hkm
    have := hd m x hm hkm.1 hkm.2
    omega
  · omega

theorem moveSetter_spec {s : Relaxation Empty} (h : s.Tracked) {k o len : Nat} {x : Setter} {d : Int}
    {f : Fragment (Tail Empty)} {t : Tail Empty} (hx : s.setters[k]? = some x)
    (hf : s.sections.fragment? x.ref = some f) (ht : f.tail = some t) (hs : t.setsOffset = true)
    (ho : x.tailOffset + d = (o : Int)) (hob : o < 9223372036854775808) (hp : t.padding? o = some len)
    (hlen : len < 9223372036854775808) (hold : f.tailLen < 9223372036854775808) :
    (s.moveSetter k x d f).Tracked ∧ Growth s (s.moveSetter k x d f) ∧
      (s.moveSetter k x d f).sections = s.sections.setFragment x.ref { f with tailLen := len } ∧
      (s.moveSetter k x d f).setters = s.setters.set k { x with tailOffset := o } := by
  have hexp : ∃ w, f.expand 1 (signed x.tailOffset) (signed o) = .done { f with tailLen := len } ⟨len, w⟩ := by
    rw [signed_eq o hob]
    rcases Fragment.expand_setter ht hs 1 (signed x.tailOffset) o with ⟨len', w, hp', he⟩ | ⟨hp', -⟩
    · obtain rfl := Option.some.inj (hp.symm.trans hp')
      exact ⟨some w, he⟩
    · exact absurd (hp.symm.trans hp') (by simp)
  obtain ⟨w, hexp⟩ := hexp
  have hto : (x.tailOffset + d).toNat = o := by omega
  have hreq := moveSetter_requeued k x d f s
  have hplan : (s.moveSetter k x d f).plan = s.plan := plan_moveSetter hx hf
  have hmove : s.moveSetter k x d f =
      let s' := { s with setters := s.setters.set k { x with tailOffset := o } }.setFragment x.ref
          { f with tailLen := len }
      if (len : Int) - f.tailLen = 0 then s' else s'.shift f.index (len - f.tailLen) := by
    unfold moveSetter
    dsimp only
    rw [hto, hexp, Attempt.done, signed_eq len hlen, signed_eq f.tailLen hold]
    rfl
  rw [hto, hexp] at hreq
  have hgrown : (({ f with tailLen := len } : Fragment (Tail Empty)).totalLen : Int) - f.totalLen =
      len - f.tailLen := by
    simp only [Fragment.totalLen, Fragment.fixedLen]
    omega
  refine ⟨⟨by rw [hplan]; exact h.sound, by rw [hplan]; exact h.indexed, ?_, ?_⟩, ?_, hreq.sections, hreq.setters⟩
  · have hsections : (s.moveSetter k x d f).sections = s.sections.setFragment x.ref { f with tailLen := len } :=
      hreq.sections
    have hset := plan_setSetter hx o
    rw [hsections, hmove]
    dsimp only
    split
    · exact spansTrack_setFragment h.sound h.spans hf (by omega)
    · rw [← hgrown]
      exact spansTrack_setFragment_shift (s := { s with setters := s.setters.set k { x with tailOffset := o } })
        (hset ▸ h.sound) (hset ▸ h.indexed) h.spans hf _
  · have hq : QueuesHold ({ s with setters := s.setters.set k { x with tailOffset := o } }.setFragment x.ref
        { f with tailLen := len }) := ⟨h.queues.active, h.queues.count, h.queues.lt⟩
    rw [hmove]
    dsimp only
    split
    · exact hq
    · exact queuesHold_shift hq _ _
  · refine ⟨x.ref, f, { f with tailLen := len },
      { s with setters := s.setters.set k { x with tailOffset := o } }.setFragment
      x.ref { f with tailLen := len }, hf, rfl, rfl, rfl, ?_⟩
    rw [hmove, hgrown]
    dsimp only
    split
    · exact .inr ⟨rfl, by omega⟩
    · exact .inl rfl

theorem settersLag_moved {s s' : Relaxation Empty} (hs : s.plan.Sound) {sec k o len : Nat} {d : Int} {x : Setter}
    (h : SettersLag sec k d s) (hx : s.setters[k]? = some x) (hsec : x.ref.sectionIndex = sec)
    {f : Fragment (Tail Empty)} {t : Tail Empty} (hf : s.sections.fragment? x.ref = some f) (ht : f.tail = some t)
    (ho : x.tailOffset + d = (o : Int)) (hp : t.padding? o = some len)
    (hsections : s'.sections = s.sections.setFragment x.ref { f with tailLen := len })
    (hsetters : s'.setters = s.setters.set k { x with tailOffset := o }) :
    SettersLag sec (k + 1) (d + (len - f.tailLen)) s' := by
  intro m y hm
  rw [hsetters] at hm
  rw [hsections]
  by_cases hmk : k = m
  · subst hmk
    obtain rfl := Option.some.inj ((List.getElem?_set_self (List.getElem?_eq_some_iff.mp hx).1).symm.trans hm)
    obtain ⟨f', -, hf', -, -, hlag⟩ := h k x hx
    obtain rfl := Option.some.inj (hf.symm.trans hf')
    refine ⟨{ f with tailLen := len }, t, Sections.fragment?_setFragment_self hf _, ht, hp, ?_⟩
    have hbegins := Sections.begins_setFragment hf { f with tailLen := len } x.ref
    rw [if_neg (by omega)] at hbegins
    rw [if_pos ⟨Nat.le_refl k, hsec⟩] at hlag
    rw [if_neg (by omega)]
    simp only [Fragment.fixedLen] at hlag ⊢
    omega
  · rw [List.getElem?_set_ne hmk] at hm
    obtain ⟨f', t', hf', ht', hp', hlag⟩ := h m y hm
    have hbefore : m < k ∧ y.ref.Before x.ref ∨ k < m ∧ x.ref.Before y.ref := by
      rcases Nat.lt_or_gt_of_ne hmk with hlt | hlt
      · exact .inr ⟨hlt, hs.before_of_lt hx hm hlt⟩
      · exact .inl ⟨hlt, hs.before_of_lt hm hx hlt⟩
    have hne : x.ref ≠ y.ref := by
      rcases hbefore with ⟨-, hb⟩ | ⟨-, hb⟩
      · exact hb.ne.symm
      · exact hb.ne
    refine ⟨f', t', by rw [Sections.fragment?_setFragment_ne hne, hf'], ht', hp', ?_⟩
    have hbegins := Sections.begins_setFragment hf { f with tailLen := len } y.ref
    simp only [FragmentRef.Before] at hbefore
    simp only [Fragment.totalLen, Fragment.fixedLen] at hbegins
    split_ifs at hbegins hlag ⊢ <;> omega

theorem le_length_ripple {s : Relaxation Empty} {x : Setter} {f : Fragment (Tail Empty)}
    (hf : s.sections.fragment? x.ref = some f) {setters : List Setter} (hafter : ∀ y ∈ setters, x.ref.Before y.ref)
    (sec k k' : Nat) (d d' : Int) :
    s.sections.begins x.ref + f.fixedLen +
        (f.expand 1 (signed x.tailOffset) (signed (x.tailOffset + d).toNat)).state.tailLen ≤
      (ripple sec k' setters d' (s.moveSetter k x d f)).sections.length x.ref.sectionIndex := by
  have hfragment : (ripple sec k' setters d' (s.moveSetter k x d f)).sections.fragment? x.ref =
      some (f.expand 1 (signed x.tailOffset) (signed (x.tailOffset + d).toNat)).state := by
    rw [fragment?_ripple _ _ _ _ _ fun y hy => (hafter y hy).ne.symm, sections_moveSetter,
      Sections.fragment?_setFragment_self hf]
  have hbegins : (ripple sec k' setters d' (s.moveSetter k x d f)).sections.begins x.ref = s.sections.begins x.ref := by
    apply Sections.begins_congr
    intro i hi
    rw [fragment?_ripple_of_le _ _ _ _ hafter (Nat.le_of_lt hi), sections_moveSetter, Sections.fragment?_setFragment_ne]
    intro he
    rw [he] at hi
    exact Nat.lt_irrefl _ hi
  have hle := Sections.begins_add_totalLen_le hfragment
  rw [hbegins, Fragment.totalLen, show Fragment.fixedLen _ = f.fixedLen from
    congrArg (·.fixed.length) (Fragment.frame_expand 1 _ _ f)] at hle
  omega

theorem setsOffset_of_setter {s : Relaxation Empty} (hs : s.plan.Sound) {x : Setter} (hx : x ∈ s.setters)
    {f : Fragment (Tail Empty)} (hf : s.sections.fragment? x.ref = some f) : f.setsOffset = true := by
  obtain ⟨a, ha, has⟩ := (hs.mem_setters x.ref).mp (List.mem_map_of_mem hx)
  obtain ⟨f', hf', rfl⟩ := Sections.exists_fragment_of_frame? ha
  obtain rfl := Option.some.inj (hf.symm.trans hf')
  exact has

theorem setters_behind {s : Relaxation Empty} (hs : s.plan.Sound) {k : Nat} {x : Setter} {setters : List Setter}
    (hset : x :: setters = s.setters.drop k) :
    s.setters[k]? = some x ∧ setters = s.setters.drop (k + 1) ∧ ∀ y ∈ setters, x.ref.Before y.ref := by
  have hx : s.setters[k]? = some x := by
    rw [← List.head?_drop, ← hset]
    rfl
  have hdrop : setters = s.setters.drop (k + 1) := by
    rw [← List.tail_drop, ← hset]
    rfl
  refine ⟨hx, hdrop, fun y hy => ?_⟩
  rw [hdrop] at hy
  obtain ⟨m, hm⟩ := List.mem_iff_getElem?.mp hy
  rw [List.getElem?_drop] at hm
  exact hs.before_of_lt hx hm (by omega)

theorem eq_zero_of_stop {s : Relaxation Empty} (hs : s.plan.Sound) {sec k : Nat} {d : Int} {x : Setter}
    (hx : s.setters[k]? = some x) (hsec : sec ≤ x.ref.sectionIndex) (hstop : d = 0 ∨ x.ref.sectionIndex ≠ sec) {m : Nat}
    {y : Setter} (hm : s.setters[m]? = some y) (hkm : k ≤ m) (hy : y.ref.sectionIndex = sec) : d = 0 := by
  -- Where following a growth stops, no setter behind is off.
  rcases hstop with hz | hne
  · exact hz
  · -- The setters are in order, so none behind `x` is in the section.
    rcases Nat.eq_or_lt_of_le hkm with rfl | hlt
    · rw [hx, Option.some.injEq] at hm
      exact absurd (hm ▸ hy) hne
    · have := (hs.before_of_lt hx hm hlt).sectionIndex_le
      omega

/-- Following a growth through the setters leaves every setter where its entry says, with the padding for it. -/
theorem ripple_spec {sec k : Nat} {d : Int} {setters : List Setter} {s : Relaxation Empty} (h : s.Tracked)
    (hset : setters = s.setters.drop k) (hlag : SettersLag sec k d s)
    (hsec : ∀ x ∈ setters, sec ≤ x.ref.sectionIndex)
    (hold : ∀ x ∈ setters, ∀ f, s.sections.fragment? x.ref = some f → x.tailOffset + f.tailLen < 9223372036854775808)
    (hd : (ripple sec k setters d s).diags.hasErrors = false)
    (hb : ∀ i, (ripple sec k setters d s).sections.length i < 9223372036854775808) :
    (ripple sec k setters d s).Tracked ∧ (ripple sec k setters d s).SettersTrack ∧
      Growths s.sections (ripple sec k setters d s).sections s (ripple sec k setters d s) := by
  induction setters generalizing k d s with
  | nil =>
    refine ⟨h, hlag.track fun m x hm hkm => ?_, .refl s⟩
    have hlen := (List.getElem?_eq_some_iff.mp hm).1
    have := List.drop_eq_nil_iff.mp hset.symm
    omega
  | cons x setters ih =>
    obtain ⟨hx, hdrop, hafter⟩ := setters_behind h.sound hset
    rw [ripple_cons] at hd hb ⊢
    split at hd
    · rename_i hstop
      rw [if_pos hstop]
      exact ⟨h, hlag.track fun m y => eq_zero_of_stop h.sound hx (hsec x List.mem_cons_self) hstop, .refl s⟩
    · rename_i hgo
      rw [not_or, not_not] at hgo
      obtain ⟨f, t, hf, ht, -, hl⟩ := hlag k x hx
      rw [if_pos ⟨Nat.le_refl k, hgo.2⟩] at hl
      have hs : t.setsOffset = true := by
        rw [← Fragment.setsOffset_of_some ht]
        exact setsOffset_of_setter h.sound (List.mem_of_getElem? hx) hf
      rw [if_neg (by rw [not_or, not_not]; exact hgo), hf] at hb ⊢
      rw [hf] at hd
      dsimp only at hd hb ⊢
      have hplace := Nat.lt_of_le_of_lt (le_length_ripple hf hafter sec k (k + 1) d _) (hb x.ref.sectionIndex)
      generalize ho : s.sections.begins x.ref + f.fixedLen = o at hl hplace
      have hto : (x.tailOffset + d).toNat = o := by omega
      have hxo := hold x List.mem_cons_self f hf
      rw [hto] at hd hb hplace ⊢
      rcases Fragment.expand_setter ht hs 1 (signed x.tailOffset) o with ⟨len, w, hp, he⟩ | ⟨-, c, he⟩
      · have hstate : (f.expand 1 (signed x.tailOffset) (signed o)).state = { f with tailLen := len } := by
          rw [signed_eq o (by omega), he]
          rfl
        simp only [hstate] at hd hb hplace ⊢
        obtain ⟨htracked, hgrowth, hsections, hsetters⟩ :=
          moveSetter_spec h hx hf ht hs hl.symm (by omega) hp (by omega) (by omega)
        have hmoved := settersLag_moved h.sound hlag hx hgo.2 hf ht hl.symm hp hsections hsetters
        have hnext : signed (o + len) - signed (x.tailOffset + f.tailLen) = d + (len - f.tailLen) := by
          rw [signed_eq _ hplace, signed_eq _ hxo]
          omega
        rw [hnext] at hd hb ⊢
        have hdrop' : setters = (s.moveSetter k x d f).setters.drop (k + 1) := by
          rw [hsetters, List.drop_set_of_lt (Nat.lt_succ_self k), hdrop]
        obtain ⟨htracked', htrack, hgrowths⟩ :=
          ih htracked hdrop' hmoved (fun y hy => hsec y (List.mem_cons_of_mem x hy))
          (fun y hy g hg => hold y (List.mem_cons_of_mem x hy) g (by
            rw [← hg, hsections, Sections.fragment?_setFragment_ne (hafter y hy).ne])) hd hb
        -- The setters behind `x` do not change what lies up to it.
        have hagree : ∀ j ≤ x.ref.index,
            (ripple sec (k + 1) setters (d + (len - f.tailLen)) (s.moveSetter k x d f)).sections.fragment?
              ⟨x.ref.sectionIndex, j⟩ =
            (s.sections.setFragment x.ref { f with tailLen := len }).fragment? ⟨x.ref.sectionIndex, j⟩ := by
          intro j hj
          rw [fragment?_ripple_of_le _ _ _ _ hafter hj, hsections]
        generalize ripple sec (k + 1) setters (d + (len - f.tailLen)) (s.moveSetter k x d f) = final at *
        obtain ⟨hbetween, hmono⟩ := Sections.between_setFragment hagree
        rw [← hsections] at hbetween hmono
        exact ⟨htracked', htrack, .cons h hgrowth hbetween (hgrowths.mono hmono)⟩
      · -- A setter that does not fit is an error, and errors stay.
        have herr : (s.moveSetter k x d f).diags.hasErrors = true := by
          rw [(moveSetter_requeued k x d f s).diags, hto, signed_eq o (by omega), he]
          exact Diagnostics.hasErrors_report_one _ c
        exact absurd (hasErrors_ripple sec (k + 1) setters _ herr) (by rw [hd]; decide)

end SpanLayout.Relaxation
