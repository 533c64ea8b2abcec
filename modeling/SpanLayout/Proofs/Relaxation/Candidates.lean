import SpanLayout.Proofs.Relaxation.Beneath

/-!
# Candidates for a layout

A candidate chooses a form for every branch, a width for every number and a number of copies for every repetition whose
count is not known. Measuring gives fragments the smallest forms of all candidates, so where some candidate fits it
cannot fail.
-/

namespace SpanLayout

/-- The forms that are open to a tail that is no repetition: a branch may be long, and a number may have any width,
though no smaller one than it has unless it is known. -/
inductive Tail.Offers : Tail Empty → Tail Empty → Prop
  | same {t : Tail Empty} (hp : t.plain = true) : Offers t t
  | wide (x : Leb128.Field) {len : Nat} (h : x.value.const? = none → x.len ≤ len) :
    Offers (.leb128 x) (.leb128 { x with len })
  | long (b : Branch) : Offers (.branch b) (.branch b.lengthen)

/-- The second fragment is the first one in a form that is open to it, and as long as that makes it. -/
structure Fragment.Offers (f g : Fragment (Tail Empty)) : Prop where
  fixed : g.fixed = f.fixed
  tail : (f.tail = none ∧ g.tail = none) ∨ ∃ t u, f.tail = some t ∧ g.tail = some u ∧ t.Offers u
  fits : g.Fits

/-- The second fragment is the first one in a form that can be chosen for it. Of a repetition, any number of copies can
be chosen unless it is known, and a form for every part of its body. -/
inductive Fragment.Candidate (f g : Fragment (Tail Empty)) : Prop
  | plain (h : f.Offers g)
  | copies {count : Expr} {body body' : Block (Tail Empty)} {reps n : Nat} (hf : f.tail = some (.times count body reps))
    (hg : g.tail = some (.times count body' n)) (hfixed : g.fixed = f.fixed)
    (hparts : List.Forall₂ Fragment.Offers body.fragments body'.fragments)
    (hcount : ∀ c, count.const? = some c → c = n) (hfits : g.Fits)

/-- Nothing in a repetition follows its offset, numbers have widths that words can ask for, and no branch is longer in
its short form than in its long one. -/
structure Fragment.Workable (f : Fragment (Tail Empty)) : Prop where
  steady : f.steadyInside = true
  sized : f.Sized
  lengthens : f.tail.all (Tail.throughout Tail.ownLengthens) = true

/-! ## Tails -/

namespace Tail.Offers

variable {t u : Tail Empty}

theorem plain (h : t.Offers u) : t.plain = true := by
  cases h with
  | same hp => exact hp
  | wide | long => rfl

theorem trans_under (h : t.Offers u) {v : Tail Empty} (huv : u.Under v) : t.Offers v := by
  cases h with
  | same hp =>
    cases huv with
    | same => exact .same hp
    | wider x hlen => exact .wide x fun _ => hlen
    | longer b => exact .long b
  | wide x h =>
    cases huv with
    | same => exact .wide x h
    | wider _ hlen => exact .wide x fun hc => Nat.le_trans (h hc) hlen
  | long b =>
    cases huv with
    | same => exact .long b
    | longer => exact .long b

theorem ownLengthens (h : t.Offers u) (hl : t.ownLengthens = true) : u.ownLengthens = true := by
  cases h with
  | same => exact hl
  | wide => rfl
  | long b => exact b.ownLengthens_lengthen

theorem measure_field (x : Leb128.Field) {n len : Nat} (h : x.value.const? = none → x.len ≤ n)
    (hu : (Tail.leb128 { x with len := n }).Fits len) (hsized : (Tail.leb128 x : Tail Empty).sized = true)
    (info : FragmentInfo) :
    ∃ t' requests len', (Tail.leb128 x).measure info = .done (t', requests) len' ∧ (Tail.leb128 x).Offers t' ∧
      t'.Under (.leb128 { x with len := n }) ∧ t'.Fits len' := by
  obtain ⟨-, hpos, hmax, hconst⟩ := hu
  simp only [Tail.sized, Bool.and_eq_true, decide_eq_true_eq] at hsized
  rw [Tail.measure]
  dsimp only [Directive.measure, Leb128.Field.measure]
  cases hc : x.value.const? with
  | none =>
    exact ⟨_, _, _, rfl, .same rfl, .wider x (h hc), rfl, hsized.1, hsized.2, fun v hv => by cases hc.symm.trans hv⟩
  | some v =>
    have hsize := hconst v hc
    refine ⟨_, _, _, rfl, .wide x (fun hn => by cases hn.symm.trans hc),
      .wider { x with len := Leb128.size x.isSigned v } hsize, rfl, Leb128.size_pos .., Nat.le_trans hsize hmax, ?_⟩
    intro v' hv'
    obtain rfl := Option.some.inj (hc.symm.trans hv')
    exact Nat.le_refl _

theorem measure (h : t.Offers u) (hs : t.setsOffset = false) {len : Nat} (hu : u.Fits len) (hsized : t.sized = true)
    (hl : t.ownLengthens = true) (info : FragmentInfo) :
    ∃ t' requests len', t.measure info = .done (t', requests) len' ∧ t.Offers t' ∧ t'.Under u ∧ t'.Fits len' := by
  cases h with
  | wide x h => exact measure_field x h hu hsized info
  | long b =>
    rw [Tail.measure]
    exact ⟨.branch b, b.measure.state.2, b.encoding.len, rfl, .same rfl, .longer b (Branch.encoding_le_long hl), rfl⟩
  | same hp =>
    cases t with
    | gap g =>
      rw [Tail.measure]
      exact ⟨_, _, _, rfl, .same rfl, .same _, rfl⟩
    | branch b =>
      rw [Tail.measure]
      exact ⟨.branch b, b.measure.state.2, b.encoding.len, rfl, .same rfl, .same _, rfl⟩
    | leb128 x => exact measure_field x (fun _ => Nat.le_refl x.len) hu hsized info
    | align _ | origin _ => cases hs
    | times _ _ _ => cases hp
    | other d => cases d

end Tail.Offers

namespace Fragment

variable {f g k : Fragment (Tail Empty)}

/-! ## Parts -/

theorem Offers.plain (h : f.Offers g) : f.tail.all Tail.plain = true := by
  rcases h.tail with ⟨hf, -⟩ | ⟨t, u, hf, -, htu⟩ <;> rw [hf]
  · rfl
  · exact htu.plain

theorem Offers.plain_right (h : f.Offers g) : g.tail.all Tail.plain = true := by
  rcases h.tail with ⟨-, hg⟩ | ⟨t, u, -, hg, htu⟩ <;> rw [hg]
  · rfl
  · cases htu with
    | same hp => exact hp
    | wide | long => rfl

theorem Offers.trans_under (h : f.Offers g) (hgk : g.Under k) : f.Offers k := by
  refine ⟨hgk.fixed.trans h.fixed, ?_, hgk.fits'⟩
  rcases h.tail with ⟨hf, hg⟩ | ⟨t, u, hf, hg, htu⟩
  · rcases hgk.tail with ⟨-, hk⟩ | ⟨u, _, hg', -⟩
    · exact .inl ⟨hf, hk⟩
    · cases hg.symm.trans hg'
  · obtain ⟨v, hk, huv⟩ := hgk.tail_of_some hg
    exact .inr ⟨t, v, hf, hk, htu.trans_under huv⟩

theorem Offers.ownLengthens (h : f.Offers g) (hl : f.tail.all Tail.ownLengthens = true) :
    g.tail.all Tail.ownLengthens = true := by
  rcases h.tail with ⟨-, hg⟩ | ⟨t, u, hf, hg, htu⟩ <;> rw [hg]
  · rfl
  · rw [hf] at hl
    exact htu.ownLengthens hl

theorem Offers.tail_of_setsOffset (h : f.Offers g) {t : Tail Empty} (hf : f.tail = some t) (hs : t.setsOffset = true) :
    g.tail = some t := by
  rcases h.tail with ⟨hn, -⟩ | ⟨t', u, hf', hg, htu⟩
  · cases hn.symm.trans hf
  · obtain rfl := Option.some.inj (hf.symm.trans hf')
    cases htu with
    | same => exact hg
    | wide | long => cases hs

theorem Offers.measure_part (h : f.Offers g) (hs : f.setsOffset = false) (hsized : f.tail.all Tail.sized = true)
    (hl : f.tail.all Tail.ownLengthens = true) (m : Nat) :
    ∃ k requests, f.measureAt m = .done (k, requests) () ∧ k.offset = m ∧ f.Offers k ∧ k.Under g := by
  rcases h.tail with ⟨hf, hg⟩ | ⟨t, u, hf, hg, htu⟩
  · rw [measureAt_of_none hf]
    have hfits : ({ f with offset := m, tailLen := 0 } : Fragment (Tail Empty)).Fits := by
      show Option.elim f.tail _ _
      rw [hf]
      rfl
    exact ⟨_, _, rfl, rfl, ⟨rfl, .inl ⟨hf, hf⟩, hfits⟩, h.fixed, .inl ⟨hf, hg⟩, hfits, h.fits⟩
  · rw [hf] at hsized hl
    obtain ⟨t', requests, len, hmeasure, hoffers, hunder, hfits⟩ := htu.measure ((setsOffset_of_some hf).symm.trans hs)
      ((fits_of_some hg).mp h.fits) hsized hl { f.info with offset := m }
    rw [measureAt_of_some hf, hmeasure]
    exact ⟨_, _, rfl, rfl, ⟨rfl, .inr ⟨t, t', hf, rfl, hoffers⟩, (fits_of_some rfl).mpr hfits⟩, h.fixed,
      .inr ⟨t', u, rfl, hg, hunder⟩, (fits_of_some rfl).mpr hfits, h.fits⟩

theorem Offers.measureAt (h : f.Offers g) (hsized : f.tail.all Tail.sized = true)
    (hl : f.tail.all Tail.ownLengthens = true) {m n : Nat} (hg : g.PaddedAt n) (hmn : m ≤ n)
    (hb : n + g.totalLen < 9223372036854775808) :
    ∃ k requests, f.measureAt m = .done (k, requests) () ∧ k.offset = m ∧ f.Offers k ∧ k.Under g ∧ k.PaddedAt m := by
  by_cases hs : f.setsOffset = true
  · have hfixed : g.fixedLen = f.fixedLen := congrArg List.length h.fixed
    have hgfixed : g.fixedLen ≤ g.totalLen := Nat.le_add_right _ _
    obtain ⟨t, hf, hset⟩ := exists_tail_of_setsOffset hs
    have hgt := h.tail_of_setsOffset hf hset
    obtain ⟨len, hlen, -⟩ := Tail.padding?_of_le (hg t hgt hset) (show m + f.fixedLen ≤ n + g.fixedLen by omega)
    have hplain := h.plain
    rw [hf] at hplain
    rw [measureAt_of_some hf, @Tail.measure_of_padding t hset { f.info with offset := m } len
      (show m + f.fixedLen < _ by omega) (show t.padding? (m + f.fixedLen) = some len from hlen)]
    have hfits : ({ f with offset := m, tail := some t, tailLen := len } : Fragment (Tail Empty)).Fits :=
      (fits_of_some rfl).mpr (Tail.fits_of_setsOffset hset _)
    refine ⟨_, _, rfl, rfl, ⟨rfl, .inr ⟨t, t, hf, rfl, .same hplain⟩, hfits⟩,
      ⟨h.fixed, .inr ⟨t, t, rfl, hgt, .same t⟩, hfits, h.fits⟩, fun u hu _ => ?_⟩
    obtain rfl := Option.some.inj hu
    exact hlen
  · have hns : f.setsOffset = false := by simpa using hs
    obtain ⟨k, requests, hk, hoffset, hoffers, hunder⟩ := h.measure_part hns hsized hl m
    refine ⟨k, requests, hk, hoffset, hoffers, hunder, paddedAt_of_not_setsOffset ?_ m⟩
    have hframe := frame_measureAt m f
    rw [hk] at hframe
    exact (congrArg Frame.setsOffset hframe).trans hns

/-! ## Bodies -/

theorem measureBody_of_offers {fs gs : List (Fragment (Tail Empty))} (h : List.Forall₂ Offers fs gs)
    (hfs : ∀ p ∈ fs, p.setsOffset = false ∧ p.tail.all Tail.sized = true ∧ p.tail.all Tail.ownLengthens = true)
    (owner : FragmentInfo) (slot offset : Nat) :
    ∃ ks requests, measureBody owner slot offset fs = .done (ks, requests) () ∧ List.Forall₂ Offers fs ks ∧
      List.Forall₂ Inside ks gs := by
  induction h generalizing slot offset with
  | nil =>
    rw [measureBody]
    exact ⟨_, _, rfl, .nil, .nil⟩
  | @cons p q fs gs hpq _ ih =>
    obtain ⟨hs, hsized, hl⟩ := hfs p List.mem_cons_self
    obtain ⟨k, requests, hk, -, hoffers, hunder⟩ := hpq.measure_part hs hsized hl offset
    obtain ⟨ks, more, hks, hopen, hinside⟩ := ih (fun r hr => hfs r (List.mem_cons_of_mem p hr)) (slot + 1)
      (offset + k.totalLen)
    have hplain := plain_measureAt offset p
    have hframe := frame_measureAt offset p
    rw [hk] at hplain hframe
    rw [measureBody, hk]
    dsimp only [Attempt.done] at hks ⊢
    rw [hks]
    exact ⟨_, _, rfl, .cons hoffers hopen,
      .cons ⟨hplain.trans hpq.plain, (congrArg Frame.setsOffset hframe).trans hs, hunder⟩ hinside⟩

/-! ## Measuring -/

section

variable {count : Expr} {body : Block (Tail Empty)} {reps : Nat}

theorem Workable.part (h : f.Workable) (hf : f.tail = some (.times count body reps)) {p : Fragment (Tail Empty)}
    (hp : p ∈ body.fragments) : p.setsOffset = false ∧ p.tail.all Tail.sized = true ∧
      p.tail.all Tail.ownLengthens = true := by
  have hmem : p ∈ f.parts := by rwa [parts_of_times hf]
  refine ⟨?_, h.sized p hmem, (throughout_iff _ f).1 h.lengthens p hmem⟩
  have hsteady : p.steady = true := by
    have hall := h.steady
    rw [steadyInside, hf] at hall
    exact (steadyFragments_iff _).1 (by rwa [Option.all_some, Tail.steadyInside] at hall) p hp
  exact ((steady_iff p).1 hsteady).1

theorem measureAt_of_body (hf : f.tail = some (.times count body reps)) {m : Nat} {ks : List (Fragment (Tail Empty))}
    {requests : List SpanRequest}
    (hb : measureBody { f.info with offset := m } 0 0 body.fragments = .done (ks, requests) ())
    {n : Nat} (hn : count.const? = none ∧ n = 0 ∨ count.const? = some (n : Int) ∧ (n : Int) ≠ unknownValue) :
    ∃ requests, f.measureAt m = .done ({ f with
      offset := m, tail := some (.times count { body with fragments := ks } n), tailLen := sumLen ks * n }, requests)
      () := by
  rw [measureAt_of_some hf, Tail.measure, hb]
  rcases hn with ⟨hc, rfl⟩ | ⟨hc, hne⟩
  · rw [hc]
    exact ⟨_, rfl⟩
  · rw [hc]
    dsimp only [Attempt.done]
    rw [Repetition.reps, if_neg hne, if_neg (by omega), Int.toNat_natCast]
    exact ⟨_, rfl⟩

end

/-- Where some candidate fits, measuring cannot fail, and what it leaves is the smallest candidate. -/
theorem Candidate.measureAt (h : f.Candidate g) (hf : f.Workable)
    (hknown : ∀ count body n, g.tail = some (.times count body n) → (n : Int) ≠ unknownValue) {m n : Nat}
    (hg : g.PaddedAt n) (hmn : m ≤ n) (hb : n + g.totalLen < 9223372036854775808) :
    ∃ k requests, f.measureAt m = .done (k, requests) () ∧ k.offset = m ∧ f.Candidate k ∧ k.Beneath g ∧
    k.PaddedAt m := by
  cases h with
  | plain h =>
    have hmem : f ∈ f.parts := by rw [parts_of_plain h.plain]; exact List.mem_singleton_self f
    obtain ⟨k, requests, hk, hoffset, hoffers, hunder, hpadded⟩ := h.measureAt (hf.sized f hmem)
      ((throughout_iff _ f).1 hf.lengthens f hmem) hg hmn hb
    have hplain := plain_measureAt m f
    rw [hk] at hplain
    exact ⟨k, requests, hk, hoffset, .plain hoffers, .plain (hplain.trans h.plain) hunder, hpadded⟩
  | @copies count body body' reps n' hft hgt hfixed hparts hcount hfits =>
    obtain ⟨ks, requests, hks, hopen, hinside⟩ :=
      measureBody_of_offers hparts (fun p hp => hf.part hft hp) { f.info with offset := m } 0 0
    obtain ⟨r, hr, hle⟩ :
        ∃ r : Nat, (count.const? = none ∧ r = 0 ∨ count.const? = some (r : Int) ∧ (r : Int) ≠ unknownValue) ∧
        r ≤ n' := by
      cases hc : count.const? with
      | none => exact ⟨0, .inl ⟨rfl, rfl⟩, Nat.zero_le _⟩
      | some c =>
        obtain rfl := hcount c hc
        exact ⟨n', .inr ⟨rfl, hknown count body' n' hgt⟩, Nat.le_refl _⟩
    obtain ⟨requests', hk⟩ := measureAt_of_body hft hks hr
    refine ⟨_, requests', hk, rfl, .copies hft rfl rfl hopen (fun c hc => ?_) ?_,
      .copies rfl hgt hfixed hinside hle ?_ hfits, paddedAt_of_not_setsOffset ?_ m⟩
    · rcases hr with ⟨hn, -⟩ | ⟨hs, -⟩
      · cases hn.symm.trans hc
      · exact Option.some.inj (hc.symm.trans hs)
    · refine (fits_of_some rfl).mpr ?_
      exact rfl
    · refine (fits_of_some rfl).mpr ?_
      exact rfl
    · rw [setsOffset_of_some rfl]
      rfl

theorem Candidate.fixed (h : f.Candidate g) : g.fixed = f.fixed := by
  cases h with
  | plain h => exact h.fixed
  | copies _ _ hfixed => exact hfixed

theorem Candidate.setsOffset (h : f.Candidate g) : g.setsOffset = f.setsOffset := by
  cases h with
  | plain h =>
    rcases h.tail with ⟨hf, hg⟩ | ⟨t, u, hf, hg, htu⟩
    · rw [Fragment.setsOffset, Fragment.setsOffset, hf, hg]
    · rw [setsOffset_of_some hf, setsOffset_of_some hg]
      cases htu <;> rfl
  | copies hf hg => rw [setsOffset_of_some hf, setsOffset_of_some hg]; rfl

theorem Candidate.ownLengthens (h : f.Candidate g) (hl : f.tail.all (Tail.throughout Tail.ownLengthens) = true) :
    ∀ p ∈ g.parts, p.tail.all Tail.ownLengthens = true := by
  have hparts := (throughout_iff _ f).1 hl
  intro p hp
  cases h with
  | plain h =>
    rw [parts_of_plain h.plain] at hparts
    rw [parts_of_plain h.plain_right, List.mem_singleton] at hp
    rw [hp]
    exact h.ownLengthens (hparts f (List.mem_singleton_self f))
  | copies hf hg _ hoffers _ _ =>
    rw [parts_of_times hf] at hparts
    rw [parts_of_times hg] at hp
    obtain ⟨q, hq, hqp⟩ := exists_of_forall₂_right hoffers hp
    exact hqp.ownLengthens (hparts q hq)

theorem Candidate.between (h : f.Candidate g) (hgk : g.Beneath k) {l : Fragment (Tail Empty)}
    (hkl : k.Beneath l) (hl : f.Candidate l) : f.Candidate k := by
  cases h with
  | plain h =>
    cases hgk with
    | plain _ hgk => exact .plain (h.trans_under hgk)
    | copies hg =>
      rcases h.tail with ⟨-, hn⟩ | ⟨t, u, -, hg', htu⟩
      · cases hn.symm.trans hg
      · obtain rfl := Option.some.inj (hg'.symm.trans hg)
        cases htu with
        | same hp => cases hp
  | @copies count body body' reps n hft hg hfixed hparts hcount _ =>
    cases hgk with
    | plain hp =>
      rw [hg] at hp
      cases hp
    | @copies _ _ body'' _ reps'' hg' hk hfixed' hinside hreps _ hfits =>
      obtain ⟨rfl, rfl, rfl⟩ := Tail.times.inj (Option.some.inj (hg.symm.trans hg'))
      refine .copies hft hk (hfixed'.trans hfixed) ?_ (fun c hc => ?_) hfits
      · refine (forall₂_comp hparts hinside).imp ?_
        rintro p r ⟨q, hpq, hqr⟩
        exact hpq.trans_under hqr.under
      · -- A known number of copies is the same at both ends.
        cases hkl with
        | plain hp =>
          rw [hk] at hp
          cases hp
        | copies hk' hlt _ _ hreps' _ _ =>
          obtain ⟨rfl, rfl, rfl⟩ := Tail.times.inj (Option.some.inj (hk.symm.trans hk'))
          cases hl with
          | plain hl =>
            have hp := hl.plain
            rw [hft] at hp
            cases hp
          | copies hft' hlt' _ _ hcount' _ =>
            obtain ⟨rfl, rfl, rfl⟩ := Tail.times.inj (Option.some.inj (hft.symm.trans hft'))
            obtain ⟨-, -, rfl⟩ := Tail.times.inj (Option.some.inj (hlt.symm.trans hlt'))
            have := hcount c hc
            have := hcount' c hc
            omega

end Fragment

end SpanLayout
