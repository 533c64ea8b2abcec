import SpanLayout.Proofs.Relaxation.Swelling
import SpanLayout.Proofs.Tail.Routing

/-!
# Repetitions in larger forms

Layouts in larger forms may also have more copies of a body, and larger forms in it. If a value that a form depends on
still fits the form that the fragment has in the larger layout, then expanding the fragment for that value does not go
beyond the larger layout.
-/

namespace SpanLayout

/-! ## Comparing fragments -/

theorem exists_of_forall₂ {α β : Type} {R : α → β → Prop} {as : List α} {bs : List β} (h : List.Forall₂ R as bs)
    {i : Nat} {a : α} (ha : as[i]? = some a) : ∃ b, bs[i]? = some b ∧ R a b := by
  rcases forall₂_getElem? h i with ⟨hn, -⟩ | ⟨a', b, ha', hb, hab⟩
  · cases hn.symm.trans ha
  · obtain rfl := Option.some.inj (ha.symm.trans ha')
    exact ⟨b, hb, hab⟩

/-- A fragment of a body, and the same in a larger form. -/
structure Fragment.Inside (p q : Fragment (Tail Empty)) : Prop where
  plain : p.tail.all Tail.plain = true
  setsOffset : p.setsOffset = false
  under : p.Under q

/-- The second fragment is the first one, or the same in a larger form. Of a repetition it may have more copies, and
larger forms in them. -/
inductive Fragment.Beneath (f g : Fragment (Tail Empty)) : Prop
  | plain (hp : f.tail.all Tail.plain = true) (h : f.Under g)
  | copies {count : Expr} {body body' : Block (Tail Empty)} {reps reps' : Nat}
    (hf : f.tail = some (.times count body reps)) (hg : g.tail = some (.times count body' reps'))
    (hfixed : g.fixed = f.fixed) (hparts : List.Forall₂ Fragment.Inside body.fragments body'.fragments)
    (hreps : reps ≤ reps') (hfits : f.Fits) (hfits' : g.Fits)

namespace Fragment

variable {f g k : Fragment (Tail Empty)}

theorem Inside.totalLen_le {p q : Fragment (Tail Empty)} (h : p.Inside q) : p.totalLen ≤ q.totalLen :=
  h.under.totalLen_le h.setsOffset

theorem sumLen_le_of_inside {fs gs : List (Fragment (Tail Empty))} (h : List.Forall₂ Inside fs gs) :
    sumLen fs ≤ sumLen gs := by
  induction h with
  | nil => exact Nat.le_refl _
  | cons hpq _ ih =>
    rw [sumLen_cons, sumLen_cons]
    exact Nat.add_le_add hpq.totalLen_le ih

theorem Beneath.atMost (h : f.Beneath g) : f.AtMost g := by
  cases h with
  | plain _ h => exact h.atMost
  | @copies count body body' reps reps' hf hg hfixed hparts hreps hfits hfits' =>
    have hns : f.setsOffset = false := setsOffset_of_some hf
    refine ⟨congrArg List.length hfixed, (setsOffset_of_some hg).trans hns.symm, fun _ => ?_, fun hs => ?_⟩
    · rw [(fits_of_some hf).mp hfits, (fits_of_some hg).mp hfits']
      exact Nat.mul_le_mul (sumLen_le_of_inside hparts) hreps
    · cases hns.symm.trans hs

theorem Beneath.times (h : f.Beneath g) {count : Expr} {body : Block (Tail Empty)} {reps : Nat}
    (hf : f.tail = some (.times count body reps)) : ∃ body' reps', g.tail = some (.times count body' reps') := by
  cases h with
  | plain hp =>
    rw [hf] at hp
    cases hp
  | copies hf' hg =>
    obtain ⟨rfl, -⟩ := Tail.times.inj (Option.some.inj (hf.symm.trans hf'))
    exact ⟨_, _, hg⟩

theorem Beneath.refl_left (h : f.Beneath g) : f.Beneath f := by
  cases h with
  | plain hp h => exact .plain hp (.refl h.fits)
  | copies hf hg hfixed hparts hreps hfits hfits' =>
    refine .copies hf hf rfl (List.forall₂_same.mpr fun p hp => ?_) (Nat.le_refl _) hfits hfits
    obtain ⟨q, -, hpq⟩ := exists_of_forall₂ hparts (List.mem_iff_getElem?.mp hp).choose_spec
    exact ⟨hpq.plain, hpq.setsOffset, .refl hpq.under.fits⟩

theorem Repadded.beneath_left (h : Repadded f g) (hu : f.Beneath k) : g.Beneath k := by
  cases hu with
  | plain hp hu => exact .plain (h.tail ▸ hp) (h.under_left hu)
  | copies hf hk hfixed hparts hreps hfits hfits' =>
    exact .copies (h.tail.trans hf) hk (hfixed.trans h.fixed.symm) hparts hreps (h.fits hfits) hfits'

theorem Repadded.beneath_right (h : Repadded f g) (hu : k.Beneath f) : k.Beneath g := by
  cases hu with
  | plain hp hu => exact .plain hp (h.under_right hu)
  | copies hk hf hfixed hparts hreps hfits hfits' =>
    exact .copies hk (h.tail.trans hf) (h.fixed.trans hfixed) hparts hreps hfits (h.fits hfits')

/-! ## Expanding a part -/

theorem Under.expand_met {f₀ : Fragment (Tail Empty)} (h₀ : f₀.Under f) (h : f.Under g)
    (hl : f₀.tail.all Tail.ownLengthens = true) {q : SpanRequest} (hq : q ∈ f₀.own) {v : Int}
    (hw : -wordBound ≤ v ∧ v < wordBound) (hmet : ∀ q' ∈ g.own, v ≠ unknownValue ∧ q'.window.contains v = true)
    (hout : ∀ b, f₀.tail = some (.branch b) → q.window.contains v = false) (id old : Int) :
    (∃ x, (f.expand id old v).result = .ok x ∧ ∀ b, f₀.tail = some (.branch b) → x.window = none) ∧
      f₀.Under (f.expand id old v).state ∧ (f.expand id old v).state.Under g := by
  -- A part that takes the form for a value which does not fit its own, but fits the form that it has in a larger
  -- layout, can do so, and takes no larger form than that.
  refine ⟨?_, h₀.expand_of_met h hq (fun b hb => ?_) hw (fun q' hq' => (hmet q' hq').2) hout id old⟩
  · obtain ⟨t, ht, hqt⟩ := exists_of_mem_own hq
    rcases Tail.mem_own hqt with ⟨x, rfl, hc, -⟩ | ⟨b, e, val, rfl, -⟩
    · obtain ⟨len, hf, -⟩ := h₀.field ht hc
      obtain ⟨len', -, hown⟩ := (h₀.trans h).field ht hc
      rw [expand_of_some hf, Tail.expand]
      dsimp only [Directive.expand, Leb128.Field.expand]
      rw [if_neg (hmet _ hown).1]
      exact ⟨_, rfl, fun b hb => by cases ht.symm.trans hb⟩
    · rcases h₀.branch ht with hf | hf <;> rw [expand_branch hf] <;> exact ⟨_, rfl, fun _ _ => rfl⟩
  · rw [hb] at hl
    exact Branch.encoding_le_long hl

end Fragment

/-! ## Expanding a repetition -/

theorem forall₂_set_left {α β : Type} {R : α → β → Prop} {as : List α} {bs : List β} (h : List.Forall₂ R as bs)
    {i : Nat} {a : α} {b : β} (hb : bs[i]? = some b) (hab : R a b) : List.Forall₂ R (as.set i a) bs := by
  induction h generalizing i with
  | nil => exact .nil
  | cons hR h ih =>
    cases i with
    | zero =>
      obtain rfl := Option.some.inj hb
      exact .cons hab h
    | succ i => exact .cons hR (ih hb)

theorem forall₂_set_right {α β : Type} {R : α → β → Prop} {as : List α} {bs : List β} (h : List.Forall₂ R as bs)
    {i : Nat} {a : α} {b : β} (ha : as[i]? = some a) (hab : R a b) : List.Forall₂ R as (bs.set i b) :=
  (forall₂_set_left (R := flip R) h.flip ha hab).flip

namespace Fragment

variable {f₀ f g : Fragment (Tail Empty)}

theorem forall₂_inside_place_left {fs gs : List (Fragment (Tail Empty))} (h : List.Forall₂ Inside fs gs)
    (offset : Nat) : List.Forall₂ Inside (placeFrom offset fs) gs := by
  induction h generalizing offset with
  | nil => exact .nil
  | cons hpq _ ih =>
    exact .cons ⟨hpq.plain, hpq.setsOffset, hpq.under.fixed, hpq.under.tail, hpq.under.fits, hpq.under.fits'⟩ (ih _)

theorem forall₂_inside_place_right {fs gs : List (Fragment (Tail Empty))} (h : List.Forall₂ Inside fs gs)
    (offset : Nat) : List.Forall₂ Inside fs (placeFrom offset gs) := by
  induction h generalizing offset with
  | nil => exact .nil
  | cons hpq _ ih =>
    exact .cons ⟨hpq.plain, hpq.setsOffset, hpq.under.fixed, hpq.under.tail, hpq.under.fits, hpq.under.fits'⟩ (ih _)

theorem expand_part {count : Expr} {body : Block (Tail Empty)} {reps slot : Nat} {p : Fragment (Tail Empty)}
    (hf : f.tail = some (.times count body reps)) (hslot : body.fragments[slot]? = some p) {id id' old new : Int}
    (hid : 0 < id) (hunpack : Repetition.unpack id = some (slot, id')) {x : Expansion}
    (hx : (p.expand id' old new).result = .ok x) :
    f.expand id old new =
      .done { f with
        tail := some (.times count
          { body with fragments := placeFrom 0 (body.fragments.set slot (p.expand id' old new).state) } reps)
        tailLen := sumLen (body.fragments.set slot (p.expand id' old new).state) * reps }
        { x with len := sumLen (body.fragments.set slot (p.expand id' old new).state) * reps } := by
  have hcount : id ≠ Repetition.countId := by
    rintro rfl
    cases hid
  have hexpand := Tail.expand_of_unpack hcount hunpack f.info old new count reps hslot
  unfold Tail.deliver at hexpand
  dsimp only at hexpand
  rw [hx] at hexpand
  rw [expand_of_some hf, hexpand]
  rfl

/-- Expanding a fragment for a value that does not fit its form, but fits the form that it has in a larger layout, does
not fail, and does not go beyond that form. -/
theorem Beneath.expand (h₀ : f₀.Beneath f) (h : f.Beneath g) (href : g.ref = f₀.ref)
    (hl : ∀ p ∈ f₀.parts, p.tail.all Tail.ownLengthens = true) {q : SpanRequest} (hq : q ∈ f₀.requests) {v : Int}
    (hw : -wordBound ≤ v ∧ v < wordBound)
    (hmet : ∀ q' ∈ g.requests, q'.value = q.value → v ≠ unknownValue ∧ q'.window.contains v = true)
    (hout : ∀ b, f₀.spanTail? q.id = some (.branch b) → q.window.contains v = false) (old : Int) :
    (∃ x, (f.expand q.id old v).result = .ok x ∧ ∀ b, f₀.spanTail? q.id = some (.branch b) → x.window = none) ∧
      f₀.Beneath (f.expand q.id old v).state ∧ (f.expand q.id old v).state.Beneath g := by
  cases h₀ with
  | plain hp h₀ =>
    have hplain := h₀.plain hp
    rw [requests_of_plain hp] at hq
    rw [spanTail?_of_plain hp] at hout ⊢
    cases h with
    | plain _ h =>
      obtain ⟨hok, hgrown, hunder⟩ :=
        h₀.expand_met h (hl f₀ (by rw [parts_of_plain hp]; exact List.mem_singleton_self f₀))
        hq hw (fun q' hq' => hmet q' (by rwa [requests_of_plain (h.plain hplain)]) ((h₀.trans h).own hq hq')) hout
        q.id old
      exact ⟨hok, .plain hp hgrown, .plain (hgrown.plain hp) hunder⟩
    | copies hf =>
      rw [hf] at hplain
      cases hplain
  | @copies count body₀ body reps₀ reps hf₀ hf hfixed hparts₀ hreps₀ hfits₀ hfits =>
    cases h with
    | plain hp =>
      rw [hf] at hp
      cases hp
    | @copies count' body' body'' reps' reps'' hf' hg hfixed' hparts hreps _ hfits' =>
      obtain ⟨rfl, rfl, rfl⟩ := Tail.times.inj (Option.some.inj (hf.symm.trans hf'))
      rw [requests_of_some hf₀] at hq
      obtain ⟨slot, p₀, r, hslot₀, hr, hrelay⟩ := mem_bodyRequests.mp hq
      obtain ⟨hwin, hpos, hunpack, hsame⟩ := Repetition.mem_relay hrelay (own_id hr)
      obtain ⟨p, hslot, hp₀⟩ := exists_of_forall₂ hparts₀ hslot₀
      obtain ⟨p', hslot', hp⟩ := exists_of_forall₂ hparts hslot
      have hspan : f₀.spanTail? q.id = p₀.tail := by
        rw [spanTail?_of_times hf₀, hunpack]
        show body₀.fragments[slot]?.bind (·.tail) = _
        rw [hslot₀]
        rfl
      rw [hspan] at hout ⊢
      -- What the part asks for in the larger layout, the repetition asks for there.
      have hpart : ∀ q' ∈ p'.own, v ≠ unknownValue ∧ q'.window.contains v = true := by
        intro q' hq'
        have hvalue : q'.value = r.value := (hp₀.under.trans hp.under).own hr hq'
        have hmem := hsame q' ((own_id hq').trans (own_id hr).symm) hvalue
        refine hmet { q with window := q'.window } ?_ rfl
        rw [requests_of_some hg, @Tail.requests_congr f₀.info g.info href
          (congrArg List.length (hfixed'.trans hfixed)) (.times count body'' reps'')]
        exact mem_bodyRequests.mpr ⟨slot, p', q', hslot', hq', hmem⟩
      obtain ⟨⟨x, hx, hwindow⟩, hgrown, hunder⟩ := hp₀.under.expand_met hp.under
        (hl p₀ (by rw [parts_of_times hf₀]; exact List.mem_of_getElem? hslot₀)) hr hw hpart
        (fun b hb => hwin ▸ hout b hb) 1 old
      have hinside₀ : p₀.Inside (p.expand 1 old v).state := ⟨hp₀.plain, hp₀.setsOffset, hgrown⟩
      have hinside : (p.expand 1 old v).state.Inside p' :=
        ⟨hgrown.plain hp₀.plain, hgrown.setsOffset.trans hp₀.setsOffset, hunder⟩
      have hlen : sumLen (body.fragments.set slot (p.expand 1 old v).state) * reps =
          sumLen (placeFrom 0 (body.fragments.set slot (p.expand 1 old v).state)) * reps := by
        rw [sumLen_placeFrom]
      rw [expand_part hf hslot hpos hunpack hx]
      refine ⟨⟨_, rfl, hwindow⟩, .copies hf₀ rfl hfixed ?_ hreps₀ hfits₀ ?_, .copies rfl hg hfixed' ?_ hreps ?_ hfits'⟩
      · exact forall₂_inside_place_right (forall₂_set_right hparts₀ hslot₀ hinside₀) 0
      · refine (fits_of_some rfl).mpr ?_
        exact hlen
      · exact forall₂_inside_place_left (forall₂_set_left hparts hslot' hinside) 0
      · refine (fits_of_some rfl).mpr ?_
        exact hlen

theorem Beneath.recount (h₀ : f₀.Beneath f) (h : f.Beneath g) {count : Expr} {body₀ body' : Block (Tail Empty)}
    {reps' : Nat} (hf₀ : f₀.tail = some (.times count body₀ 0)) (hg : g.tail = some (.times count body' reps'))
    {n : Nat} (hn : n ≤ reps') (hne : (n : Int) ≠ unknownValue) (old : Int) :
    (∃ x, (f.expand Repetition.countId old n).result = .ok x) ∧
      f₀.Beneath (f.expand Repetition.countId old n).state ∧ (f.expand Repetition.countId old n).state.Beneath g := by
  cases h₀ with
  | plain hp =>
    rw [hf₀] at hp
    cases hp
  | @copies _ _ body _ reps hf₀' hf hfixed hparts₀ _ hfits₀ _ =>
    obtain ⟨rfl, rfl, rfl⟩ := Tail.times.inj (Option.some.inj (hf₀.symm.trans hf₀'))
    cases h with
    | plain hp =>
      rw [hf] at hp
      cases hp
    | copies hf' hg' hfixed' hparts _ _ hfits' =>
      obtain ⟨-, rfl, rfl⟩ := Tail.times.inj (Option.some.inj (hf.symm.trans hf'))
      obtain ⟨-, rfl, rfl⟩ := Tail.times.inj (Option.some.inj (hg.symm.trans hg'))
      have hexpand : f.expand Repetition.countId old n =
          .done { f with tail := some (.times count body n), tailLen := sumLen body.fragments * n }
            (.within (sumLen body.fragments * n) 0 0) := by
        rw [expand_of_some hf, Tail.expand, if_pos rfl, Repetition.reps, if_neg hne, if_neg (by omega),
          Int.toNat_natCast]
        rfl
      rw [hexpand]
      refine ⟨⟨_, rfl⟩, .copies hf₀ rfl hfixed hparts₀ (Nat.zero_le n) hfits₀ ?_,
        .copies rfl hg hfixed' hparts hn ?_ hfits'⟩
      · refine (fits_of_some rfl).mpr ?_
        exact rfl
      · refine (fits_of_some rfl).mpr ?_
        exact rfl

end Fragment

end SpanLayout
