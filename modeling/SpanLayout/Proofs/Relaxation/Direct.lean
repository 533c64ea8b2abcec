import SpanLayout.Proofs.Relaxation.Solvable

/-!
# Forms that depend on no padding

A distance that extends over no padding is shorter in smaller forms, and leads in the same direction. So if every form
depends on such a distance only, what fits a form fits it in all smaller layouts.
-/

namespace SpanLayout

instance (d : Distance) (v : Value) : Decidable (v.Spans d) :=
  decidable_of_iff (v.rel = none ∧ v.abs.any fun e => decide (∃ reversed : Bool,
      e = (Expr.sum (Expr.differenceTerms d.target d.origin reversed ++ [.const 0])).simplify)) <| by
    simp [Value.Spans, Expr.IsDifference, Option.any_eq_true]

instance (ss : Sections Empty) (d : Distance) : Decidable (ss.Clear d) :=
  decidable_of_iff (d.origin.fragment.sectionIndex = d.target.fragment.sectionIndex ∧ ss.holds d.origin = true ∧
      ss.holds d.target = true ∧ ∀ r f, ss.fragment? r = some f → d.Over r → f.setsOffset = false)
    ⟨fun ⟨h, ho, ht, hc⟩ => ⟨h, ho, ht, fun r f hr hf => hc r f hf hr⟩,
      fun ⟨h, ho, ht, hc⟩ => ⟨h, ho, ht, fun r f hf hr => hc r f hr hf⟩⟩

namespace Sections

/-- Whether an expression is how far it is from one place to another of the same section, over no padding. -/
def measures (ss : Sections Empty) (e : Expr) : Bool :=
  e.locs.any fun a => e.locs.any fun b => decide ((Value.ofExpr e).Spans ⟨b, a⟩) && decide (ss.Clear ⟨b, a⟩)

/-- Whether the form of fragment `r` depends on nothing, or on a distance within its section over no padding. A branch
counts the distance from where it begins, and is no longer in its short form. A repetition repeats a run of bytes. -/
def directAt (ss : Sections Empty) (r : FragmentRef) (f : Fragment (Tail Empty)) : Bool :=
  match f.tail with
  | some (.branch b) =>
    let start : Location := ⟨r, f.fixedLen⟩
    decide (b.encoding.len ≤ b.long.len) && (b.shortInUse?.isNone || b.value.any fun v =>
      (start :: v.abs.elim [] Expr.locs).any fun l => decide (v.Spans ⟨start, l⟩) && decide (ss.Clear ⟨start, l⟩))
  | some (.leb128 x) => x.value.const?.isSome || ss.measures x.value
  | some (.times count body _) => (count.const?.isSome || ss.measures count) && body.fragments.all (·.tail.isNone)
  | _ => true

def Direct (ss : Sections Empty) : Prop := ∀ r f, ss.fragment? r = some f → ss.directAt r f = true

instance (ss : Sections Empty) : Decidable ss.Direct :=
  inferInstanceAs (Decidable (∀ r f, ss.fragment? r = some f → ss.directAt r f = true))

theorem Clear.ne_unknownValue {ss : Sections Empty} {d : Distance} (h : ss.Clear d)
    (hb : ∀ k, ss.length k < 2 ^ 63 - 1) : ss.extent d ≠ unknownValue := by
  obtain ⟨f, hf, hfl⟩ := exists_of_holds h.target
  have := position_le_length hf hfl
  have := hb d.target.fragment.sectionIndex
  unfold extent unknownValue wordBound
  omega

theorem Clear.valueOf? {ss : Sections Empty} {d : Distance} (h : ss.Clear d) (hb : ∀ k, ss.length k < 2 ^ 63 - 1)
    {v : Value} (hv : v.Spans d) : ss.valueOf? v = some (ss.extent d) := by
  obtain ⟨hlow, hhigh⟩ := h.word fun k => Nat.lt_of_lt_of_le (hb k) (by decide)
  exact valueOf?_of_spans hv h.sameSection hlow hhigh

theorem valueOf?_of_const (ss : Sections Empty) {e : Expr} {c : Int} (h : e.const? = some c) :
    ss.valueOf? (.ofExpr e) = some c := by
  cases e with
  | const v =>
    obtain rfl := Option.some.inj h
    rfl
  | _ => cases h

end Sections

/-! ## What candidates depend on -/

theorem Fragment.Offers.own {f g : Fragment (Tail Empty)} (h : f.Offers g) {q : SpanRequest} (hq : q ∈ g.own) :
    ∃ q' ∈ f.own, q'.value = q.value ∧ ∀ b, g.tail = some (.branch b) → f.tail = some (.branch b) := by
  obtain ⟨u, hu, hqu⟩ := exists_of_mem_own hq
  rcases h.tail with ⟨-, hg⟩ | ⟨t, u', hf, hg, htu⟩
  · cases hg.symm.trans hu
  obtain rfl := Option.some.inj (hu.symm.trans hg)
  rw [Fragment.own, hf]
  cases htu with
  | same => exact ⟨q, hqu, rfl, fun b hb => hg.symm.trans hb⟩
  | wide x hlen =>
    rcases Tail.mem_own hqu with ⟨x', hx, hc, rfl⟩ | ⟨b, e, v, hb, -⟩
    · obtain rfl := Tail.leb128.inj hx
      refine ⟨⟨1, .ofExpr x.value, Leb128.window x.isSigned x.len⟩, ?_, rfl, fun b hb => ?_⟩
      · rw [Option.elim_some, Tail.own, Leb128.Field.measure, hc]
        exact List.mem_singleton_self _
      · cases hb.symm.trans hg
    · cases hb
  | long b =>
    rcases Tail.mem_own hqu with ⟨x', hx, -⟩ | ⟨b', e, v, hb, he, -⟩
    · cases hx
    · obtain rfl := Tail.branch.inj hb
      cases he

namespace Sections

variable {ss x y : Sections Empty} {r : FragmentRef} {f g : Fragment (Tail Empty)}

theorem Candidate.clear (h : ss.Candidate x) {d : Distance} (hd : ss.Clear d) : x.Clear d :=
  h.forms.clear (fun _ _ hfg => ⟨congrArg List.length hfg.fixed, hfg.setsOffset⟩) hd

theorem Beneath.contains (hle : x.Beneath y) (hb : ∀ k, x.length k < 2 ^ 63) (hg : y.fragment? r = some g)
    {q : SpanRequest} (hq : q ∈ g.own) {d : Distance} (hd : x.Clear d)
    (horigin : ∀ b, g.tail = some (.branch b) → d.origin = ⟨r, g.fixedLen⟩)
    (hfits : q.window.contains (y.extent d) = true) : q.window.contains (x.extent d) = true := by
  -- A value that fits a form in larger forms fits it in smaller ones.
  obtain ⟨k, hk, hkg⟩ := Related.exists_left hle hg
  cases hkg with
  | plain _ hkg => exact hle.atMost.contains_own hd hb hk hkg hq horigin hfits
  | copies _ hgt =>
    rw [Fragment.own, hgt] at hq
    cases hq

namespace Direct

theorem exists_of_measures {e : Expr} (h : ss.measures e = true) : ∃ d, (Value.ofExpr e).Spans d ∧ ss.Clear d := by
  simp only [measures, List.any_eq_true, Bool.and_eq_true, decide_eq_true_eq] at h
  obtain ⟨a, -, b, -, hspans, hclear⟩ := h
  exact ⟨⟨b, a⟩, hspans, hclear⟩

theorem times (h : ss.Direct) (hf : ss.fragment? r = some f) {count : Expr} {body : Block (Tail Empty)} {reps : Nat}
    (ht : f.tail = some (.times count body reps)) :
    (count.const?.isSome = true ∨ ss.measures count = true) ∧ ∀ p ∈ body.fragments, p.tail = none := by
  have hat := h r f hf
  rw [directAt, ht, Bool.and_eq_true, Bool.or_eq_true, List.all_eq_true] at hat
  exact ⟨hat.1, fun p hp => Option.isNone_iff_eq_none.mp (hat.2 p hp)⟩

theorem spans (h : ss.Direct) (hf : ss.fragment? r = some f) {q : SpanRequest} (hq : q ∈ f.own) :
    ∃ d, q.value.Spans d ∧ ss.Clear d ∧ ∀ b, f.tail = some (.branch b) → d.origin = ⟨r, f.fixedLen⟩ := by
  have hat := h r f hf
  obtain ⟨t, ht, hq⟩ := Fragment.exists_of_mem_own hq
  rw [directAt, ht] at hat
  rcases Tail.mem_own hq with ⟨x, rfl, hc, rfl⟩ | ⟨b, e, v, rfl, he, hv, rfl⟩
  · simp only [hc, Option.isSome_none, Bool.false_or] at hat
    obtain ⟨d, hspans, hclear⟩ := exists_of_measures hat
    exact ⟨d, hspans, hclear, fun b hb => by cases hb.symm.trans ht⟩
  · simp only [he, hv, Option.isNone_some, Bool.false_or, Option.any_some, Bool.and_eq_true, decide_eq_true_eq,
      List.any_eq_true] at hat
    obtain ⟨-, l, -, hspans, hclear⟩ := hat
    exact ⟨⟨⟨r, f.fixedLen⟩, l⟩, hspans, hclear, fun _ _ => rfl⟩

theorem flat (h : ss.Direct) : ss.Flat := by
  intro r f hf
  rw [Fragment.flat]
  cases ht : f.tail with
  | none => rfl
  | some t =>
    cases t with
    | times count body reps =>
      refine List.all_eq_true.mpr fun p hp => ?_
      rw [(h.times hf ht).2 p hp]
      rfl
    | _ => rfl

theorem lengthens (h : ss.Direct) : ss.Lengthens := by
  intro r f hf
  cases ht : f.tail with
  | none => rfl
  | some t =>
    cases t with
    | times count body reps =>
      refine List.all_eq_true.mpr fun p hp => ?_
      rw [(h.times hf ht).2 p hp]
      rfl
    | branch b =>
      have hat := h r f hf
      rw [directAt, ht, Bool.and_eq_true] at hat
      exact hat.1
    | _ => rfl

theorem candidate (h : ss.Direct) (hx : ss.Candidate x) (hg : x.fragment? r = some g) {q : SpanRequest}
    (hq : q ∈ g.requests) : q ∈ g.own ∧ ∃ d, q.value.Spans d ∧ ss.Clear d ∧
      ∀ b, g.tail = some (.branch b) → d.origin = ⟨r, g.fixedLen⟩ := by
  obtain ⟨f, hf, hfg⟩ := hx.forms.exists_left hg
  cases hfg with
  | plain hfg =>
    rw [Fragment.requests_of_plain hfg.plain_right] at hq
    obtain ⟨q', hq', hvalue, hbranch⟩ := hfg.own hq
    obtain ⟨d, hspans, hclear, horigin⟩ := h.spans hf hq'
    refine ⟨hq, d, hvalue ▸ hspans, hclear, fun b hb => ?_⟩
    rw [horigin b (hbranch b hb), Fragment.fixedLen, Fragment.fixedLen, hfg.fixed]
  | copies hft hgt _ hparts =>
    -- The body is a run of bytes, which asks for nothing.
    rw [Fragment.requests_of_some hgt, Tail.requests] at hq
    obtain ⟨slot, p, q', hp, hq', -⟩ := mem_bodyRequests.mp hq
    obtain ⟨t, ht, -⟩ := Fragment.exists_of_mem_own hq'
    obtain ⟨k, hk, hkp⟩ := exists_of_forall₂_right hparts (List.mem_of_getElem? hp)
    rcases hkp.tail with ⟨-, hn⟩ | ⟨u, -, hu, -⟩
    · cases hn.symm.trans ht
    · cases ((h.times hf hft).2 k hk).symm.trans hu

/-- Where no form depends on a distance over padding, what fits a form fits it in all smaller layouts. -/
theorem fitsBelow (h : ss.Direct) : ss.FitsBelow := by
  have hsmall {x y : Sections Empty} (hx : ss.Candidate x) (hy : ss.Candidate y) (hle : x.Beneath y)
      (hb : ∀ k, y.length k < 2 ^ 63 - 1) (k : Nat) : x.length k < 2 ^ 63 - 1 :=
    Nat.lt_of_le_of_lt (hle.atMost.length_le hy.padded hx.padded k) (hb k)
  refine ⟨h.flat, h.lengthens, ?_, ?_⟩
  · rintro x y hx hy hle hb r g hg q hq ⟨v, hv, -, hfits⟩
    have hbx := hsmall hx hy hle hb
    obtain ⟨hown, d, hspans, hclear, horigin⟩ := h.candidate hy hg hq
    obtain rfl := Option.some.inj (((hy.clear hclear).valueOf? hb hspans).symm.trans hv)
    refine ⟨x.extent d, (hx.clear hclear).valueOf? hbx hspans, (hx.clear hclear).ne_unknownValue hbx, ?_⟩
    exact hle.contains (fun k => Nat.lt_of_lt_of_le (hbx k) (by decide)) hg hown (hx.clear hclear) horigin hfits
  · intro x y hx hy hle hb r g count body n hg ht hv
    obtain ⟨f, hf, hfg⟩ := hy.forms.exists_left hg
    obtain ⟨body', reps, hft⟩ : ∃ body' reps, f.tail = some (.times count body' reps) := by
      cases hfg with
      | plain hfg =>
        have hp := hfg.plain_right
        rw [ht] at hp
        cases hp
      | copies hft hgt =>
        obtain ⟨rfl, -⟩ := Tail.times.inj (Option.some.inj (ht.symm.trans hgt))
        exact ⟨_, _, hft⟩
    rcases (h.times hf hft).1 with hc | hm
    · obtain ⟨c, hc⟩ := Option.isSome_iff_exists.mp hc
      obtain rfl := Option.some.inj ((y.valueOf?_of_const hc).symm.trans hv)
      exact ⟨n, Nat.le_refl n, x.valueOf?_of_const hc⟩
    · obtain ⟨d, hspans, hclear⟩ := exists_of_measures hm
      have hn : y.extent d = n := Option.some.inj (((hy.clear hclear).valueOf? hb hspans).symm.trans hv)
      have haway := hle.atMost.extent_away (hx.clear hclear)
      refine ⟨(x.extent d).toNat, by omega, ?_⟩
      rw [(hx.clear hclear).valueOf? (hsmall hx hy hle hb) hspans, Int.toNat_of_nonneg (by omega)]

end Direct

end Sections

end SpanLayout
