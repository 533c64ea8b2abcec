import Mathlib.Algebra.BigOperators.Group.Finset.Basic
import Mathlib.Algebra.Order.BigOperators.Group.Finset
import SpanLayout.Proofs.Relaxation.Upkeep
import SpanLayout.Proofs.Tail.Headroom

/-!
# What expansions cost

Every span has a price: a count that is due its weight, any other span a bulk price for each expansion that is left to
it. An expansion pays the price of its span, and only counts that it changes become due. So if every count outweighs
the counts that it changes, and the bulk price outweighs all counts together, every expansion lowers the cost of what
is left to do.
-/

namespace SpanLayout

/-! ## Prices -/

/-- What expansions are charged: `weight n` for count number `n`, and a bulk price for any other span, by the forms of
`sections`. -/
structure Tariff where
  sections : Sections Empty
  weight : Nat → Nat
  bulk : Nat

/-- The price of the expansions that span number `n` may still ask for. -/
def Span.price (p : Tariff) (n : Nat) (span : Span) : Nat :=
  if span.status = .inactive then 0
  else if span.isCount then if span.compute = span.current then 0 else p.weight n
  else p.bulk * (p.sections.fragment? span.seed.ref).elim 0 (·.headroom span.id span.window)

/-- Whether the fragment of a span can ask for one with its window. Counts have none. -/
def Span.Admitted (ss : Sections Empty) (span : Span) : Prop :=
  span.isCount = false → ∃ f, ss.fragment? span.seed.ref = some f ∧ f.Admits span.id span.window

namespace Span

variable {p : Tariff} {ss : Sections Empty} {n : Nat}

/-- `new` is what becomes of a span as the terms over a growth follow it. -/
structure Drifts (old new : Span) : Prop where
  outline : new.outline = old.outline
  window : new.window = old.window
  inactive : old.status = .inactive → new.status = .inactive

theorem Drifts.refl (span : Span) : Drifts span span := ⟨rfl, rfl, fun h => h⟩

theorem Drifts.trans {a b c : Span} (h : Drifts a b) (h' : Drifts b c) : Drifts a c :=
  ⟨h'.outline.trans h.outline, h'.window.trans h.window, fun ha => h'.inactive (h.inactive ha)⟩

theorem Drifts.seed {old new : Span} (h : Drifts old new) : new.seed = old.seed := by
  have h := congrArg Span.seed h.outline
  exact h

theorem isCount_of_seed {a b : Span} (h : a.seed = b.seed) : a.isCount = b.isCount := by
  rw [isCount, isCount, Span.id, Span.id, h]

theorem price_of_inactive {span : Span} (h : span.status = .inactive) : span.price p n = 0 := by
  rw [price, if_pos h]

theorem price_of_count {span : Span} (h : span.isCount = true) : span.price p n ≤ p.weight n := by
  unfold price
  split_ifs <;> omega

theorem price_of_form {span : Span} (hs : span.status ≠ .inactive) (hc : span.isCount = false) :
    span.price p n = p.bulk * (p.sections.fragment? span.seed.ref).elim 0 (·.headroom span.id span.window) := by
  rw [price, if_neg hs, hc, if_neg (by decide)]

theorem Drifts.price_le {old new : Span} (h : Drifts old new) (hc : old.isCount = false) :
    new.price p n ≤ old.price p n := by
  by_cases hi : new.status = .inactive
  · rw [price_of_inactive hi]
    exact Nat.zero_le _
  · have hold : old.status ≠ .inactive := fun ho => hi (h.inactive ho)
    rw [price_of_form hi ((isCount_of_seed h.seed).trans hc), price_of_form hold hc, Span.id, Span.id, h.seed, h.window]

theorem Drifts.admitted {old new : Span} (h : Drifts old new) (ha : old.Admitted ss) : new.Admitted ss := by
  unfold Admitted
  rw [isCount_of_seed h.seed, h.window, Span.id, h.seed]
  exact ha

theorem price_woken_le {span : Span} (h : span.status ≠ .inactive) : span.woken.price p n ≤ span.price p n := by
  rcases span.woken_status with hs | hs
  · rw [price, price, if_neg (by rw [hs]; decide), if_neg h]
    exact Nat.le_refl _
  · rw [price_of_inactive hs]
    exact Nat.zero_le _

end Span

/-! ## The cost of a relaxation -/

/-- What the counts weigh together that extend over fragment number `i`. -/
def Plan.burden (p : Plan) (weight : Nat → Nat) (i : Nat) : Nat :=
  ∑ n ∈ Finset.range p.spans.length,
    if p.spans[n]?.any Span.isCount ∧ n ∈ (p.index.query i i).map (·.1) then weight n else 0

/-- What the counts weigh together that extend over setters of `refs` in section `sec`. -/
def Plan.rippled (p : Plan) (weight : Nat → Nat) (sec : Nat) (refs : List FragmentRef) : Nat :=
  (refs.map fun r => if r.sectionIndex = sec then (p.frame? r).elim 0 fun a => p.burden weight a.index else 0).sum

/-- What the counts weigh together that a growth of the fragment of a seed can change: those that extend over it, and
those that extend over a setter behind it. -/
def Plan.load (p : Plan) (weight : Nat → Nat) (seed : Seed) : Nat :=
  p.burden weight seed.index + p.rippled weight seed.ref.sectionIndex (p.setters.drop seed.settersBefore)

theorem Plan.load_zero (p : Plan) (seed : Seed) : p.load (fun _ => 0) seed = 0 := by
  have hburden (i : Nat) : p.burden (fun _ => 0) i = 0 := Finset.sum_eq_zero fun n _ => by split <;> rfl
  have hrippled (sec : Nat) (refs : List FragmentRef) : p.rippled (fun _ => 0) sec refs = 0 := by
    refine List.sum_eq_zero fun w hw => ?_
    obtain ⟨r, -, rfl⟩ := List.mem_map.mp hw
    cases p.frame? r <;> simp [hburden]
  rw [load, hburden, hrippled]

/-- Every count is charged more than the counts that it can change, and the bulk price is more than those are charged
that any span can change. -/
structure Tariff.Covers (t : Tariff) (p : Plan) : Prop where
  counts : ∀ (n : Nat) (span : Span), p.spans[n]? = some span → span.isCount = true →
    p.load t.weight span.seed < t.weight n
  bulk : ∀ span ∈ p.spans, p.load t.weight span.seed < t.bulk

namespace Relaxation

variable {p : Tariff} {ss : Sections Empty}

/-- The price of span number `n`. -/
def priceAt (p : Tariff) (s : Relaxation Empty) (n : Nat) : Nat := s.spans[n]?.elim 0 (·.price p n)

/-- What the expansions cost together that the spans may still ask for. -/
def cost (p : Tariff) (s : Relaxation Empty) : Nat := ∑ n ∈ Finset.range s.spans.length, s.priceAt p n

theorem priceAt_of_some {s : Relaxation Empty} {n : Nat} {span : Span} (h : s.spans[n]? = some span) :
    s.priceAt p n = span.price p n := by
  rw [priceAt, h]
  rfl

theorem priceAt_le_cost {s : Relaxation Empty} {n : Nat} {span : Span} (h : s.spans[n]? = some span) :
    span.price p n ≤ s.cost p := by
  rw [← priceAt_of_some h]
  exact Finset.single_le_sum (f := s.priceAt p) (fun _ _ => Nat.zero_le _)
    (Finset.mem_range.mpr (List.getElem?_eq_some_iff.mp h).1)

theorem cost_set {s t : Relaxation Empty} {n : Nat} {x y : Span} (hn : s.spans[n]? = some x)
    (ht : t.spans = s.spans.set n y) :
    t.cost p + x.price p n = s.cost p + y.price p n := by
  have hlen := (List.getElem?_eq_some_iff.mp hn).1
  have hmem := Finset.mem_range.mpr hlen
  have hself : t.spans[n]? = some y := by rw [ht, List.getElem?_set_self hlen]
  unfold cost
  rw [ht, List.length_set, ← Finset.add_sum_erase _ _ hmem, ← Finset.add_sum_erase _ (s.priceAt p) hmem,
    priceAt_of_some hself, priceAt_of_some hn]
  have hrest : ∑ m ∈ (Finset.range s.spans.length).erase n, t.priceAt p m =
      ∑ m ∈ (Finset.range s.spans.length).erase n, s.priceAt p m := by
    refine Finset.sum_congr rfl fun m hm => ?_
    rw [priceAt, priceAt, ht, List.getElem?_set_ne (Finset.ne_of_mem_erase hm).symm]
  omega

theorem cost_of_spans {s t : Relaxation Empty} (h : t.spans = s.spans) : t.cost p = s.cost p := by
  unfold cost priceAt
  rw [h]

/-! ## Growth -/

/-- The spans of `t` are what became of those of `s`, and those that are not among `hits` are as they were. -/
structure SpansDrift (hits : List Nat) (s t : Relaxation Empty) : Prop where
  length : t.spans.length = s.spans.length
  drifts : ∀ (n : Nat) (old : Span), s.spans[n]? = some old → ∃ new, t.spans[n]? = some new ∧ old.Drifts new
  kept : ∀ n, n ∉ hits → t.spans[n]? = s.spans[n]?

theorem SpansDrift.refl (hits : List Nat) (s : Relaxation Empty) : SpansDrift hits s s :=
  ⟨rfl, fun _ old h => ⟨old, h, .refl old⟩, fun _ _ => rfl⟩

theorem SpansDrift.trans {hits : List Nat} {s t u : Relaxation Empty} (h : SpansDrift hits s t)
    (h' : SpansDrift hits t u) : SpansDrift hits s u := by
  refine ⟨h'.length.trans h.length, fun n old hn => ?_, fun n hn => (h'.kept n hn).trans (h.kept n hn)⟩
  obtain ⟨mid, hm, hd⟩ := h.drifts n old hn
  obtain ⟨new, hnew, hd'⟩ := h'.drifts n mid hm
  exact ⟨new, hnew, hd.trans hd'⟩

theorem spansDrift_set {hits : List Nat} {s t : Relaxation Empty} {n : Nat} {old new : Span}
    (hn : s.spans[n]? = some old) (ht : t.spans = s.spans.set n new) (hd : old.Drifts new) (hmem : n ∈ hits) :
    SpansDrift hits s t := by
  refine ⟨by rw [ht, List.length_set], fun m x hm => ?_, fun m hm => ?_⟩
  · rw [ht]
    by_cases hmn : n = m
    · subst hmn
      obtain rfl := Option.some.inj (hn.symm.trans hm)
      exact ⟨new, List.getElem?_set_self (List.getElem?_eq_some_iff.mp hn).1, hd⟩
    · exact ⟨x, (List.getElem?_set_ne hmn).trans hm, .refl x⟩
  · rw [ht, List.getElem?_set_ne]
    rintro rfl
    exact hm hmem

theorem spansDrift_shiftTerm (d : Int) (s : Relaxation Empty) {hits : List Nat} {hit : Nat × Nat}
    (hmem : hit.1 ∈ hits) : SpansDrift hits s (shiftTerm d s hit) := by
  obtain ⟨n, j⟩ := hit
  rcases shiftTerm_cases d s n j with ⟨he, -⟩ | ⟨span, hn, ⟨hs, he⟩ | ⟨hs, -, he⟩ | ⟨hs, -, he⟩⟩ <;> rw [he]
  · exact .refl hits s
  · exact spansDrift_set hn rfl ⟨span.outline_shifted j d, rfl, id⟩ hmem
  · have hspans : ((s.countRecalcs 1).enqueue n (span.shifted j d).recalc).spans =
        s.spans.set n { (span.shifted j d).recalc with status := .queued } := by
      unfold enqueue
      dsimp only
      split <;> rfl
    exact spansDrift_set hn hspans ⟨span.outline_shifted j d, rfl, fun hi => absurd (hs.symm.trans hi) (by decide)⟩ hmem
  · exact spansDrift_set hn rfl ⟨span.outline_shifted j d, rfl, fun hi => absurd (hs.symm.trans hi) (by decide)⟩ hmem

theorem spansDrift_shift (s : Relaxation Empty) (i : Nat) (d : Int) :
    SpansDrift ((s.index.query i i).map (·.1)) s (s.shift i d) := by
  unfold shift
  have hfold : ∀ (hits : List (Nat × Nat)) (t : Relaxation Empty), (∀ hit ∈ hits, hit ∈ s.index.query i i) →
      SpansDrift ((s.index.query i i).map (·.1)) t (hits.foldl (shiftTerm d) t) := by
    intro hits
    induction hits with
    | nil => exact fun t _ => .refl _ t
    | cons hit hits ih =>
      intro t hall
      refine (spansDrift_shiftTerm d t (List.mem_map_of_mem (hall hit List.mem_cons_self))).trans ?_
      exact ih _ fun h hh => hall h (List.mem_cons_of_mem hit hh)
  exact hfold _ s fun _ h => h

theorem isCount_plan {s : Relaxation Empty} {n : Nat} {span : Span} (h : s.spans[n]? = some span) :
    s.plan.spans[n]?.any Span.isCount = span.isCount := by
  rw [show s.plan.spans = s.spans.map Span.outline from rfl, List.getElem?_map, h]
  rfl

theorem cost_shift_le (s : Relaxation Empty) (i : Nat) (d : Int) :
    (s.shift i d).cost p ≤ s.cost p + s.plan.burden p.weight i := by
  have hdrift := spansDrift_shift s i d
  have hlen : s.plan.spans.length = s.spans.length := List.length_map _
  unfold cost Plan.burden
  rw [hdrift.length, hlen, ← Finset.sum_add_distrib]
  refine Finset.sum_le_sum fun n hn => ?_
  obtain ⟨old, hn⟩ : ∃ old, s.spans[n]? = some old := ⟨_, List.getElem?_eq_getElem (Finset.mem_range.mp hn)⟩
  obtain ⟨new, hnew, hd⟩ := hdrift.drifts n old hn
  rw [priceAt_of_some hn, priceAt_of_some hnew, isCount_plan hn]
  by_cases hc : old.isCount = true
  · by_cases hhit : n ∈ (s.index.query i i).map (·.1)
    · rw [if_pos ⟨hc, hhit⟩]
      have := Span.price_of_count (p := p) (n := n)
        ((Span.isCount_of_seed hd.seed).trans hc)
      omega
    · rw [hdrift.kept n hhit, hn] at hnew
      obtain rfl := Option.some.inj hnew
      exact Nat.le_add_right _ _
  · exact Nat.le_trans (hd.price_le (by simpa using hc)) (Nat.le_add_right _ _)

theorem admitted_shift {s : Relaxation Empty} (h : ∀ span ∈ s.spans, span.Admitted ss) (i : Nat) (d : Int) :
    ∀ span ∈ (s.shift i d).spans, span.Admitted ss := by
  intro new hnew
  have hdrift := spansDrift_shift s i d
  obtain ⟨n, hn⟩ := List.mem_iff_getElem?.mp hnew
  have hlt := (List.getElem?_eq_some_iff.mp hn).1
  rw [hdrift.length] at hlt
  obtain ⟨new', hnew', hd⟩ := hdrift.drifts n _ (List.getElem?_eq_getElem hlt)
  obtain rfl := Option.some.inj (hn.symm.trans hnew')
  exact hd.admitted (h _ (List.getElem_mem hlt))

theorem cost_moveSetter_le {s : Relaxation Empty} (k : Nat) (x : Setter) (f : Fragment (Tail Empty)) (d : Int)
    (ha : ∀ span ∈ s.spans, span.Admitted ss) :
    (s.moveSetter k x d f).cost p ≤ s.cost p + s.plan.burden p.weight f.index ∧
      ∀ span ∈ (s.moveSetter k x d f).spans, span.Admitted ss := by
  rw [moveSetter_eq rfl rfl rfl]
  dsimp only
  split
  · exact ⟨Nat.le_trans (Nat.le_of_eq (cost_of_spans rfl)) (Nat.le_add_right _ _), ha⟩
  · exact ⟨cost_shift_le (p := p) { (s.setFragment x.ref
      (f.expand 1 (signed x.tailOffset) (signed (x.tailOffset + d).toNat)).state).reportFailure
        (f.expand 1 (signed x.tailOffset) (signed (x.tailOffset + d).toNat)).result with
          setters := s.setters.set k { x with tailOffset := (x.tailOffset + d).toNat } } f.index
        (signed (f.expand 1 (signed x.tailOffset) (signed (x.tailOffset + d).toNat)).state.tailLen - signed f.tailLen),
      admitted_shift (by exact ha) _ _⟩

theorem cost_ripple_le {k : Nat} {setters : List Setter} {d : Int} {s : Relaxation Empty}
    (hset : setters = s.setters.drop k) (ha : ∀ span ∈ s.spans, span.Admitted ss) (sec : Nat) :
    (ripple sec k setters d s).cost p ≤ s.cost p + s.plan.rippled p.weight sec (setters.map (·.ref)) ∧
      ∀ span ∈ (ripple sec k setters d s).spans, span.Admitted ss := by
  induction setters generalizing k d s with
  | nil => exact ⟨Nat.le_add_right _ _, ha⟩
  | cons x setters ih =>
    have hx : s.setters[k]? = some x := by
      rw [← List.head?_drop, ← hset]
      rfl
    rw [ripple_cons]
    split
    · exact ⟨Nat.le_add_right _ _, ha⟩
    · rename_i hgo
      split
      · exact ⟨Nat.le_add_right _ _, ha⟩
      · rename_i f hf
        have hplan := plan_moveSetter (d := d) hx hf
        obtain ⟨hle, ha'⟩ := cost_moveSetter_le (p := p) k x f d ha
        have hrest := ih (k := k + 1) (d := signed ((x.tailOffset + d).toNat + (f.expand 1 (signed x.tailOffset)
            (signed (x.tailOffset + d).toNat)).state.tailLen) - signed (x.tailOffset + f.tailLen)) ?_ ha'
        · refine ⟨?_, hrest.2⟩
          have hfirst : s.plan.rippled p.weight sec ((x :: setters).map (·.ref)) =
              s.plan.burden p.weight f.index + s.plan.rippled p.weight sec (setters.map (·.ref)) := by
            have hframe : s.plan.frame? x.ref = some f.frame := by simp [plan, Sections.frame?, hf]
            rw [Plan.rippled, List.map_cons, List.map_cons, List.sum_cons,
              if_pos (by_contra fun hs => hgo (.inr hs)), hframe]
            rfl
          refine Nat.le_trans hrest.1 ?_
          rw [hplan, hfirst, ← Nat.add_assoc]
          exact Nat.add_le_add_right hle _
        · rw [(moveSetter_requeued k x d f s).setters, List.drop_set_of_lt (Nat.lt_succ_self k),
            ← List.tail_drop, ← hset]
          rfl

theorem cost_follow_le {s : Relaxation Empty} {seed : Seed} {f g : Fragment (Tail Empty)}
    (hf : s.sections.fragment? seed.ref = some f) (hg : g.frame = f.frame) (ha : ∀ span ∈ s.spans, span.Admitted ss) :
    (s.follow seed f g).cost p ≤ s.cost p + s.plan.load p.weight seed ∧
      ∀ span ∈ (s.follow seed f g).spans, span.Admitted ss := by
  have hplan : (s.setFragment seed.ref g).plan = s.plan := plan_setFragment hf hg
  have hcost : (s.setFragment seed.ref g).cost p = s.cost p := cost_of_spans rfl
  by_cases hz : signed g.totalLen - signed f.totalLen = 0
  · rw [follow_of_zero hz, hcost]
    exact ⟨Nat.le_add_right _ _, ha⟩
  · rw [follow_of_ne_zero hz]
    generalize signed g.totalLen - signed f.totalLen = d
    have hreq := shift_requeued (s.setFragment seed.ref g) seed.index d
    have hshift := cost_shift_le (p := p) (s.setFragment seed.ref g) seed.index d
    rw [hplan, hcost] at hshift
    obtain ⟨hripple, hadm⟩ := cost_ripple_le (p := p) (k := seed.settersBefore) (d := d) (congrArg _ hreq.setters.symm)
      (admitted_shift (s := s.setFragment seed.ref g) ha seed.index d) seed.ref.sectionIndex
    rw [hreq.plan, hplan, List.map_drop] at hripple
    exact ⟨Nat.le_trans hripple (by rw [Plan.load, ← Nat.add_assoc]; exact Nat.add_le_add_right hshift _), hadm⟩

/-! ## Steps -/

theorem Upheld.word_compute {s : Relaxation Empty} (h : s.Upheld) (hw : s.sections.InWords s.measured) {span : Span}
    (hspan : span ∈ s.spans) (hs : span.status ≠ .inactive) :
    -wordBound ≤ span.compute ∧ span.compute < wordBound := by
  apply Span.word_compute
  intro t ht
  obtain ⟨ho, hp⟩ := mem_measured hspan ht
  have := hw.positions _ ho
  have := hw.positions _ hp
  rw [h.spans span hspan hs t ht, Sections.span]
  unfold wordBound
  omega

theorem cost_settled {s t : Relaxation Empty} (hs : s.step = .settled t) (ha : ∀ span ∈ s.spans, span.Admitted ss) :
    t.cost p ≤ s.cost p ∧ t.stats.expansions = s.stats.expansions ∧ t.stats.spans = s.stats.spans ∧
      ∀ span ∈ t.spans, span.Admitted ss := by
  obtain ⟨s', hspans, hreq, rfl | ⟨n, span, hn, hwatched, rfl⟩⟩ := step_settled hs
  · exact ⟨Nat.le_of_eq (cost_of_spans hspans), hreq.expansions, hreq.registered, hspans ▸ ha⟩
  · have ht : ((s'.setSpan n span.woken).countRecalcs 1).spans = s.spans.set n span.woken := by
      rw [← hspans]
      rfl
    have hcost := cost_set (p := p) hn ht
    have hprice := Span.price_woken_le (p := p) (n := n) hwatched
    refine ⟨by omega, hreq.expansions, hreq.registered, fun x hx => ?_⟩
    rw [ht] at hx
    rcases List.mem_or_eq_of_mem_set hx with hx | rfl
    · exact ha x hx
    · exact ha span (List.mem_of_getElem? hn)

/-- A span that asks for an expansion has a price. An expansion that succeeds pays a count's whole price, and of any
other span's at least the bulk price. -/
theorem price_expanded {s : Relaxation Empty} (h : s.Upheld) (hw : s.sections.InWords s.measured)
    (hflat : p.sections.Flat) (hr : p.sections.Reshaped s.sections) (hc : p.Covers s.plan) {n : Nat} {span : Span}
    (hn : s.spans[n]? = some span) (hwatched : span.status ≠ .inactive) (hexceeded : span.woken.exceeded = true)
    {f : Fragment (Tail Empty)} (hf : s.sections.fragment? span.seed.ref = some f) (ha : span.Admitted p.sections) :
    1 ≤ span.price p n ∧ ∀ x, (f.expand span.id span.current span.compute).result = .ok x →
      (span.woken.expanded x.window).price p n + s.plan.load p.weight span.seed < span.price p n ∧
        (span.woken.expanded x.window).Admitted p.sections := by
  have hmem := List.mem_of_getElem? hn
  have hplan : s.plan.spans[n]? = some span.outline := by
    rw [show s.plan.spans = s.spans.map Span.outline from rfl, List.getElem?_map, hn]
    rfl
  by_cases hcount : span.isCount = true
  · -- A count is due, and what its expansion changes is less than its weight.
    have hdue : span.compute ≠ span.current := by
      have hwoken : span.woken.isCount = true := hcount
      rw [Span.exceeded, if_pos hwoken] at hexceeded
      exact bne_iff_ne.mp hexceeded
    have hprice : span.price p n = p.weight n := by
      rw [Span.price, if_neg hwatched, if_pos hcount, if_neg hdue]
    have hweight := hc.counts n span.outline hplan hcount
    refine ⟨by omega, fun x _ => ⟨?_, fun hno => ?_⟩⟩
    · have hpaid : (span.woken.expanded x.window).price p n = 0 := by
        cases hx : x.window with
        | none => exact Span.price_of_inactive rfl
        | some w =>
          rcases span.woken_status with hst | hst
          · have hcount' : (span.woken.expanded (some w)).isCount = true := hcount
            rw [Span.price,
              if_neg (show (span.woken.expanded (some w)).status ≠ .inactive by rw [Span.expanded, hst]; decide),
              if_pos hcount']
            exact if_pos rfl
          · exact Span.price_of_inactive hst
      rw [hpaid, hprice, Nat.zero_add]
      exact hweight
    · have hcount' : (span.woken.expanded x.window).isCount = true := by
        rw [Span.isCount_of_seed (Span.seed_expanded ..)]
        exact hcount
      rw [hcount'] at hno
      cases hno
  · -- Any other span moves on to a form with less headroom.
    have hform : span.isCount = false := by simpa using hcount
    obtain ⟨f₀, hf₀, hadmits⟩ := ha hform
    obtain ⟨f₁, hf₁, hreshaped⟩ := hr _ f hf
    obtain rfl := Option.some.inj (hf₀.symm.trans hf₁)
    have halike := hreshaped.alike (hflat _ f₀ hf₀)
    obtain ⟨hl, hh⟩ := h.word_compute hw hmem hwatched
    have hout : span.window.contains span.compute = false := by
      have hwoken : span.woken.isCount = false := hform
      rw [Span.exceeded, hwoken, if_neg (by decide)] at hexceeded
      exact (Bool.not_eq_eq_eq_not ..).mp hexceeded
    obtain ⟨hpos, hnext⟩ := Fragment.expand_headroom span.current ((halike.admits span.id span.window).2 hadmits)
      hl hh hout
    rw [halike.headroom] at hpos
    have hbulk : s.plan.load p.weight span.seed < p.bulk := hc.bulk span.outline (List.mem_of_getElem? hplan)
    have hprice : span.price p n = p.bulk * f₀.headroom span.id span.window := by
      rw [Span.price_of_form hwatched hform, hf₀]
      rfl
    have hone : p.bulk * 1 ≤ p.bulk * f₀.headroom span.id span.window := Nat.mul_le_mul_left _ hpos
    refine ⟨by omega, fun x hx => ?_⟩
    have hseed : (span.woken.expanded x.window).seed = span.seed := Span.seed_expanded ..
    have hform' : (span.woken.expanded x.window).isCount = false := (Span.isCount_of_seed hseed).trans hform
    rcases hnext x hx with hnone | ⟨w, hsome, hadmits', hless⟩
    · rw [hnone] at hform' ⊢
      refine ⟨?_, fun _ => ?_⟩
      · rw [Span.price_of_inactive rfl]
        omega
      · exact ⟨f₀, hf₀, hadmits⟩
    · rw [hsome] at hform' ⊢
      have hadmits₀ := (halike.admits span.id w).1 hadmits'
      rw [halike.headroom, halike.headroom] at hless
      refine ⟨?_, fun _ => ⟨f₀, hf₀, hadmits₀⟩⟩
      have hnew : (span.woken.expanded (some w)).price p n ≤ p.bulk * f₀.headroom span.id w := by
        by_cases hi : (span.woken.expanded (some w)).status = .inactive
        · rw [Span.price_of_inactive hi]
          exact Nat.zero_le _
        · rw [Span.price_of_form hi hform']
          show p.bulk * (p.sections.fragment? span.seed.ref).elim 0 _ ≤ _
          rw [hf₀]
          exact Nat.le_refl _
      have hmul : p.bulk * (f₀.headroom span.id w + 1) ≤ p.bulk * f₀.headroom span.id span.window :=
        Nat.mul_le_mul_left _ hless
      rw [Nat.mul_add, Nat.mul_one] at hmul
      omega

theorem Tries.cost_lt {s t : Relaxation Empty} (h : s.Upheld) (hw : s.sections.InWords s.measured)
    (hflat : p.sections.Flat) (hr : p.sections.Reshaped s.sections) (hc : p.Covers s.plan) {n : Nat} {span : Span}
    {f : Fragment (Tail Empty)} (ht : Tries s t n span f) (ha : ∀ span ∈ s.spans, span.Admitted p.sections) :
    t.cost p < s.cost p ∧ ∀ span ∈ t.spans, span.Admitted p.sections := by
  obtain ⟨hpos, hpaid⟩ := price_expanded h hw hflat hr hc ht.found ht.watched ht.exceeded ht.fragment
    (ha span (List.mem_of_getElem? ht.found))
  obtain ⟨s', hspans, hreq, ⟨e, -, heq⟩ | ⟨x, hx, heq⟩⟩ := ht.follows <;> rw [heq]
  · have hset : (((s'.renewed n (span.woken.expanded none)).setFragment span.seed.ref
        (f.expand span.id span.current span.compute).state).report e).spans =
          s.spans.set n (span.woken.expanded none) := by
      rw [← hspans]
      rfl
    have hcost := cost_set (p := p) ht.found hset
    rw [Span.price_of_inactive (show (span.woken.expanded none).status = .inactive from rfl)] at hcost
    refine ⟨by omega, fun y hy => ?_⟩
    rw [hset] at hy
    rcases List.mem_or_eq_of_mem_set hy with hy | rfl
    · exact ha y hy
    · exact ha span (List.mem_of_getElem? ht.found)
  · obtain ⟨hless, hadmitted⟩ := hpaid x hx
    have ho : (span.woken.expanded x.window).outline = span.outline := by
      rw [Span.outline_expanded, Span.outline_woken]
    have hterms : (span.woken.expanded x.window).terms = span.terms := by
      rw [Span.terms_expanded]
      rfl
    obtain ⟨hup, hplan⟩ := h.renewed hspans hreq ht.found ht.watched ho hterms
    have hset : (s'.renewed n (span.woken.expanded x.window)).spans = s.spans.set n (span.woken.expanded x.window) := by
      rw [← hspans]
      rfl
    have hf : (s'.renewed n (span.woken.expanded x.window)).sections.fragment? span.seed.ref = some f := by
      rw [show (s'.renewed n _).sections = s.sections from hreq.sections]
      exact ht.fragment
    have hcost := cost_set (p := p) ht.found hset
    have hadmitted : ∀ y ∈ (s'.renewed n (span.woken.expanded x.window)).spans, y.Admitted p.sections := by
      intro y hy
      rw [hset] at hy
      rcases List.mem_or_eq_of_mem_set hy with hy | rfl
      · exact ha y hy
      · exact hadmitted
    obtain ⟨hfollow, hadm⟩ := cost_follow_le (p := p) hf
      (Fragment.frame_expand span.id span.current span.compute f) hadmitted
    rw [hplan] at hfollow
    exact ⟨by omega, hadm⟩

section

variable {start s : Relaxation Empty} (h : Draining start s) (hu : start.Upheld)
  (hw : ∀ t, Draining start t → t.sections.InWords start.measured) (hflat : p.sections.Flat)
  (hr : p.sections.Reshaped start.sections) (hc : p.Covers start.plan)
  (ha : ∀ span ∈ start.spans, span.Admitted p.sections)

include h hu hw hflat hr hc ha

/-- The expansions made so far and the cost of those to come never exceed the cost at the beginning. -/
theorem Draining.cost_le :
    s.stats.expansions + s.cost p ≤ start.stats.expansions + start.cost p ∧ s.stats.spans = start.stats.spans ∧
      ∀ span ∈ s.spans, span.Admitted p.sections := by
  induction h with
  | start => exact ⟨Nat.le_refl _, rfl, ha⟩
  | @step s t h hs ih =>
    obtain ⟨hcost, hspans, hadm⟩ := ih
    rcases hs with hs | hs
    · obtain ⟨hle, hexp, hspans', hadm'⟩ := cost_settled (p := p) hs hadm
      exact ⟨by omega, hspans'.trans hspans, hadm'⟩
    · obtain ⟨hup, hplan, -, hreshaped⟩ := h.upheld hu fun t ht => (hw t ht).lengths
      obtain ⟨n, span, f, ht⟩ := hup.tries hs
      have hmeasured : s.measured = start.measured := measured_of_plan (by rw [hplan])
      obtain ⟨hlt, hadm'⟩ := ht.cost_lt hup (by rw [hmeasured]; exact hw s h) hflat (hr.trans hreshaped)
        (by rw [hplan]; exact hc) hadm
      obtain ⟨-, -, hexp, hspans', -⟩ := ht.kept
      exact ⟨by omega, hspans'.trans hspans, hadm'⟩

/-- A run never uses up a budget that covers its cost at the beginning. -/
theorem Draining.not_exhausted (hb : start.stats.expansions + start.cost p ≤ start.config.maxExpansions)
    (t : Relaxation Empty) : s.step ≠ .exhausted t := by
  intro hs
  obtain ⟨hcost, -, hadm⟩ := h.cost_le hu hw hflat hr hc ha
  obtain ⟨hup, hplan, hconfig, hreshaped⟩ := h.upheld hu fun t ht => (hw t ht).lengths
  obtain ⟨n, span, hn, hwatched, hexceeded, hlimit, -⟩ := step_exhausted hs
  have hmem := List.mem_of_getElem? hn
  obtain ⟨f, hf, -⟩ := fragment_of_span hup.sound hmem
  have hmeasured : s.measured = start.measured := measured_of_plan (by rw [hplan])
  have hprice := (price_expanded hup (by rw [hmeasured]; exact hw s h) hflat (hr.trans hreshaped)
    (by rw [hplan]; exact hc) hn hwatched hexceeded hf (hadm span hmem)).1
  have hle := priceAt_le_cost (p := p) hn
  rw [hconfig] at hlimit
  omega

end

end Relaxation

end SpanLayout
