import SpanLayout.Proofs.Lay
import SpanLayout.Proofs.Relaxation.Upkeep

/-!
# Other numbers

Fragments, setters and spans are numbered through the whole object. Nothing that is done to a fragment or a span depends
on how many come before it, and the index answers with the spans of one section in the same order wherever they stand.
-/

namespace SpanLayout

/-! ## Fragments -/

section

variable {κ : Type}

/-- The fragment with `n` more before it. -/
def Fragment.later (n : Nat) (f : Fragment (Tail κ)) : Fragment (Tail κ) := { f with index := f.index + n }

variable [Directive κ]

theorem measureBody_index (info : FragmentInfo) (index slot offset : Nat) (fs : List (Fragment (Tail κ))) :
    measureBody { info with index } slot offset fs = measureBody info slot offset fs := by
  induction fs generalizing slot offset with
  | nil => simp only [measureBody]
  | cons f fs ih =>
    simp only [measureBody, ih]
    rfl

variable [LocalDirective κ]

theorem Tail.measure_index (info : FragmentInfo) (index : Nat) (t : Tail κ) :
    t.measure { info with index } = t.measure info := by
  cases t with
  | times count body reps =>
    simp only [Tail.measure, measureBody_index]
    rfl
  | other d => simp only [Tail.measure, LocalDirective.measure_index]
  | _ => rfl

theorem Tail.expand_index (info : FragmentInfo) (index : Nat) (id old new : Int) (t : Tail κ) :
    t.expand { info with index } id old new = t.expand info id old new := by
  cases t with
  | times count body reps =>
    simp only [Tail.expand]
    rfl
  | other d => simp only [Tail.expand, LocalDirective.expand_index]
  | _ => rfl

namespace Fragment

variable (n : Nat) (f : Fragment (Tail κ))

theorem measureAt_later (offset : Nat) :
    (f.later n).measureAt offset = (f.measureAt offset).mapState fun x => (x.1.later n, x.2) := by
  cases ht : f.tail with
  | none =>
    rw [measureAt_of_none ht, measureAt_of_none (f := f.later n) ht]
    rfl
  | some t =>
    rw [measureAt_of_some ht, measureAt_of_some (f := f.later n) ht,
      show ({ (f.later n).info with offset } : FragmentInfo) =
          { { f.info with offset } with index := f.index + n } from rfl,
      Tail.measure_index]
    obtain ⟨u, r⟩ := t.measure { f.info with offset }
    cases r <;> rfl

theorem expand_later (id old new : Int) : (f.later n).expand id old new = (f.expand id old new).mapState (later n) := by
  cases ht : f.tail with
  | none =>
    rw [expand_of_none ht, expand_of_none (f := f.later n) ht]
    rfl
  | some t =>
    rw [expand_of_some ht, expand_of_some (f := f.later n) ht,
      show (f.later n).info = { f.info with index := f.index + n } from rfl, Tail.expand_index]
    obtain ⟨u, r⟩ := t.expand f.info id old new
    cases r <;> rfl

theorem moveTo_later (offset : Nat) : (f.later n).moveTo offset = (f.moveTo offset).mapState (later n) := by
  unfold moveTo
  dsimp only
  have h : ({ f.later n with offset } : Fragment (Tail κ)) = ({ f with offset } : Fragment (Tail κ)).later n := rfl
  rw [h]
  generalize ({ f with offset } : Fragment (Tail κ)) = g
  rw [show (g.later n).setsOffset = g.setsOffset from rfl]
  split
  · rw [show (g.later n).tailOffset = g.tailOffset from rfl, expand_later]
    rfl
  · rfl

end Fragment

theorem layFragments_later (n offset : Nat) (d : Diagnostics) (fs : List (Fragment (Tail κ))) :
    (layFragments offset d (fs.map (·.later n))).1 = (layFragments offset d fs).1.map (·.later n) := by
  induction fs generalizing offset d with
  | nil => rfl
  | cons f fs ih =>
    simp only [List.map_cons, layFragments, Fragment.moveTo_later]
    exact congrArg (_ :: ·) (ih _ _)

end

/-! ## Spans -/

/-- The term with `n` more fragments before it. -/
def Term.later (n : Nat) (t : Term) : Term :=
  { t with originIndex := t.originIndex + n, targetIndex := t.targetIndex + n }

/-- The span with `n` more fragments and `m` more setters before it. -/
def Seed.later (n m : Nat) (seed : Seed) : Seed :=
  { seed with index := seed.index + n, settersBefore := seed.settersBefore + m }

def Span.later (n m : Nat) (span : Span) : Span :=
  { span with seed := span.seed.later n m, terms := span.terms.map (·.later n) }

theorem Term.grow_later (n : Nat) (d : Int) (t : Term) : (t.later n).grow d = (t.grow d).later n := by
  simp [grow, later]

theorem Term.low_later (n : Nat) (t : Term) : (t.later n).low = t.low + n := by
  simp [low, later, Nat.add_min_add_right]

theorem Term.high_later (n : Nat) (t : Term) : (t.later n).high = t.high + n := by
  simp [high, later, Nat.add_max_add_right]

namespace Span

variable (n m : Nat) (span : Span)

theorem compute_later : (span.later n m).compute = span.compute := by
  have h : (fun i : Nat => (span.later n m).terms[i]?.map (·.length)) = fun i => span.terms[i]?.map (·.length) := by
    funext i
    simp only [later, List.getElem?_map, Option.map_map]
    rfl
  unfold compute
  rw [h]
  rfl

theorem recalc_later : (span.later n m).recalc = span.recalc.later n m := by
  unfold recalc
  rw [compute_later]
  rfl

theorem outline_later : (span.later n m).outline = span.outline.later n m := by
  simp only [outline, later, List.map_map]
  rfl

theorem exceeded_later : (span.later n m).exceeded = span.exceeded := rfl

theorem isCount_later : (span.later n m).isCount = span.isCount := rfl

theorem shifted_later (j : Nat) (d : Int) : (span.later n m).shifted j d = (span.shifted j d).later n m := by
  unfold shifted later
  dsimp only
  congr 1
  refine List.ext_getElem? fun i => ?_
  simp only [List.getElem?_modify, List.getElem?_map]
  cases span.terms[i]? with
  | none => simp
  | some t =>
    by_cases h : j = i <;> simp [h, Term.grow_later]

theorem woken_later : (span.later n m).woken = span.woken.later n m :=
  recalc_later n m { span with status := .active }

theorem expanded_later (window : Option Window) :
    (span.later n m).expanded window = (span.expanded window).later n m := by
  cases window <;> rfl

end Span

/-! ## The survey -/

namespace Relaxation

variable {κ : Type} [Directive κ]

theorem surveyFragments_of_measureAt {index offset setters : Nat} {d : Diagnostics} {f g : Fragment (Tail κ)}
    {fs : List (Fragment (Tail κ))} {requests : List SpanRequest} {r : Except Error Unit}
    (h : ({ f with index } : Fragment (Tail κ)).measureAt offset = ⟨(g, requests), r⟩) :
    surveyFragments index offset setters d (f :: fs) =
      let rest := surveyFragments (index + 1) (if r.isOk then g.nextOffset else offset)
        (setters + (r.isOk && g.setsOffset).toNat) (d.reportFailure r) fs
      ⟨g :: rest.measured, (requests.map fun q => ⟨g.ref, index, g.source, q, setters⟩) ++ rest.seeds,
        if r.isOk && g.setsOffset then g.ref :: rest.setters else rest.setters, rest.diags⟩ := by
  simp only [surveyFragments]
  rw [h]
  dsimp only
  cases r.isOk && g.setsOffset <;> rfl

theorem surveyFragments_later [LocalDirective κ] (n m index offset setters : Nat) (d d' : Diagnostics)
    (fs : List (Fragment (Tail κ))) :
    let x := surveyFragments index offset setters d fs
    let y := surveyFragments (index + n) offset (setters + m) d' fs
    y.measured = x.measured.map (·.later n) ∧ y.seeds = x.seeds.map (·.later n m) ∧ y.setters = x.setters := by
  induction fs generalizing index offset setters d d' with
  | nil => exact ⟨rfl, rfl, rfl⟩
  | cons f fs ih =>
    obtain ⟨⟨⟨g, requests⟩, r⟩, hx⟩ : ∃ x, ({ f with index } : Fragment (Tail κ)).measureAt offset = x := ⟨_, rfl⟩
    have hy : ({ f with index := index + n } : Fragment (Tail κ)).measureAt offset = ⟨(g.later n, requests), r⟩ := by
      rw [show ({ f with index := index + n } : Fragment (Tail κ)) =
        ({ f with index } : Fragment (Tail κ)).later n from rfl, Fragment.measureAt_later, hx]
      rfl
    obtain ⟨hm, hs, hr⟩ := ih (index + 1) (if r.isOk then g.nextOffset else offset)
      (setters + (r.isOk && g.setsOffset).toNat) (d.reportFailure r) (d'.reportFailure r)
    rw [Nat.add_right_comm index 1 n, Nat.add_right_comm setters _ m] at hm hs hr
    rw [surveyFragments_of_measureAt hx, surveyFragments_of_measureAt hy]
    refine ⟨congrArg (g.later n :: ·) hm, ?_, ?_⟩
    · dsimp only
      rw [List.map_append, List.map_map]
      exact congrArg _ hs
    · exact congrArg (fun rs => if r.isOk && g.setsOffset then g.ref :: rs else rs) hr

end Relaxation

/-! ## The index -/

theorem append_inj_of_split {α : Type} {q : α → Bool} {as bs cs ds : List α} (h : as ++ bs = cs ++ ds)
    (ha : ∀ x ∈ as, q x = true) (hb : ∀ x ∈ bs, q x = false) (hc : ∀ x ∈ cs, q x = true) (hd : ∀ x ∈ ds, q x = false) :
    as = cs ∧ bs = ds := by
  have hleft {xs ys : List α} (hx : ∀ x ∈ xs, q x = true) (hy : ∀ y ∈ ys, q y = false) : (xs ++ ys).filter q = xs := by
    rw [List.filter_append, List.filter_eq_self.2 hx, List.filter_eq_nil_iff.2 (by simpa using hy), List.append_nil]
  have heq : as = cs := by rw [← hleft ha hb, h, hleft hc hd]
  subst heq
  exact ⟨rfl, List.append_cancel_left h⟩

theorem filter_mergeSort {α : Type} {le : α → α → Bool} (trans : ∀ a b c : α, le a b → le b c → le a c)
    (total : ∀ a b : α, le a b || le b a) (p : α → Bool) (l : List α) :
    (l.mergeSort le).filter p = (l.filter p).mergeSort le := by
  induction l with
  | nil => simp
  | cons a l ih =>
    obtain ⟨before, after, hal, hl, hbefore⟩ := List.mergeSort_cons trans total a l
    have hsorted := List.pairwise_mergeSort trans total (a :: l)
    rw [hal, List.pairwise_append, List.pairwise_cons] at hsorted
    rw [hl, List.filter_append] at ih
    rw [hal, List.filter_append]
    cases hp : p a with
    | false => rw [List.filter_cons_of_neg (by simp [hp]), List.filter_cons_of_neg (by simp [hp]), ih]
    | true =>
      rw [List.filter_cons_of_pos hp, List.filter_cons_of_pos hp]
      obtain ⟨before', after', hal', hl', hbefore'⟩ := List.mergeSort_cons trans total a (l.filter p)
      have hsorted' := List.pairwise_mergeSort trans total (a :: l.filter p)
      rw [hal', List.pairwise_append, List.pairwise_cons] at hsorted'
      rw [hl'] at ih
      -- Both lists are split where the elements begin that `a` comes before.
      obtain ⟨h₁, h₂⟩ := append_inj_of_split (q := fun b => !le a b) ih
        (fun b hb => hbefore b (List.mem_filter.1 hb).1)
        (fun b hb => by simp [hsorted.2.1.1 b (List.mem_filter.1 hb).1]) hbefore'
        (fun b hb => by simp [hsorted'.2.1.1 b hb])
      rw [hal', h₁, h₂]

/-- An interval with `n` more fragments and `p` more spans before it. -/
def Interval.later (n p : Nat) (i : Interval (Nat × Nat)) : Interval (Nat × Nat) :=
  ⟨i.low + n, i.high + n, (p + i.data.1, i.data.2)⟩

namespace Relaxation

/-- The intervals of the terms of span number `i`, the first of them number `j`. -/
def intervalsOf (i j : Nat) (terms : List Term) : List (Interval (Nat × Nat)) :=
  ((terms.zipIdx j).filter fun (t, _) => t.originIndex ≠ t.targetIndex).map fun (t, j) => ⟨t.low, t.high - 1, (i, j)⟩

theorem intervalsOf_later (n p i j : Nat) (terms : List Term) :
    intervalsOf (p + i) j (terms.map (·.later n)) = (intervalsOf i j terms).map (·.later n p) := by
  induction terms generalizing j with
  | nil => rfl
  | cons t ts ih =>
    unfold intervalsOf at ih ⊢
    rw [List.map_cons, List.zipIdx_cons, List.zipIdx_cons, List.filter_cons, List.filter_cons]
    dsimp only
    have hne : (t.later n).originIndex ≠ (t.later n).targetIndex ↔ t.originIndex ≠ t.targetIndex := by
      simp [Term.later]
    by_cases h : t.originIndex ≠ t.targetIndex
    · have hhigh : (t.later n).high - 1 = t.high - 1 + n := by
        rw [Term.high_later]
        have : 0 < t.high := by
          unfold Term.high
          omega
        omega
      rw [if_pos (decide_eq_true (hne.2 h)), if_pos (decide_eq_true h), List.map_cons, List.map_cons, List.map_cons, ih,
        Term.low_later, hhigh]
      rfl
    · rw [if_neg (by simpa using fun h' => h (hne.1 h')), if_neg (by simpa using h), ih]

/-- The intervals of the terms of spans that are numbered from `p` on. -/
def intervalsFrom (p : Nat) (spans : List Span) : List (Interval (Nat × Nat)) :=
  (spans.zipIdx p).flatMap fun (span, i) => intervalsOf i 0 span.terms

theorem intervalsFrom_append (p : Nat) (as bs : List Span) :
    intervalsFrom p (as ++ bs) = intervalsFrom p as ++ intervalsFrom (p + as.length) bs := by
  rw [intervalsFrom, List.zipIdx_append, List.flatMap_append]
  rfl

theorem number_of_mem_intervalsFrom {p : Nat} {spans : List Span} {i : Interval (Nat × Nat)}
    (h : i ∈ intervalsFrom p spans) : p ≤ i.data.1 ∧ i.data.1 < p + spans.length := by
  simp only [intervalsFrom, intervalsOf, List.mem_flatMap, List.mem_map, Prod.exists] at h
  obtain ⟨span, n, hn, t, j, -, rfl⟩ := h
  obtain ⟨hle, hlt, -⟩ := List.mem_zipIdx hn
  exact ⟨hle, hlt⟩

theorem intervalsFrom_later (n m p q : Nat) (spans : List Span) :
    intervalsFrom (p + q) (spans.map (·.later n m)) = (intervalsFrom q spans).map (·.later n p) := by
  induction spans generalizing q with
  | nil => rfl
  | cons span spans ih =>
    rw [List.map_cons, intervalsFrom, List.zipIdx_cons, List.flatMap_cons, intervalsFrom, List.zipIdx_cons,
      List.flatMap_cons, List.map_append]
    exact congrArg₂ (· ++ ·) (intervalsOf_later n p q 0 span.terms) (ih (q + 1))

theorem termIntervals_eq (spans : List Span) : termIntervals spans = intervalsFrom 0 spans := rfl

theorem filter_termIntervals (n m : Nat) (before spans after : List Span) :
    (termIntervals (before ++ (spans.map (·.later n m) ++ after))).filter
        (fun i => before.length ≤ i.data.1 && i.data.1 < before.length + spans.length) =
      (termIntervals spans).map (·.later n before.length) := by
  rw [termIntervals_eq, intervalsFrom_append, intervalsFrom_append, List.filter_append, List.filter_append,
    Nat.zero_add, List.length_map]
  have hbefore : (intervalsFrom 0 before).filter
      (fun i => before.length ≤ i.data.1 && i.data.1 < before.length + spans.length) = [] := by
    refine List.filter_eq_nil_iff.2 fun i hi => ?_
    have := number_of_mem_intervalsFrom hi
    simp only [Bool.and_eq_true, decide_eq_true_eq]
    omega
  have hafter : (intervalsFrom (before.length + spans.length) after).filter
      (fun i => before.length ≤ i.data.1 && i.data.1 < before.length + spans.length) = [] := by
    refine List.filter_eq_nil_iff.2 fun i hi => ?_
    have := number_of_mem_intervalsFrom hi
    simp only [Bool.and_eq_true, decide_eq_true_eq]
    omega
  have hown : (intervalsFrom before.length (spans.map (·.later n m))).filter
      (fun i => before.length ≤ i.data.1 && i.data.1 < before.length + spans.length) =
        intervalsFrom before.length (spans.map (·.later n m)) := by
    refine List.filter_eq_self.2 fun i hi => ?_
    have := number_of_mem_intervalsFrom hi
    rw [List.length_map] at this
    simp only [Bool.and_eq_true, decide_eq_true_eq]
    omega
  rw [hbefore, hafter, hown, List.nil_append, List.append_nil]
  exact intervalsFrom_later n m before.length 0 spans

/-- The index of the terms of spans. -/
def indexOf (spans : List Span) : IntervalIndex (Nat × Nat) :=
  ((termIntervals spans).foldl IntervalIndex.insert .empty).build

theorem query_indexOf (spans : List Span) (low high : Nat) :
    (indexOf spans).query low high =
      (((termIntervals spans).mergeSort fun a b => a.low ≤ b.low).filter (·.overlaps low high)).map (·.data) := by
  rw [indexOf, IntervalIndex.query_build, IntervalIndex.entries_foldl_insert]
  rfl

/-- The spans of one section are found in the same order wherever they stand. -/
theorem filter_query_indexOf (n m i : Nat) (before spans after : List Span) :
    ((indexOf (before ++ (spans.map (·.later n m) ++ after))).query (i + n) (i + n)).filter
        (fun hit => before.length ≤ hit.1 && hit.1 < before.length + spans.length) =
      ((indexOf spans).query i i).map fun hit => (before.length + hit.1, hit.2) := by
  have htrans : ∀ a b c : Interval (Nat × Nat), decide (a.low ≤ b.low) = true → decide (b.low ≤ c.low) = true →
      decide (a.low ≤ c.low) = true := by
    intro a b c hab hbc
    simp only [decide_eq_true_eq] at hab hbc ⊢
    omega
  have htotal : ∀ a b : Interval (Nat × Nat), (decide (a.low ≤ b.low) || decide (b.low ≤ a.low)) = true := by
    intro a b
    simp only [Bool.or_eq_true, decide_eq_true_eq]
    omega
  have hown := filter_mergeSort htrans htotal
    (fun i : Interval (Nat × Nat) => before.length ≤ i.data.1 && i.data.1 < before.length + spans.length)
    (termIntervals (before ++ (spans.map (·.later n m) ++ after)))
  rw [filter_termIntervals, ← List.map_mergeSort (r := fun a b => decide (a.low ≤ b.low))] at hown
  · rw [query_indexOf, query_indexOf, List.filter_map, List.filter_comm]
    simp only [Function.comp_def]
    rw [hown, List.filter_map, List.map_map, List.map_map]
    congr 1
    refine List.filter_congr fun x _ => ?_
    simp [Interval.later, Interval.overlaps]
  · intro a _ b _
    simp [Interval.later]

end Relaxation

end SpanLayout
