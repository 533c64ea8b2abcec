import SpanLayout.Proofs.Relaxation.Alone
import SpanLayout.Proofs.Relaxation.History
import SpanLayout.Proofs.Relaxation.Rounds

/-!
# Draining the queues in one section

A run over several sections contains, for each section whose spans mention no other, a run over that section alone: what
is taken from the queues for other sections changes nothing in it, and what is taken for the section itself does there
what it would do alone.
-/

namespace SpanLayout

/-- Where a section stands among the others: how many fragments, setters and spans come before its own, and how many
spans it has. -/
structure Place where
  sec : Nat
  fragments : Nat
  setters : Nat
  spans : Nat
  count : Nat

/-- Whether span number `n` is one of the section. -/
def Place.owns (w : Place) (n : Nat) : Bool := decide (w.spans ≤ n) && decide (n < w.spans + w.count)

theorem Place.owns_add {w : Place} {n : Nat} : w.owns (w.spans + n) = true ↔ n < w.count := by
  simp [owns]

theorem Place.exists_of_owns {w : Place} {n : Nat} (h : w.owns n = true) : ∃ i < w.count, n = w.spans + i := by
  simp only [owns, Bool.and_eq_true, decide_eq_true_eq] at h
  exact ⟨n - w.spans, by omega, by omega⟩

/-- What stays of a relaxation has, at some place, what stays of a relaxation of one section. -/
structure Place.Fits (w : Place) (p q : Chart) : Prop where
  count : q.spans.length = w.count
  elsewhere : ∀ n span, p.spans[n]? = some span → w.owns n = false → span.seed.ref.sectionIndex ≠ w.sec
  own : ∀ span ∈ q.spans, span.seed.ref.sectionIndex = w.sec
  setters : ∀ m r, p.setters[m]? = some r → r.sectionIndex = w.sec → w.setters ≤ m ∧ m < w.setters + q.setters.length
  ownSetters : ∀ r ∈ q.setters, r.sectionIndex = w.sec
  numbers : ∀ span ∈ p.spans, ∀ i, p.number? span.seed.ref = some i → i = span.seed.index
  /-- The index finds the same spans of the section, in the same order. -/
  hits : ∀ i, (p.index.query (i + w.fragments) (i + w.fragments)).filter (fun hit => w.owns hit.1) =
    (q.index.query i i).map fun hit => (w.spans + hit.1, hit.2)
  away : ∀ r i, p.number? r = some i → r.sectionIndex ≠ w.sec → ∀ hit ∈ p.index.query i i, w.owns hit.1 = false

namespace Relaxation

open Relation

variable {κ : Type}

theorem shiftTerm_of_none (d : Int) {s : Relaxation κ} {n : Nat} (j : Nat) (h : s.spans[n]? = none) :
    shiftTerm d s (n, j) = s := by
  unfold shiftTerm
  rw [h]

theorem shiftTerm_of_some (d : Int) {s : Relaxation κ} {n : Nat} (j : Nat) {span : Span} (h : s.spans[n]? = some span) :
    shiftTerm d s (n, j) =
      match span.status with
      | .inactive => s
      | .queued => s.setSpan n (span.shifted j d)
      | .active =>
        if (span.shifted j d).recalc.exceeded then (s.countRecalcs 1).enqueue n (span.shifted j d).recalc
        else (s.countRecalcs 1).setSpan n (span.shifted j d).recalc := by
  unfold shiftTerm
  rw [h]
  rfl

variable [Directive κ]

/-- A relaxation has, at some place, the state of a relaxation of one section. -/
structure Mirrors (w : Place) (p q : Chart) (s u : Relaxation κ) : Prop where
  chart : s.plan.chart = p
  alone : u.plan.chart = q
  fragments : s.sections.fragmentsOf w.sec = (u.sections.fragmentsOf w.sec).map (·.later w.fragments)
  spans : ∀ n < w.count, s.spans[w.spans + n]? = u.spans[n]?.map (·.later w.fragments w.setters)
  setters : ∀ m < u.setters.length, s.setters[w.setters + m]? = u.setters[m]?
  counts : s.counts.filter w.owns = u.counts.map (w.spans + ·)
  others : s.others.filter w.owns = u.others.map (w.spans + ·)
  expansions : u.stats.expansions ≤ s.stats.expansions
  budget : s.config.maxExpansions ≤ u.config.maxExpansions

section

variable {w : Place} {p q : Chart} {s u : Relaxation κ}

namespace Mirrors

/-! ## Spans -/

theorem setSpan (h : Mirrors w p q s u) {n : Nat} (hn : w.owns n = false) {span span' : Span}
    (hs : s.spans[n]? = some span) (ho : span'.outline = span.outline) : Mirrors w p q (s.setSpan n span') u := by
  refine ⟨(congrArg Plan.chart (plan_setSpan hs ho)).trans h.chart, h.alone, h.fragments, ?_, h.setters, h.counts,
    h.others, h.expansions, h.budget⟩
  intro i hi
  have hne : n ≠ w.spans + i := by
    rintro rfl
    rw [Place.owns_add.2 hi] at hn
    cases hn
  rw [← h.spans i hi]
  exact List.getElem?_set_ne hne

theorem setSpan_own (h : Mirrors w p q s u) {n : Nat} (hn : n < w.count) {span span' : Span}
    (hs : u.spans[n]? = some span) (ho : span'.outline = span.outline) :
    Mirrors w p q (s.setSpan (w.spans + n) (span'.later w.fragments w.setters)) (u.setSpan n span') := by
  have hs' : s.spans[w.spans + n]? = some (span.later w.fragments w.setters) := by
    rw [h.spans n hn, hs]
    rfl
  have ho' : (span'.later w.fragments w.setters).outline = (span.later w.fragments w.setters).outline := by
    rw [Span.outline_later, Span.outline_later, ho]
  refine ⟨(congrArg Plan.chart (plan_setSpan hs' ho')).trans h.chart,
    (congrArg Plan.chart (plan_setSpan hs ho)).trans h.alone, h.fragments, ?_, h.setters, h.counts,
    h.others, h.expansions, h.budget⟩
  intro i hi
  obtain ⟨hlt, -⟩ := List.getElem?_eq_some_iff.1 hs
  obtain ⟨hlt', -⟩ := List.getElem?_eq_some_iff.1 hs'
  by_cases hni : n = i
  · subst hni
    simp only [Relaxation.setSpan]
    rw [List.getElem?_set_self hlt, List.getElem?_set_self hlt']
    rfl
  · simp only [Relaxation.setSpan]
    rw [List.getElem?_set_ne hni, List.getElem?_set_ne (by omega)]
    exact h.spans i hi

theorem enqueue (h : Mirrors w p q s u) {n : Nat} (hn : w.owns n = false) {span span' : Span}
    (hs : s.spans[n]? = some span) (ho : span'.outline = span.outline) : Mirrors w p q (s.enqueue n span') u := by
  have h' := h.setSpan hn hs (show ({ span' with status := .queued } : Span).outline = span.outline from ho)
  unfold Relaxation.enqueue
  dsimp only
  split
  · refine ⟨h'.chart, h'.alone, h'.fragments, h'.spans, h'.setters, ?_, h'.others, h'.expansions, h'.budget⟩
    rw [List.filter_append, List.filter_singleton, hn, ← h.counts]
    exact List.append_nil _
  · refine ⟨h'.chart, h'.alone, h'.fragments, h'.spans, h'.setters, h'.counts, ?_, h'.expansions, h'.budget⟩
    rw [List.filter_append, List.filter_singleton, hn, ← h.others]
    exact List.append_nil _

theorem enqueue_own (h : Mirrors w p q s u) {n : Nat} (hn : n < w.count) {span span' : Span}
    (hs : u.spans[n]? = some span) (ho : span'.outline = span.outline) :
    Mirrors w p q (s.enqueue (w.spans + n) (span'.later w.fragments w.setters)) (u.enqueue n span') := by
  have h' := h.setSpan_own hn hs (show ({ span' with status := .queued } : Span).outline = span.outline from ho)
  unfold Relaxation.enqueue
  dsimp only
  rw [Span.isCount_later]
  split
  · refine ⟨h'.chart, h'.alone, h'.fragments, h'.spans, h'.setters, ?_, h'.others, h'.expansions, h'.budget⟩
    rw [List.filter_append, List.filter_singleton, Place.owns_add.2 hn, List.map_append]
    exact congrArg (· ++ _) h.counts
  · refine ⟨h'.chart, h'.alone, h'.fragments, h'.spans, h'.setters, h'.counts, ?_, h'.expansions, h'.budget⟩
    rw [List.filter_append, List.filter_singleton, Place.owns_add.2 hn, List.map_append]
    exact congrArg (· ++ _) h.others

theorem countRecalcs (h : Mirrors w p q s u) (i j : Nat) : Mirrors w p q (s.countRecalcs i) (u.countRecalcs j) :=
  ⟨h.chart, h.alone, h.fragments, h.spans, h.setters, h.counts, h.others, h.expansions, h.budget⟩

/-! ## Growth -/

theorem shiftTerm (h : Mirrors w p q s u) (d : Int) {hit : Nat × Nat} (hn : w.owns hit.1 = false) :
    Mirrors w p q (shiftTerm d s hit) u := by
  obtain ⟨n, j⟩ := hit
  rcases shiftTerm_cases d s n j with ⟨hx, -⟩ | ⟨span, hs, ⟨-, hx⟩ | ⟨-, -, hx⟩ | ⟨-, -, hx⟩⟩
  · rwa [hx]
  · rw [hx]
    exact h.setSpan hn hs (span.outline_shifted j d)
  · rw [hx]
    exact (h.countRecalcs 1 0).enqueue hn hs (span.outline_shifted j d)
  · rw [hx]
    exact (h.countRecalcs 1 0).setSpan hn hs (span.outline_shifted j d)

theorem shiftTerm_own (h : Mirrors w p q s u) (d : Int) {n : Nat} (hn : n < w.count) (j : Nat) :
    Mirrors w p q (Relaxation.shiftTerm d s (w.spans + n, j)) (Relaxation.shiftTerm d u (n, j)) := by
  cases hs : u.spans[n]? with
  | none =>
    have hs' : s.spans[w.spans + n]? = none := by
      rw [h.spans n hn, hs]
      rfl
    rw [shiftTerm_of_none d j hs, shiftTerm_of_none d j hs']
    exact h
  | some span =>
    have hs' : s.spans[w.spans + n]? = some (span.later w.fragments w.setters) := by
      rw [h.spans n hn, hs]
      rfl
    rw [shiftTerm_of_some d j hs, shiftTerm_of_some d j hs', Span.shifted_later, Span.recalc_later, Span.exceeded_later,
      show (span.later w.fragments w.setters).status = span.status from rfl]
    cases span.status with
    | inactive => exact h
    | queued => exact h.setSpan_own hn hs (span.outline_shifted j d)
    | active =>
      dsimp only
      split
      · exact (h.countRecalcs 1 1).enqueue_own hn hs (span.outline_shifted j d)
      · exact (h.countRecalcs 1 1).setSpan_own hn hs (span.outline_shifted j d)

theorem shift (h : Mirrors w p q s u) {i : Nat} (d : Int) (hi : ∀ hit ∈ s.index.query i i, w.owns hit.1 = false) :
    Mirrors w p q (s.shift i d) u := by
  unfold Relaxation.shift
  generalize s.index.query i i = hits at hi
  induction hits generalizing s with
  | nil => exact h
  | cons hit hits ih =>
    exact ih (h.shiftTerm d (hi hit List.mem_cons_self)) fun hit hmem => hi hit (List.mem_cons_of_mem _ hmem)

theorem shift_own (h : Mirrors w p q s u) {i j : Nat} (d : Int)
    (hi : (s.index.query j j).filter (fun hit => w.owns hit.1) =
      (u.index.query i i).map fun hit => (w.spans + hit.1, hit.2)) : Mirrors w p q (s.shift j d) (u.shift i d) := by
  unfold Relaxation.shift
  generalize s.index.query j j = hits at hi
  generalize u.index.query i i = hits' at hi
  induction hits generalizing s u hits' with
  | nil =>
    cases hits' with
    | nil => exact h
    | cons hit hits' => cases hi
  | cons hit hits ih =>
    cases hn : w.owns hit.1 with
    | false =>
      rw [List.filter_cons_of_neg (by simp [hn])] at hi
      exact ih (h.shiftTerm d hn) hits' hi
    | true =>
      rw [List.filter_cons, if_pos hn] at hi
      cases hits' with
      | nil => cases hi
      | cons hit' hits' =>
        rw [List.map_cons, List.cons.injEq] at hi
        rw [hi.1] at hn
        rw [hi.1]
        exact ih (h.shiftTerm_own d (Place.owns_add.1 hn) hit'.2) hits' hi.2

/-! ## Fragments and setters -/

theorem setFragment (h : Mirrors w p q s u) {r : FragmentRef} (hr : r.sectionIndex ≠ w.sec) {f g : Fragment (Tail κ)}
    (hf : s.sections.fragment? r = some f) (hg : g.index = f.index) : Mirrors w p q (s.setFragment r g) u := by
  refine ⟨(chart_setFragment hf hg).trans h.chart, h.alone, ?_, h.spans, h.setters, h.counts, h.others, h.expansions,
    h.budget⟩
  rw [Relaxation.setFragment, Sections.fragmentsOf_setFragment, if_neg hr]
  exact h.fragments

theorem setFragment_own (h : Mirrors w p q s u) {r : FragmentRef} (hr : r.sectionIndex = w.sec)
    {f g : Fragment (Tail κ)} (hf : u.sections.fragment? r = some f) (hg : g.index = f.index) :
    Mirrors w p q (s.setFragment r (g.later w.fragments)) (u.setFragment r g) := by
  have hf' : s.sections.fragment? r = some (f.later w.fragments) := by
    rw [Sections.fragment?_later h.fragments hr, hf]
    rfl
  have hg' : (g.later w.fragments).index = (f.later w.fragments).index := congrArg (· + w.fragments) hg
  exact ⟨(chart_setFragment hf' hg').trans h.chart, (chart_setFragment hf hg).trans h.alone,
    Sections.fragmentsOf_setFragment_later h.fragments hr g, h.spans, h.setters, h.counts, h.others, h.expansions,
    h.budget⟩

theorem number? (h : Mirrors w p q s u) {r : FragmentRef} {f : Fragment (Tail κ)}
    (hf : s.sections.fragment? r = some f) : p.number? r = some f.index := by
  rw [← h.chart, number?_chart, hf]
  rfl

theorem shift_elsewhere (hw : w.Fits p q) (h : Mirrors w p q s u) {r : FragmentRef} (hr : r.sectionIndex ≠ w.sec)
    {f : Fragment (Tail κ)} (hf : s.sections.fragment? r = some f) (d : Int) : Mirrors w p q (s.shift f.index d) u := by
  refine h.shift d ?_
  rw [show s.index = p.index from congrArg Chart.index h.chart]
  exact hw.away r f.index (h.number? hf) hr

theorem shift_here (hw : w.Fits p q) (h : Mirrors w p q s u) (i : Nat) (d : Int) :
    Mirrors w p q (s.shift (i + w.fragments) d) (u.shift i d) := by
  refine h.shift_own d ?_
  rw [show s.index = p.index from congrArg Chart.index h.chart, show u.index =
    q.index from congrArg Chart.index h.alone]
  exact hw.hits i

theorem moveSetter (hw : w.Fits p q) (h : Mirrors w p q s u) {k : Nat} {x : Setter} (hx : s.setters[k]? = some x)
    (hk : ¬ (w.setters ≤ k ∧ k < w.setters + u.setters.length)) (hsec : x.ref.sectionIndex ≠ w.sec) (d : Int)
    {f : Fragment (Tail κ)} (hf : s.sections.fragment? x.ref = some f) : Mirrors w p q (s.moveSetter k x d f) u := by
  have hindex := f.index_expand 1 (signed x.tailOffset) (signed (x.tailOffset + d).toNat)
  have h' := h.setFragment hsec hf hindex
  have hset : Mirrors w p q { (s.setFragment x.ref (f.expand 1 (signed x.tailOffset)
        (signed (x.tailOffset + d).toNat)).state).reportFailure (f.expand 1 (signed x.tailOffset)
        (signed (x.tailOffset + d).toNat)).result with
      setters := s.setters.set k { x with tailOffset := (x.tailOffset + d).toNat } } u := by
    refine ⟨(congrArg Plan.chart (plan_setSetter (s := s.setFragment x.ref _) hx _)).trans h'.chart, h'.alone,
      h'.fragments, h'.spans, ?_, h'.counts, h'.others, h'.expansions, h'.budget⟩
    intro m hm
    rw [← h.setters m hm]
    exact List.getElem?_set_ne (by omega)
  unfold Relaxation.moveSetter
  dsimp only
  split
  · exact hset
  · rw [← hindex]
    exact hset.shift_elsewhere hw hsec (Sections.fragment?_setFragment_self hf _) _

theorem moveSetter_own [LocalDirective κ] (hw : w.Fits p q) (h : Mirrors w p q s u) {k : Nat} {x : Setter}
    (hx : u.setters[k]? = some x)
    (hsec : x.ref.sectionIndex = w.sec) (d : Int) {f : Fragment (Tail κ)} (hf : u.sections.fragment? x.ref = some f) :
    Mirrors w p q (s.moveSetter (w.setters + k) x d (f.later w.fragments)) (u.moveSetter k x d f) := by
  obtain ⟨hk, -⟩ := List.getElem?_eq_some_iff.1 hx
  have hx' : s.setters[w.setters + k]? = some x := (h.setters k hk).trans hx
  obtain ⟨hk', -⟩ := List.getElem?_eq_some_iff.1 hx'
  unfold Relaxation.moveSetter
  dsimp only
  rw [Fragment.expand_later]
  have hindex := f.index_expand 1 (signed x.tailOffset) (signed (x.tailOffset + d).toNat)
  generalize f.expand 1 (signed x.tailOffset) (signed (x.tailOffset + d).toNat) = y at hindex
  have h' := h.setFragment_own hsec hf hindex
  have hset : Mirrors w p q
      { (s.setFragment x.ref (y.state.later w.fragments)).reportFailure y.result with
        setters := s.setters.set (w.setters + k) { x with tailOffset := (x.tailOffset + d).toNat } }
      { (u.setFragment x.ref y.state).reportFailure y.result with
        setters := u.setters.set k { x with tailOffset := (x.tailOffset + d).toNat } } := by
    refine ⟨(congrArg Plan.chart (plan_setSetter (s := s.setFragment x.ref _) hx' _)).trans h'.chart,
      (congrArg Plan.chart (plan_setSetter (s := u.setFragment x.ref _) hx _)).trans h'.alone, h'.fragments, h'.spans,
      ?_, h'.counts, h'.others, h'.expansions, h'.budget⟩
    intro m hm
    rw [List.length_set] at hm
    by_cases hkm : k = m
    · subst hkm
      rw [List.getElem?_set_self hk, List.getElem?_set_self hk']
    · rw [List.getElem?_set_ne hkm, List.getElem?_set_ne (by omega)]
      exact h.setters m hm
  rw [show (y.mapState (Fragment.later w.fragments)).state.tailLen = y.state.tailLen from rfl,
    show (f.later w.fragments).tailLen = f.tailLen from rfl]
  split
  · exact hset
  · exact hset.shift_here hw f.index _

theorem sectionIndex_setter (hw : w.Fits p q) (h : Mirrors w p q s u) {k : Nat} {x : Setter}
    (hx : s.setters[k]? = some x)
    (hk : w.setters ≤ k ∧ k < w.setters + u.setters.length) : x.ref.sectionIndex = w.sec := by
  have hu := h.setters (k - w.setters) (by omega)
  rw [Nat.add_sub_cancel' hk.1, hx] at hu
  refine hw.ownSetters _ ?_
  rw [← h.alone]
  exact List.mem_map_of_mem (List.mem_of_getElem? hu.symm)

theorem ripple (hw : w.Fits p q) {sec : Nat} (hsec : sec ≠ w.sec) {k : Nat} {setters : List Setter} (d : Int)
    (h : Mirrors w p q s u) (hset : setters = s.setters.drop k) :
    Mirrors w p q (Relaxation.ripple sec k setters d s) u := by
  induction setters generalizing k d s with
  | nil => exact h
  | cons x setters ih =>
    have hx : s.setters[k]? = some x := by
      have := congrArg (·[0]?) hset
      simpa using this.symm
    rw [ripple_cons]
    split
    · exact h
    · rename_i hnot
      have hxs : x.ref.sectionIndex ≠ w.sec := by
        rw [not_or, not_not] at hnot
        rw [hnot.2]
        exact hsec
      split
      · exact h
      · rename_i f hf
        refine ih _ (h.moveSetter hw hx (fun hk => hxs (h.sectionIndex_setter hw hx hk)) hxs d hf) ?_
        rw [(moveSetter_requeued k x d f s).setters, List.drop_set_of_lt (Nat.lt_succ_self k)]
        have := congrArg List.tail hset
        rwa [List.tail_cons, List.tail_drop] at this

theorem ripple_own [LocalDirective κ] (hw : w.Fits p q) {k : Nat} {setters others : List Setter} (d : Int)
    (h : Mirrors w p q s u) (hset : setters = u.setters.drop k) (hothers : ∀ x ∈ others, x.ref.sectionIndex ≠ w.sec) :
    Mirrors w p q (Relaxation.ripple w.sec (w.setters + k) (setters ++ others) d s)
      (Relaxation.ripple w.sec k setters d u) := by
  induction setters generalizing k d s u with
  | nil =>
    rw [Relaxation.ripple, List.nil_append]
    cases others with
    | nil => exact h
    | cons x others =>
      rw [ripple_cons, if_pos (.inr (hothers x List.mem_cons_self))]
      exact h
  | cons x setters ih =>
    have hx : u.setters[k]? = some x := by
      have := congrArg (·[0]?) hset
      simpa using this.symm
    have hxs : x.ref.sectionIndex = w.sec := by
      refine hw.ownSetters _ ?_
      rw [← h.alone]
      exact List.mem_map_of_mem (List.mem_of_getElem? hx)
    rw [List.cons_append, ripple_cons, ripple_cons]
    split
    · exact h
    · rw [Sections.fragment?_later h.fragments hxs]
      cases hf : u.sections.fragment? x.ref with
      | none => exact h
      | some f =>
        dsimp only [Option.map_some]
        rw [Fragment.expand_later, Nat.add_assoc]
        refine ih _ (h.moveSetter_own hw hx hxs d hf) ?_
        rw [(moveSetter_requeued k x d f u).setters, List.drop_set_of_lt (Nat.lt_succ_self k)]
        have := congrArg List.tail hset
        rwa [List.tail_cons, List.tail_drop] at this

theorem drop_setters (hw : w.Fits p q) (h : Mirrors w p q s u) (k : Nat) :
    ∃ others, s.setters.drop (w.setters + k) = u.setters.drop k ++ others ∧
    ∀ x ∈ others, x.ref.sectionIndex ≠ w.sec := by
  have hall : s.setters.drop w.setters = u.setters ++ s.setters.drop (w.setters + u.setters.length) := by
    refine List.ext_getElem? fun i => ?_
    rw [List.getElem?_drop]
    by_cases hi : i < u.setters.length
    · rw [List.getElem?_append_left hi, h.setters i hi]
    · rw [List.getElem?_append_right (by omega), List.getElem?_drop, Nat.add_assoc,
        Nat.add_sub_cancel' (show u.setters.length ≤ i by omega)]
  refine ⟨_, by rw [← List.drop_drop, hall, List.drop_append], ?_⟩
  intro x hx hsec
  rw [List.drop_drop] at hx
  obtain ⟨i, hi⟩ := List.mem_iff_getElem?.1 hx
  rw [List.getElem?_drop] at hi
  have hp : p.setters[w.setters + u.setters.length + (k - u.setters.length) + i]? = some x.ref := by
    rw [← h.chart]
    simp [Plan.chart, Relaxation.plan, hi]
  have := (hw.setters _ _ hp hsec).2
  rw [← h.alone] at this
  simp only [Plan.chart, Relaxation.plan, List.length_map] at this
  omega

theorem follow (hw : w.Fits p q) (h : Mirrors w p q s u) {seed : Seed} (hsec : seed.ref.sectionIndex ≠ w.sec)
    {f g : Fragment (Tail κ)} (hf : s.sections.fragment? seed.ref = some f) (hi : f.index = seed.index)
    (hg : g.index = f.index) : Mirrors w p q (s.follow seed f g) u := by
  have h' := h.setFragment hsec hf hg
  by_cases hz : signed g.totalLen - signed f.totalLen = 0
  · rw [follow_of_zero hz]
    exact h'
  · rw [follow_of_ne_zero hz, ← hi, ← hg]
    refine (h'.shift_elsewhere hw hsec (Sections.fragment?_setFragment_self hf g) _).ripple hw hsec _ ?_
    rw [(shift_requeued _ _ _).setters]
    rfl

theorem follow_own [LocalDirective κ] (hw : w.Fits p q) (h : Mirrors w p q s u) {seed : Seed}
    (hsec : seed.ref.sectionIndex = w.sec) {f g : Fragment (Tail κ)} (hf : u.sections.fragment? seed.ref = some f)
    (hg : g.index = f.index) :
    Mirrors w p q (s.follow (seed.later w.fragments w.setters) (f.later w.fragments) (g.later w.fragments))
      (u.follow seed f g) := by
  have h' := h.setFragment_own hsec hf hg
  by_cases hz : signed g.totalLen - signed f.totalLen = 0
  · rw [follow_of_zero hz, follow_of_zero (f := f.later w.fragments) (g := g.later w.fragments) hz]
    exact h'
  · obtain ⟨others, hdrop, hothers⟩ := h.drop_setters hw seed.settersBefore
    have hshift := h'.shift_here hw seed.index (signed g.totalLen - signed f.totalLen)
    rw [follow_of_ne_zero hz, follow_of_ne_zero (f := f.later w.fragments) (g := g.later w.fragments) hz,
      show (seed.later w.fragments w.setters).settersBefore =
          w.setters + seed.settersBefore from Nat.add_comm _ _, hdrop,
      hsec, show (seed.later w.fragments w.setters).ref.sectionIndex = w.sec from hsec]
    refine hshift.ripple_own hw _ ?_ hothers
    rw [(shift_requeued _ _ _).setters]
    rfl

/-! ## Steps -/

theorem renewed (h : Mirrors w p q s u) {n : Nat} (hn : w.owns n = false) {span span' : Span}
    (hs : s.spans[n]? = some span) (ho : span'.outline = span.outline) : Mirrors w p q (s.renewed n span') u := by
  have h' := h.setSpan hn hs ho
  exact ⟨h'.chart, h'.alone, h'.fragments, h'.spans, h'.setters, h'.counts, h'.others, Nat.le_succ_of_le h'.expansions,
    h'.budget⟩

theorem renewed_own (h : Mirrors w p q s u) {n : Nat} (hn : n < w.count) {span span' : Span}
    (hs : u.spans[n]? = some span) (ho : span'.outline = span.outline) :
    Mirrors w p q (s.renewed (w.spans + n) (span'.later w.fragments w.setters)) (u.renewed n span') := by
  have h' := h.setSpan_own hn hs ho
  exact ⟨h'.chart, h'.alone, h'.fragments, h'.spans, h'.setters, h'.counts, h'.others, Nat.succ_le_succ h'.expansions,
    h'.budget⟩

theorem index_eq (hw : w.Fits p q) (h : Mirrors w p q s u) {n : Nat} {span : Span} (hs : s.spans[n]? = some span)
    {f : Fragment (Tail κ)} (hf : s.sections.fragment? span.seed.ref = some f) : f.index = span.seed.index := by
  refine hw.numbers span.outline ?_ f.index (h.number? hf)
  rw [← h.chart]
  exact List.mem_map_of_mem (List.mem_of_getElem? hs)

theorem expandSpan (hw : w.Fits p q) (h : Mirrors w p q s u) {n : Nat} (hn : w.owns n = false) {span span' : Span}
    (hs : s.spans[n]? = some span) (ho : span'.outline = span.outline) :
    Mirrors w p q (((s.setSpan n span').countRecalcs 1).expandSpan n span') u := by
  have hsec : span'.seed.ref.sectionIndex ≠ w.sec := by
    rw [Span.seed_of_outline ho]
    refine hw.elsewhere n span.outline ?_ hn
    rw [← h.chart]
    simp [Plan.chart, Relaxation.plan, hs]
  cases hf : s.sections.fragment? span'.seed.ref with
  | none =>
    rw [expandSpan_of_none hf]
    exact h.renewed hn hs ho
  | some f =>
    have hi : f.index = span'.seed.index := by
      rw [Span.seed_of_outline ho] at hf ⊢
      exact h.index_eq hw hs hf
    rcases expandSpan_effect n hf with ⟨e, -, he⟩ | ⟨x, -, he⟩
    · rw [he]
      have h' := (h.renewed hn hs ((span'.outline_expanded none).trans ho)).setFragment hsec hf
        (f.index_expand span'.id span'.current span'.latest)
      exact ⟨h'.chart, h'.alone, h'.fragments, h'.spans, h'.setters, h'.counts, h'.others, h'.expansions, h'.budget⟩
    · rw [he]
      exact (h.renewed hn hs ((span'.outline_expanded x.window).trans ho)).follow hw hsec hf hi
        (f.index_expand span'.id span'.current span'.latest)

theorem expandSpan_own [LocalDirective κ] (hw : w.Fits p q) (h : Mirrors w p q s u) {n : Nat} (hn : n < w.count)
    {span span' : Span} (hs : u.spans[n]? = some span) (ho : span'.outline = span.outline) :
    Mirrors w p q
      (((s.setSpan (w.spans + n) (span'.later w.fragments w.setters)).countRecalcs 1).expandSpan (w.spans + n)
        (span'.later w.fragments w.setters))
      (((u.setSpan n span').countRecalcs 1).expandSpan n span') := by
  have hsec : span'.seed.ref.sectionIndex = w.sec := by
    rw [Span.seed_of_outline ho]
    refine hw.own span.outline ?_
    rw [← h.alone]
    exact List.mem_map_of_mem (List.mem_of_getElem? hs)
  have hfragment : s.sections.fragment? (span'.later w.fragments w.setters).seed.ref =
      (u.sections.fragment? span'.seed.ref).map (·.later w.fragments) := Sections.fragment?_later h.fragments hsec
  cases hf : u.sections.fragment? span'.seed.ref with
  | none =>
    rw [hf] at hfragment
    rw [expandSpan_of_none hf, expandSpan_of_none hfragment]
    exact h.renewed_own hn hs ho
  | some f =>
    rw [hf, Option.map_some] at hfragment
    have hindex := f.index_expand span'.id span'.current span'.latest
    have heffect := expandSpan_effect (w.spans + n) hfragment
    have hsame : (f.later w.fragments).expand (span'.later w.fragments w.setters).id
        (span'.later w.fragments w.setters).current (span'.later w.fragments w.setters).latest =
        (f.expand span'.id span'.current span'.latest).mapState (Fragment.later w.fragments) :=
      Fragment.expand_later w.fragments f span'.id span'.current span'.latest
    rw [hsame] at heffect
    rcases expandSpan_effect n hf with ⟨e, hr, he⟩ | ⟨x, hr, he⟩ <;> rcases heffect with ⟨e', hr', he'⟩ | ⟨x', hr', he'⟩
    · rw [he, he']
      have h' := (h.renewed_own hn hs ((span'.outline_expanded none).trans ho)).setFragment_own hsec hf hindex
      exact ⟨h'.chart, h'.alone, h'.fragments, h'.spans, h'.setters, h'.counts, h'.others, h'.expansions, h'.budget⟩
    · cases hr.symm.trans hr'
    · cases hr.symm.trans hr'
    · cases hr.symm.trans hr'
      rw [he, he', Span.expanded_later]
      exact (h.renewed_own hn hs ((span'.outline_expanded x.window).trans ho)).follow_own hw hsec hf hindex

theorem pop (h : Mirrors w p q s u) {n : Nat} {s' : Relaxation κ} (hp : s.pop = some (n, s')) :
    (w.owns n = false ∧ Mirrors w p q s' u) ∨
      ∃ i u', i < w.count ∧ n = w.spans + i ∧ u.pop = some (i, u') ∧ Mirrors w p q s' u' := by
  have hcounts := h.counts
  have hothers := h.others
  unfold Relaxation.pop at hp ⊢
  cases hc : s.counts with
  | cons j counts =>
    rw [hc] at hp hcounts
    cases hp
    cases hn : w.owns n with
    | false =>
      rw [List.filter_cons, hn] at hcounts
      exact .inl ⟨rfl, h.chart, h.alone, h.fragments, h.spans, h.setters, hcounts, h.others, h.expansions, h.budget⟩
    | true =>
      obtain ⟨i, hi, rfl⟩ := Place.exists_of_owns hn
      rw [List.filter_cons, if_pos hn] at hcounts
      cases hu : u.counts with
      | nil =>
        rw [hu] at hcounts
        cases hcounts
      | cons i' counts' =>
        rw [hu, List.map_cons, List.cons.injEq] at hcounts
        obtain rfl : i = i' := Nat.add_left_cancel hcounts.1
        exact .inr ⟨i, _, hi, rfl, rfl, h.chart, h.alone, h.fragments, h.spans, h.setters, hcounts.2, h.others,
          h.expansions, h.budget⟩
  | nil =>
    rw [hc] at hp hcounts
    have hu : u.counts = [] := by simpa using hcounts.symm
    cases ho : s.others with
    | nil =>
      rw [ho] at hp
      cases hp
    | cons j others =>
      rw [ho] at hp hothers
      cases hp
      cases hn : w.owns n with
      | false =>
        rw [List.filter_cons, hn] at hothers
        exact .inl ⟨rfl, h.chart, h.alone, h.fragments, h.spans, h.setters, hcounts, hothers, h.expansions, h.budget⟩
      | true =>
        obtain ⟨i, hi, rfl⟩ := Place.exists_of_owns hn
        rw [List.filter_cons, if_pos hn] at hothers
        cases hu' : u.others with
        | nil =>
          rw [hu'] at hothers
          cases hothers
        | cons i' others' =>
          rw [hu', List.map_cons, List.cons.injEq] at hothers
          obtain rfl : i = i' := Nat.add_left_cancel hothers.1
          rw [hu]
          exact .inr ⟨i, _, hi, rfl, rfl, h.chart, h.alone, h.fragments, h.spans, h.setters, rfl, hothers.2,
            h.expansions, h.budget⟩

end Mirrors

/-- A round of a run is a round of the run over one section, or changes nothing there. -/
theorem Mirrors.round [LocalDirective κ] (hw : w.Fits p q) (h : Mirrors w p q s u) {t : Relaxation κ}
    (hround : Round s t) : ∃ v, ReflTransGen Round u v ∧ Mirrors w p q t v := by
  cases hround with
  | missing hp hi =>
    rcases h.pop hp with ⟨-, h'⟩ | ⟨i, u', hlt, rfl, hpop, h'⟩
    · exact ⟨u, .refl, h'⟩
    · rw [h'.spans i hlt, Option.map_eq_none_iff] at hi
      exact ⟨u', .single (.missing hpop hi), h'⟩
  | inactive hp hi hs =>
    rcases h.pop hp with ⟨-, h'⟩ | ⟨i, u', hlt, rfl, hpop, h'⟩
    · exact ⟨u, .refl, h'⟩
    · rw [h'.spans i hlt] at hi
      obtain ⟨span, hspan, rfl⟩ := Option.map_eq_some_iff.1 hi
      exact ⟨u', .single (.inactive hpop hspan hs), h'⟩
  | settled hp hi hs hx =>
    rcases h.pop hp with ⟨hn, h'⟩ | ⟨i, u', hlt, rfl, hpop, h'⟩
    · exact ⟨u, .refl, (h'.setSpan hn hi (Span.outline_woken _)).countRecalcs 1 0⟩
    · rw [h'.spans i hlt] at hi
      obtain ⟨span, hspan, rfl⟩ := Option.map_eq_some_iff.1 hi
      rw [Span.woken_later] at hx ⊢
      exact ⟨_, .single (.settled hpop hspan hs hx), (h'.setSpan_own hlt hspan span.outline_woken).countRecalcs 1 1⟩
  | expanded hp hi hs hx hb =>
    rcases h.pop hp with ⟨hn, h'⟩ | ⟨i, u', hlt, rfl, hpop, h'⟩
    · exact ⟨u, .refl, h'.expandSpan hw hn hi (Span.outline_woken _)⟩
    · rw [h'.spans i hlt] at hi
      obtain ⟨span, hspan, rfl⟩ := Option.map_eq_some_iff.1 hi
      rw [Span.woken_later] at hx ⊢
      have hb' : u.stats.expansions < u.config.maxExpansions :=
        Nat.lt_of_le_of_lt h.expansions (Nat.lt_of_lt_of_le hb h.budget)
      exact ⟨_, .single (.expanded hpop hspan hs hx hb'), h'.expandSpan_own hw hlt hspan span.outline_woken⟩

/-- A run contains a run over one section. -/
theorem Mirrors.rounds [LocalDirective κ] (hw : w.Fits p q) (h : Mirrors w p q s u) {t : Relaxation κ}
    (hrounds : ReflTransGen Round s t) : ∃ v, ReflTransGen Round u v ∧ Mirrors w p q t v := by
  induction hrounds with
  | refl => exact ⟨u, .refl, h⟩
  | tail _ hround ih =>
    obtain ⟨v, hv, hm⟩ := ih
    obtain ⟨v', hv', hm'⟩ := hm.round hw hround
    exact ⟨v', hv.trans hv', hm'⟩

theorem Mirrors.idle (h : Mirrors w p q s u) (hc : s.counts = []) (ho : s.others = []) : u.counts = [] ∧
    u.others = [] := by
  have hcounts := h.counts
  have hothers := h.others
  rw [hc] at hcounts
  rw [ho] at hothers
  exact ⟨List.map_eq_nil_iff.1 hcounts.symm, List.map_eq_nil_iff.1 hothers.symm⟩

end

end Relaxation

end SpanLayout
