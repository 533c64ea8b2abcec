import SpanLayout.Proofs.Cyclic
import SpanLayout.Proofs.Relaxation.Convergence
import SpanLayout.Proofs.Relaxation.Renumber
import SpanLayout.Proofs.Relaxation.Sinks

/-!
# Counts that feed each other

A count feeds another one if a distance of the other extends over its fragment. The edges of this graph are read through
the index of the terms, and a count is reported for every edge that closes a cycle. So something is reported exactly if
a count feeds itself, be it through others. -/

namespace SpanLayout

open Relation

/-- The graph of the counts: the value of count `j` depends on the size of the fragment of count `i`. -/
def Feeds (spans : List Span) (i j : Nat) : Prop :=
  i ≠ j ∧ ∃ span other : Span, spans[i]? = some span ∧ spans[j]? = some other ∧ span.id ≤ 0 ∧ other.id ≤ 0 ∧
    ∃ t ∈ other.terms, t.low ≤ span.seed.index ∧ span.seed.index < t.high

namespace Relaxation

variable {κ : Type} {s : Relaxation κ}

/-! ## Edges -/

theorem mem_query_indexOf {spans : List Span} {i j : Nat} :
    j ∈ ((indexOf spans).query i i).map (·.1) ↔
      ∃ span, spans[j]? = some span ∧ ∃ t ∈ span.terms, t.low ≤ i ∧ i < t.high := by
  rw [query_indexOf]
  simp only [List.mem_map, List.mem_filter, List.mem_mergeSort, mem_termIntervals]
  constructor
  · rintro ⟨_, ⟨_, ⟨⟨n, k, span, t, hn, hk, hne, rfl⟩, ho⟩, rfl⟩, rfl⟩
    refine ⟨span, hn, t, List.mem_of_getElem? hk, ?_⟩
    simp only [Interval.overlaps, Bool.and_eq_true, decide_eq_true_eq] at ho
    unfold Term.low Term.high at ho ⊢
    omega
  · rintro ⟨span, hn, t, ht, hlow, hhigh⟩
    obtain ⟨k, hk⟩ := List.mem_iff_getElem?.mp ht
    refine ⟨(j, k), ⟨⟨t.low, t.high - 1, (j, k)⟩, ⟨⟨j, k, span, t, hn, hk, ?_, rfl⟩, ?_⟩, rfl⟩, rfl⟩
    · unfold Term.low at hlow
      unfold Term.high at hhigh
      omega
    · simp only [Interval.overlaps, Bool.and_eq_true, decide_eq_true_eq]
      omega

theorem mem_dependents_iff (h : s.index = indexOf s.spans) (i j : Nat) : j ∈ s.dependents i ↔ Feeds s.spans i j := by
  have hcount {n : Nat} : s.spans[n]?.any Span.isCount = true ↔ ∃ span, s.spans[n]? = some span ∧ span.id ≤ 0 := by
    simp [Option.any_eq_true, Span.isCount]
  constructor
  · intro hj
    obtain ⟨span, hi, hc⟩ : ∃ span, s.spans[i]? = some span ∧ span.isCount = true := by
      unfold dependents at hj
      split at hj
      · cases hj
      · split at hj
        · rename_i hi hc
          exact ⟨_, hi, hc⟩
        · cases hj
    rw [mem_dependents hi hc, h, mem_query_indexOf, hcount] at hj
    obtain ⟨⟨other, hj, hterm⟩, hne, other', hj', hid⟩ := hj
    cases hj.symm.trans hj'
    exact ⟨hne.symm, span, other, hi, hj, of_decide_eq_true hc, hid, hterm⟩
  · rintro ⟨hne, span, other, hi, hj, hc, hid, hterm⟩
    rw [mem_dependents hi (decide_eq_true hc), h, mem_query_indexOf, hcount]
    exact ⟨⟨other, hj, hterm⟩, hne.symm, other, hj, hid⟩

theorem edge_dependents (h : s.index = indexOf s.spans) : Cycle.Edge s.dependents = Feeds s.spans := by
  funext i j
  exact propext (mem_dependents_iff h i j)

/-! ## Reports -/

theorem foldl_reportCircular (edges : List Nat) (s : Relaxation κ) :
    (edges.foldl reportCircular s).diags =
      s.diags.tell ⟨(edges.filterMap (s.spans[·]?)).map (.circularReference ·.seed.source), []⟩ := by
  induction edges generalizing s with
  | nil => exact s.diags.tell_silent.symm
  | cons i edges ih =>
    rw [List.foldl_cons, ih]
    unfold reportCircular
    cases hi : s.spans[i]? with
    | none => rw [List.filterMap_cons_none hi]
    | some span =>
      rw [List.filterMap_cons_some hi]
      dsimp only [report]
      rw [Diagnostics.report_one, Diagnostics.tell_tell]
      rfl

/-- The counts for which a cycle is reported. -/
def culprits (s : Relaxation κ) : List Span :=
  (Cycle.closingEdges s.spans.length s.dependents
    ((List.range s.spans.length).filter fun i => s.spans[i]?.any Span.isCount)).filterMap (s.spans[·]?)

theorem diags_checkCycles (s : Relaxation κ) :
    s.checkCycles.diags = s.diags.tell ⟨s.culprits.map (.circularReference ·.seed.source), []⟩ :=
  foldl_reportCircular _ s

theorem cyclic_of_mem_culprits (h : s.index = indexOf s.spans) {span : Span} (hs : span ∈ s.culprits) :
    ∃ i, s.spans[i]? = some span ∧ TransGen (Feeds s.spans) i i := by
  obtain ⟨i, hi, hspan⟩ := List.mem_filterMap.mp hs
  refine ⟨i, hspan, ?_⟩
  rw [← edge_dependents h]
  exact Cycle.cyclic_of_mem_closingEdges hi

theorem culprits_ne_nil (h : s.index = indexOf s.spans) {i : Nat} (hi : TransGen (Feeds s.spans) i i) :
    s.culprits ≠ [] := by
  rw [← edge_dependents h] at hi
  -- Every dependent is a count, so the search starts from it.
  have hsucc : ∀ v, ∀ d ∈ s.dependents v, d < s.spans.length ∧
      d ∈ (List.range s.spans.length).filter fun i => s.spans[i]?.any Span.isCount := by
    intro v d hd
    obtain ⟨-, -, other, -, hother, -, hid, -⟩ := (mem_dependents_iff h v d).mp hd
    obtain ⟨hlt, -⟩ := List.getElem?_eq_some_iff.mp hother
    refine ⟨hlt, List.mem_filter.mpr ⟨List.mem_range.mpr hlt, ?_⟩⟩
    rw [hother]
    exact decide_eq_true hid
  obtain ⟨v, hv⟩ := List.exists_mem_of_ne_nil _ ((Cycle.closingEdges_ne_nil_iff hsucc).mpr ⟨i, hi⟩)
  -- An edge out of `v` shows that it is the number of a span.
  have hcyclic : TransGen (Cycle.Edge s.dependents) v v := Cycle.cyclic_of_mem_closingEdges hv
  obtain ⟨d, hd, -⟩ := TransGen.head'_iff.mp hcyclic
  obtain ⟨-, span, -, hspan, -⟩ := (mem_dependents_iff h v d).mp hd
  exact List.ne_nil_of_mem (List.mem_filterMap.mpr ⟨v, hv, hspan⟩)

/-! ## Cycles -/

/-- Once the index is built from the terms, circular references are reported exactly if the counts have a cycle, and
only for counts on one. The search for them ends on every graph. -/
theorem prepare_finds_cycles (s : Relaxation κ) :
    (∃ culprits : List Span,
      ({ s with index := .empty } : Relaxation κ).prepare.diags =
        s.diags.tell ⟨culprits.map (.circularReference ·.seed.source), []⟩ ∧
      (culprits ≠ [] ↔ ∃ i, TransGen (Feeds s.spans) i i) ∧
      ∀ span ∈ culprits, ∃ i, s.spans[i]? = some span ∧ TransGen (Feeds s.spans) i i) ∧
    ∀ (n : Nat) (succ : Nat → List Nat), (WellFounded fun t u => Cycle.Search.Step n succ u t) ∧
      ∀ u, ReflTransGen (Cycle.Search.Step n succ) u (Cycle.search n succ u) ∧ (Cycle.search n succ u).stack = [] := by
  refine ⟨?_, fun n succ => ⟨Cycle.Search.wellFounded_step n succ, fun u => ?_⟩⟩
  · -- The relaxation that looks for cycles has the spans of `s` and their index.
    obtain ⟨u, hu, hdiags, hspans, hindex⟩ : ∃ u : Relaxation κ,
        ({ s with index := .empty } : Relaxation κ).prepare = u.checkCycles ∧ u.diags = s.diags ∧ u.spans = s.spans ∧
          u.index = indexOf u.spans := ⟨_, rfl, rfl, rfl, rfl⟩
    rw [hu, ← hspans, ← hdiags]
    refine ⟨u.culprits, u.diags_checkCycles, ⟨fun hne => ?_, fun ⟨i, hi⟩ => culprits_ne_nil hindex hi⟩,
      fun span hspan => cyclic_of_mem_culprits hindex hspan⟩
    obtain ⟨span, hspan⟩ := List.exists_mem_of_ne_nil _ hne
    exact (cyclic_of_mem_culprits hindex hspan).imp fun _ h => h.2
  · exact ⟨Cycle.Search.steps_search n succ u, Cycle.Search.stack_search n succ u⟩

end Relaxation

end SpanLayout
