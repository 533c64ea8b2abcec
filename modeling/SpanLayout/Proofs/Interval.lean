import SpanLayout.Interval

/-!
# The interval index finds what a linear scan finds
-/

namespace SpanLayout

namespace IntervalTree

variable {α : Type}

@[simp] theorem top_node (l r : IntervalTree α) (i : Interval α) (t : Nat) : (node l i r t).top = t := rfl

theorem ofList_nil : (ofList [] : IntervalTree α) = leaf := by
  unfold ofList
  split
  · rfl
  · rename_i h
    simp at h

theorem eq_nil_of_drop_half {is : List (Interval α)} (h : is.drop (is.length / 2) = []) : is = [] := by
  have hle := List.drop_eq_nil_iff.1 h
  exact List.eq_nil_of_length_eq_zero (by omega)

theorem high_le_top (is : List (Interval α)) : ∀ i ∈ is, i.high ≤ (ofList is).top := by
  fun_induction ofList is with
  | case1 is h =>
    intro i hi
    simp [eq_nil_of_drop_half h] at hi
  | case2 is m after h _ _ left right ihl ihr =>
    intro i hi
    rw [← List.take_append_drop (is.length / 2) is, h, List.mem_append, List.mem_cons] at hi
    rw [top_node]
    rcases hi with hi | rfl | hi
    · have : i.high ≤ left.top := ihl i hi
      omega
    · omega
    · have : i.high ≤ right.top := ihr i hi
      omega

theorem query_ofList (low high : Nat) (is : List (Interval α)) (hs : is.Pairwise fun a b => a.low ≤ b.low) :
    (ofList is).query low high = (is.filter (·.overlaps low high)).map (·.data) := by
  fun_induction ofList is with
  | case1 is h =>
    simp [eq_nil_of_drop_half h, query]
  | case2 is m after h _ _ left right ihl ihr =>
    have hsplit : is = is.take (is.length / 2) ++ m :: after := by rw [← h, List.take_append_drop]
    have htop : ∀ i ∈ is, i.high ≤ max m.high (max left.top right.top) := by
      intro i hi
      rw [hsplit, List.mem_append, List.mem_cons] at hi
      rcases hi with hi | rfl | hi
      · have : i.high ≤ left.top := high_le_top _ i hi
        omega
      · omega
      · have : i.high ≤ right.top := high_le_top _ i hi
        omega
    rw [hsplit, List.pairwise_append, List.pairwise_cons] at hs
    obtain ⟨hl, ⟨hm, hr⟩, -⟩ := hs
    unfold query
    split
    · -- Every interval ends before the query begins.
      have : is.filter (·.overlaps low high) = [] := by
        rw [List.filter_eq_nil_iff]
        intro i hi
        have := htop i hi
        simp only [Interval.overlaps, Bool.and_eq_true, decide_eq_true_eq, not_and]
        omega
      rw [this, List.map_nil]
    · have hfilter : is.filter (·.overlaps low high) =
          (is.take (is.length / 2)).filter (·.overlaps low high) ++ (m :: after).filter (·.overlaps low high) := by
        rw [← List.filter_append, ← hsplit]
      rw [ihl hl, ihr hr, hfilter, List.map_append]
      congr 1
      split
      · -- Everything from `m` on begins after the query ends.
        rw [List.filter_cons_of_neg (by simp [Interval.overlaps]; omega), eq_comm, List.map_eq_nil_iff,
          List.filter_eq_nil_iff]
        intro i hi
        have := hm i hi
        simp only [Interval.overlaps, Bool.and_eq_true, decide_eq_true_eq, not_and]
        omega
      · by_cases h' : low ≤ m.high
        · rw [List.filter_cons_of_pos (by simp [Interval.overlaps]; omega), if_pos h']
          rfl
        · rw [List.filter_cons_of_neg (by simp [Interval.overlaps]; omega), if_neg h', List.nil_append]

end IntervalTree

namespace IntervalIndex

variable {α : Type}

theorem pairwise_mergeSort_low (is : List (Interval α)) :
    (is.mergeSort fun a b => a.low ≤ b.low).Pairwise fun a b => a.low ≤ b.low := by
  have h : (is.mergeSort fun a b => decide (a.low ≤ b.low)).Pairwise fun a b => decide (a.low ≤ b.low) = true :=
    List.pairwise_mergeSort (by intro a b c; simp; omega) (by intro a b; simp; omega) is
  simpa using h

theorem filter_low_mergeSort (is : List (Interval α)) (l : Nat) :
    (is.mergeSort fun a b => a.low ≤ b.low).filter (·.low = l) = is.filter (·.low = l) := by
  have hties : (is.filter (·.low = l)).Pairwise fun a b => decide (a.low ≤ b.low) = true := by
    refine List.pairwise_of_forall_mem_list fun a ha b hb => ?_
    simp only [List.mem_filter, decide_eq_true_eq] at ha hb ⊢
    omega
  have hsub : (is.filter (·.low = l)).Sublist (is.mergeSort fun a b => a.low ≤ b.low) :=
    List.sublist_mergeSort (by intro a b c; simp; omega) (by intro a b; simp; omega) hties List.filter_sublist
  have hkept := hsub.filter (·.low = l)
  simp only [List.filter_filter, Bool.and_self] at hkept
  exact (hkept.eq_of_length ((List.mergeSort_perm is _).filter _).length_eq.symm).symm

theorem query_build (x : IntervalIndex α) (low high : Nat) :
    x.build.query low high =
      ((x.entries.mergeSort fun a b => a.low ≤ b.low).filter (·.overlaps low high)).map (·.data) := by
  unfold build query
  exact IntervalTree.query_ofList low high _ (pairwise_mergeSort_low x.entries)

theorem query_build_perm (x : IntervalIndex α) (low high : Nat) :
    (x.build.query low high).Perm ((x.entries.filter (·.overlaps low high)).map (·.data)) := by
  rw [query_build]
  exact ((List.mergeSort_perm _ _).filter _).map _

theorem entries_foldl_insert (x : IntervalIndex α) (is : List (Interval α)) :
    (is.foldl insert x).entries = x.entries ++ is := by
  induction is generalizing x with
  | nil => simp
  | cons i is ih =>
    rw [List.foldl_cons, ih]
    simp [insert]

theorem build_of_sorted {x : IntervalIndex α} (h : x.entries.Pairwise fun a b => a.low ≤ b.low) :
    x.build = ⟨x.entries, some (.ofList x.entries)⟩ := by
  have hsorted : x.entries.mergeSort (fun a b => decide (a.low ≤ b.low)) = x.entries :=
    List.mergeSort_of_pairwise (h.imp fun hab => decide_eq_true hab)
  unfold build
  rw [hsorted]

/-! ## After any insertions and builds -/

/-- What can be done to an index. -/
inductive Edit (α : Type) where
  | insert (i : Interval α)
  | build

/-- Changes an index. -/
def edit (x : IntervalIndex α) : Edit α → IntervalIndex α
  | .insert i => x.insert i
  | .build => x.build

/-- The interval that an edit inserts. -/
def Edit.interval? : Edit α → Option (Interval α)
  | .insert i => some i
  | .build => none

/-- The intervals that edits insert, in this order. -/
def inserted (edits : List (Edit α)) : List (Interval α) := edits.filterMap Edit.interval?

/-- The index holds the intervals of a list. Only those that begin at different places may have changed places, and the
tree, if there is one, is the tree of all of them. -/
structure Holds (x : IntervalIndex α) (is : List (Interval α)) : Prop where
  perm : x.entries.Perm is
  ties : ∀ l, x.entries.filter (·.low = l) = is.filter (·.low = l)
  tree : ∀ t, x.tree = some t → t = .ofList x.entries ∧ x.entries.Pairwise fun a b => a.low ≤ b.low

theorem holds_empty : (empty : IntervalIndex α).Holds [] where
  perm := .nil
  ties _ := rfl
  tree t ht := by
    obtain rfl := Option.some.inj ht
    exact ⟨IntervalTree.ofList_nil.symm, .nil⟩

theorem Holds.insert {x : IntervalIndex α} {is : List (Interval α)} (h : x.Holds is) (i : Interval α) :
    (x.insert i).Holds (is ++ [i]) where
  perm := h.perm.append_right [i]
  ties l := by
    unfold IntervalIndex.insert
    rw [List.filter_append, List.filter_append, h.ties]
  tree _ ht := by cases ht

theorem Holds.build {x : IntervalIndex α} {is : List (Interval α)} (h : x.Holds is) : x.build.Holds is where
  perm := (List.mergeSort_perm _ _).trans h.perm
  ties l := (filter_low_mergeSort x.entries l).trans (h.ties l)
  tree _ ht := ⟨(Option.some.inj ht).symm, pairwise_mergeSort_low x.entries⟩

/-- Whatever is done to an index, it holds what was inserted. -/
theorem holds_edits (edits : List (Edit α)) : (edits.foldl edit empty).Holds (inserted edits) := by
  have hfold (edits : List (Edit α)) (x : IntervalIndex α) (is : List (Interval α)) (h : x.Holds is) :
      (edits.foldl edit x).Holds (is ++ inserted edits) := by
    induction edits generalizing x is with
    | nil => simpa [inserted] using h
    | cons e edits ih =>
      cases e with
      | insert i => simpa [inserted, Edit.interval?, edit] using ih _ _ (h.insert i)
      | build => exact ih _ _ h.build
  exact hfold edits empty [] holds_empty

theorem Holds.query {x : IntervalIndex α} {is : List (Interval α)} (h : x.Holds is) (low high : Nat) :
    x.query low high = (x.entries.filter (·.overlaps low high)).map (·.data) := by
  unfold IntervalIndex.query
  split
  · rename_i t ht
    obtain ⟨rfl, hsorted⟩ := h.tree t ht
    exact IntervalTree.query_ofList low high _ hsorted
  · rfl

theorem pairwise_of_getLast?_build {edits : List (Edit α)} (h : edits.getLast? = some .build) :
    (edits.foldl edit empty).entries.Pairwise fun a b => a.low ≤ b.low := by
  obtain ⟨before, rfl⟩ := List.getLast?_eq_some_iff.1 h
  rw [List.foldl_append]
  exact pairwise_mergeSort_low _

/-- After any insertions and builds, a query finds the intervals that were inserted and overlap it, each as often as it
was inserted. If a build came last, or if there are none, they come in the order of their low ends, and those with equal
low ends in the order in which they were inserted. -/
theorem query_agrees_with_scan (edits : List (Edit α)) (low high : Nat) :
    ∃ hits : List (Interval α), (edits.foldl edit empty).query low high = hits.map (·.data) ∧
      hits.Perm ((inserted edits).filter fun i => i.low ≤ high ∧ low ≤ i.high) ∧
      (edits.getLast? = some .build ∨ inserted edits = [] →
        hits.Pairwise (fun a b => a.low ≤ b.low) ∧
          ∀ l, hits.filter (fun i => i.low = l) =
            (inserted edits).filter fun i => i.low = l ∧ i.low ≤ high ∧ low ≤ i.high) := by
  have hholds := holds_edits edits
  have hoverlaps : Interval.overlaps low high = fun i : Interval α => decide (i.low ≤ high ∧ low ≤ i.high) := by
    funext i
    simp [Interval.overlaps]
  refine ⟨_, hholds.query low high, ?_, fun h => ⟨?_, fun l => ?_⟩⟩
  · rw [hoverlaps]
    exact hholds.perm.filter _
  · rcases h with hbuild | hnone
    · exact (pairwise_of_getLast?_build hbuild).filter _
    · have hperm := hholds.perm
      rw [hnone, List.perm_nil] at hperm
      rw [hperm]
      exact .nil
  · rw [hoverlaps, List.filter_filter]
    have hties := congrArg (List.filter fun i => decide (i.low ≤ high ∧ low ≤ i.high)) (hholds.ties l)
    rw [List.filter_filter, List.filter_filter] at hties
    simpa [Bool.and_comm, Bool.and_assoc, Bool.and_left_comm] using hties

/-- What begins at one place keeps its order, also if it was inserted into an index that had been built. -/
theorem query_agrees_with_scan_rebuilt :
    let edits : List (Edit String) :=
      [.insert ⟨4, 9, "a"⟩, .insert ⟨7, 7, "b"⟩, .build, .insert ⟨4, 4, "c"⟩, .insert ⟨2, 5, "d"⟩, .build]
    ∃ hits : List (Interval String), (edits.foldl edit empty).query 4 6 = hits.map (·.data) ∧
      hits.Perm [⟨4, 9, "a"⟩, ⟨4, 4, "c"⟩, ⟨2, 5, "d"⟩] ∧ hits.Pairwise (fun a b => a.low ≤ b.low) ∧
      hits.filter (fun i => i.low = 4) = [⟨4, 9, "a"⟩, ⟨4, 4, "c"⟩] := by
  intro edits
  obtain ⟨hits, hquery, hperm, horder⟩ := query_agrees_with_scan edits 4 6
  obtain ⟨hsorted, hties⟩ := horder (.inl rfl)
  exact ⟨hits, hquery, hperm, hsorted, hties 4⟩

end IntervalIndex

end SpanLayout
