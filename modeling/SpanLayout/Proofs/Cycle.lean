import Mathlib.Algebra.BigOperators.Group.Finset.Basic
import Mathlib.Algebra.GroupWithZero.Nat
import SpanLayout.Relaxation.Cycle

/-!
# A search that finds no cycle sorts the graph

A node is closed once all its successors are. So if no edge leads to an open node, every closed node has its successors
behind it in the list of the closed ones, and a weight can be given to each that outweighs its successors.
-/

namespace SpanLayout.Cycle

variable {n : Nat} {succ : Nat → List Nat}

/-- Every node of the list has its successors behind it. -/
def Sorted (n : Nat) (succ : Nat → List Nat) : List Nat → Prop
  | [] => True
  | v :: rest => v ∉ rest ∧ (∀ d ∈ succ v, d < n → d ∈ rest) ∧ Sorted n succ rest

theorem Sorted.mem_of_succ {l : List Nat} (h : Sorted n succ l) {v d : Nat} (hv : v ∈ l) (hd : d ∈ succ v)
    (hn : d < n) : d ∈ l := by
  induction l with
  | nil => exact nomatch hv
  | cons u rest ih =>
    obtain ⟨-, hsucc, hrest⟩ := h
    rcases List.mem_cons.mp hv with rfl | hv
    · exact List.mem_cons_of_mem v (hsucc d hd hn)
    · exact List.mem_cons_of_mem u (ih hrest hv)

namespace Search

/-- The successors of every open node are closed or still to be looked at, except for the node that was opened from
there, which lies above it on the stack. -/
def Pending (n : Nat) (succ : Nat → List Nat) (closed : List Nat) : Option Nat → List (Nat × List Nat) → Prop
  | _, [] => True
  | above, (v, ds) :: stack =>
    (∀ d ∈ succ v, d < n → d ∈ ds ∨ d ∈ closed ∨ above = some d) ∧ Pending n succ closed (some v) stack

theorem Pending.mono {closed closed' : List Nat} (hc : ∀ v ∈ closed, v ∈ closed') {above above' : Option Nat}
    (ha : ∀ v, above = some v → v ∈ closed' ∨ above' = some v) {stack : List (Nat × List Nat)}
    (h : Pending n succ closed above stack) : Pending n succ closed' above' stack := by
  induction stack generalizing above above' with
  | nil => trivial
  | cons p stack ih =>
    obtain ⟨hv, hrest⟩ := h
    refine ⟨fun d hd hn => ?_, ih (fun _ h => .inr h) hrest⟩
    rcases hv d hd hn with h | h | h
    · exact .inl h
    · exact .inr (.inl (hc d h))
    · exact .inr (ha d h)

/-- The closed nodes are sorted, no node is open twice or both open and closed, and nothing was left out. -/
structure Sound (n : Nat) (succ : Nat → List Nat) (s : Search) : Prop where
  sorted : Sorted n succ s.closed
  nodup : s.openNodes.Nodup
  apart : ∀ v ∈ s.openNodes, v ∉ s.closed
  pending : Pending n succ s.closed none s.stack

theorem Sound.close {s : Search} {v : Nat} {stack : List (Nat × List Nat)} (h : s.Sound n succ)
    (hs : s.stack = (v, []) :: stack) : ({ s with stack, closed := v :: s.closed } : Search).Sound n succ := by
  obtain ⟨hsorted, hnodup, hapart, hpending⟩ := h
  rw [openNodes, hs] at hnodup hapart
  rw [hs] at hpending
  obtain ⟨hv, hnodup⟩ := List.nodup_cons.mp hnodup
  obtain ⟨hsucc, hpending⟩ := hpending
  refine ⟨⟨hapart v List.mem_cons_self, fun d hd hn => ?_, hsorted⟩, hnodup, fun w hw hc => ?_, ?_⟩
  · simpa using hsucc d hd hn
  · rcases List.mem_cons.mp hc with rfl | hc
    · exact hv hw
    · exact hapart w (List.mem_cons_of_mem v hw) hc
  · refine hpending.mono (fun w hw => List.mem_cons_of_mem v hw) fun w hw => .inl ?_
    rw [Option.some.inj hw]
    exact List.mem_cons_self

theorem Sound.skip {s : Search} {v d : Nat} {ds : List Nat} {stack : List (Nat × List Nat)} (h : s.Sound n succ)
    (hs : s.stack = (v, d :: ds) :: stack) (hd : ¬ (d < n ∧ d ∉ s.closed)) :
    ({ s with stack := (v, ds) :: stack } : Search).Sound n succ := by
  obtain ⟨hsorted, hnodup, hapart, hpending⟩ := h
  rw [openNodes, hs] at hnodup hapart
  rw [hs] at hpending
  refine ⟨hsorted, hnodup, hapart, fun e he hn => ?_, hpending.2⟩
  rcases hpending.1 e he hn with h | h
  · rcases List.mem_cons.mp h with rfl | h
    · exact .inr (.inl (by simpa [hn] using hd))
    · exact .inl h
  · exact .inr h

theorem Sound.descend {s : Search} {v d : Nat} {ds : List Nat} {stack : List (Nat × List Nat)} (h : s.Sound n succ)
    (hs : s.stack = (v, d :: ds) :: stack) (ho : d ∉ s.openNodes) (hd : d ∉ s.closed) :
    ({ s with stack := (d, succ d) :: (v, ds) :: stack } : Search).Sound n succ := by
  obtain ⟨hsorted, hnodup, hapart, hpending⟩ := h
  rw [openNodes, hs] at hnodup hapart ho
  rw [hs] at hpending
  refine ⟨hsorted, List.nodup_cons.mpr ⟨ho, hnodup⟩, fun w hw => ?_, fun e he _ => .inl he, fun e he hn => ?_,
    hpending.2⟩
  · rcases List.mem_cons.mp hw with rfl | hw
    · exact hd
    · exact hapart w hw
  · rcases hpending.1 e he hn with h | h | h
    · rcases List.mem_cons.mp h with rfl | h
      · exact .inr (.inr rfl)
      · exact .inl h
    · exact .inr (.inl h)
    · cases h

end Search

/-! ## The search -/

theorem search_found (s : Search) : ∃ found, (search n succ s).found = s.found ++ found := by
  fun_induction search n succ s with
  | case1 s h => exact ⟨[], by simp⟩
  | case2 s v stack h _ ih => exact ih
  | case3 s v d ds stack h _ _ ho ih =>
    obtain ⟨found, hf⟩ := ih
    exact ⟨v :: found, by simp [hf]⟩
  | case4 s v d ds stack h _ _ ho hd _ ih => exact ih
  | case5 s v d ds stack h _ _ ho hd ih => exact ih

theorem search_spec {s : Search} (h : s.Sound n succ) (hf : (search n succ s).found = []) :
    (search n succ s).Sound n succ ∧ (search n succ s).stack = [] ∧
      ∀ v, s.reached v = true → v ∈ (search n succ s).closed := by
  fun_induction search n succ s with
  | case1 s hs =>
    refine ⟨h, hs, fun v hv => ?_⟩
    simpa [Search.reached_iff, Search.openNodes, hs] using hv
  | case2 s v stack hs _ ih =>
    obtain ⟨hsound, hstack, hreached⟩ := ih (h.close hs) hf
    refine ⟨hsound, hstack, fun w hw => hreached w ?_⟩
    rw [Search.reached_iff, Search.openNodes, hs] at hw
    rw [Search.reached_iff, Search.openNodes]
    simp only [List.map_cons, List.mem_cons] at hw ⊢
    tauto
  | case3 s v d ds stack hs _ _ ho ih =>
    obtain ⟨found, hfound⟩ := @search_found n succ
      { s with stack := (v, ds) :: stack, found := s.found ++ [v] }
    rw [hf] at hfound
    simp at hfound
  | case4 s v d ds stack hs _ _ ho hd _ ih =>
    obtain ⟨hsound, hstack, hreached⟩ := ih (h.descend hs ho hd.2) hf
    refine ⟨hsound, hstack, fun w hw => hreached w ?_⟩
    rw [Search.reached_iff, Search.openNodes, hs] at hw
    rw [Search.reached_iff, Search.openNodes]
    simp only [List.map_cons, List.mem_cons] at hw ⊢
    tauto
  | case5 s v d ds stack hs _ _ ho hd ih =>
    obtain ⟨hsound, hstack, hreached⟩ := ih (h.skip hs hd) hf
    refine ⟨hsound, hstack, fun w hw => hreached w ?_⟩
    rw [Search.reached_iff, Search.openNodes, hs] at hw
    rw [Search.reached_iff, Search.openNodes]
    simpa using hw

theorem lt_of_mem_search {s : Search} (hopen : ∀ v ∈ s.openNodes, v < n) (hfound : ∀ v ∈ s.found, v < n) :
    ∀ v ∈ (search n succ s).found, v < n := by
  fun_induction search n succ s with
  | case1 s hs => exact hfound
  | case2 s v stack hs _ ih =>
    rw [Search.openNodes, hs] at hopen
    exact ih (fun w hw => hopen w (List.mem_cons_of_mem v hw)) hfound
  | case3 s v d ds stack hs _ _ ho ih =>
    rw [Search.openNodes, hs] at hopen
    refine ih hopen fun w hw => ?_
    rcases List.mem_append.mp hw with hw | hw
    · exact hfound w hw
    · exact List.mem_singleton.mp hw ▸ hopen v List.mem_cons_self
  | case4 s v d ds stack hs _ _ ho hd _ ih =>
    rw [Search.openNodes, hs] at hopen
    refine ih (fun w hw => ?_) hfound
    rcases List.mem_cons.mp hw with rfl | hw
    · exact hd.1
    · exact hopen w hw
  | case5 s v d ds stack hs _ _ ho hd ih =>
    rw [Search.openNodes, hs] at hopen
    exact ih hopen hfound

theorem searchAll_found (s : Search) (starts : List Nat) :
    ∃ found, (searchAll n succ s starts).found = s.found ++ found := by
  unfold searchAll
  induction starts generalizing s with
  | nil => exact ⟨[], by simp⟩
  | cons v starts ih =>
    rw [List.foldl_cons]
    obtain ⟨found, hf⟩ := ih (if s.reached v then s else search n succ { s with stack := [(v, succ v)] })
    rw [hf]
    split
    · exact ⟨found, rfl⟩
    · obtain ⟨found', hf'⟩ := @search_found n succ { s with stack := [(v, succ v)] }
      exact ⟨found' ++ found, by rw [hf', List.append_assoc]⟩

theorem searchAll_spec {s : Search} (h : s.Sound n succ) (hs : s.stack = []) {starts : List Nat}
    (hf : (searchAll n succ s starts).found = []) :
    Sorted n succ (searchAll n succ s starts).closed ∧
      (∀ v ∈ s.closed, v ∈ (searchAll n succ s starts).closed) ∧
      ∀ v ∈ starts, v ∈ (searchAll n succ s starts).closed := by
  induction starts generalizing s with
  | nil => exact ⟨h.sorted, fun v hv => hv, nofun⟩
  | cons v starts ih =>
    generalize hnext : (if s.reached v then s else search n succ { s with stack := [(v, succ v)] }) = next
    have hfold : searchAll n succ s (v :: starts) = searchAll n succ next starts := by
      rw [← hnext]
      rfl
    rw [hfold] at hf ⊢
    have hnone : next.found = [] := by
      obtain ⟨found, hfound⟩ := @searchAll_found n succ next starts
      rw [hf] at hfound
      exact (List.append_eq_nil_iff.mp hfound.symm).1
    have hstep : next.Sound n succ ∧ next.stack = [] ∧ v ∈ next.closed ∧ ∀ w ∈ s.closed, w ∈ next.closed := by
      rw [← hnext] at hnone ⊢
      split
      · rename_i hr
        refine ⟨h, hs, ?_, fun w hw => hw⟩
        simpa [Search.reached_iff, Search.openNodes, hs] using hr
      · rename_i hr
        rw [if_neg hr] at hnone
        have hstart : ({ s with stack := [(v, succ v)] } : Search).Sound n succ := by
          refine ⟨h.sorted, by simp [Search.openNodes], fun w hw => ?_, fun d hd _ => .inl hd, trivial⟩
          obtain rfl : w = v := by simpa [Search.openNodes] using hw
          intro hc
          exact hr (Search.reached_iff.mpr (.inr hc))
        obtain ⟨hsound, hstack, hreached⟩ := search_spec hstart hnone
        exact ⟨hsound, hstack, hreached v (by simp [Search.reached_iff, Search.openNodes]),
          fun w hw => hreached w (Search.reached_iff.mpr (.inr hw))⟩
    obtain ⟨hsound, hstack, hv, hkept⟩ := hstep
    obtain ⟨hsorted, hclosed, hstarts⟩ := ih hsound hstack hf
    refine ⟨hsorted, fun w hw => hclosed w (hkept w hw), fun w hw => ?_⟩
    rcases List.mem_cons.mp hw with rfl | hw
    · exact hclosed w hv
    · exact hstarts w hw

/-! ## Weights -/

/-- One more than the weights of the successors together, for the nodes of a list that has successors behind them. -/
def weightIn (succ : Nat → List Nat) : List Nat → Nat → Nat
  | [], _ => 0
  | v :: rest, u => if u = v then 1 + ((succ v).map (weightIn succ rest)).sum else weightIn succ rest u

theorem weightIn_eq {l : List Nat} (h : Sorted n succ l) (hn : ∀ v, ∀ d ∈ succ v, d < n) {v : Nat} (hv : v ∈ l) :
    weightIn succ l v = 1 + ((succ v).map (weightIn succ l)).sum := by
  induction l with
  | nil => exact nomatch hv
  | cons u rest ih =>
    obtain ⟨hu, hsucc, hrest⟩ := h
    have hbehind : ∀ d ∈ succ v, d ∈ rest := by
      intro d hd
      rcases List.mem_cons.mp hv with rfl | hv
      · exact hsucc d hd (hn v d hd)
      · exact hrest.mem_of_succ hv hd (hn v d hd)
    have hskip : ∀ w ∈ rest, weightIn succ (u :: rest) w = weightIn succ rest w := by
      intro w hw
      rw [weightIn, if_neg]
      rintro rfl
      exact hu hw
    have hsum : (succ v).map (weightIn succ (u :: rest)) = (succ v).map (weightIn succ rest) :=
      List.map_congr_left fun d hd => hskip d (hbehind d hd)
    rw [hsum]
    rcases List.mem_cons.mp hv with rfl | hv
    · rw [weightIn, if_pos rfl]
    · rw [hskip v hv, ih hrest hv]

theorem lt_of_mem_closingEdges {starts : List Nat} (hs : ∀ v ∈ starts, v < n) :
    ∀ v ∈ closingEdges n succ starts, v < n := by
  unfold closingEdges searchAll
  have hfold : ∀ s : Search, (∀ v ∈ s.found, v < n) →
      ∀ v ∈ (starts.foldl (fun s v =>
        if s.reached v then s else search n succ { s with stack := [(v, succ v)] }) s).found, v < n := by
    induction starts with
    | nil => exact fun s h => h
    | cons v starts ih =>
      intro s h
      rw [List.foldl_cons]
      refine ih (fun w hw => hs w (List.mem_cons_of_mem v hw)) _ ?_
      split
      · exact h
      · refine lt_of_mem_search (fun w hw => ?_) h
        obtain rfl : w = v := by simpa [Search.openNodes] using hw
        exact hs w List.mem_cons_self
  exact hfold _ fun v hv => absurd hv List.not_mem_nil

/-- If a search finds no edge that closes a cycle, nodes can be given weights, each greater than those of its successors
together. -/
theorem exists_weight {starts : List Nat} (hn : ∀ v, ∀ d ∈ succ v, d < n) (h : closingEdges n succ starts = []) :
    ∃ weight : Nat → Nat, ∀ v ∈ starts, weight v = 1 + ((succ v).map weight).sum := by
  have hempty : (⟨[], [], []⟩ : Search).Sound n succ := ⟨trivial, List.nodup_nil, nofun, trivial⟩
  obtain ⟨hsorted, -, hstarts⟩ := searchAll_spec hempty rfl h
  exact ⟨_, fun v hv => weightIn_eq hsorted hn (hstarts v hv)⟩

end SpanLayout.Cycle
