import Mathlib.Algebra.Order.BigOperators.Group.List
import Mathlib.Algebra.Order.Group.Nat
import Mathlib.Logic.Relation
import SpanLayout.Proofs.Cycle

/-!
# What a search for cycles finds

A search goes on step by step, and every step takes some of its work away, so it ends on every graph. The open nodes are
a path at all times, so an edge to one of them closes a cycle. If no such edge is found, the nodes can be given weights
that decrease along the edges, and there is no cycle.
-/

namespace SpanLayout.Cycle

open Relation

variable {n : Nat} {succ : Nat → List Nat}

def Edge (succ : Nat → List Nat) (v d : Nat) : Prop := d ∈ succ v

namespace Search

variable {s t : Search}

/-! ## Steps -/

/-- One step of a search: the node on top is closed, or its next successor is looked at. -/
inductive Step (n : Nat) (succ : Nat → List Nat) : Search → Search → Prop
  | close {s : Search} {v : Nat} {stack : List (Nat × List Nat)} (hs : s.stack = (v, []) :: stack) :
    Step n succ s { s with stack, closed := v :: s.closed }
  | find {s : Search} {v d : Nat} {ds : List Nat} {stack : List (Nat × List Nat)}
    (hs : s.stack = (v, d :: ds) :: stack) (ho : d ∈ s.openNodes) :
    Step n succ s { s with stack := (v, ds) :: stack, found := s.found ++ [v] }
  | descend {s : Search} {v d : Nat} {ds : List Nat} {stack : List (Nat × List Nat)}
    (hs : s.stack = (v, d :: ds) :: stack) (ho : d ∉ s.openNodes) (hd : d < n ∧ d ∉ s.closed) :
    Step n succ s { s with stack := (d, succ d) :: (v, ds) :: stack }
  | skip {s : Search} {v d : Nat} {ds : List Nat} {stack : List (Nat × List Nat)}
    (hs : s.stack = (v, d :: ds) :: stack) (ho : d ∉ s.openNodes) (hd : ¬ (d < n ∧ d ∉ s.closed)) :
    Step n succ s { s with stack := (v, ds) :: stack }

theorem Step.work_lt (h : Step n succ s t) : t.work n succ < s.work n succ := by
  cases h with
  | close hs => exact work_close n succ hs
  | find hs => exact work_skip n succ hs _
  | descend hs ho hd => exact work_open succ hs ho hd
  | skip hs => exact work_skip n succ hs _

theorem wellFounded_step (n : Nat) (succ : Nat → List Nat) : WellFounded fun t s => Step n succ s t := by
  apply Subrelation.wf (r := InvImage (· < ·) (work n succ))
  · exact Step.work_lt
  · exact InvImage.wf _ Nat.lt_wfRel.wf

theorem steps_search (n : Nat) (succ : Nat → List Nat) (s : Search) :
    ReflTransGen (Step n succ) s (search n succ s) := by
  fun_induction search n succ s with
  | case1 s hs => exact .refl
  | case2 s v stack hs _ ih => exact .head (.close hs) ih
  | case3 s v d ds stack hs _ _ ho ih => exact .head (.find hs ho) ih
  | case4 s v d ds stack hs _ _ ho hd _ ih => exact .head (.descend hs ho hd) ih
  | case5 s v d ds stack hs _ _ ho hd ih => exact .head (.skip hs ho hd) ih

theorem stack_search (n : Nat) (succ : Nat → List Nat) (s : Search) : (search n succ s).stack = [] := by
  fun_induction search n succ s <;> assumption

/-! ## The open nodes -/

/-- Every node of a stack is a successor of the one below it, and has all that is left to look at as successors. -/
def Linked (succ : Nat → List Nat) : Option Nat → List (Nat × List Nat) → Prop
  | _, [] => True
  | above, (v, ds) :: stack =>
    (∀ d ∈ ds, Edge succ v d) ∧ (∀ d, above = some d → Edge succ v d) ∧ Linked succ (some v) stack

theorem Linked.reaches {above : Option Nat} {v : Nat} {ds : List Nat} {stack : List (Nat × List Nat)}
    (h : Linked succ above ((v, ds) :: stack)) {u : Nat} (hu : u ∈ ((v, ds) :: stack).map (·.1)) :
    ReflTransGen (Edge succ) u v := by
  induction stack generalizing above v ds with
  | nil =>
    simp only [List.map_cons, List.map_nil, List.mem_singleton] at hu
    exact hu ▸ .refl
  | cons p stack ih =>
    obtain ⟨-, -, hrest⟩ := h
    rcases List.mem_cons.mp hu with rfl | hu
    · exact .refl
    · exact (ih hrest hu).tail (hrest.2.1 v rfl)

/-- The open nodes are a path, and what was found lies on a cycle. -/
structure Chained (succ : Nat → List Nat) (s : Search) : Prop where
  linked : Linked succ none s.stack
  found : ∀ v ∈ s.found, TransGen (Edge succ) v v

theorem Chained.step (h : s.Chained succ) (hst : Step n succ s t) : t.Chained succ := by
  obtain ⟨hlinked, hfound⟩ := h
  -- What is left of the top of the stack once its first successor has been looked at.
  have hrest {v d : Nat} {ds : List Nat} {stack : List (Nat × List Nat)} (hl : Linked succ none ((v, d :: ds) :: stack))
      (above : Option Nat) (ha : ∀ a, above = some a → a = d) : Linked succ above ((v, ds) :: stack) :=
    ⟨fun e he => hl.1 e (List.mem_cons_of_mem d he), fun a hs => hl.1 a (by simp [ha a hs]), hl.2.2⟩
  cases hst with
  | @close v stack hs =>
    rw [hs] at hlinked
    refine ⟨?_, hfound⟩
    cases stack with
    | nil => trivial
    | cons p stack => exact ⟨hlinked.2.2.1, by simp, hlinked.2.2.2.2⟩
  | @find v d ds stack hs ho =>
    rw [openNodes, hs] at ho
    rw [hs] at hlinked
    refine ⟨hrest hlinked none (by simp), fun w hw => ?_⟩
    rcases List.mem_append.mp hw with hw | hw
    · exact hfound w hw
    · -- The edge leads back to a node from which the path goes up to `v`.
      rw [List.mem_singleton.mp hw]
      exact TransGen.head' (hlinked.1 d List.mem_cons_self) (hlinked.reaches ho)
  | @descend v d ds stack hs ho hd =>
    rw [hs] at hlinked
    refine ⟨⟨fun e he => he, by simp, hrest hlinked (some d) ?_⟩, hfound⟩
    simp
  | @skip v d ds stack hs ho hd =>
    rw [hs] at hlinked
    exact ⟨hrest hlinked none (by simp), hfound⟩

theorem Chained.steps (h : s.Chained succ) (hst : ReflTransGen (Step n succ) s t) : t.Chained succ := by
  induction hst with
  | refl => exact h
  | tail _ hst ih => exact ih.step hst

theorem Chained.searchAll (h : s.Chained succ) (starts : List Nat) : (searchAll n succ s starts).Chained succ := by
  unfold Cycle.searchAll
  induction starts generalizing s with
  | nil => exact h
  | cons v starts ih =>
    rw [List.foldl_cons]
    apply ih
    split
    · exact h
    · refine Chained.steps ?_ (steps_search n succ _)
      exact ⟨⟨fun d hd => hd, by simp, trivial⟩, h.found⟩

end Search

/-! ## Cycles -/

theorem cyclic_of_mem_closingEdges {starts : List Nat} {v : Nat} (h : v ∈ closingEdges n succ starts) :
    TransGen (Edge succ) v v := by
  have hempty : (⟨[], [], []⟩ : Search).Chained succ := ⟨trivial, by simp⟩
  exact (hempty.searchAll starts).found v h

/-- If nothing is found, no node that the search started from lies on a cycle: weights decrease along the edges. -/
theorem not_cyclic_of_closingEdges {starts : List Nat} (hsucc : ∀ v, ∀ d ∈ succ v, d < n ∧ d ∈ starts)
    (h : closingEdges n succ starts = []) (v : Nat) : ¬ TransGen (Edge succ) v v := by
  obtain ⟨weight, hweight⟩ := exists_weight (fun v d hd => (hsucc v d hd).1) h
  have hedge {a b : Nat} (ha : a ∈ starts) (hab : Edge succ a b) : weight b < weight a := by
    have hle : weight b ≤ ((succ a).map weight).sum := List.single_le_sum (by simp) _ (List.mem_map_of_mem hab)
    rw [hweight a ha]
    omega
  have hpath {a b : Nat} (ha : a ∈ starts) (hab : TransGen (Edge succ) a b) : b ∈ starts ∧ weight b < weight a := by
    induction hab with
    | single hab => exact ⟨(hsucc _ _ hab).2, hedge ha hab⟩
    | tail _ hbc ih => exact ⟨(hsucc _ _ hbc).2, (hedge ih.1 hbc).trans ih.2⟩
  intro hv
  obtain ⟨u, -, huv⟩ := TransGen.tail'_iff.mp hv
  exact Nat.lt_irrefl _ (hpath (hsucc u v huv).2 hv).2

theorem closingEdges_ne_nil_iff {starts : List Nat} (hsucc : ∀ v, ∀ d ∈ succ v, d < n ∧ d ∈ starts) :
    closingEdges n succ starts ≠ [] ↔ ∃ v, TransGen (Edge succ) v v := by
  constructor
  · intro h
    obtain ⟨v, hv⟩ := List.exists_mem_of_ne_nil _ h
    exact ⟨v, cyclic_of_mem_closingEdges hv⟩
  · rintro ⟨v, hv⟩ h
    exact not_cyclic_of_closingEdges hsucc h v hv

end SpanLayout.Cycle
