import SpanLayout.Proofs.Placement

/-!
# Laying out, whatever the size

What laying out does to fragments does not depend on what was reported before, and to do it twice is to do it once. The
numbers need not be words here.
-/

namespace SpanLayout

/-! ## One fragment -/

section

variable {κ : Type} [Directive κ]

theorem Tail.expand_again [LocalDirective κ] {t : Tail κ} (h : t.setsOffset = true) (info : FragmentInfo)
    (tailLen : Nat)
    (new : Int) : (t.expand info 1 0 new).state.expand { info with tailLen } 1 0 new = t.expand info 1 0 new := by
  cases t with
  | align a => rfl
  | origin o => rfl
  | other d =>
    simp only [Tail.expand, Attempt.mapState]
    rw [LocalDirective.expand_again info tailLen new d h]
  | _ => cases h

theorem Fragment.expand_expand [LocalDirective κ] {f : Fragment (Tail κ)} (hs : f.setsOffset = true) (new : Int) :
    (f.expand 1 0 new).state.expand 1 0 new = f.expand 1 0 new := by
  obtain ⟨t, ht, hst⟩ := exists_tail_of_setsOffset hs
  have hagain (tailLen : Nat) := Tail.expand_again hst f.info tailLen new
  rw [expand_of_some ht]
  obtain ⟨⟨t', r⟩, hx⟩ : ∃ x, t.expand f.info 1 0 new = x := ⟨_, rfl⟩
  rw [hx] at hagain
  cases r with
  | error e =>
    rw [hx]
    dsimp only [Attempt.fail]
    rw [expand_of_some rfl, show Fragment.info { f with tail := some t' } =
      { f.info with tailLen := f.tailLen } from rfl, hagain]
    rfl
  | ok x =>
    rw [hx]
    dsimp only [Attempt.done]
    rw [expand_of_some rfl,
      show Fragment.info { f with tail := some t', tailLen := x.len } =
          { f.info with tailLen := x.len } from rfl, hagain]
    rfl

theorem Fragment.moveTo_self {offset : Nat} {f : Fragment (Tail κ)} (h : f.offset = offset) :
    f.moveTo offset =
      if f.setsOffset then
        (f.expand 1 0 (signed f.tailOffset)).mapResult fun _ => (f.expand 1 0 (signed f.tailOffset)).state.nextOffset
      else .done f f.nextOffset := by
  subst h
  rfl

theorem Fragment.moveTo_moveTo [LocalDirective κ] (offset : Nat) (f : Fragment (Tail κ)) :
    ((f.moveTo offset).state.moveTo offset).state = (f.moveTo offset).state := by
  rw [show f.moveTo offset = ({ f with offset } : Fragment (Tail κ)).moveTo offset from rfl]
  obtain ⟨g, hg⟩ : ∃ g, ({ f with offset } : Fragment (Tail κ)) = g := ⟨_, rfl⟩
  have hoffset : g.offset = offset := by
    rw [← hg]
  rw [hg, moveTo_self hoffset]
  by_cases hs : g.setsOffset = true
  · rw [if_pos hs]
    dsimp only [Attempt.mapResult]
    obtain ⟨tail, tailLen, hstate⟩ := g.expand_state 1 0 (signed g.tailOffset)
    have hoffset' : (g.expand 1 0 (signed g.tailOffset)).state.offset = offset := by rw [hstate, hoffset]
    have htail : (g.expand 1 0 (signed g.tailOffset)).state.tailOffset = g.tailOffset := by
      rw [hstate]
      rfl
    rw [moveTo_self hoffset']
    -- A directive may stop to follow its offset.
    split
    · rw [htail, expand_expand hs]
      rfl
    · rfl
  · rw [if_neg hs]
    dsimp only [Attempt.done]
    rw [moveTo_self hoffset, if_neg hs]
    rfl

end

theorem Fragment.frame_moveTo (offset : Nat) (f : Fragment (Tail Empty)) : (f.moveTo offset).state.frame = f.frame := by
  rw [show f.moveTo offset = ({ f with offset } : Fragment (Tail Empty)).moveTo offset from rfl,
    moveTo_self (f := { f with offset }) rfl]
  split
  · exact frame_expand 1 0 _ { f with offset }
  · rfl

/-! ## All fragments -/

section

variable {κ : Type} [Directive κ]

theorem layFragments_diags (offset : Nat) (d d' : Diagnostics) (fs : List (Fragment (Tail κ))) :
    (layFragments offset d fs).1 = (layFragments offset d' fs).1 := by
  induction fs generalizing offset d d' with
  | nil => rfl
  | cons f fs ih => exact congrArg (_ :: ·) (ih _ _ _)

theorem layFragments_layFragments [LocalDirective κ] (offset : Nat) (d d' : Diagnostics)
    (fs : List (Fragment (Tail κ))) :
    (layFragments offset d (layFragments offset d' fs).1).1 = (layFragments offset d' fs).1 := by
  induction fs generalizing offset d d' with
  | nil => rfl
  | cons f fs ih =>
    simp only [layFragments, Fragment.moveTo_moveTo]
    exact congrArg (_ :: ·) (ih _ _ _)

theorem Sections.fragmentsOf_lay (d d' : Diagnostics) (ss : Sections κ) (k : Nat) :
    (ss.lay d).1.fragmentsOf k = (layFragments 0 d' (ss.fragmentsOf k)).1 := by
  induction ss generalizing d k with
  | nil => rfl
  | cons s ss ih =>
    cases k with
    | zero => exact layFragments_diags 0 d d' s.block.fragments
    | succ k => exact ih _ k

end

theorem frames_layFragments (offset : Nat) (d : Diagnostics) (fs : List (Fragment (Tail Empty))) :
    (layFragments offset d fs).1.map Fragment.frame = fs.map Fragment.frame := by
  induction fs generalizing offset d with
  | nil => rfl
  | cons f fs ih => exact congrArg₂ (· :: ·) (f.frame_moveTo offset) (ih _ _)

namespace Sections

theorem base_lay (d : Diagnostics) (ss : Sections Empty) : (ss.lay d).1.base = ss.base := by
  funext k
  induction ss generalizing d k with
  | nil => rfl
  | cons s ss ih =>
    cases k with
    | zero => rfl
    | succ k => exact ih _ k

theorem frames_lay (d : Diagnostics) (ss : Sections Empty) : (ss.lay d).1.frame? = ss.frame? := by
  funext r
  rw [frame?, frame?, fragment?_eq, fragment?_eq, fragmentsOf_lay d d, ← List.getElem?_map, ← List.getElem?_map,
    frames_layFragments]

end Sections

end SpanLayout
