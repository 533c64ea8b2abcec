import SpanLayout.Proofs.Tail.Expand
import SpanLayout.Tail.Measure

/-!
# What measuring does to a fragment

Measuring gives a fragment its smallest length. It asks for spans only where the length depends on values other than
the offset.
-/

namespace SpanLayout

/-! ## Fragments and their tails -/

section

variable {κ : Type} [Directive κ]

theorem Fragment.measureAt_of_none {f : Fragment (Tail κ)} (h : f.tail = none) (offset : Nat) :
    f.measureAt offset = .done ({ f with offset, tailLen := 0 }, []) () := by
  cases f
  subst h
  rw [Fragment.measureAt]

theorem Fragment.measureAt_of_some {f : Fragment (Tail κ)} {t : Tail κ} (h : f.tail = some t) (offset : Nat) :
    f.measureAt offset =
      match t.measure { f.info with offset } with
      | ⟨(t, spans), .ok tailLen⟩ => .done ({ f with offset, tail := some t, tailLen }, spans) ()
      | ⟨(t, spans), .error e⟩ => .fail ({ f with offset, tail := some t }, spans) e := by
  cases f
  subst h
  unfold Fragment.measureAt
  rfl

theorem Fragment.measureAt_state (offset : Nat) (f : Fragment (Tail κ)) :
    ∃ tail tailLen, (f.measureAt offset).state.1 = { f with offset, tail, tailLen } := by
  cases ht : f.tail with
  | none => exact ⟨f.tail, 0, by rw [Fragment.measureAt_of_none ht]; rfl⟩
  | some t =>
    rw [Fragment.measureAt_of_some ht]
    split
    · exact ⟨_, _, rfl⟩
    · exact ⟨_, f.tailLen, rfl⟩

theorem Fragment.offset_measureAt (offset : Nat) (f : Fragment (Tail κ)) :
    (f.measureAt offset).state.1.offset = offset := by
  obtain ⟨tail, tailLen, h⟩ := f.measureAt_state offset
  rw [h]

end

/-! ## What stays -/

theorem Tail.setsOffset_measure (info : FragmentInfo) (t : Tail Empty) :
    (t.measure info).state.1.setsOffset = t.setsOffset := by
  cases t with
  | times count body reps =>
    rw [Tail.measure]
    split
    · rfl
    · split
      · rfl
      · split <;> rfl
  | other d => exact d.elim
  | leb128 f =>
    rw [Tail.measure]
    rfl
  | gap _ | align _ | origin _ | branch _ =>
    rw [Tail.measure]
    rfl

theorem Fragment.frame_measureAt (offset : Nat) (f : Fragment (Tail Empty)) :
    (f.measureAt offset).state.1.frame = f.frame := by
  cases ht : f.tail with
  | none =>
    rw [Fragment.measureAt_of_none ht]
    rfl
  | some t =>
    have hs := Tail.setsOffset_measure { f.info with offset } t
    rw [Fragment.measureAt_of_some ht]
    split
    · rename_i heq
      rw [heq] at hs
      simpa [Fragment.frame, Attempt.done, Fragment.setsOffset, ht] using hs
    · rename_i heq
      rw [heq] at hs
      simpa [Fragment.frame, Attempt.fail, Fragment.setsOffset, ht] using hs

theorem Fragment.requests_of_setsOffset {f : Fragment (Tail Empty)} (h : f.setsOffset = true) (offset : Nat) :
    (f.measureAt offset).state.2 = [] := by
  obtain ⟨t, ht, hs⟩ := exists_tail_of_setsOffset h
  have hm : ∀ info, (t.measure info).state.2 = [] := by
    intro info
    cases t with
    | align _ | origin _ => rw [Tail.measure]; rfl
    | gap _ | leb128 _ | branch _ | times _ _ _ => exact absurd hs (by simp [Tail.setsOffset, Directive.setsOffset])
    | other d => exact nomatch d
  have hi := hm { f.info with offset }
  rw [Fragment.measureAt_of_some ht]
  split
  · rename_i heq
    rw [heq] at hi
    exact hi
  · rename_i heq
    rw [heq] at hi
    exact hi

/-! ## Errors -/

theorem Origin.padding_error {o : Origin} {info : FragmentInfo} {offset : Int} {e : Error}
    (h : o.padding info offset = .error e) : ∃ c : Cause, e = .one c ∧ c.pos?.isSome = true := by
  unfold padding at h
  dsimp only at h
  split at h
  · exact ⟨_, (Except.error.inj h).symm, rfl⟩
  · simp at h

mutual

theorem Tail.measure_error (info : FragmentInfo) (t : Tail Empty) (e : Error) :
    (t.measure info).result = .error e → ∃ c : Cause, e = .one c ∧ c.pos?.isSome = true := by
  match t with
  | .gap g =>
    rw [Tail.measure]
    exact nofun
  | .align a =>
    rw [Tail.measure]
    exact nofun
  | .branch b =>
    rw [Tail.measure]
    exact nofun
  | .origin o =>
    rw [Tail.measure, Attempt.mapState_result]
    simp only [Directive.measure]
    exact Origin.padding_error
  | .leb128 f =>
    rw [Tail.measure, Attempt.mapState_result]
    simp only [Directive.measure, Leb128.Field.measure]
    split <;> exact nofun
  | .other d => exact nomatch d
  | .times count body reps =>
    intro h
    rw [Tail.measure] at h
    split at h
    · rename_i hb
      cases h
      exact measureBody_error info 0 0 body.fragments _ (by rw [hb])
    · split at h
      · simp [Attempt.done] at h
      · split at h
        · rename_i hr
          cases h
          obtain ⟨c, he, hpos, -⟩ := Repetition.reps_error hr False
          exact ⟨c, he, hpos⟩
        · simp [Attempt.done] at h

theorem Fragment.measureAt_error (offset : Nat) (f : Fragment (Tail Empty)) (e : Error)
    (h : (f.measureAt offset).result = .error e) : ∃ c : Cause, e = .one c ∧ c.pos?.isSome = true := by
  match f with
  | { tail := none, .. } =>
    rw [Fragment.measureAt] at h
    simp [Attempt.done] at h
  | { tail := some t, .. } =>
    rw [Fragment.measureAt] at h
    split at h
    · simp [Attempt.done] at h
    · rename_i ht
      cases h
      exact Tail.measure_error _ t _ (by rw [ht])

theorem measureBody_error (owner : FragmentInfo) (slot offset : Nat) (fs : List (Fragment (Tail Empty))) (e : Error)
    (h : (measureBody owner slot offset fs).result = .error e) : ∃ c : Cause, e = .one c ∧ c.pos?.isSome = true := by
  match fs with
  | [] => simp [measureBody, Attempt.done] at h
  | f :: fs =>
    rw [measureBody] at h
    split at h
    · rename_i hf
      cases h
      exact Fragment.measureAt_error offset f _ (by rw [hf])
    · rename_i hf
      exact measureBody_error owner (slot + 1) _ fs e h

end

/-! ## Steady fragments -/

mutual

theorem Tail.steadyInside_measure (info : FragmentInfo) (t : Tail Empty) (h : t.steadyInside = true) :
    (t.measure info).state.1.steadyInside = true := by
  match t with
  | .gap _ | .align _ | .branch _ | .origin _ | .leb128 _ =>
    rw [Tail.measure]
    simp [Tail.steadyInside, Prod.map]
  | .other d => exact nomatch d
  | .times count body reps =>
    rw [Tail.steadyInside] at h
    have hb := steadyFragments_measureBody info 0 0 body.fragments h
    rw [Tail.measure]
    split
    · rename_i heq
      rw [heq] at hb
      rw [Attempt.fail, Tail.steadyInside]
      exact hb
    · rename_i heq
      rw [heq] at hb
      split
      · rw [Attempt.done, Tail.steadyInside]
        exact hb
      · split
        · rw [Attempt.fail, Tail.steadyInside]
          exact hb
        · rw [Attempt.done, Tail.steadyInside]
          exact hb

theorem Fragment.steady_measureAt (offset : Nat) (f : Fragment (Tail Empty)) (h : f.steady = true) :
    (f.measureAt offset).state.1.steady = true := by
  match f with
  | { tail := none, .. } =>
    rw [Fragment.measureAt]
    exact h
  | { tail := some t, .. } =>
    rw [Fragment.steady, Bool.and_eq_true] at h
    have hs {info : FragmentInfo} {x} (ht : t.measure info = x) :
        (!x.state.1.setsOffset && x.state.1.steadyInside) = true := by
      rw [← ht, Tail.setsOffset_measure, Tail.steadyInside_measure info t h.2, Bool.and_true, h.1]
    rw [Fragment.measureAt]
    split
    · rename_i ht
      rw [Attempt.done, Fragment.steady]
      exact hs ht
    · rename_i ht
      rw [Attempt.fail, Fragment.steady]
      exact hs ht

theorem steadyFragments_measureBody (owner : FragmentInfo) (slot offset : Nat) (fs : List (Fragment (Tail Empty)))
    (h : steadyFragments fs = true) : steadyFragments (measureBody owner slot offset fs).state.1 = true := by
  match fs with
  | [] =>
    rw [measureBody]
    exact h
  | f :: fs =>
    rw [steadyFragments, Bool.and_eq_true] at h
    have hf := Fragment.steady_measureAt offset f h.1
    rw [measureBody]
    split
    · rename_i heq
      rw [heq] at hf
      rw [Attempt.fail, steadyFragments, hf, h.2]
      rfl
    · rename_i g spans _ heq
      rw [heq] at hf
      have hfs := steadyFragments_measureBody owner (slot + 1) (offset + g.totalLen) fs h.2
      rw [Attempt.mapState_state, steadyFragments, hf, hfs]
      rfl

end

theorem Fragment.steadyInside_measureAt (offset : Nat) {f : Fragment (Tail Empty)} (h : f.steadyInside = true) :
    (f.measureAt offset).state.1.steadyInside = true := by
  cases ht : f.tail with
  | none =>
    rw [Fragment.measureAt_of_none ht]
    exact h
  | some t =>
    have hi := Tail.steadyInside_measure { f.info with offset } t (by simpa [Fragment.steadyInside, ht] using h)
    rw [Fragment.measureAt_of_some ht]
    split
    · rename_i heq
      simpa [Attempt.done, Fragment.steadyInside, heq] using hi
    · rename_i heq
      simpa [Attempt.fail, Fragment.steadyInside, heq] using hi

end SpanLayout
