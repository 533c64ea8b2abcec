import SpanLayout.Object
import SpanLayout.Proofs.Tail.Expand

/-!
# Where fragments lie

A fragment begins where the lengths before it in its section end. Laying sections out gives every fragment that offset;
it changes no length if every fragment that follows its offset already has the length for it.
-/

namespace SpanLayout

/-- The order of fragments: by section, and in a section by their place in it. -/
def FragmentRef.Before (a b : FragmentRef) : Prop :=
  a.sectionIndex < b.sectionIndex ∨ a.sectionIndex = b.sectionIndex ∧ a.index < b.index

theorem FragmentRef.Before.sectionIndex_le {a b : FragmentRef} (h : a.Before b) : a.sectionIndex ≤ b.sectionIndex := by
  unfold Before at h
  omega

theorem FragmentRef.before_or_before {a b : FragmentRef} (h : a ≠ b) : a.Before b ∨ b.Before a := by
  have : a.sectionIndex ≠ b.sectionIndex ∨ a.index ≠ b.index := by
    by_contra hn
    rw [not_or, not_not, not_not] at hn
    cases a
    cases b
    exact h (by simp_all)
  unfold Before
  omega

theorem FragmentRef.Before.ne {a b : FragmentRef} (h : a.Before b) : a ≠ b := by
  rintro rfl
  unfold Before at h
  omega

theorem forall₂_getElem? {α β : Type} {R : α → β → Prop} {as : List α} {bs : List β} (h : List.Forall₂ R as bs)
    (i : Nat) : (as[i]? = none ∧ bs[i]? = none) ∨ ∃ a b, as[i]? = some a ∧ bs[i]? = some b ∧ R a b := by
  induction h generalizing i with
  | nil => exact .inl ⟨rfl, rfl⟩
  | cons h _ ih =>
    cases i with
    | zero => exact .inr ⟨_, _, rfl, rfl, h⟩
    | succ i => simpa using ih i

theorem forall₂_comp {α β γ : Type} {R : α → β → Prop} {S : β → γ → Prop} {as : List α} {bs : List β} {cs : List γ}
    (h : List.Forall₂ R as bs) (h' : List.Forall₂ S bs cs) : List.Forall₂ (fun a c => ∃ b, R a b ∧ S b c) as cs := by
  induction h generalizing cs with
  | nil =>
    cases h'
    exact .nil
  | cons hab _ ih =>
    cases h' with
    | cons hbc hrest => exact .cons ⟨_, hab, hbc⟩ (ih hrest)

theorem exists_of_forall₂_right {α β : Type} {R : α → β → Prop} {as : List α} {bs : List β} (h : List.Forall₂ R as bs)
    {b : β} (hb : b ∈ bs) : ∃ a ∈ as, R a b := by
  induction h with
  | nil => exact nomatch hb
  | cons hab _ ih =>
    rcases List.mem_cons.mp hb with rfl | hb
    · exact ⟨_, List.mem_cons_self, hab⟩
    · obtain ⟨a, ha, hr⟩ := ih hb
      exact ⟨a, List.mem_cons_of_mem _ ha, hr⟩

/-! ## Lengths -/

namespace Fragment

variable {τ : Type}

@[simp] theorem sumLen_nil : sumLen ([] : List (Fragment τ)) = 0 := rfl

@[simp] theorem sumLen_cons (f : Fragment τ) (fs : List (Fragment τ)) : sumLen (f :: fs) = f.totalLen + sumLen fs := rfl

@[simp] theorem sumLen_append (fs gs : List (Fragment τ)) : sumLen (fs ++ gs) = sumLen fs + sumLen gs := by
  induction fs with
  | nil => simp
  | cons f fs ih => simp [ih, Nat.add_assoc]

theorem sumLen_take_succ {fs : List (Fragment τ)} {i : Nat} {f : Fragment τ} (h : fs[i]? = some f) :
    sumLen (fs.take (i + 1)) = sumLen (fs.take i) + f.totalLen := by
  simp [List.take_add_one, h]

@[simp] theorem sumLen_placeFrom (offset : Nat) (fs : List (Fragment τ)) :
    sumLen (placeFrom offset fs) = sumLen fs := by
  induction fs generalizing offset with
  | nil => rfl
  | cons f fs ih => exact congrArg (f.totalLen + ·) (ih _)

theorem sumLen_take_le (fs : List (Fragment τ)) (i : Nat) : sumLen (fs.take i) ≤ sumLen fs := by
  have h : sumLen fs = sumLen (fs.take i) + sumLen (fs.drop i) := by
    rw [← sumLen_append, List.take_append_drop]
  omega

theorem sumLen_take_set {fs : List (Fragment τ)} {i : Nat} {f : Fragment τ} (h : fs[i]? = some f) (g : Fragment τ)
    (j : Nat) :
    (sumLen ((fs.set i g).take j) : Int) =
      sumLen (fs.take j) + if i < j then (g.totalLen : Int) - f.totalLen else 0 := by
  induction fs generalizing i j with
  | nil => simp at h
  | cons a fs ih =>
    cases j with
    | zero => simp
    | succ j =>
      cases i with
      | zero =>
        obtain rfl : a = f := by simpa using h
        rw [if_pos (by omega)]
        simp only [List.set_cons_zero, List.take_succ_cons, sumLen_cons]
        omega
      | succ i =>
        have ih := ih (i := i) (by simpa using h) j
        simp only [List.set_cons_succ, List.take_succ_cons, sumLen_cons, Nat.add_lt_add_iff_right]
        omega

end Fragment

/-! ## Sections -/

namespace Sections

variable {κ : Type}

/-- The fragments of section `k`. -/
def fragmentsOf (ss : Sections κ) (k : Nat) : List (Fragment (Tail κ)) := (ss[k]?.map (·.block.fragments)).getD []

/-- The address at which section `k` starts. -/
def base (ss : Sections κ) (k : Nat) : Nat := (ss[k]?.map (·.start)).getD 0

/-- The length of section `k`. -/
def length (ss : Sections κ) (k : Nat) : Nat := Fragment.sumLen (ss.fragmentsOf k)

/-- Where a fragment begins, given the lengths before it. -/
def begins (ss : Sections κ) (r : FragmentRef) : Nat :=
  Fragment.sumLen ((ss.fragmentsOf r.sectionIndex).take r.index)

/-- Where a location lies, given the lengths before it. -/
def position (ss : Sections κ) (l : Location) : Nat := ss.begins l.fragment + l.offset

theorem fragment?_eq (ss : Sections κ) (r : FragmentRef) :
    ss.fragment? r = (ss.fragmentsOf r.sectionIndex)[r.index]? := by
  unfold fragment? fragmentsOf
  cases ss[r.sectionIndex]? <;> simp

/-- Whether all fragments have a property can be decided if it can be decided for each. -/
instance decidableForall {P : FragmentRef → Fragment (Tail κ) → Prop} [∀ r f, Decidable (P r f)] (ss : Sections κ) :
    Decidable (∀ r f, ss.fragment? r = some f → P r f) :=
  decidable_of_iff (∀ k < List.length ss, ∀ i < (ss.fragmentsOf k).length,
      (ss.fragment? ⟨k, i⟩).all (fun f => decide (P ⟨k, i⟩ f)) = true) <| by
    constructor
    · intro h r f hf
      obtain ⟨s, hs, hi⟩ := Option.bind_eq_some_iff.mp hf
      have hall := h r.sectionIndex (List.getElem?_eq_some_iff.mp hs).1 r.index
        (List.getElem?_eq_some_iff.mp (fragment?_eq ss r ▸ hf)).1
      rw [hf] at hall
      simpa using hall
    · intro h k _ i _
      cases hf : ss.fragment? ⟨k, i⟩ with
      | none => rfl
      | some f => simpa using h _ f hf

theorem fragmentsOf_setFragment (ss : Sections κ) (r : FragmentRef) (f : Fragment (Tail κ)) (k : Nat) :
    (ss.setFragment r f).fragmentsOf k =
      if r.sectionIndex = k then (ss.fragmentsOf k).set r.index f else ss.fragmentsOf k := by
  unfold fragmentsOf setFragment
  rw [List.getElem?_modify]
  cases ss[k]? <;> split <;> simp

@[simp] theorem base_setFragment (ss : Sections κ) (r : FragmentRef) (f : Fragment (Tail κ)) :
    (ss.setFragment r f).base = ss.base := by
  funext k
  unfold base setFragment
  rw [List.getElem?_modify]
  cases ss[k]? <;> split <;> simp

theorem fragment?_setFragment_self {ss : Sections κ} {r : FragmentRef} {f : Fragment (Tail κ)}
    (h : ss.fragment? r = some f) (g : Fragment (Tail κ)) : (ss.setFragment r g).fragment? r = some g := by
  rw [fragment?_eq] at h
  rw [fragment?_eq, fragmentsOf_setFragment, if_pos rfl, List.getElem?_set_self (List.getElem?_eq_some_iff.mp h).1]

theorem fragment?_setFragment_ne {r r' : FragmentRef} (h : r ≠ r') (ss : Sections κ) (g : Fragment (Tail κ)) :
    (ss.setFragment r g).fragment? r' = ss.fragment? r' := by
  rw [fragment?_eq, fragment?_eq, fragmentsOf_setFragment]
  split
  · rename_i hk
    have hi : r.index ≠ r'.index := fun hi => h (by cases r; cases r'; simp_all)
    rw [List.getElem?_set_ne hi]
  · rfl

theorem begins_add_totalLen_le {ss : Sections κ} {r : FragmentRef} {f : Fragment (Tail κ)}
    (h : ss.fragment? r = some f) : ss.begins r + f.totalLen ≤ ss.length r.sectionIndex := by
  rw [fragment?_eq] at h
  have hle := Fragment.sumLen_take_le (ss.fragmentsOf r.sectionIndex) (r.index + 1)
  rw [Fragment.sumLen_take_succ h] at hle
  exact hle

theorem begins_mono {ss : Sections κ} {k i j : Nat} (h : i ≤ j) : ss.begins ⟨k, i⟩ ≤ ss.begins ⟨k, j⟩ := by
  have hle := Fragment.sumLen_take_le ((ss.fragmentsOf k).take j) i
  rwa [List.take_take, Nat.min_eq_left h] at hle

theorem begins_setFragment {ss : Sections κ} {r : FragmentRef} {f : Fragment (Tail κ)}
    (h : ss.fragment? r = some f) (g : Fragment (Tail κ)) (r' : FragmentRef) :
    ((ss.setFragment r g).begins r' : Int) =
      ss.begins r' + if r.sectionIndex = r'.sectionIndex ∧ r.index < r'.index then (g.totalLen : Int) - f.totalLen
        else 0 := by
  rw [fragment?_eq] at h
  unfold begins
  rw [fragmentsOf_setFragment]
  by_cases hk : r.sectionIndex = r'.sectionIndex
  · rw [if_pos hk, ← hk, Fragment.sumLen_take_set h]
    simp
  · simp [hk]

theorem take_fragmentsOf_congr {ss ss' : Sections κ} {k i : Nat}
    (h : ∀ j < i, ss'.fragment? ⟨k, j⟩ = ss.fragment? ⟨k, j⟩) :
    (ss'.fragmentsOf k).take i = (ss.fragmentsOf k).take i := by
  apply List.ext_getElem?
  intro j
  by_cases hj : j < i
  · have := h j hj
    rw [fragment?_eq, fragment?_eq] at this
    rw [List.getElem?_take_of_lt hj, List.getElem?_take_of_lt hj, this]
  · rw [List.getElem?_take_eq_none (by omega), List.getElem?_take_eq_none (by omega)]

theorem begins_congr {ss ss' : Sections κ} {r : FragmentRef}
    (h : ∀ i < r.index, ss'.fragment? ⟨r.sectionIndex, i⟩ = ss.fragment? ⟨r.sectionIndex, i⟩) :
    ss'.begins r = ss.begins r := by
  unfold begins
  rw [take_fragmentsOf_congr h]

/-- Sections on their way from `a` to `z`: each has the fragments of `z` up to number `i` and those of `a` from there
on. -/
def mixed (a z : Sections κ) (i : Nat) : Sections κ :=
  a.mapIdx fun k s =>
    { s with block := { s.block with fragments := (z.fragmentsOf k).take i ++ s.block.fragments.drop i } }

theorem fragmentsOf_mixed (a z : Sections κ) (i k : Nat) :
    (mixed a z i).fragmentsOf k =
      if k < List.length a then (z.fragmentsOf k).take i ++ (a.fragmentsOf k).drop i else [] := by
  by_cases hk : k < List.length a <;> simp [fragmentsOf, mixed, hk]

/-- Every section of `u` is one that is passed on the way from `a` to `z`. -/
def Between (a z u : Sections κ) : Prop := ∀ k, ∃ i, u.fragmentsOf k = (mixed a z i).fragmentsOf k

theorem fragmentsOf_mixed_of_agree {a z : Sections κ} {k i : Nat}
    (h : ∀ j < i, z.fragment? ⟨k, j⟩ = a.fragment? ⟨k, j⟩) : (mixed a z i).fragmentsOf k = a.fragmentsOf k := by
  rw [fragmentsOf_mixed]
  split
  · rw [take_fragmentsOf_congr h, List.take_append_drop]
  · rename_i hk
    rw [fragmentsOf, List.getElem?_eq_none (by omega)]
    rfl

theorem fragmentsOf_mixed_setFragment {r : FragmentRef} {i : Nat} (h : r.index < i) (a z : Sections κ)
    (g : Fragment (Tail κ)) (k : Nat) :
    (mixed (a.setFragment r g) z i).fragmentsOf k = (mixed a z i).fragmentsOf k := by
  rw [fragmentsOf_mixed, fragmentsOf_mixed, fragmentsOf_setFragment,
    show List.length (a.setFragment r g) = List.length a from List.length_modify ..]
  split
  · split
    · rw [List.drop_set_of_lt h]
    · rfl
  · rfl

theorem between_setFragment {a z : Sections κ} {r : FragmentRef} {g : Fragment (Tail κ)}
    (h : ∀ j ≤ r.index, z.fragment? ⟨r.sectionIndex, j⟩ = (a.setFragment r g).fragment? ⟨r.sectionIndex, j⟩) :
    Between a z (a.setFragment r g) ∧ ∀ u, Between (a.setFragment r g) z u → Between a z u := by
  have hself : (a.setFragment r g).fragmentsOf r.sectionIndex =
      (mixed a z (r.index + 1)).fragmentsOf r.sectionIndex := by
    rw [← fragmentsOf_mixed_setFragment (Nat.lt_succ_self r.index) a z g,
      fragmentsOf_mixed_of_agree fun j hj => h j (Nat.le_of_lt_succ hj)]
  constructor
  · intro k
    by_cases hk : r.sectionIndex = k
    · subst hk
      exact ⟨r.index + 1, hself⟩
    · refine ⟨0, ?_⟩
      rw [fragmentsOf_mixed_of_agree (by omega), fragmentsOf_setFragment, if_neg hk]
  · intro u hu k
    obtain ⟨i, hi⟩ := hu k
    by_cases hcut : r.index < i
    · exact ⟨i, hi.trans (fragmentsOf_mixed_setFragment hcut a z g k)⟩
    by_cases hk : r.sectionIndex = k
    · subst hk
      refine ⟨r.index + 1, ?_⟩
      rw [hi, ← hself, fragmentsOf_mixed_of_agree fun j hj => h j (by omega)]
    · refine ⟨i, ?_⟩
      rw [hi, fragmentsOf_mixed, fragmentsOf_mixed, fragmentsOf_setFragment, if_neg hk,
        show List.length (a.setFragment r g) = List.length a from List.length_modify ..]

/-- What stays of the fragment called `r`. -/
def frame? [Directive κ] (ss : Sections κ) (r : FragmentRef) : Option Frame := (ss.fragment? r).map Fragment.frame

theorem frame?_setFragment [Directive κ] {ss : Sections κ} {r : FragmentRef} {f g : Fragment (Tail κ)}
    (h : ss.fragment? r = some f) (hg : g.frame = f.frame) : (ss.setFragment r g).frame? = ss.frame? := by
  funext r'
  unfold frame?
  by_cases hr : r = r'
  · rw [← hr, fragment?_setFragment_self h, h, Option.map_some, Option.map_some, hg]
  · rw [fragment?_setFragment_ne hr]

theorem exists_fragment_of_frame? [Directive κ] {ss : Sections κ} {r : FragmentRef} {a : Frame}
    (h : ss.frame? r = some a) : ∃ f, ss.fragment? r = some f ∧ f.frame = a := by
  unfold frame? at h
  exact Option.map_eq_some_iff.mp h

end Sections

/-! ## Padding -/

/-- A fragment that follows its offset has the length for `offset`. -/
def Fragment.PaddedAt (offset : Nat) (f : Fragment (Tail Empty)) : Prop :=
  ∀ t, f.tail = some t → t.setsOffset = true → t.padding? (offset + f.fixedLen) = some f.tailLen

theorem Fragment.paddedAt_of_not_setsOffset {f : Fragment (Tail Empty)} (h : f.setsOffset = false) (offset : Nat) :
    f.PaddedAt offset := by
  intro t ht hs
  rw [Fragment.setsOffset_of_some ht, hs] at h
  exact absurd h (by decide)

/-- A fragment with another offset, and another length if it follows the offset. -/
def Fragment.Relaid (f g : Fragment (Tail Empty)) : Prop :=
  ∃ offset len, g = { f with offset, tailLen := len } ∧ (f.setsOffset = false → len = f.tailLen)

namespace Fragment

theorem Relaid.frame {f g : Fragment (Tail Empty)} (h : Relaid f g) : g.frame = f.frame := by
  obtain ⟨offset, len, rfl, -⟩ := h
  rfl

theorem Relaid.tail {f g : Fragment (Tail Empty)} (h : Relaid f g) : g.tail = f.tail := by
  obtain ⟨offset, len, rfl, -⟩ := h
  rfl

theorem fixedLen_moveTo (f : Fragment (Tail Empty)) (offset : Nat) : (f.moveTo offset).state.fixedLen = f.fixedLen := by
  unfold moveTo
  dsimp only
  split
  · exact congrArg (·.fixed.length) (frame_expand 1 0 _ { f with offset })
  · rfl

theorem moveTo_cases (f : Fragment (Tail Empty)) {offset : Nat} (hb : offset + f.fixedLen < 9223372036854775808) :
    (∃ len, f.moveTo offset = .done { f with offset, tailLen := len } (offset + f.fixedLen + len) ∧
        PaddedAt offset { f with offset, tailLen := len } ∧ (f.PaddedAt offset → len = f.tailLen)) ∨
      ∃ c : Cause, f.moveTo offset = .fail { f with offset } (.one c) ∧ ¬ f.PaddedAt offset := by
  unfold moveTo
  by_cases hs : f.setsOffset = true
  · obtain ⟨t, ht, hts⟩ := exists_tail_of_setsOffset hs
    have hn : signed ({ f with offset } : Fragment (Tail Empty)).tailOffset = ((offset + f.fixedLen : Nat) : Int) :=
      signed_eq _ hb
    dsimp only
    rw [if_pos (show ({ f with offset } : Fragment (Tail Empty)).setsOffset = true from hs), hn]
    have hx := expand_setter (f := { f with offset }) ht hts 1 0 (offset + f.fixedLen)
    rcases hx with ⟨len, w, hp, hx⟩ | ⟨hp, c, hx⟩
    · refine .inl ⟨len, ?_, ?_, ?_⟩
      · rw [hx]
        simp [Attempt.done, Attempt.mapResult, Except.map, nextOffset, totalLen, fixedLen, Nat.add_assoc]
      · intro u hu _
        rw [← Option.some.inj (ht.symm.trans hu)]
        exact hp
      · intro h
        rw [h t ht hts, Option.some.injEq] at hp
        exact hp.symm
    · refine .inr ⟨c, ?_, fun h => ?_⟩
      · rw [hx]
        simp [Attempt.fail, Attempt.mapResult, Except.map]
      · rw [h t ht hts] at hp
        simp at hp
  · rw [Bool.not_eq_true] at hs
    refine .inl ⟨f.tailLen, ?_, paddedAt_of_not_setsOffset hs offset, fun _ => rfl⟩
    dsimp only
    rw [if_neg (by rw [Bool.not_eq_true]; exact hs)]
    simp [nextOffset, totalLen, fixedLen, Nat.add_assoc]

/-- Fragments that lie one after the other from `offset` on have the lengths for their offsets. -/
def PaddedFrom (offset : Nat) : List (Fragment (Tail Empty)) → Prop
  | [] => True
  | f :: fs => f.PaddedAt offset ∧ PaddedFrom (offset + f.totalLen) fs

theorem paddedFrom_iff (offset : Nat) (fs : List (Fragment (Tail Empty))) :
    PaddedFrom offset fs ↔
      ∀ (i : Nat) (f : Fragment (Tail Empty)), fs[i]? = some f → f.PaddedAt (offset + sumLen (fs.take i)) := by
  induction fs generalizing offset with
  | nil => simp [PaddedFrom]
  | cons f fs ih =>
    rw [PaddedFrom, ih]
    constructor
    · rintro ⟨hf, hfs⟩ i g hi
      cases i with
      | zero =>
        obtain rfl : f = g := by simpa using hi
        simpa using hf
      | succ i =>
        have := hfs i g (by simpa using hi)
        rwa [List.take_succ_cons, sumLen_cons, ← Nat.add_assoc]
    · intro h
      refine ⟨by simpa using h 0 f rfl, fun i g hi => ?_⟩
      have := h (i + 1) g (by simpa using hi)
      rwa [List.take_succ_cons, sumLen_cons, ← Nat.add_assoc] at this

theorem getElem?_placeFrom {τ : Type} (offset : Nat) (fs : List (Fragment τ)) (i : Nat) :
    (placeFrom offset fs)[i]? = fs[i]?.map fun f => { f with offset := offset + sumLen (fs.take i) } := by
  induction fs generalizing offset i with
  | nil => simp [placeFrom]
  | cons f fs ih =>
    cases i with
    | zero => simp [placeFrom]
    | succ i => simp [placeFrom, ih, Nat.add_assoc]

theorem take_placeFrom (offset i : Nat) (fs : List (Fragment (Tail Empty))) :
    (placeFrom offset fs).take i = placeFrom offset (fs.take i) := by
  induction fs generalizing offset i with
  | nil => simp [placeFrom]
  | cons f fs ih =>
    cases i with
    | zero => rfl
    | succ i => simp [placeFrom, ih]

end Fragment

theorem Section.size_of_placed {κ : Type} {s : Section κ}
    (h : s.block.fragments = Fragment.placeFrom 0 s.block.fragments) : s.size = Fragment.sumLen s.block.fragments := by
  unfold Section.size Block.size
  cases hf : s.block.fragments.getLast? with
  | none =>
    rw [List.getLast?_eq_none_iff.1 hf]
    rfl
  | some f =>
    obtain ⟨init, hinit⟩ := List.getLast?_eq_some_iff.1 hf
    have hp := Fragment.getElem?_placeFrom 0 s.block.fragments init.length
    rw [← h, hinit, List.getElem?_concat_length, Option.map_some, Option.some.injEq] at hp
    have hoffset := congrArg Fragment.offset hp
    rw [List.take_left] at hoffset
    dsimp only at hoffset ⊢
    rw [hinit, Fragment.sumLen_append, Fragment.sumLen_cons, Fragment.nextOffset, hoffset]
    simp

/-! ## Laying out -/

open Fragment

theorem hasErrors_layFragments (offset : Nat) {diags : Diagnostics} (h : diags.hasErrors = true)
    (fs : List (Fragment (Tail Empty))) : (layFragments offset diags fs).2.hasErrors = true := by
  induction fs generalizing offset diags with
  | nil => exact h
  | cons f fs ih => exact ih _ (Diagnostics.hasErrors_reportFailure h _)

theorem layFragments_cons_of_done {offset n : Nat} {f g : Fragment (Tail Empty)} (h : f.moveTo offset = .done g n)
    (hg : g.offset = offset) (diags : Diagnostics) (fs : List (Fragment (Tail Empty))) :
    layFragments offset diags (f :: fs) =
      (g :: (layFragments (offset + g.totalLen) diags fs).1, (layFragments (offset + g.totalLen) diags fs).2) := by
  rw [layFragments, h]
  dsimp only [Attempt.done, Diagnostics.reportFailure]
  rw [nextOffset, hg]

theorem hasErrors_layFragments_of_fail {offset : Nat} {f g : Fragment (Tail Empty)} {c : Cause}
    (h : f.moveTo offset = .fail g (.one c)) (diags : Diagnostics) (fs : List (Fragment (Tail Empty))) :
    (layFragments offset diags (f :: fs)).2.hasErrors = true := by
  rw [layFragments, h]
  exact hasErrors_layFragments _ (Diagnostics.hasErrors_report_one diags c) fs

theorem layFragments_of_padded {offset : Nat} (diags : Diagnostics) {fs : List (Fragment (Tail Empty))}
    (h : PaddedFrom offset fs) (hb : offset + sumLen fs < 9223372036854775808) :
    layFragments offset diags fs = (placeFrom offset fs, diags) := by
  induction fs generalizing offset with
  | nil => rfl
  | cons f fs ih =>
    rw [sumLen_cons] at hb
    have hfix : f.fixedLen ≤ f.totalLen := Nat.le_add_right ..
    rcases f.moveTo_cases (show offset + f.fixedLen < 9223372036854775808 by omega) with ⟨len, hm, -, hl⟩ | ⟨c, -, hn⟩
    · obtain rfl := hl h.1
      rw [layFragments_cons_of_done hm rfl]
      have hrest := ih h.2 (by omega)
      exact congrArg (fun x => (_ :: x.1, x.2)) hrest
    · exact absurd h.1 hn

theorem Block.lay_of_padded (diags : Diagnostics) {b : Block (Tail Empty)} (h : PaddedFrom 0 b.fragments)
    (hb : sumLen b.fragments < 9223372036854775808) :
    b.lay diags = ({ b with fragments := placeFrom 0 b.fragments }, diags) := by
  unfold Block.lay
  rw [layFragments_of_padded diags h (by omega)]

theorem layFragments_spec {offset : Nat} {diags : Diagnostics} {fs : List (Fragment (Tail Empty))}
    (hd : (layFragments offset diags fs).2.hasErrors = false)
    (hb : offset + sumLen (layFragments offset diags fs).1 < 9223372036854775808) :
    (layFragments offset diags fs).2 = diags ∧ PaddedFrom offset (layFragments offset diags fs).1 ∧
      (layFragments offset diags fs).1 = placeFrom offset (layFragments offset diags fs).1 ∧
      List.Forall₂ Relaid fs (layFragments offset diags fs).1 := by
  induction fs generalizing offset diags with
  | nil => exact ⟨rfl, trivial, rfl, .nil⟩
  | cons f fs ih =>
    have hfix : offset + f.fixedLen < 9223372036854775808 := by
      have hle : (f.moveTo offset).state.fixedLen ≤ (f.moveTo offset).state.totalLen := Nat.le_add_right ..
      rw [f.fixedLen_moveTo] at hle
      rw [layFragments, sumLen_cons] at hb
      omega
    rcases f.moveTo_cases hfix with ⟨len, hm, hp, hl⟩ | ⟨c, hm, -⟩
    · rw [layFragments_cons_of_done hm rfl] at hd hb ⊢
      rw [sumLen_cons, ← Nat.add_assoc] at hb
      obtain ⟨hdiags, hpadded, hplaced, hrelaid⟩ := ih hd hb
      refine ⟨hdiags, ⟨hp, hpadded⟩, congrArg (_ :: ·) hplaced, .cons ⟨offset, len, rfl, fun hs => ?_⟩ hrelaid⟩
      exact hl (paddedAt_of_not_setsOffset hs offset)
    · rw [hasErrors_layFragments_of_fail hm] at hd
      exact absurd hd (by decide)

namespace Sections

theorem hasErrors_lay {diags : Diagnostics} (h : diags.hasErrors = true) (ss : Sections Empty) :
    (ss.lay diags).2.hasErrors = true := by
  induction ss generalizing diags with
  | nil => exact h
  | cons s ss ih => exact ih (hasErrors_layFragments 0 h s.block.fragments)

/-- Every fragment that follows its offset has the length for it. -/
def Padded (ss : Sections Empty) : Prop := ∀ r f, ss.fragment? r = some f → f.PaddedAt (ss.begins r)

/-- Every fragment has the offset at which it begins. -/
def Placed (ss : Sections Empty) : Prop := ∀ r f, ss.fragment? r = some f → f.offset = ss.begins r

theorem padded_iff (ss : Sections Empty) : ss.Padded ↔ ∀ k, PaddedFrom 0 (ss.fragmentsOf k) := by
  constructor
  · intro h k
    rw [paddedFrom_iff]
    intro i f hi
    rw [Nat.zero_add]
    exact h ⟨k, i⟩ f (by rw [fragment?_eq]; exact hi)
  · intro h r f hr
    rw [fragment?_eq] at hr
    have := (paddedFrom_iff 0 _).mp (h r.sectionIndex) r.index f hr
    rwa [Nat.zero_add] at this

theorem placed_of_eq_placeFrom {ss : Sections Empty} (h : ∀ k, ss.fragmentsOf k = placeFrom 0 (ss.fragmentsOf k)) :
    ss.Placed := by
  intro r f hr
  rw [fragment?_eq] at hr
  have hp := hr
  rw [h, getElem?_placeFrom, hr, Option.map_some, Nat.zero_add, Option.some.injEq] at hp
  rw [← hp]
  rfl

/-- Unless an error is reported, laying sections out gives every fragment its offset and the length for it. -/
theorem lay_spec {diags : Diagnostics} {ss : Sections Empty} (hd : (ss.lay diags).2.hasErrors = false)
    (hb : ∀ k, (ss.lay diags).1.length k < 9223372036854775808) :
    (ss.lay diags).2 = diags ∧ (ss.lay diags).1.base = ss.base ∧
      ∀ k, PaddedFrom 0 ((ss.lay diags).1.fragmentsOf k) ∧
        (ss.lay diags).1.fragmentsOf k = placeFrom 0 ((ss.lay diags).1.fragmentsOf k) ∧
        List.Forall₂ Relaid (ss.fragmentsOf k) ((ss.lay diags).1.fragmentsOf k) := by
  induction ss generalizing diags with
  | nil => exact ⟨rfl, rfl, fun k => ⟨trivial, rfl, .nil⟩⟩
  | cons s ss ih =>
    have hs : (layFragments 0 diags s.block.fragments).2.hasErrors = false := by
      by_contra he
      rw [Bool.not_eq_false] at he
      exact Bool.false_ne_true (hd.symm.trans (hasErrors_lay he ss))
    obtain ⟨hdiags, hpadded, hplaced, hrelaid⟩ := layFragments_spec hs (by rw [Nat.zero_add]; exact hb 0)
    obtain ⟨hdiags', hbase, hall⟩ := ih hd fun k => hb (k + 1)
    refine ⟨hdiags'.trans hdiags, ?_, fun k => ?_⟩
    · funext k
      cases k with
      | zero => rfl
      | succ k => exact congrFun hbase k
    · cases k with
      | zero => exact ⟨hpadded, hplaced, hrelaid⟩
      | succ k => exact hall k

theorem fragment?_lay {diags : Diagnostics} {ss : Sections Empty} (hd : (ss.lay diags).2.hasErrors = false)
    (hb : ∀ k, (ss.lay diags).1.length k < 9223372036854775808) (r : FragmentRef) :
    (ss.fragment? r = none ∧ (ss.lay diags).1.fragment? r = none) ∨
      ∃ f g, ss.fragment? r = some f ∧ (ss.lay diags).1.fragment? r = some g ∧ Relaid f g := by
  rw [fragment?_eq, fragment?_eq]
  exact forall₂_getElem? ((lay_spec hd hb).2.2 r.sectionIndex).2.2 r.index

theorem frame?_lay {diags : Diagnostics} {ss : Sections Empty} (hd : (ss.lay diags).2.hasErrors = false)
    (hb : ∀ k, (ss.lay diags).1.length k < 9223372036854775808) : (ss.lay diags).1.frame? = ss.frame? := by
  funext r
  unfold frame?
  rcases fragment?_lay hd hb r with ⟨hn, hn'⟩ | ⟨f, g, hf, hg, h⟩
  · rw [hn, hn']
  · rw [hf, hg, Option.map_some, Option.map_some, h.frame]

theorem padded_lay {diags : Diagnostics} {ss : Sections Empty} (hd : (ss.lay diags).2.hasErrors = false)
    (hb : ∀ k, (ss.lay diags).1.length k < 9223372036854775808) : (ss.lay diags).1.Padded :=
  (padded_iff _).mpr fun k => ((lay_spec hd hb).2.2 k).1

theorem placed_lay {diags : Diagnostics} {ss : Sections Empty} (hd : (ss.lay diags).2.hasErrors = false)
    (hb : ∀ k, (ss.lay diags).1.length k < 9223372036854775808) : (ss.lay diags).1.Placed :=
  placed_of_eq_placeFrom fun k => ((lay_spec hd hb).2.2 k).2.1

theorem lay_of_padded (diags : Diagnostics) {ss : Sections Empty} (h : ss.Padded)
    (hb : ∀ k, ss.length k < 9223372036854775808) :
    (ss.lay diags).2 = diags ∧ ∀ k, (ss.lay diags).1.fragmentsOf k = placeFrom 0 (ss.fragmentsOf k) := by
  rw [padded_iff] at h
  induction ss generalizing diags with
  | nil => exact ⟨rfl, fun k => rfl⟩
  | cons s ss ih =>
    obtain ⟨hdiags, hall⟩ := ih diags (fun k => h (k + 1)) fun k => hb (k + 1)
    rw [Sections.lay, Block.lay_of_padded diags (h 0) (hb 0)]
    refine ⟨hdiags, fun k => ?_⟩
    cases k with
    | zero => rfl
    | succ k => exact hall k

theorem fragment?_lay_of_padded (diags : Diagnostics) {ss : Sections Empty} (h : ss.Padded)
    (hb : ∀ k, ss.length k < 9223372036854775808) (r : FragmentRef) :
    (ss.lay diags).1.fragment? r = (ss.fragment? r).map fun f => { f with offset := ss.begins r } := by
  rw [fragment?_eq, fragment?_eq, (lay_of_padded diags h hb).2, getElem?_placeFrom, Nat.zero_add]
  rfl

/-! ## Distances -/

theorem distance?_of_offset? {ss : Sections κ} {a b : Location} {x y : Nat} (hs : a.sameSection b = true)
    (ha : ss.offset? a = some x) (hb : ss.offset? b = some y) (hx : x < 9223372036854775808)
    (hy : y < 9223372036854775808) : ss.distance? a b = some ((y : Int) - x) := by
  simp [distance?, hs, ha, hb, signed_eq x hx, signed_eq y hy]

theorem offset?_of_placed {ss : Sections Empty} (hp : ss.Placed) {l : Location} {f : Fragment (Tail Empty)}
    (h : ss.fragment? l.fragment = some f) : ss.offset? l = some (ss.position l) := by
  rw [offset?, h, Option.map_some, hp _ _ h]
  rfl

theorem offset?_lay_of_padded (diags : Diagnostics) {ss : Sections Empty} (h : ss.Padded)
    (hb : ∀ k, ss.length k < 9223372036854775808) {l : Location} {f : Fragment (Tail Empty)}
    (hf : ss.fragment? l.fragment = some f) : (ss.lay diags).1.offset? l = some (ss.position l) := by
  rw [offset?, fragment?_lay_of_padded diags h hb, hf]
  rfl

end Sections

end SpanLayout
