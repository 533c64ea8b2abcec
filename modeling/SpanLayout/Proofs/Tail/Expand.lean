import SpanLayout.Proofs.Leb128
import SpanLayout.Tail.Expand

/-!
# What expanding does to a fragment

Expanding changes the tail of a fragment and its length. A fragment that follows its offset takes the padding for the
new offset and nothing else; any other takes a form whose window holds the value it was expanded for.
-/

namespace SpanLayout

/-! ## Fragments and their tails -/

section

variable {κ : Type} [Directive κ]

theorem Fragment.expand_of_none {f : Fragment (Tail κ)} (h : f.tail = none) (id old new : Int) :
    f.expand id old new = .done f (.settled 0) := by
  cases f
  subst h
  rw [Fragment.expand]

theorem Fragment.expand_of_some {f : Fragment (Tail κ)} {t : Tail κ} (h : f.tail = some t) (id old new : Int) :
    f.expand id old new =
      match t.expand f.info id old new with
      | ⟨t, .ok x⟩ => .done { f with tail := some t, tailLen := x.len } x
      | ⟨t, .error e⟩ => .fail { f with tail := some t } e := by
  cases f
  subst h
  unfold Fragment.expand
  rfl

theorem Fragment.setsOffset_of_some {f : Fragment (Tail κ)} {t : Tail κ} (h : f.tail = some t) :
    f.setsOffset = t.setsOffset := by
  simp [Fragment.setsOffset, h]

theorem Fragment.exists_tail_of_setsOffset {f : Fragment (Tail κ)} (h : f.setsOffset = true) :
    ∃ t, f.tail = some t ∧ t.setsOffset = true := by
  unfold Fragment.setsOffset at h
  cases ht : f.tail with
  | none => simp [ht] at h
  | some t => exact ⟨t, rfl, by simpa [ht] using h⟩

theorem Fragment.expand_state (id old new : Int) (f : Fragment (Tail κ)) :
    ∃ tail tailLen, (f.expand id old new).state = { f with tail, tailLen } := by
  cases ht : f.tail with
  | none => exact ⟨f.tail, f.tailLen, by rw [Fragment.expand_of_none ht]; rfl⟩
  | some t =>
    rw [Fragment.expand_of_some ht]
    split
    · exact ⟨_, _, rfl⟩
    · exact ⟨_, f.tailLen, rfl⟩

@[simp] theorem Fragment.offset_expand (id old new : Int) (f : Fragment (Tail κ)) :
    (f.expand id old new).state.offset = f.offset := by
  obtain ⟨tail, tailLen, h⟩ := f.expand_state id old new
  rw [h]

theorem Fragment.index_expand (id old new : Int) (f : Fragment (Tail κ)) :
    (f.expand id old new).state.index = f.index := by
  obtain ⟨tail, tailLen, h⟩ := f.expand_state id old new
  rw [h]

theorem Fragment.totalLen_expand_of_error {f : Fragment (Tail κ)} {id old new : Int} {e : Error}
    (h : (f.expand id old new).result = .error e) : (f.expand id old new).state.totalLen = f.totalLen := by
  cases ht : f.tail with
  | none =>
    rw [Fragment.expand_of_none ht] at h
    cases h
  | some t =>
    rw [Fragment.expand_of_some ht] at h ⊢
    split at h
    · cases h
    · rfl

end

/-! ## What stays -/

/-- What stays of a fragment while lengths and offsets change. -/
structure Frame where
  ref : FragmentRef
  index : Nat
  source : SourcePos
  fixed : List UInt8
  fixups : List Fixup
  setsOffset : Bool
deriving DecidableEq

def Fragment.frame {κ : Type} [Directive κ] (f : Fragment (Tail κ)) : Frame :=
  ⟨f.ref, f.index, f.source, f.fixed, f.fixups, f.setsOffset⟩

theorem Tail.setsOffset_expand (info : FragmentInfo) (id old new : Int) (t : Tail Empty) :
    (t.expand info id old new).state.setsOffset = t.setsOffset := by
  cases t with
  | times count body reps =>
    rw [Tail.expand]
    split
    · split <;> rfl
    · split
      · rfl
      · split <;> rfl
  | other d => exact nomatch d
  | gap _ | align _ | origin _ | leb128 _ | branch _ =>
    rw [Tail.expand]
    rfl

@[simp] theorem Fragment.frame_expand (id old new : Int) (f : Fragment (Tail Empty)) :
    (f.expand id old new).state.frame = f.frame := by
  cases ht : f.tail with
  | none => rw [Fragment.expand_of_none ht]; rfl
  | some t =>
    have hs := Tail.setsOffset_expand f.info id old new t
    rw [Fragment.expand_of_some ht]
    split
    · rename_i heq
      rw [heq] at hs
      simpa [Fragment.frame, Attempt.done, Fragment.setsOffset, ht] using hs
    · rename_i heq
      rw [heq] at hs
      simpa [Fragment.frame, Attempt.fail, Fragment.setsOffset, ht] using hs

/-! ## Directives that keep to themselves -/

/-- A directive that does not look at the number of its fragment, and that takes the same form again if it is told the
same offset again. -/
class LocalDirective (κ : Type) [Directive κ] : Prop where
  measure_index (info : FragmentInfo) (index : Nat) (d : κ) :
    Directive.measure { info with index } d = Directive.measure info d
  expand_index (info : FragmentInfo) (index : Nat) (id old new : Int) (d : κ) :
    Directive.expand { info with index } id old new d = Directive.expand info id old new d
  expand_again (info : FragmentInfo) (tailLen : Nat) (new : Int) (d : κ) (h : Directive.setsOffset d = true) :
    Directive.expand { info with tailLen } 1 0 new (Directive.expand info 1 0 new d).state =
      Directive.expand info 1 0 new d

instance : LocalDirective Empty where
  measure_index _ _ := nofun
  expand_index _ _ _ _ _ := nofun
  expand_again _ _ _ := nofun

/-! ## Fragments that follow their offset -/

theorem Align.end_mono (a : Align) {m n : Nat} (h : m ≤ n) : m + (a.paddingAt m).1 ≤ n + (a.paddingAt n).1 := by
  unfold paddingAt
  by_cases hb : a.boundaryVal ≤ 1
  · rw [if_pos hb, if_pos hb]
    exact h
  · have hpos : 0 < a.boundaryVal := by omega
    have hm := le_alignUp hpos m
    have hn := le_alignUp hpos n
    have hmono := alignUp_mono hpos h
    -- Up to the boundary behind `m`, the next boundary is the same, so less is skipped.
    have hsame : n ≤ alignUp a.boundaryVal m → alignUp a.boundaryVal n ≤ alignUp a.boundaryVal m :=
      alignUp_le hpos (dvd_alignUp _ _)
    rw [if_neg hb, if_neg hb]
    dsimp only
    cases a.maxSkipVal with
    | none =>
      dsimp only
      omega
    | some skip =>
      dsimp only
      split <;> split <;> dsimp only <;> omega

section

variable {κ : Type}

/-- The length of a tail that follows its offset, if it begins at `offset`. -/
def Tail.padding? (offset : Nat) : Tail κ → Option Nat
  | .align a => some (a.paddingAt offset).1
  | .origin o => if o.start < offset then none else some (o.start - offset)
  | _ => none

theorem Tail.padding?_of_le {t : Tail κ} {m n len : Nat} (h : t.padding? n = some len) (hmn : m ≤ n) :
    ∃ len', t.padding? m = some len' ∧ m + len' ≤ n + len := by
  -- From an earlier offset, a padding that fits ends no later.
  cases t with
  | align a =>
    obtain rfl := Option.some.inj h
    exact ⟨_, rfl, a.end_mono hmn⟩
  | origin o =>
    have h : (if o.start < n then none else some (o.start - n)) = some len := h
    split at h
    · cases h
    · obtain rfl := Option.some.inj h
      exact ⟨o.start - m, if_neg (by omega), by omega⟩
  | gap _ | leb128 _ | branch _ | times _ _ _ | other _ => cases h

/-- Whether a tail is an alignment or an origin. -/
def Tail.pads : Tail κ → Bool
  | .align _ | .origin _ => true
  | _ => false

variable [Directive κ]

theorem Tail.expand_padding {t : Tail κ} (h : t.pads = true) (info : FragmentInfo) (id old : Int) (n : Nat) :
    (∃ len w, t.padding? n = some len ∧ t.expand info id old n = .done t ⟨len, some w⟩) ∨
      (t.padding? n = none ∧ ∃ c : Cause, t.expand info id old n = .fail t (.one c)) := by
  cases t with
  | align a =>
    left
    exact ⟨_, _, rfl, by rw [Tail.expand]; rfl⟩
  | origin o =>
    rw [Tail.expand]
    by_cases ho : o.start < n
    · right
      refine ⟨if_pos ho, .originOverlap o.start n info.source, ?_⟩
      simp [Directive.expand, Origin.padding, ho, Attempt.mapState, Attempt.fail, Except.map]
    · left
      refine ⟨o.start - n, ⟨0, signed o.start⟩, if_neg ho, ?_⟩
      simp [Directive.expand, Origin.padding, ho, Attempt.mapState, Attempt.done, Except.map, Expansion.within]
  | gap _ | leb128 _ | branch _ | times _ _ _ | other _ => cases h

theorem Fragment.expand_padding {f : Fragment (Tail κ)} {t : Tail κ} (ht : f.tail = some t) (hp : t.pads = true)
    (id old : Int) (n : Nat) :
    (∃ len w, t.padding? n = some len ∧ f.expand id old n = .done { f with tailLen := len } ⟨len, some w⟩) ∨
      (t.padding? n = none ∧ ∃ c : Cause, f.expand id old n = .fail f (.one c)) := by
  rw [Fragment.expand_of_some ht]
  have hf : ({ f with tail := some t } : Fragment (Tail κ)) = f := by rw [← ht]
  rcases Tail.expand_padding hp f.info id old n with ⟨len, w, hp, he⟩ | ⟨hp, c, he⟩
  · left
    refine ⟨len, w, hp, ?_⟩
    simp only [he, Attempt.done, ← ht]
  · right
    refine ⟨hp, c, ?_⟩
    simp only [he, Attempt.fail, hf]

end

theorem Tail.pads_of_setsOffset {t : Tail Empty} (h : t.setsOffset = true) : t.pads = true := by
  cases t with
  | align _ | origin _ => rfl
  | gap _ | leb128 _ | branch _ | times _ _ _ => cases h
  | other d => exact d.elim

theorem Fragment.expand_setter {f : Fragment (Tail Empty)} {t : Tail Empty} (ht : f.tail = some t)
    (hs : t.setsOffset = true) (id old : Int) (n : Nat) :
    (∃ len w, t.padding? n = some len ∧ f.expand id old n = .done { f with tailLen := len } ⟨len, some w⟩) ∨
      (t.padding? n = none ∧ ∃ c : Cause, f.expand id old n = .fail f (.one c)) :=
  Fragment.expand_padding ht (Tail.pads_of_setsOffset hs) id old n

/-! ## Steady fragments -/

section

variable {κ : Type} [Directive κ]

mutual

/-- Whether nothing in the body of a repetition follows its offset. -/
def Tail.steadyInside : Tail κ → Bool
  | .times _ body _ => steadyFragments body.fragments
  | _ => true

/-- Whether neither a fragment nor anything inside it follows its offset. -/
def Fragment.steady : Fragment (Tail κ) → Bool
  | { tail := none, .. } => true
  | { tail := some t, .. } => !t.setsOffset && t.steadyInside

/-- Whether all fragments are steady. -/
def steadyFragments : List (Fragment (Tail κ)) → Bool
  | [] => true
  | f :: fs => f.steady && steadyFragments fs

end

/-- Whether nothing inside a fragment follows its offset; the fragment itself may. -/
def Fragment.steadyInside (f : Fragment (Tail κ)) : Bool := f.tail.all Tail.steadyInside

theorem Fragment.steady_placed (f : Fragment (Tail κ)) (offset : Nat) : ({ f with offset }).steady = f.steady := by
  match f with
  | { tail := none, .. } => rw [Fragment.steady, Fragment.steady]
  | { tail := some t, .. } => rw [Fragment.steady, Fragment.steady]

theorem steadyFragments_placeFrom (offset : Nat) (fs : List (Fragment (Tail κ))) :
    steadyFragments (Fragment.placeFrom offset fs) = steadyFragments fs := by
  induction fs generalizing offset with
  | nil => rw [Fragment.placeFrom]
  | cons f fs ih => rw [Fragment.placeFrom, steadyFragments, steadyFragments, ih, Fragment.steady_placed]

end

theorem Fragment.steady_iff (f : Fragment (Tail Empty)) :
    f.steady = true ↔ f.setsOffset = false ∧ f.steadyInside = true := by
  match f with
  | { tail := none, .. } => simp [Fragment.steady, Fragment.setsOffset, Fragment.steadyInside]
  | { tail := some t, .. } => simp [Fragment.steady, Fragment.setsOffset, Fragment.steadyInside]

theorem steadyFragments_iff (fs : List (Fragment (Tail Empty))) :
    steadyFragments fs = true ↔ ∀ f ∈ fs, f.steady = true := by
  induction fs with
  | nil => simp [steadyFragments]
  | cons f fs ih => simp [steadyFragments, ih]

mutual

theorem Tail.steadyInside_expand (info : FragmentInfo) (id old new : Int) (t : Tail Empty) (h : t.steadyInside = true) :
    (t.expand info id old new).state.steadyInside = true := by
  match t with
  | .gap _ | .align _ | .origin _ | .leb128 _ | .branch _ =>
    rw [Tail.expand]
    simp [Tail.steadyInside]
  | .other d => exact nomatch d
  | .times count body reps =>
    rw [Tail.expand]
    split
    · split
      · exact h
      · simpa [Attempt.done, Tail.steadyInside] using h
    · split
      · exact h
      · rename_i slot id' _
        rw [Tail.steadyInside] at h
        split
        · simpa [Attempt.fail, Tail.steadyInside] using h
        · rename_i hx
          simpa [Attempt.fail, Tail.steadyInside] using steadyFragments_expandInBody id' old new slot
            body.fragments h hx
        · rename_i hx
          simpa [Attempt.done, Tail.steadyInside, steadyFragments_placeFrom] using
            steadyFragments_expandInBody id' old new slot body.fragments h hx

theorem Fragment.steady_expand (id old new : Int) (f : Fragment (Tail Empty)) (h : f.steady = true) :
    (f.expand id old new).state.steady = true := by
  match f with
  | { tail := none, .. } =>
    rw [Fragment.expand]
    exact h
  | { tail := some t, .. } =>
    rw [Fragment.steady, Bool.and_eq_true] at h
    have hs {info : FragmentInfo} {x} (ht : t.expand info id old new = x) :
        (!x.state.setsOffset && x.state.steadyInside) = true := by
      rw [← ht, Tail.setsOffset_expand, Tail.steadyInside_expand info id old new t h.2, Bool.and_true, h.1]
    rw [Fragment.expand]
    split
    · rename_i ht
      rw [Attempt.done, Fragment.steady]
      exact hs ht
    · rename_i ht
      rw [Attempt.fail, Fragment.steady]
      exact hs ht

theorem steadyFragments_expandInBody (id old new : Int) (slot : Nat) (fs : List (Fragment (Tail Empty)))
    {x : Attempt Error (List (Fragment (Tail Empty))) Expansion} (h : steadyFragments fs = true)
    (hx : expandInBody id old new slot fs = some x) : steadyFragments x.state = true := by
  match slot, fs with
  | _, [] => simp [expandInBody] at hx
  | 0, f :: fs =>
    rw [steadyFragments, Bool.and_eq_true] at h
    rw [expandInBody, Option.some.injEq] at hx
    rw [← hx, Attempt.mapState_state, steadyFragments, Fragment.steady_expand id old new f h.1, h.2]
    rfl
  | slot + 1, f :: fs =>
    rw [steadyFragments, Bool.and_eq_true] at h
    rw [expandInBody, Option.map_eq_some_iff] at hx
    obtain ⟨y, hy, rfl⟩ := hx
    rw [Attempt.mapState_state, steadyFragments, h.1, steadyFragments_expandInBody id old new slot fs h.2 hy]
    rfl

end

theorem Fragment.steadyInside_expand (id old new : Int) {f : Fragment (Tail Empty)} (h : f.steadyInside = true) :
    (f.expand id old new).state.steadyInside = true := by
  cases ht : f.tail with
  | none =>
    rw [Fragment.expand_of_none ht]
    exact h
  | some t =>
    have hi := Tail.steadyInside_expand f.info id old new t (by simpa [Fragment.steadyInside, ht] using h)
    rw [Fragment.expand_of_some ht]
    split
    · rename_i heq
      simpa [Attempt.done, Fragment.steadyInside, heq] using hi
    · rename_i heq
      simpa [Attempt.fail, Fragment.steadyInside, heq] using hi

/-! ## Errors -/

/-- Whether the cause is an origin that lies before the end of what stands in front of it. -/
def Cause.isOverlap : Cause → Bool
  | .originOverlap .. => true
  | _ => false

/-- The error has a single cause, which lies somewhere. If `steady`, it is no overlap. -/
def Error.Failure (steady : Prop) (e : Error) : Prop :=
  ∃ c : Cause, e = .one c ∧ c.pos?.isSome = true ∧ (steady → c.isOverlap = false)

theorem Repetition.reps_error {info : FragmentInfo} {count : Int} {e : Error} (h : reps info count = .error e)
    (steady : Prop) : e.Failure steady := by
  unfold reps at h
  split at h
  · exact ⟨_, (Except.error.inj h).symm, rfl, fun _ => rfl⟩
  · split at h
    · exact ⟨_, (Except.error.inj h).symm, rfl, fun _ => rfl⟩
    · simp at h

theorem Leb128.Field.expand_error {info : FragmentInfo} {new : Int} {f : Field} {e : Error}
    (h : (f.expand info new).result = .error e) (steady : Prop) : e.Failure steady := by
  unfold expand at h
  split at h
  · exact ⟨_, (Except.error.inj h).symm, rfl, fun _ => rfl⟩
  · simp [Attempt.done] at h

mutual

/-- An expansion fails for a single cause, which lies somewhere. Where nothing follows its offset, it never finds an
overlap. -/
theorem Tail.expand_failure (info : FragmentInfo) (id old new : Int) (t : Tail Empty) {e : Error}
    (h : (t.expand info id old new).result = .error e) : e.Failure (t.setsOffset = false ∧ t.steadyInside = true) := by
  match t with
  | .gap g =>
    rw [Tail.expand] at h
    exact ⟨_, (Except.error.inj h).symm, rfl, fun _ => rfl⟩
  | .align a =>
    rw [Tail.expand] at h
    simp [Directive.expand, Attempt.done] at h
  | .origin o =>
    rw [Tail.expand] at h
    simp only [Directive.expand, Origin.padding, Attempt.mapState_result] at h
    split at h
    · exact ⟨_, (Except.error.inj h).symm, rfl, fun hs => by cases hs.1⟩
    · simp [Except.map] at h
  | .leb128 f =>
    rw [Tail.expand] at h
    exact Leb128.Field.expand_error h _
  | .branch b =>
    rw [Tail.expand] at h
    simp [Directive.expand, Branch.expand, Attempt.done] at h
  | .other d => exact nomatch d
  | .times count body reps =>
    rw [Tail.expand] at h
    split at h
    · split at h
      · rename_i hr
        cases h
        exact Repetition.reps_error hr _
      · simp [Attempt.done] at h
    · split at h
      · exact ⟨_, (Except.error.inj h).symm, rfl, fun _ => rfl⟩
      · rename_i slot id' _
        split at h
        · exact ⟨_, (Except.error.inj h).symm, rfl, fun _ => rfl⟩
        · rename_i hx
          obtain ⟨c, he, hpos, hc⟩ := expandInBody_failure id' old new slot body.fragments hx h
          exact ⟨c, he, hpos, fun hs => hc (by simpa only [Tail.steadyInside] using hs.2)⟩
        · simp [Attempt.done] at h

theorem Fragment.expand_failure (id old new : Int) (f : Fragment (Tail Empty)) {e : Error}
    (h : (f.expand id old new).result = .error e) : e.Failure (f.steady = true) := by
  match f with
  | { tail := none, .. } =>
    rw [Fragment.expand] at h
    simp [Attempt.done] at h
  | { tail := some t, .. } =>
    rw [Fragment.expand] at h
    split at h
    · simp [Attempt.done] at h
    · rename_i ht
      obtain ⟨c, he, hpos, hc⟩ := Tail.expand_failure _ id old new t (e := e) (by rw [ht]; exact h)
      refine ⟨c, he, hpos, fun hs => hc ?_⟩
      rwa [Fragment.steady, Bool.and_eq_true, Bool.not_eq_true'] at hs

theorem expandInBody_failure (id old new : Int) (slot : Nat) (fs : List (Fragment (Tail Empty)))
    {x : Attempt Error (List (Fragment (Tail Empty))) Expansion} (hx : expandInBody id old new slot fs = some x)
    {e : Error} (h : x.result = .error e) : e.Failure (steadyFragments fs = true) := by
  match slot, fs with
  | _, [] => simp [expandInBody] at hx
  | 0, f :: fs =>
    rw [expandInBody, Option.some.injEq] at hx
    rw [← hx] at h
    obtain ⟨c, he, hpos, hc⟩ := Fragment.expand_failure id old new f h
    exact ⟨c, he, hpos, fun hs => hc ((Bool.and_eq_true _ _).mp (by rwa [steadyFragments] at hs)).1⟩
  | slot + 1, f :: fs =>
    rw [expandInBody, Option.map_eq_some_iff] at hx
    obtain ⟨y, hy, rfl⟩ := hx
    obtain ⟨c, he, hpos, hc⟩ := expandInBody_failure id old new slot fs hy h
    exact ⟨c, he, hpos, fun hs => hc ((Bool.and_eq_true _ _).mp (by rwa [steadyFragments] at hs)).2⟩

end

theorem Fragment.expand_error (id old new : Int) (f : Fragment (Tail Empty)) {e : Error}
    (h : (f.expand id old new).result = .error e) : ∃ c : Cause, e = .one c ∧ c.pos?.isSome = true := by
  obtain ⟨c, he, hpos, -⟩ := expand_failure id old new f h
  exact ⟨c, he, hpos⟩

/-! ## Windows -/

theorem Repetition.unpack_nonneg {id id' : Int} {slot : Nat} (h : unpack id = some (slot, id')) (hid : 0 ≤ id) :
    0 ≤ id' := by
  unfold unpack at h
  split at h
  · simp at h
  · simp only [Option.some.injEq, Prod.mk.injEq] at h
    rw [← h.2]
    exact Int.mul_nonneg (Int.natCast_nonneg _) (Int.sign_nonneg_iff.mpr hid)

mutual

theorem Tail.expand_window (info : FragmentInfo) (id old new : Int) (t : Tail Empty) (hs : t.setsOffset = false)
    (hi : t.steadyInside = true) (hid : 0 ≤ id) (hl : -wordBound ≤ new) (hh : new < wordBound) {x : Expansion}
    {w : Window} (h : (t.expand info id old new).result = .ok x) (hw : x.window = some w) :
    w.contains new = true := by
  match t with
  | .gap g =>
    rw [Tail.expand] at h
    simp [Directive.expand, Directive.cannotExpand, Attempt.fail] at h
  | .align _ | .origin _ => simp [Tail.setsOffset, Directive.setsOffset] at hs
  | .leb128 f =>
    rw [Tail.expand, Attempt.mapState_result] at h
    simp only [Directive.expand, Leb128.Field.expand] at h
    split at h
    · simp [Attempt.fail] at h
    · simp only [Attempt.done, Except.ok.injEq] at h
      subst h
      rw [← Option.some.inj hw]
      exact Leb128.contains_window_widened f.isSigned f.len hl hh
  | .branch b =>
    rw [Tail.expand, Attempt.mapState_result] at h
    simp only [Directive.expand, Branch.expand, Attempt.done, Except.ok.injEq] at h
    subst h
    simp [Expansion.settled] at hw
  | .other d => exact nomatch d
  | .times count body reps =>
    rw [Tail.expand, if_neg (by unfold Repetition.countId; omega)] at h
    split at h
    · simp [Attempt.fail] at h
    · rename_i slot id' hu
      rw [Tail.steadyInside] at hi
      split at h
      · simp [Attempt.fail] at h
      · simp [Attempt.fail] at h
      · rename_i hx
        simp only [Attempt.done, Except.ok.injEq] at h
        subst h
        exact expandInBody_window id' old new slot body.fragments hi (Repetition.unpack_nonneg hu hid) hl hh hx rfl hw

theorem Fragment.expand_window (id old new : Int) (f : Fragment (Tail Empty)) (hf : f.steady = true) (hid : 0 ≤ id)
    (hl : -wordBound ≤ new) (hh : new < wordBound) {x : Expansion} {w : Window}
    (h : (f.expand id old new).result = .ok x) (hw : x.window = some w) : w.contains new = true := by
  match f with
  | { tail := none, .. } =>
    rw [Fragment.expand] at h
    simp only [Attempt.done, Except.ok.injEq] at h
    subst h
    simp [Expansion.settled] at hw
  | { tail := some t, .. } =>
    simp only [Fragment.steady, Bool.and_eq_true, Bool.not_eq_true'] at hf
    rw [Fragment.expand] at h
    split at h
    · rename_i ht
      simp only [Attempt.done, Except.ok.injEq] at h
      subst h
      exact Tail.expand_window _ id old new t hf.1 hf.2 hid hl hh (by rw [ht]) hw
    · simp [Attempt.fail] at h

theorem expandInBody_window (id old new : Int) (slot : Nat) (fs : List (Fragment (Tail Empty)))
    (hfs : steadyFragments fs = true) (hid : 0 ≤ id) (hl : -wordBound ≤ new) (hh : new < wordBound)
    {y : Attempt Error (List (Fragment (Tail Empty))) Expansion} {x : Expansion} {w : Window}
    (hy : expandInBody id old new slot fs = some y) (h : y.result = .ok x) (hw : x.window = some w) :
    w.contains new = true := by
  match slot, fs with
  | _, [] => simp [expandInBody] at hy
  | 0, f :: fs =>
    rw [steadyFragments, Bool.and_eq_true] at hfs
    rw [expandInBody, Option.some.injEq] at hy
    rw [← hy] at h
    exact Fragment.expand_window id old new f hfs.1 hid hl hh h hw
  | slot + 1, f :: fs =>
    rw [steadyFragments, Bool.and_eq_true] at hfs
    rw [expandInBody, Option.map_eq_some_iff] at hy
    obtain ⟨z, hz, rfl⟩ := hy
    exact expandInBody_window id old new slot fs hfs.2 hid hl hh hz h hw

end

end SpanLayout
