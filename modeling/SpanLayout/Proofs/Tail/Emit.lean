import SpanLayout.Proofs.Reshape
import SpanLayout.Tail.Emit

/-!
# How long an emission is

A fragment emits as many bytes as its length says, as long as that length is the one of the form its tail has.
Measuring sees to that, and expanding keeps it, in repetitions of any depth.
-/

namespace SpanLayout

theorem Except.bind_eq_ok {ε α β : Type} {x : Except ε α} {f : α → Except ε β} {b : β} (h : x.bind f = .ok b) :
    ∃ a, x = .ok a ∧ f a = .ok b := by
  cases x with
  | error e => cases h
  | ok a => exact ⟨a, rfl, h⟩

/-! ## Exact lengths -/

section

variable {κ : Type}

mutual

/-- Whether `len` is the length of the form that a tail has. Padding and LEB128 take any length. -/
def Tail.Exact (len : Nat) : Tail κ → Prop
  | .gap g => len = g.size
  | .branch b => len = b.encoding.len
  | .times _ body reps => len = Fragment.sumLen body.fragments * reps ∧ ExactFragments body.fragments
  | .align _ | .origin _ | .leb128 _ | .other _ => True

/-- Whether the length of a fragment is the one of the form that its tail has. -/
def Fragment.Exact : Fragment (Tail κ) → Prop
  | { tail := none, tailLen, .. } => tailLen = 0
  | { tail := some t, tailLen, .. } => t.Exact tailLen

def ExactFragments : List (Fragment (Tail κ)) → Prop
  | [] => True
  | f :: fs => f.Exact ∧ ExactFragments fs

end

theorem exactFragments_iff (fs : List (Fragment (Tail κ))) : ExactFragments fs ↔ ∀ f ∈ fs, f.Exact := by
  induction fs with
  | nil => simp [ExactFragments]
  | cons f fs ih => simp [ExactFragments, ih]

theorem Fragment.exact_of_none {f : Fragment (Tail κ)} (h : f.tail = none) : f.Exact ↔ f.tailLen = 0 := by
  cases f
  subst h
  rw [Fragment.Exact]

theorem Fragment.exact_of_some {f : Fragment (Tail κ)} {t : Tail κ} (h : f.tail = some t) :
    f.Exact ↔ t.Exact f.tailLen := by
  cases f
  subst h
  rw [Fragment.Exact]

theorem Fragment.Exact.moved {f : Fragment (Tail κ)} (h : f.Exact) (offset : Nat) :
    Fragment.Exact { f with offset } := by
  match f with
  | { tail := none, .. } => exact h
  | { tail := some t, .. } => exact h

theorem exactFragments_placeFrom (offset : Nat) {fs : List (Fragment (Tail κ))} (h : ExactFragments fs) :
    ExactFragments (Fragment.placeFrom offset fs) := by
  induction fs generalizing offset with
  | nil => exact h
  | cons f fs ih =>
    rw [ExactFragments] at h
    rw [Fragment.placeFrom, ExactFragments]
    exact ⟨h.1.moved offset, ih _ h.2⟩

end

/-! ## Lawful directives -/

/-- A directive that writes as many bytes as it was last said to be long, and that says why it cannot be measured. -/
class LawfulDirective (κ : Type) [Directive κ] : Prop where
  length_emit {site : Site} {at_ : Nat} {info : FragmentInfo} {d : κ} {e : Emission}
    (h : Directive.emit site at_ info d = .ok e) : e.length = info.tailLen
  reported_measure {info : FragmentInfo} {d : κ} {e : Error} (h : (Directive.measure info d).result = .error e) :
    e.parts ≠ []

instance : LawfulDirective Empty where
  length_emit {_ _ _ d} := nomatch d
  reported_measure {_ d} := nomatch d

/-- A directive that says why it cannot be finalized or written, and takes back nothing that was reported. -/
class CandidDirective (κ : Type) [Directive κ] : Prop where
  reported_finalize {symbols : SymbolTable} {info : FragmentInfo} {diags : Diagnostics} {d : κ} {e : Error}
    (h : (Directive.finalize symbols info diags d).result = .error e) : e.parts ≠ []
  hasErrors_finalize (symbols : SymbolTable) (info : FragmentInfo) {diags : Diagnostics} (d : κ)
    (h : diags.hasErrors = true) : (Directive.finalize symbols info diags d).state.2.hasErrors = true
  reported_emit {site : Site} {at_ : Nat} {info : FragmentInfo} {d : κ} {e : Error}
    (h : Directive.emit site at_ info d = .error e) : e.parts ≠ []

instance : CandidDirective Empty where
  reported_finalize {_ _ _ d} := nomatch d
  hasErrors_finalize _ _ _ d := nomatch d
  reported_emit {_ _ _ d} := nomatch d

/-! ## Measuring and expanding -/

section

variable {κ : Type} [Directive κ]

mutual

theorem Tail.exact_measure (info : FragmentInfo) (t : Tail κ) {len : Nat} (h : (t.measure info).result = .ok len) :
    (t.measure info).state.1.Exact len := by
  revert h
  match t with
  | .gap g =>
    rw [Tail.measure]
    intro h
    cases h
    rfl
  | .align a | .origin o | .leb128 f | .other d =>
    rw [Tail.measure]
    simp [Tail.Exact]
  | .branch b =>
    rw [Tail.measure]
    intro h
    cases h
    rfl
  | .times count body reps =>
    have hb := exactFragments_measureBody info 0 0 body.fragments
    rw [Tail.measure]
    split
    · exact nofun
    · rename_i hm
      rw [hm] at hb
      split
      · intro h
        cases h
        exact ⟨rfl, hb rfl⟩
      · split
        · exact nofun
        · intro h
          cases h
          exact ⟨rfl, hb rfl⟩

theorem Fragment.exact_measureAt (offset : Nat) (f : Fragment (Tail κ)) (h : (f.measureAt offset).result = .ok ()) :
    (f.measureAt offset).state.1.Exact := by
  revert h
  match f with
  | { tail := none, .. } =>
    rw [Fragment.measureAt]
    simp [Attempt.done, Fragment.Exact]
  | { tail := some t, .. } =>
    rw [Fragment.measureAt]
    split
    · rename_i hm
      have ht := Tail.exact_measure _ t (congrArg (·.result) hm)
      rw [hm] at ht
      exact fun _ => ht
    · exact nofun

theorem exactFragments_measureBody (owner : FragmentInfo) (slot offset : Nat) (fs : List (Fragment (Tail κ)))
    (h : (measureBody owner slot offset fs).result = .ok ()) :
    ExactFragments (measureBody owner slot offset fs).state.1 := by
  revert h
  match fs with
  | [] => simp [measureBody, Attempt.done, ExactFragments]
  | f :: fs =>
    have hf := Fragment.exact_measureAt offset f
    rw [measureBody]
    split
    · exact nofun
    · rename_i hm
      rw [hm] at hf
      exact fun h => ⟨hf rfl, exactFragments_measureBody owner (slot + 1) _ fs h⟩

end

mutual

theorem Tail.reported_measure [LawfulDirective κ] (info : FragmentInfo) (t : Tail κ) {e : Error}
    (h : (t.measure info).result = .error e) : e.parts ≠ [] := by
  revert h
  match t with
  | .gap _ | .align _ | .branch _ =>
    rw [Tail.measure]
    exact nofun
  | .origin o =>
    rw [Tail.measure]
    dsimp only [Directive.measure, Attempt.mapState_result]
    unfold Origin.padding
    dsimp only
    split
    · intro h
      cases h
      exact List.cons_ne_nil _ _
    · exact nofun
  | .leb128 f =>
    rw [Tail.measure]
    dsimp only [Directive.measure, Attempt.mapState_result]
    unfold Leb128.Field.measure
    split
    · exact nofun
    · exact nofun
  | .other d =>
    rw [Tail.measure]
    exact LawfulDirective.reported_measure
  | .times count body reps =>
    have hb {e : Error} := reported_measureBody info 0 0 body.fragments (e := e)
    rw [Tail.measure]
    split
    · rename_i hm
      rw [hm] at hb
      intro h
      cases h
      exact hb rfl
    · split
      · exact nofun
      · split
        · rename_i hreps
          intro h
          cases h
          unfold Repetition.reps at hreps
          split at hreps
          · cases hreps
            exact List.cons_ne_nil _ _
          · split at hreps
            · cases hreps
              exact List.cons_ne_nil _ _
            · cases hreps
        · exact nofun

theorem Fragment.reported_measureAt [LawfulDirective κ] (offset : Nat) (f : Fragment (Tail κ)) {e : Error}
    (h : (f.measureAt offset).result = .error e) : e.parts ≠ [] := by
  revert h
  match f with
  | { tail := none, .. } =>
    rw [Fragment.measureAt]
    exact nofun
  | { tail := some t, .. } =>
    rw [Fragment.measureAt]
    split
    · exact nofun
    · rename_i hm
      intro h
      cases h
      exact Tail.reported_measure _ t (congrArg (·.result) hm)

theorem reported_measureBody [LawfulDirective κ] (owner : FragmentInfo) (slot offset : Nat)
    (fs : List (Fragment (Tail κ)))
    {e : Error} (h : (measureBody owner slot offset fs).result = .error e) : e.parts ≠ [] := by
  revert h
  match fs with
  | [] => exact nofun
  | f :: fs =>
    rw [measureBody]
    split
    · rename_i hm
      intro h
      cases h
      exact Fragment.reported_measureAt offset f (congrArg (·.result) hm)
    · exact fun h => reported_measureBody owner (slot + 1) _ fs h

end

mutual

theorem Tail.exact_expand (info : FragmentInfo) (id old new : Int) (t : Tail κ) {len : Nat} (ht : t.Exact len)
    {x : Attempt Error (Tail κ) Expansion} (hx : t.expand info id old new = x) :
    x.state.Exact (x.result.toOption.elim len Expansion.len) := by
  subst hx
  match t with
  | .gap g =>
    rw [Tail.expand]
    exact ht
  | .align a | .origin o | .leb128 f | .other d =>
    rw [Tail.expand]
    simp [Tail.Exact]
  | .branch b =>
    rw [Tail.expand]
    rfl
  | .times count body reps =>
    rw [Tail.Exact] at ht
    rw [Tail.expand]
    split
    · split
      · exact ht
      · exact ⟨rfl, ht.2⟩
    · split
      · exact ht
      · rename_i slot id' _
        split
        · exact ht
        · rename_i fragments e hx
          obtain ⟨hb, hlen⟩ := exactFragments_expandInBody id' old new slot body.fragments ht.2 hx
          exact ⟨ht.1.trans (by rw [hlen e rfl]), hb⟩
        · rename_i hx
          obtain ⟨hb, -⟩ := exactFragments_expandInBody id' old new slot body.fragments ht.2 hx
          exact ⟨by rw [Fragment.sumLen_placeFrom]; rfl, exactFragments_placeFrom 0 hb⟩

theorem Fragment.exact_expand (id old new : Int) (f : Fragment (Tail κ)) (hf : f.Exact) :
    (f.expand id old new).state.Exact := by
  match f with
  | { tail := none, .. } =>
    rw [Fragment.expand]
    exact hf
  | { tail := some t, .. } =>
    rw [Fragment.Exact] at hf
    rw [Fragment.expand]
    split
    · rename_i hx
      exact Tail.exact_expand _ id old new t hf hx
    · rename_i hx
      exact Tail.exact_expand _ id old new t hf hx

theorem exactFragments_expandInBody (id old new : Int) (slot : Nat) (fs : List (Fragment (Tail κ)))
    (hfs : ExactFragments fs) {x : Attempt Error (List (Fragment (Tail κ))) Expansion}
    (hx : expandInBody id old new slot fs = some x) :
    ExactFragments x.state ∧ ∀ e, x.result = .error e → Fragment.sumLen x.state = Fragment.sumLen fs := by
  match slot, fs with
  | _, [] => simp [expandInBody] at hx
  | 0, f :: fs =>
    rw [ExactFragments] at hfs
    rw [expandInBody, Option.some.injEq] at hx
    subst hx
    refine ⟨⟨Fragment.exact_expand id old new f hfs.1, hfs.2⟩, fun e he => ?_⟩
    show Fragment.sumLen ((f.expand id old new).state :: fs) = _
    rw [Fragment.sumLen_cons, Fragment.sumLen_cons, Fragment.totalLen_expand_of_error he]
  | slot + 1, f :: fs =>
    rw [ExactFragments] at hfs
    rw [expandInBody, Option.map_eq_some_iff] at hx
    obtain ⟨y, hy, rfl⟩ := hx
    obtain ⟨hb, hlen⟩ := exactFragments_expandInBody id old new slot fs hfs.2 hy
    refine ⟨⟨hfs.1, hb⟩, fun e he => ?_⟩
    show Fragment.sumLen (f :: y.state) = _
    rw [Fragment.sumLen_cons, Fragment.sumLen_cons, hlen e he]

end

end

/-! ## Emitting -/

theorem Site.length_field {site : Site} {at_ size : Nat} {v : Value} {pos : SourcePos} {e : Emission}
    (h : site.field at_ size v pos = .ok e) : e.length = size := by
  unfold Site.field at h
  split at h
  · cases h
  · split at h
    · cases h
    · split at h
      · cases h
        exact littleEndian_length _ _
      · cases h

theorem Fixup.length_patch {site : Site} {at_ : Nat} {pos : SourcePos} {fs : List Fixup} {bytes : List UInt8}
    {e : Emission} (h : patch site at_ pos fs bytes = .ok e) : e.length = bytes.length := by
  induction fs generalizing bytes e with
  | nil =>
    rw [patch] at h
    cases h
    rfl
  | cons f fs ih =>
    rw [patch] at h
    split at h
    · cases h
    · rename_i hlen
      obtain ⟨field, hfield, h⟩ := Except.bind_eq_ok h
      obtain ⟨rest, hrest, h⟩ := Except.bind_eq_ok h
      cases h
      have hf := Site.length_field hfield
      have hr := ih hrest
      simp only [Emission.length, List.length_append, List.length_take, List.length_drop] at hf hr ⊢
      omega

theorem Emission.length_times {emit : Nat → Except Error Emission} {len : Nat}
    (hemit : ∀ at_ e, emit at_ = .ok e → e.length = len) {n at_ : Nat} {e : Emission} (h : times emit n at_ = .ok e) :
    e.length = len * n := by
  induction n generalizing at_ e with
  | zero =>
    rw [times] at h
    cases h
    rfl
  | succ n ih =>
    rw [times] at h
    obtain ⟨first, hfirst, h⟩ := Except.bind_eq_ok h
    obtain ⟨rest, hrest, h⟩ := Except.bind_eq_ok h
    cases h
    rw [Emission.length_append, hemit _ _ hfirst, ih hrest, Nat.mul_succ, Nat.add_comm]

theorem length_nop {n : Nat} (h : n ≤ 9) : (nop n).length = n := by
  obtain rfl | rfl | rfl | rfl | rfl | rfl | rfl | rfl | rfl | rfl :
    n = 0 ∨ n = 1 ∨ n = 2 ∨ n = 3 ∨ n = 4 ∨ n = 5 ∨ n = 6 ∨ n = 7 ∨ n = 8 ∨ n = 9 := by omega
  all_goals rfl

theorem Padding.length_emit (n : Nat) (p : Padding) : (p.emit n).length = n := by
  cases p with
  | zeros => simp [Padding.emit]
  | bytes b => simp [Padding.emit]
  | nops =>
    have h9 := length_nop (Nat.le_refl 9)
    have hr := length_nop (show n % 9 ≤ 9 by omega)
    simp only [Padding.emit, Emission.length_ofBytes, List.length_append, List.length_flatten, List.map_replicate,
      List.sum_replicate_nat, h9, hr]
    omega

theorem Branch.length_emit {site : Site} {at_ : Nat} {info : FragmentInfo} {b : Branch} {e : Emission}
    (h : b.emit site at_ info = .ok e) : e.length = b.encoding.len := by
  unfold Branch.emit at h
  dsimp only at h
  split at h
  · cases h
  · split at h
    · cases h
      simp [Emission.length, Encoding.len]
    · split at h
      · split at h
        · cases h
          simp [Encoding.len]
        · cases h
      · cases h

theorem Leb128.Field.length_emit {site : Site} {info : FragmentInfo} {f : Field} {e : Emission}
    (h : f.emit site info = .ok e) : e.length = info.tailLen := by
  unfold Leb128.Field.emit at h
  split at h
  · cases h
  · dsimp only at h
    split at h
    · rename_i hlen
      cases h
      exact hlen
    · cases h

section

variable {κ : Type} [Directive κ]

theorem Fragment.emit_of_none {f : Fragment (Tail κ)} (h : f.tail = none) (site : Site) (at_ : Nat) :
    f.emit site at_ = Fixup.patch site at_ f.source f.fixups f.fixed := by
  cases f
  subst h
  rw [Fragment.emit]
  cases Fixup.patch site at_ _ _ _ <;> rfl

theorem Fragment.emit_of_some {f : Fragment (Tail κ)} {t : Tail κ} (h : f.tail = some t) (site : Site) (at_ : Nat) :
    f.emit site at_ = (Fixup.patch site at_ f.source f.fixups f.fixed).bind fun fixed =>
      (t.emit site (at_ + fixed.length) f.info).bind fun tail => .ok (fixed ++ tail) := by
  cases f
  subst h
  rw [Fragment.emit]
  rfl

theorem emitFragments_cons (site : Site) (at_ : Nat) (f : Fragment (Tail κ)) (fs : List (Fragment (Tail κ))) :
    emitFragments site at_ (f :: fs) = (f.emit site at_).bind fun first =>
      (emitFragments site (at_ + first.length) fs).bind fun rest => .ok (first ++ rest) := by
  rw [emitFragments]
  rfl

mutual

theorem Tail.length_emit [LawfulDirective κ] (site : Site) (at_ : Nat) (info : FragmentInfo) (t : Tail κ)
    (ht : t.Exact info.tailLen) {e : Emission} (h : t.emit site at_ info = .ok e) : e.length = info.tailLen := by
  match t with
  | .gap g =>
    rw [Tail.emit] at h
    rw [Tail.Exact] at ht
    cases h
    rw [Emission.length_fill, ht]
  | .align a =>
    rw [Tail.emit] at h
    cases h
    exact Padding.length_emit _ _
  | .origin o =>
    rw [Tail.emit] at h
    cases h
    exact Emission.length_fill _ _
  | .leb128 f =>
    rw [Tail.emit] at h
    exact Leb128.Field.length_emit h
  | .branch b =>
    rw [Tail.emit] at h
    rw [Tail.Exact] at ht
    rw [ht]
    exact Branch.length_emit h
  | .other d =>
    rw [Tail.emit] at h
    exact LawfulDirective.length_emit h
  | .times count body reps =>
    rw [Tail.emit] at h
    rw [Tail.Exact] at ht
    rw [ht.1]
    exact Emission.length_times (fun at_ e => length_emitFragments site at_ body.fragments ht.2) h

/-- A fragment emits as many bytes as its length says. -/
theorem Fragment.length_emit [LawfulDirective κ] (site : Site) (at_ : Nat) (f : Fragment (Tail κ)) (hf : f.Exact)
    {e : Emission} (h : f.emit site at_ = .ok e) : e.length = f.totalLen := by
  match f with
  | { tail := none, .. } =>
    rw [Fragment.Exact] at hf
    rw [Fragment.emit_of_none rfl] at h
    rw [Fixup.length_patch h, Fragment.totalLen, hf]
    rfl
  | { tail := some t, .. } =>
    rw [Fragment.Exact] at hf
    rw [Fragment.emit_of_some rfl] at h
    obtain ⟨fixed, hfixed, h⟩ := Except.bind_eq_ok h
    obtain ⟨tail, htail, h⟩ := Except.bind_eq_ok h
    cases h
    rw [Emission.length_append, Fixup.length_patch hfixed, Tail.length_emit site _ _ t hf htail]
    rfl

theorem length_emitFragments [LawfulDirective κ] (site : Site) (at_ : Nat) (fs : List (Fragment (Tail κ)))
    (hfs : ExactFragments fs) {e : Emission} (h : emitFragments site at_ fs = .ok e) :
    e.length = Fragment.sumLen fs := by
  match fs with
  | [] =>
    rw [emitFragments] at h
    cases h
    rfl
  | f :: fs =>
    rw [ExactFragments] at hfs
    rw [emitFragments_cons] at h
    obtain ⟨first, hfirst, h⟩ := Except.bind_eq_ok h
    obtain ⟨rest, hrest, h⟩ := Except.bind_eq_ok h
    cases h
    rw [Emission.length_append, Fragment.length_emit site at_ f hfs.1 hfirst,
      length_emitFragments site _ fs hfs.2 hrest, Fragment.sumLen_cons]

end

end

/-! ## Errors -/

/-- Whatever goes wrong has the property, if anything does. -/
def FailsOnly {α : Type} (P : Error → Prop) (x : Except Error α) : Prop := ∀ e, x = .error e → P e

/-- Whatever goes wrong has one cause. -/
def OneCause {α : Type} (x : Except Error α) : Prop := FailsOnly (fun e => ∃ c : Cause, e = .one c) x

theorem OneCause.failsOnly {α : Type} {P : Error → Prop} {x : Except Error α} (h : OneCause x)
    (hone : ∀ c : Cause, P (.one c)) : FailsOnly P x := by
  intro e he
  obtain ⟨c, rfl⟩ := h e he
  exact hone c

theorem OneCause.reported {α : Type} {x : Except Error α} (h : OneCause x) : FailsOnly (·.parts ≠ []) x :=
  h.failsOnly fun _ => List.cons_ne_nil _ _

theorem Diagnostics.hasErrors_report_of_parts {e : Error} (h : e.parts ≠ []) (d : Diagnostics) :
    (d.report e).hasErrors = true := by
  obtain ⟨c, cs, hparts⟩ := List.exists_cons_of_ne_nil h
  unfold report
  rw [hparts]
  exact hasErrors_report (hasErrors_keep d c) (.many cs)

theorem Diagnostics.reportFailure_clean {α : Type} {d : Diagnostics} {r : Except Error α}
    (hr : FailsOnly (·.parts ≠ []) r) (h : (d.reportFailure r).hasErrors = false) :
    d.hasErrors = false ∧ ∃ a, r = .ok a := by
  cases r with
  | ok a => exact ⟨h, a, rfl⟩
  | error e => exact absurd (h.symm.trans (hasErrors_report_of_parts (hr e rfl) d)) (by decide)

section

variable {P : Error → Prop}

theorem FailsOnly.ok {α : Type} (a : α) : FailsOnly P (.ok a) := nofun

theorem FailsOnly.bind {α β : Type} {x : Except Error α} {f : α → Except Error β} (hx : FailsOnly P x)
    (hf : ∀ a, FailsOnly P (f a)) : FailsOnly P (x.bind f) := by
  cases x with
  | error e =>
    intro e' h
    cases h
    exact hx e rfl
  | ok a => exact hf a

theorem Emission.failsOnly_times {emit : Nat → Except Error Emission} (h : ∀ at_, FailsOnly P (emit at_))
    (n at_ : Nat) : FailsOnly P (times emit n at_) := by
  induction n generalizing at_ with
  | zero => exact .ok _
  | succ n ih => exact (h at_).bind fun first => (ih _).bind fun rest => .ok _

variable (hone : ∀ c : Cause, P (.one c))

include hone

theorem FailsOnly.one {α : Type} (c : Cause) : FailsOnly P (.error (.one c) : Except Error α) := by
  intro e h
  cases h
  exact hone c

theorem Site.failsOnly_field (site : Site) (at_ size : Nat) (v : Value) (pos : SourcePos) :
    FailsOnly P (site.field at_ size v pos) := by
  unfold Site.field
  split
  · exact .one hone _
  · split
    · exact .one hone _
    · split
      · exact .ok _
      · exact .one hone _

theorem Fixup.failsOnly_patch (site : Site) (at_ : Nat) (pos : SourcePos) (fs : List Fixup) (bytes : List UInt8) :
    FailsOnly P (patch site at_ pos fs bytes) := by
  induction fs generalizing bytes with
  | nil => exact .ok _
  | cons f fs ih =>
    rw [patch]
    split
    · exact .one hone _
    · exact (site.failsOnly_field hone _ _ _ _).bind fun field => (ih _).bind fun rest => .ok _

theorem Branch.failsOnly_emit (site : Site) (at_ : Nat) (info : FragmentInfo) (b : Branch) :
    FailsOnly P (b.emit site at_ info) := by
  unfold Branch.emit
  dsimp only
  split
  · exact .one hone _
  · split
    · exact .ok _
    · split
      · split
        · exact .ok _
        · exact .one hone _
      · exact .one hone _

theorem Leb128.Field.failsOnly_emit (site : Site) (info : FragmentInfo) (f : Field) :
    FailsOnly P (f.emit site info) := by
  unfold Leb128.Field.emit
  split
  · exact .one hone _
  · dsimp only
    split
    · exact .ok _
    · exact .one hone _

end

section

variable {P : Error → Prop} {κ : Type} [Directive κ]

mutual

theorem Tail.failsOnly_emit (hone : ∀ c : Cause, P (.one c))
    (hother : ∀ site at_ info (d : κ), FailsOnly P (Directive.emit site at_ info d)) (site : Site) (at_ : Nat)
    (info : FragmentInfo) (t : Tail κ) : FailsOnly P (t.emit site at_ info) := by
  match t with
  | .gap _ | .align _ | .origin _ =>
    rw [Tail.emit]
    exact .ok _
  | .leb128 f =>
    rw [Tail.emit]
    exact f.failsOnly_emit hone site info
  | .branch b =>
    rw [Tail.emit]
    exact b.failsOnly_emit hone site at_ info
  | .other d =>
    rw [Tail.emit]
    exact hother site at_ info d
  | .times count body reps =>
    rw [Tail.emit]
    exact Emission.failsOnly_times (fun at_ => failsOnly_emitFragments hone hother site at_ body.fragments) reps at_

theorem Fragment.failsOnly_emit (hone : ∀ c : Cause, P (.one c))
    (hother : ∀ site at_ info (d : κ), FailsOnly P (Directive.emit site at_ info d)) (site : Site) (at_ : Nat)
    (f : Fragment (Tail κ)) : FailsOnly P (f.emit site at_) := by
  match f with
  | { tail := none, .. } =>
    rw [Fragment.emit_of_none rfl]
    exact Fixup.failsOnly_patch hone _ _ _ _ _
  | { tail := some t, .. } =>
    rw [Fragment.emit_of_some rfl]
    exact (Fixup.failsOnly_patch hone _ _ _ _ _).bind fun fixed =>
      (Tail.failsOnly_emit hone hother site _ _ t).bind fun tail => .ok _

theorem failsOnly_emitFragments (hone : ∀ c : Cause, P (.one c))
    (hother : ∀ site at_ info (d : κ), FailsOnly P (Directive.emit site at_ info d)) (site : Site) (at_ : Nat)
    (fs : List (Fragment (Tail κ))) : FailsOnly P (emitFragments site at_ fs) := by
  match fs with
  | [] =>
    rw [emitFragments]
    exact .ok _
  | f :: fs =>
    rw [emitFragments_cons]
    exact (Fragment.failsOnly_emit hone hother site at_ f).bind fun first =>
      (failsOnly_emitFragments hone hother site _ fs).bind fun rest => .ok _

end

end

end SpanLayout
