import SpanLayout.Proofs.Image
import SpanLayout.Proofs.Relaxation.Limits

/-!
# What is reported does not depend on the sink

Finalizing, relaxing and writing look at the sink for one thing only: whether an error was reported. So they do the same
and report the same whatever the sink keeps, and a sink can be told afterwards all that happened.
-/

namespace SpanLayout

/-! ## Telling a sink -/

/-- What is reported on the way: the causes of errors, and warnings. -/
structure Account where
  causes : List Cause
  warnings : List Warning

namespace Account

/-- Nothing to report. -/
def silent : Account := ⟨[], []⟩

/-- A single error. -/
def ofCause (c : Cause) : Account := ⟨[c], []⟩

/-- One account followed by another. -/
def andThen (a b : Account) : Account := ⟨a.causes ++ b.causes, a.warnings ++ b.warnings⟩

end Account

namespace Diagnostics

variable (d : Diagnostics)

/-- The sink once it has been told an account: it keeps what it has room for and counts the rest. -/
def tell (a : Account) : Diagnostics where
  limit := d.limit
  errors := d.errors ++ (a.causes.take (d.limit - d.errors.length)).map .one
  warnings := d.warnings ++ a.warnings
  dropped := d.dropped + (a.causes.length - (d.limit - d.errors.length))

@[simp] theorem tell_silent : d.tell .silent = d := by
  simp [tell, Account.silent]

theorem tell_tell (a b : Account) : (d.tell a).tell b = d.tell (a.andThen b) := by
  have hroom : d.limit - (d.tell a).errors.length = d.limit - d.errors.length - a.causes.length := by
    simp only [tell, List.length_append, List.length_map, List.length_take]
    omega
  rw [tell, show (d.tell a).limit = d.limit from rfl, hroom]
  unfold tell Account.andThen
  dsimp only
  rw [List.take_append, List.map_append, List.append_assoc, List.append_assoc, List.length_append]
  congr 1
  omega

theorem report_one (c : Cause) : d.report (.one c) = d.tell (.ofCause c) := by
  unfold report Error.parts Account.ofCause tell
  rw [List.foldl_cons, List.foldl_nil, keep]
  split
  · rename_i hroom
    rw [List.take_of_length_le (by simp; omega)]
    simp
    omega
  · rename_i hfull
    rw [show d.limit - d.errors.length = 0 by omega]
    simp

theorem warn_eq (text : String) (pos : SourcePos) : d.warn text pos = d.tell ⟨[], [⟨text, pos⟩]⟩ := by
  simp [warn, tell]

theorem reportFailure_tells {α : Type} {r : Except Error α} (hr : OneCause r) :
    ∃ a, ∀ d : Diagnostics, d.reportFailure r = d.tell a := by
  cases r with
  | ok x => exact ⟨.silent, fun d => d.tell_silent.symm⟩
  | error e =>
    obtain ⟨c, rfl⟩ := hr e rfl
    exact ⟨.ofCause c, fun d => d.report_one c⟩

theorem hasErrors_tell {d : Diagnostics} (h : d.hasErrors = false) (a : Account) :
    (d.tell a).hasErrors = !a.causes.isEmpty := by
  unfold hasErrors at h ⊢
  simp only [Bool.or_eq_false_iff, Bool.not_eq_false', List.isEmpty_iff, decide_eq_false_iff_not, Nat.not_lt,
    Nat.le_zero] at h
  obtain ⟨herrors, hdropped⟩ := h
  unfold tell
  rw [herrors, hdropped]
  cases a.causes with
  | nil => simp
  | cons c cs => cases d.limit <;> simp

theorem tell_cases (a : Account) :
    (∀ d : Diagnostics, d.hasErrors = false → (d.tell a).hasErrors = false) ∨
      ∀ d : Diagnostics, d.hasErrors = false → ∃ e, (d.tell a).toError? = some e := by
  cases ha : a.causes.isEmpty with
  | true => exact .inl fun d hd => by rw [hasErrors_tell hd, ha]; rfl
  | false =>
    refine .inr fun d hd => Option.isSome_iff_exists.1 ?_
    rw [toError?_isSome, hasErrors_tell hd, ha]
    rfl

end Diagnostics

/-! ## Finalizing -/

/-- An operation does the same and reports the same whatever the sink. -/
def Tells {σ : Type} (op : Diagnostics → Attempt Error (σ × Diagnostics) Unit) : Prop :=
  ∃ s r a, ∀ d, op d = ⟨(s, d.tell a), r⟩

namespace Tells

variable {σ τ : Type} {op : Diagnostics → Attempt Error (σ × Diagnostics) Unit}

theorem silently {s : σ} {r : Except Error Unit} (h : ∀ d, op d = ⟨(s, d), r⟩) : Tells op :=
  ⟨s, r, .silent, fun d => by rw [h, d.tell_silent]⟩

theorem mapState (h : Tells op) (g : σ → τ) : Tells fun d => (op d).mapState fun x => (g x.1, x.2) := by
  obtain ⟨s, r, a, h⟩ := h
  exact ⟨g s, r, a, fun d => congrArg (Attempt.mapState fun x => (g x.1, x.2)) (h d)⟩

end Tells

section

variable (symbols : SymbolTable)

theorem Leb128.Field.finalize_tells (info : FragmentInfo) (f : Field) : Tells fun d => f.finalize symbols info d := by
  unfold Field.finalize
  split
  · exact .silently fun _ => rfl
  · dsimp only
    split
    · exact .silently fun _ => rfl
    · split
      · split
        · exact ⟨_, _, _, fun d => congrArg (fun d => Attempt.done (_, d) ()) (d.warn_eq _ _)⟩
        · exact .silently fun _ => rfl
      · exact .silently fun _ => rfl

theorem Branch.finalize_tells (info : FragmentInfo) (b : Branch) : Tells fun d => b.finalize symbols info d := by
  unfold Branch.finalize
  split
  · exact .silently fun _ => rfl
  · exact .silently fun _ => rfl

mutual

/-- Whatever the depth of repetitions, the sink decides nothing. -/
theorem Tail.finalize_tells (info : FragmentInfo) (t : Tail Empty) : Tells fun d => t.finalize symbols info d := by
  match t with
  | .gap g =>
    simp only [Tail.finalize]
    have h : Tells fun d => Directive.finalize symbols info d g := .silently fun _ => rfl
    exact h.mapState Tail.gap
  | .align a =>
    simp only [Tail.finalize]
    have h : Tells fun d => Directive.finalize symbols info d a := .silently fun _ => rfl
    exact h.mapState Tail.align
  | .origin o =>
    simp only [Tail.finalize]
    have h : Tells fun d => Directive.finalize symbols info d o := .silently fun _ => rfl
    exact h.mapState Tail.origin
  | .other o => exact nomatch o
  | .leb128 f =>
    simp only [Tail.finalize]
    exact (f.finalize_tells symbols info).mapState Tail.leb128
  | .branch b =>
    simp only [Tail.finalize]
    exact (b.finalize_tells symbols info).mapState Tail.branch
  | .times count body reps =>
    obtain ⟨fragments, a, h⟩ := finalizeFragments_tells (some info.ref) body.fragments
    simp only [Tail.finalize, h]
    split
    · exact .silently fun _ => rfl
    · split
      · exact .silently fun _ => rfl
      · split
        · exact ⟨_, _, a, fun _ => rfl⟩
        · exact ⟨_, _, a, fun _ => rfl⟩

theorem Fragment.finalize_tells (owner : Option FragmentRef) (f : Fragment (Tail Empty)) :
    Tells fun d => f.finalize symbols owner d := by
  match f with
  | { tail := none, .. } =>
    simp only [Fragment.finalize]
    split
    · exact .silently fun _ => rfl
    · exact .silently fun _ => rfl
  | { tail := some t, .. } =>
    simp only [Fragment.finalize]
    split
    · exact .silently fun _ => rfl
    · exact (Tail.finalize_tells _ t).mapState fun t => ({ tail := some t, .. } : Fragment (Tail Empty))

theorem finalizeFragments_tells (owner : Option FragmentRef) (fs : List (Fragment (Tail Empty))) :
    ∃ gs a, ∀ d, finalizeFragments symbols owner d fs = (gs, d.tell a) := by
  match fs with
  | [] => exact ⟨[], .silent, fun d => by rw [finalizeFragments, d.tell_silent]⟩
  | f :: fs =>
    obtain ⟨g, r, a, hf⟩ := Fragment.finalize_tells owner f
    obtain ⟨gs, b, hfs⟩ := finalizeFragments_tells owner fs
    have hone : OneCause (f.finalize symbols owner (.empty 0)).result :=
      f.failsOnly_finalize symbols (fun c => ⟨c, rfl⟩) nofun owner _
    rw [show f.finalize symbols owner (.empty 0) = _ from hf (.empty 0)] at hone
    obtain ⟨e, he⟩ := Diagnostics.reportFailure_tells hone
    refine ⟨g :: gs, (a.andThen e).andThen b, fun d => ?_⟩
    simp only [finalizeFragments, hf, he, hfs, Diagnostics.tell_tell]

end

theorem finalizeSections_tells (ss : Sections Empty) :
    ∃ tt a, ∀ d, Object.finalizeSections symbols d ss = (tt, d.tell a) := by
  induction ss with
  | nil => exact ⟨[], .silent, fun d => by rw [Object.finalizeSections, d.tell_silent]⟩
  | cons s ss ih =>
    obtain ⟨gs, a, hs⟩ := finalizeFragments_tells symbols none s.block.fresh.fragments
    obtain ⟨tt, b, hss⟩ := ih
    refine ⟨{ s with block := { s.block.fresh with fragments := gs } } :: tt, a.andThen b, fun d => ?_⟩
    simp only [Object.finalizeSections, Block.finalize, hs, hss, Diagnostics.tell_tell]

end

end SpanLayout
