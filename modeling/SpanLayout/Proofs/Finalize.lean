import Mathlib.Data.List.Forall2
import SpanLayout.Proofs.Build
import SpanLayout.Proofs.Tail.Emit

/-!
# What finalizing leaves

Finalizing replaces expressions. It leaves the fragments where they are, and what decides the shape of their tails as it
is: an object is built as before, and its repetitions are as deep as before.
-/

namespace SpanLayout

variable {κ : Type} [Directive κ] (symbols : SymbolTable)

/-! ## Tails -/

theorem Leb128.Field.finalize_state (info : FragmentInfo) (d : Diagnostics) (f : Field) :
    ∃ e, (f.finalize symbols info d).state.1 = { f with value := e } := by
  unfold Field.finalize
  split
  · exact ⟨_, rfl⟩
  · rename_i e _ _
    refine ⟨e.simplify, ?_⟩
    dsimp only
    split
    · rfl
    · split
      · split
        · rfl
        · rfl
      · rfl

theorem Branch.finalize_state (info : FragmentInfo) (d : Diagnostics) (b : Branch) :
    (b.finalize symbols info d).state.1.target = b.target ∧ (b.finalize symbols info d).state.1.short = b.short ∧
      (b.finalize symbols info d).state.1.long = b.long := by
  unfold Branch.finalize
  split
  · exact ⟨rfl, rfl, rfl⟩
  · dsimp only
    split
    · exact ⟨rfl, rfl, rfl⟩
    · exact ⟨rfl, rfl, rfl⟩

theorem Tail.finalize_times_state (info : FragmentInfo) (d : Diagnostics) (count : Expr) (body : Block (Tail κ))
    (reps : Nat) :
    ∃ count' fragments, ((Tail.times count body reps).finalize symbols info d).state.1 =
        .times count' { body with fragments } reps ∧
      (fragments = body.fragments ∨
      ∃ d', fragments = (finalizeFragments symbols (some info.ref) d' body.fragments).1) := by
  unfold Tail.finalize
  split
  · exact ⟨_, body.fragments, rfl, .inl rfl⟩
  · rename_i e _ _
    dsimp only
    split
    · exact ⟨_, body.fragments, rfl, .inl rfl⟩
    · refine ⟨e.simplify, (finalizeFragments symbols (some info.ref) d body.fragments).1, ?_, .inr ⟨d, rfl⟩⟩
      split
      · rfl
      · rfl

namespace Tail

omit [Directive κ] in
theorem exists_times_of_not_plain {t : Tail κ} (h : t.plain = false) :
    ∃ count body reps, t = .times count body reps := by
  cases t with
  | times count body reps => exact ⟨count, body, reps, rfl⟩
  | gap _ | align _ | origin _ | leb128 _ | branch _ | other _ => cases h

/-- What is the same in the finalized tail. -/
structure Kin (t t' : Tail κ) : Prop where
  plain : t'.plain = t.plain
  sized : t'.sized = t.sized
  ownProper : t'.ownProper = t.ownProper
  ownModest : t'.ownModest = t.ownModest

omit [Directive κ] in
theorem Kin.refl (t : Tail κ) : Kin t t := ⟨rfl, rfl, rfl, rfl⟩

theorem kin_finalize (info : FragmentInfo) (d : Diagnostics) (t : Tail κ) :
    Kin t (t.finalize symbols info d).state.1 := by
  cases t with
  | gap g => exact .refl _
  | align a => exact ⟨rfl, rfl, rfl, rfl⟩
  | origin o => exact .refl _
  | other o => exact ⟨rfl, rfl, rfl, rfl⟩
  | leb128 f =>
    obtain ⟨e, he⟩ := Leb128.Field.finalize_state symbols info d f
    have he : ((Tail.leb128 f : Tail κ).finalize symbols info d).state.1 = .leb128 { f with value := e } :=
      congrArg Tail.leb128 he
    rw [he]
    exact ⟨rfl, rfl, rfl, rfl⟩
  | branch b =>
    obtain ⟨-, hs, hl⟩ := Branch.finalize_state symbols info d b
    refine ⟨rfl, rfl, ?_, ?_⟩
    · show ((b.finalize symbols info d).state.1.short.all Encoding.proper &&
        (b.finalize symbols info d).state.1.long.proper) = _
      rw [hs, hl]
      rfl
    · show (b.finalize symbols info d).state.1.short.all Encoding.modest = _
      rw [hs]
      rfl
  | times count body reps =>
    obtain ⟨count', fragments, he, -⟩ := finalize_times_state symbols info d count body reps
    rw [he]
    exact ⟨rfl, rfl, rfl, rfl⟩

end Tail

/-! ## Fragments -/

/-- What is the same in the finalized fragment. -/
structure Fragment.Kin (owner : Option FragmentRef) (f g : Fragment (Tail κ)) : Prop where
  ref : g.ref = owner.getD f.ref
  fixed : g.fixed = f.fixed
  tail : (f.tail = none ∧ g.tail = none) ∨ ∃ t t', f.tail = some t ∧ g.tail = some t' ∧ t.Kin t'

theorem Fragment.finalize_of_some {f : Fragment (Tail κ)} {t : Tail κ} (h : f.tail = some t)
    (owner : Option FragmentRef) (d : Diagnostics) :
    f.finalize symbols owner d =
      match Fixup.finalizeAll symbols f.source f.fixups with
      | ⟨fixups, .error e⟩ => .fail ({ f with ref := owner.getD f.ref, fixups }, d) e
      | ⟨fixups, .ok _⟩ =>
        (t.finalize symbols { f.info with ref := owner.getD f.ref } d).mapState fun (t, d) =>
          ({ f with ref := owner.getD f.ref, fixups, tail := some t }, d) := by
  obtain ⟨fixed, fixups, tail, ref, source, offset, index, tailLen⟩ := f
  obtain rfl : tail = some t := h
  unfold Fragment.finalize
  rfl

theorem Fragment.finalize_of_none {f : Fragment (Tail κ)} (h : f.tail = none) (owner : Option FragmentRef)
    (d : Diagnostics) :
    f.finalize symbols owner d =
      match Fixup.finalizeAll symbols f.source f.fixups with
      | ⟨fixups, .error e⟩ => .fail ({ f with ref := owner.getD f.ref, fixups }, d) e
      | ⟨fixups, .ok _⟩ => .done ({ f with ref := owner.getD f.ref, fixups }, d) () := by
  obtain ⟨fixed, fixups, tail, ref, source, offset, index, tailLen⟩ := f
  obtain rfl : tail = none := h
  unfold Fragment.finalize
  rfl

theorem Fragment.kin_finalize (owner : Option FragmentRef) (d : Diagnostics) (f : Fragment (Tail κ)) :
    Kin owner f (f.finalize symbols owner d).state.1 := by
  cases ht : f.tail with
  | none =>
    rw [finalize_of_none symbols ht]
    split
    · exact ⟨rfl, rfl, .inl ⟨ht, ht⟩⟩
    · exact ⟨rfl, rfl, .inl ⟨ht, ht⟩⟩
  | some t =>
    rw [finalize_of_some symbols ht]
    split
    · exact ⟨rfl, rfl, .inr ⟨t, t, ht, ht, .refl t⟩⟩
    · exact ⟨rfl, rfl, .inr ⟨t, _, ht, rfl, t.kin_finalize symbols _ d⟩⟩

/-- A fragment is what finalizing makes of another, whether it fails or not. -/
def Fragment.Finalized (owner : Option FragmentRef) (f g : Fragment (Tail κ)) : Prop :=
  ∃ d, (f.finalize symbols owner d).state.1 = g

theorem finalized_finalizeFragments (owner : Option FragmentRef) (d : Diagnostics) (fs : List (Fragment (Tail κ))) :
    List.Forall₂ (Fragment.Finalized symbols owner) fs (finalizeFragments symbols owner d fs).1 := by
  induction fs generalizing d with
  | nil => exact .nil
  | cons f fs ih => exact .cons ⟨d, rfl⟩ (ih _)

namespace Fragment

omit [Directive κ] in
theorem Kin.refl (f : Fragment (Tail κ)) : Kin none f f := by
  refine ⟨rfl, rfl, ?_⟩
  cases ht : f.tail with
  | none => exact .inl ⟨rfl, rfl⟩
  | some t => exact .inr ⟨t, t, rfl, rfl, .refl t⟩

omit [Directive κ] in
theorem Kin.all {owner : Option FragmentRef} {f g : Fragment (Tail κ)} (h : Kin owner f g) {p : Tail κ → Bool}
    (hp : ∀ t t' : Tail κ, t.Kin t' → p t' = p t) : g.tail.all p = f.tail.all p := by
  rcases h.tail with ⟨hf, hg⟩ | ⟨t, t', hf, hg, ht⟩
  · rw [hf, hg]
  · rw [hf, hg]
    exact hp t t' ht

section

variable {symbols} {owner : Option FragmentRef} {f g : Fragment (Tail κ)}

theorem Finalized.times (h : Finalized symbols owner f g)
    {count : Expr} {body : Block (Tail κ)} {reps : Nat} (ht : f.tail = some (.times count body reps)) :
    ∃ count' fragments, g.tail = some (.times count' { body with fragments } reps) ∧
      ∀ p ∈ fragments, ∃ q ∈ body.fragments, ∃ owner', Kin owner' q p := by
  obtain ⟨d, rfl⟩ := h
  rw [finalize_of_some symbols ht]
  split
  · exact ⟨count, body.fragments, ht, fun p hp => ⟨p, hp, none, .refl p⟩⟩
  · obtain ⟨count', fragments, he, hfs⟩ := Tail.finalize_times_state symbols { f.info with ref := owner.getD f.ref } d
      count body reps
    refine ⟨count', fragments, congrArg some he, fun p hp => ?_⟩
    rcases hfs with rfl | ⟨d', rfl⟩
    · exact ⟨p, hp, none, .refl p⟩
    · obtain ⟨q, hq, d, rfl⟩ := exists_of_forall₂_right (finalized_finalizeFragments symbols _ d' body.fragments) hp
      exact ⟨q, hq, _, q.kin_finalize symbols _ d⟩

theorem Finalized.kin (h : Finalized symbols owner f g) : Kin owner f g := by
  obtain ⟨d, rfl⟩ := h
  exact f.kin_finalize symbols owner d

theorem Finalized.parts (h : Finalized symbols owner f g) {p : Fragment (Tail κ)} (hp : p ∈ g.parts) :
    ∃ q ∈ f.parts, ∃ owner', Kin owner' q p := by
  cases hf : f.tail.all Tail.plain with
  | true =>
    have hg : g.tail.all Tail.plain = true := (h.kin.all fun _ _ ht => ht.plain).trans hf
    rw [parts_of_plain hg, List.mem_singleton] at hp
    rw [parts_of_plain hf, hp]
    exact ⟨f, List.mem_singleton_self f, owner, h.kin⟩
  | false =>
    cases ht : f.tail with
    | none =>
      rw [ht] at hf
      cases hf
    | some t =>
      rw [ht, Option.all_some] at hf
      obtain ⟨count, body, reps, rfl⟩ := Tail.exists_times_of_not_plain hf
      obtain ⟨count', fragments, hg, hfs⟩ := h.times ht
      rw [parts_of_times hg] at hp
      rw [parts_of_times ht]
      exact hfs p hp

end

end Fragment

/-! ## Errors -/

mutual

theorem Tail.hasErrors_finalize [CandidDirective κ] (info : FragmentInfo) {d : Diagnostics} (h : d.hasErrors = true)
    (t : Tail κ) : (t.finalize symbols info d).state.2.hasErrors = true := by
  match t with
  | .gap g => exact h
  | .align a => exact h
  | .origin o => exact h
  | .other o => exact CandidDirective.hasErrors_finalize symbols info o h
  | .leb128 f =>
    show (f.finalize symbols info d).state.2.hasErrors = true
    unfold Leb128.Field.finalize
    split
    · exact h
    · dsimp only
      split
      · exact h
      · split
        · split
          · exact h
          · exact h
        · exact h
  | .branch b =>
    show (b.finalize symbols info d).state.2.hasErrors = true
    unfold Branch.finalize
    split
    · exact h
    · exact h
  | .times count body reps =>
    unfold Tail.finalize
    split
    · exact h
    · dsimp only
      split
      · exact h
      · have hbody := hasErrors_finalizeFragments (some info.ref) h body.fragments
        split
        · exact hbody
        · exact hbody

theorem Fragment.hasErrors_finalize [CandidDirective κ] (owner : Option FragmentRef) {d : Diagnostics}
    (h : d.hasErrors = true) (f : Fragment (Tail κ)) : (f.finalize symbols owner d).state.2.hasErrors = true := by
  match f with
  | { tail := none, .. } =>
    rw [Fragment.finalize_of_none symbols rfl]
    split
    · exact h
    · exact h
  | { tail := some t, .. } =>
    rw [Fragment.finalize_of_some symbols rfl]
    split
    · exact h
    · exact Tail.hasErrors_finalize _ h t

theorem hasErrors_finalizeFragments [CandidDirective κ] (owner : Option FragmentRef) {d : Diagnostics}
    (h : d.hasErrors = true)
    (fs : List (Fragment (Tail κ))) : (finalizeFragments symbols owner d fs).2.hasErrors = true := by
  match fs with
  | [] => exact h
  | f :: fs =>
    unfold finalizeFragments
    exact hasErrors_finalizeFragments owner
      (Diagnostics.hasErrors_reportFailure (Fragment.hasErrors_finalize owner h f) _) fs

end

/-! Every error of finalizing has one cause. -/

theorem Value.finalize_error {pos : SourcePos} {v : Value} {e : Error}
    (h : (v.finalize symbols pos).result = .error e) : ∃ c : Cause, e = .one c := by
  unfold Value.finalize at h
  split at h
  · cases h
  · split at h
    · exact ⟨_, (Except.error.inj h).symm⟩
    · rename_i x _ _
      dsimp only at h
      by_cases hn : 1 < (x.simplify.addends.filterMap bareSym?).length + (if v.isRelative then 1 else 0) ∨
          (x.simplify.addends.filter fun t => (bareSym? t).isNone).any Expr.mentionsSym = true
      · rw [if_pos hn] at h
        exact ⟨_, (Except.error.inj h).symm⟩
      · rw [if_neg hn] at h
        cases h

theorem Fixup.finalizeAll_error {pos : SourcePos} {fs : List Fixup} {e : Error}
    (h : (finalizeAll symbols pos fs).result = .error e) : ∃ c : Cause, e = .one c := by
  induction fs with
  | nil => cases h
  | cons f fs ih =>
    unfold finalizeAll at h
    split at h
    · exact ih h
    · rename_i v e' he
      obtain rfl := Except.error.inj h
      exact Value.finalize_error symbols (congrArg Attempt.result he)

theorem Expr.constant_error {what : String} {pos : SourcePos} {x : Expr} {e : Error}
    (h : (x.constant what symbols pos).result = .error e) : ∃ c : Cause, e = .one c := by
  unfold Expr.constant at h
  split at h
  · exact ⟨_, (Except.error.inj h).symm⟩
  · split at h
    · cases h
    · exact ⟨_, (Except.error.inj h).symm⟩

theorem Attempt.andThen_error {ε σ α β : Type} {x : Attempt ε σ α} {f : σ → α → Attempt ε σ β} {e : ε}
    (h : (x.andThen f).result = .error e) : x.result = .error e ∨ ∃ s a, (f s a).result = .error e := by
  unfold andThen at h
  split at h
  · exact .inr ⟨_, _, h⟩
  · rename_i e' he
    exact .inl (he.trans (congrArg Except.error (Except.error.inj h)))

namespace Align

theorem resolveBoundary_error {pos : SourcePos} {a : Align} {e : Error}
    (h : (a.resolveBoundary symbols pos).result = .error e) : ∃ c : Cause, e = .one c := by
  unfold resolveBoundary at h
  split at h
  · rename_i x err hx
    obtain rfl := Except.error.inj h
    exact Expr.constant_error symbols (congrArg Attempt.result hx)
  · split at h
    · exact ⟨_, (Except.error.inj h).symm⟩
    · cases h

theorem resolveFill_error {pos : SourcePos} {a : Align} {e : Error}
    (h : (a.resolveFill symbols pos).result = .error e) : ∃ c : Cause, e = .one c := by
  unfold resolveFill at h
  split at h
  · cases h
  · split at h
    · cases h
    · split at h
      · rename_i x err hx
        obtain rfl := Except.error.inj h
        exact Expr.constant_error symbols (congrArg Attempt.result hx)
      · cases h

theorem resolveMaxSkip_error {pos : SourcePos} {a : Align} {e : Error}
    (h : (a.resolveMaxSkip symbols pos).result = .error e) : ∃ c : Cause, e = .one c := by
  unfold resolveMaxSkip at h
  split at h
  · cases h
  · split at h
    · rename_i x err hx
      obtain rfl := Except.error.inj h
      exact Expr.constant_error symbols (congrArg Attempt.result hx)
    · split at h
      · exact ⟨_, (Except.error.inj h).symm⟩
      · cases h

theorem oneCause_finalize (info : FragmentInfo) (d : Diagnostics) (a : Align) :
    OneCause (Directive.finalize symbols info d a).result := by
  intro e h
  replace h : (((a.resolveBoundary symbols info.source).andThen fun a _ => a.resolveFill symbols info.source).andThen
    fun a _ => a.resolveMaxSkip symbols info.source).result = .error e := h
  rcases Attempt.andThen_error h with h | ⟨b, -, h⟩
  · rcases Attempt.andThen_error h with h | ⟨b, -, h⟩
    · exact resolveBoundary_error symbols h
    · exact resolveFill_error symbols h
  · exact resolveMaxSkip_error symbols h

end Align

theorem Leb128.Field.oneCause_finalize (info : FragmentInfo) (d : Diagnostics) (f : Leb128.Field) :
    OneCause (f.finalize symbols info d).result := by
  intro e h
  unfold Leb128.Field.finalize at h
  split at h
  · exact ⟨_, (Except.error.inj h).symm⟩
  · dsimp only at h
    split at h
    · exact ⟨_, (Except.error.inj h).symm⟩
    · split at h
      · split at h
        · cases h
        · cases h
      · cases h

theorem Branch.oneCause_finalize (info : FragmentInfo) (d : Diagnostics) (b : Branch) :
    OneCause (b.finalize symbols info d).result := by
  intro e h
  unfold Branch.finalize at h
  split at h
  · rename_i v err hv
    obtain rfl := Except.error.inj h
    exact Value.finalize_error symbols (congrArg Attempt.result hv)
  · cases h

theorem Tail.oneCause_finalize_times (info : FragmentInfo) (d : Diagnostics) (count : Expr) (body : Block (Tail κ))
    (reps : Nat) : OneCause ((Tail.times count body reps).finalize symbols info d).result := by
  intro e h
  unfold Tail.finalize at h
  split at h
  · exact ⟨_, (Except.error.inj h).symm⟩
  · dsimp only at h
    split at h
    · exact ⟨_, (Except.error.inj h).symm⟩
    · split at h
      · exact ⟨_, (Except.error.inj h).symm⟩
      · cases h

section

variable {P : Error → Prop} (hone : ∀ c : Cause, P (.one c))
  (hother : ∀ info diags (d : κ), FailsOnly P (Directive.finalize symbols info diags d).result)

include hone hother

theorem Tail.failsOnly_finalize (info : FragmentInfo) (d : Diagnostics) (t : Tail κ) :
    FailsOnly P (t.finalize symbols info d).result := by
  cases t with
  | gap g => exact .ok _
  | origin o => exact .ok _
  | align a => exact (a.oneCause_finalize symbols info d).failsOnly hone
  | leb128 f => exact (f.oneCause_finalize symbols info d).failsOnly hone
  | branch b => exact (b.oneCause_finalize symbols info d).failsOnly hone
  | times count body reps => exact (Tail.oneCause_finalize_times symbols info d count body reps).failsOnly hone
  | other o => exact hother info d o

theorem Fragment.failsOnly_finalize (owner : Option FragmentRef) (d : Diagnostics) (f : Fragment (Tail κ)) :
    FailsOnly P (f.finalize symbols owner d).result := by
  have hfixups : FailsOnly P (Fixup.finalizeAll symbols f.source f.fixups).result :=
    OneCause.failsOnly (fun _ => Fixup.finalizeAll_error symbols) hone
  cases ht : f.tail with
  | none =>
    rw [finalize_of_none symbols ht]
    split
    · rename_i hf
      rw [hf] at hfixups
      exact hfixups
    · exact .ok _
  | some t =>
    rw [finalize_of_some symbols ht]
    split
    · rename_i hf
      rw [hf] at hfixups
      exact hfixups
    · exact Tail.failsOnly_finalize symbols hone hother _ _ t

end

/-- The fragment is finalized to another one, without an error. -/
def Fragment.FinalizesTo (owner : Option FragmentRef) (f g : Fragment (Tail κ)) : Prop :=
  ∃ d d', f.finalize symbols owner d = .done (g, d') () ∧ d'.hasErrors = false

theorem Fragment.reported_finalize [CandidDirective κ] (owner : Option FragmentRef) (d : Diagnostics)
    (f : Fragment (Tail κ)) : FailsOnly (·.parts ≠ []) (f.finalize symbols owner d).result :=
  f.failsOnly_finalize symbols (fun _ => List.cons_ne_nil _ _)
    (fun _ _ _ _ => CandidDirective.reported_finalize) owner d

theorem finalizesTo_finalizeFragments [CandidDirective κ] {owner : Option FragmentRef} {d : Diagnostics}
    {fs : List (Fragment (Tail κ))} (h : (finalizeFragments symbols owner d fs).2.hasErrors = false) :
    List.Forall₂ (Fragment.FinalizesTo symbols owner) fs (finalizeFragments symbols owner d fs).1 := by
  induction fs generalizing d with
  | nil => exact .nil
  | cons f fs ih =>
    unfold finalizeFragments at h ⊢
    dsimp only at h ⊢
    refine .cons ?_ (ih h)
    have hd : ((f.finalize symbols owner d).state.2.reportFailure (f.finalize symbols owner d).result).hasErrors =
        false := by
      by_contra hd
      exact absurd (hasErrors_finalizeFragments symbols owner ((Bool.not_eq_false _).mp hd) fs) (by rw [h]; decide)
    obtain ⟨hd, u, hr⟩ := Diagnostics.reportFailure_clean (f.reported_finalize symbols owner d) hd
    exact ⟨d, _, congrArg (Attempt.mk _) hr, hd⟩

/-! ## Success -/

/-- The tail is finalized to another one, without an error. -/
def Tail.FinalizesTo (info : FragmentInfo) (t t' : Tail κ) : Prop :=
  ∃ d d', t.finalize symbols info d = .done (t', d') () ∧ d'.hasErrors = false

section

variable {symbols} {info : FragmentInfo} {t' : Tail κ}

theorem Tail.FinalizesTo.kin {t : Tail κ} (h : FinalizesTo symbols info t t') : Kin t t' := by
  obtain ⟨d, d', he, -⟩ := h
  have hk := t.kin_finalize symbols info d
  rw [he] at hk
  exact hk

theorem Tail.FinalizesTo.gap {g : Gap} (h : FinalizesTo symbols info (.gap g) t') : t' = .gap g := by
  obtain ⟨d, d', he, -⟩ := h
  exact (congrArg (·.state.1) he).symm

theorem Tail.FinalizesTo.origin {o : Origin} (h : FinalizesTo symbols info (.origin o) t') : t' = .origin o := by
  obtain ⟨d, d', he, -⟩ := h
  exact (congrArg (·.state.1) he).symm

theorem Tail.FinalizesTo.align {a : Align} (h : FinalizesTo symbols info (.align a) t') :
    ∃ b c e, a.resolveBoundary symbols info.source = .done b () ∧ b.resolveFill symbols info.source = .done c () ∧
      c.resolveMaxSkip symbols info.source = .done e () ∧ t' = .align e := by
  obtain ⟨d, d', he, -⟩ := h
  have he : (((a.resolveBoundary symbols info.source).andThen fun a _ => a.resolveFill symbols info.source).andThen
      fun a _ => a.resolveMaxSkip symbols info.source).mapState (fun a => (Tail.align a, d)) = .done (t', d') () := he
  unfold Attempt.andThen at he
  rcases hb : a.resolveBoundary symbols info.source with ⟨b, _ | _⟩
  · rw [hb] at he
    cases congrArg Attempt.result he
  · rw [hb] at he
    dsimp only at he
    rcases hc : b.resolveFill symbols info.source with ⟨c, _ | _⟩
    · rw [hc] at he
      cases congrArg Attempt.result he
    · rw [hc] at he
      dsimp only at he
      rcases hm : c.resolveMaxSkip symbols info.source with ⟨e, _ | _⟩
      · rw [hm] at he
        cases congrArg Attempt.result he
      · rw [hm] at he
        exact ⟨b, c, e, rfl, hc, hm, (congrArg (·.state.1) he).symm⟩

theorem Tail.FinalizesTo.leb128 {f : Leb128.Field} (h : FinalizesTo symbols info (.leb128 f) t') :
    ∃ e, f.value.expand symbols = .done e () ∧ e.simplify.mentionsSym = false ∧
      t' = .leb128 { f with value := e.simplify } := by
  obtain ⟨d, d', he, -⟩ := h
  have he : (f.finalize symbols info d).mapState (Prod.map Tail.leb128 id) = .done (t', d') () := he
  unfold Leb128.Field.finalize at he
  split at he
  · cases congrArg Attempt.result he
  · rename_i e _ hx
    dsimp only at he
    split at he
    · cases congrArg Attempt.result he
    · rename_i hs
      refine ⟨e, hx, (Bool.not_eq_true _).mp hs, ?_⟩
      split at he
      · split at he
        · exact (congrArg (·.state.1) he).symm
        · exact (congrArg (·.state.1) he).symm
      · exact (congrArg (·.state.1) he).symm

theorem Tail.FinalizesTo.branch {b : Branch} (h : FinalizesTo symbols info (.branch b) t') :
    ∃ v, Value.finalize symbols info.source { Value.ofExpr b.target with isSigned := true } = .done v () ∧
      t' = .branch { (if v.isRelative then b.lengthen else b) with value := some (v.minusLoc info.tailLoc) } := by
  obtain ⟨d, d', he, -⟩ := h
  have he : (b.finalize symbols info d).mapState (Prod.map Tail.branch id) = .done (t', d') () := he
  unfold Branch.finalize at he
  split at he
  · cases congrArg Attempt.result he
  · rename_i v _ hv
    exact ⟨v, hv, (congrArg (·.state.1) he).symm⟩

theorem Tail.FinalizesTo.times [CandidDirective κ] {count : Expr} {body : Block (Tail κ)} {reps : Nat}
    (h : FinalizesTo symbols info (.times count body reps) t') :
    ∃ e fragments, count.expand symbols = .done e () ∧ e.simplify.mentionsSym = false ∧
      t' = .times e.simplify { body with fragments } reps ∧ fragments.any Fragment.setsOffset = false ∧
      List.Forall₂ (Fragment.FinalizesTo symbols (some info.ref)) body.fragments fragments := by
  obtain ⟨d, d', he, hd⟩ := h
  unfold Tail.finalize at he
  split at he
  · cases congrArg Attempt.result he
  · rename_i e _ hx
    dsimp only at he
    split at he
    · cases congrArg Attempt.result he
    · rename_i hs
      split at he
      · cases congrArg Attempt.result he
      · rename_i hset
        have hd' : d' = (finalizeFragments symbols (some info.ref) d body.fragments).2 :=
          (congrArg (·.state.2) he).symm
        rw [hd'] at hd
        exact ⟨e, _, hx, (Bool.not_eq_true _).mp hs, (congrArg (·.state.1) he).symm, (Bool.not_eq_true _).mp hset,
          finalizesTo_finalizeFragments symbols hd⟩

theorem Fragment.FinalizesTo.cases {owner : Option FragmentRef} {f g : Fragment (Tail κ)}
    (h : FinalizesTo symbols owner f g) :
    ∃ fixups, Fixup.finalizeAll symbols f.source f.fixups = .done fixups () ∧
      ((f.tail = none ∧ g = { f with ref := owner.getD f.ref, fixups }) ∨
        ∃ t t', f.tail = some t ∧ g = { f with ref := owner.getD f.ref, fixups, tail := some t' } ∧
          t.FinalizesTo symbols { f.info with ref := owner.getD f.ref } t') := by
  obtain ⟨d, d', he, hd⟩ := h
  cases ht : f.tail with
  | none =>
    rw [finalize_of_none symbols ht] at he
    split at he
    · cases congrArg Attempt.result he
    · rename_i fixups _ hf
      exact ⟨fixups, hf, .inl ⟨rfl, (congrArg (·.state.1) he).symm.trans (by rw [← ht]; rfl)⟩⟩
  | some t =>
    rw [finalize_of_some symbols ht] at he
    split at he
    · cases congrArg Attempt.result he
    · rename_i fixups _ hf
      rcases hx : t.finalize symbols { f.info with ref := owner.getD f.ref } d with ⟨⟨t', d''⟩, _ | _⟩
      · rw [hx] at he
        cases congrArg Attempt.result he
      · rw [hx] at he
        obtain rfl : d'' = d' := congrArg (·.state.2) he
        exact ⟨fixups, hf, .inr ⟨t, t', rfl, (congrArg (·.state.1) he).symm, d, d'', hx, hd⟩⟩

end

/-! ## Sections -/

/-- Sees to it that every section ends with a fragment that has no tail. -/
def Sections.fresh (ss : Sections κ) : Sections κ := ss.map fun s => { s with block := s.block.fresh }

theorem hasErrors_finalizeSections [CandidDirective κ] {d : Diagnostics} (h : d.hasErrors = true) (ss : Sections κ) :
    (Object.finalizeSections symbols d ss).2.hasErrors = true := by
  induction ss generalizing d with
  | nil => exact h
  | cons s ss ih => exact ih (hasErrors_finalizeFragments symbols none h _)

/-- A section is what finalizing makes of another. -/
structure Section.Finalized (s s' : Section κ) : Prop where
  name : s'.name = s.name
  start : s'.start = s.start
  sectionIndex : s'.block.sectionIndex = s.block.sectionIndex
  fragments : List.Forall₂ (Fragment.Finalized symbols none) s.block.fragments s'.block.fragments

theorem finalized_finalizeSections (d : Diagnostics) (ss : Sections κ) :
    List.Forall₂ (Section.Finalized symbols) ss.fresh (Object.finalizeSections symbols d ss).1 := by
  induction ss generalizing d with
  | nil => exact .nil
  | cons s ss ih => exact .cons ⟨rfl, rfl, rfl, finalized_finalizeFragments symbols none d _⟩ (ih _)

theorem finalizesTo_finalizeSections [CandidDirective κ] {d : Diagnostics} {ss : Sections κ}
    (h : (Object.finalizeSections symbols d ss).2.hasErrors = false) :
    List.Forall₂ (fun s s' : Section κ =>
        List.Forall₂ (Fragment.FinalizesTo symbols none) s.block.fragments s'.block.fragments)
      ss.fresh (Object.finalizeSections symbols d ss).1 := by
  induction ss generalizing d with
  | nil => exact .nil
  | cons s ss ih =>
    have hs : (finalizeFragments symbols none d s.block.fresh.fragments).2.hasErrors = false := by
      by_contra hs
      exact absurd (hasErrors_finalizeSections symbols ((Bool.not_eq_false _).mp hs) ss)
        (by rw [show (Object.finalizeSections symbols _ ss).2.hasErrors = false from h]; decide)
    exact .cons (finalizesTo_finalizeFragments symbols hs) (ih h)

namespace Sections

omit [Directive κ] in
theorem fragment?_of_forall₂ {R : Fragment (Tail κ) → Fragment (Tail κ) → Prop} {ss tt : Sections κ}
    (h : List.Forall₂ (fun s t : Section κ => List.Forall₂ R s.block.fragments t.block.fragments) ss tt)
    {r : FragmentRef} {g : Fragment (Tail κ)} (hg : tt.fragment? r = some g) :
    ∃ f, ss.fragment? r = some f ∧ R f g := by
  obtain ⟨t, ht, hg⟩ := Option.bind_eq_some_iff.mp hg
  rcases forall₂_getElem? h r.sectionIndex with ⟨-, hn⟩ | ⟨s, t', hs, ht', hst⟩
  · exact absurd (ht.symm.trans hn) (by simp)
  · obtain rfl := Option.some.inj (ht.symm.trans ht')
    rcases forall₂_getElem? hst r.index with ⟨-, hn⟩ | ⟨f, g', hf, hg', hfg⟩
    · exact absurd (hg.symm.trans hn) (by simp)
    · obtain rfl := Option.some.inj (hg.symm.trans hg')
      exact ⟨f, Option.bind_eq_some_iff.mpr ⟨s, hs, hf⟩, hfg⟩

omit [Directive κ] in
theorem fragment?_fresh {ss : Sections κ} {r : FragmentRef} {f : Fragment (Tail κ)}
    (h : ss.fresh.fragment? r = some f) : ss.fragment? r = some f ∨ f.tail = none := by
  obtain ⟨s', hs', hf⟩ := Option.bind_eq_some_iff.mp h
  rw [fresh, List.getElem?_map] at hs'
  obtain ⟨s, hs, rfl⟩ := Option.map_eq_some_iff.mp hs'
  have hstart : ∀ f, s.block.start.fragments[r.index]? = some f → s.block.fragments[r.index]? = some f ∨
      f.tail = none := by
    intro f hf
    rw [Block.start, Block.appendFragment, Block.push, List.getElem?_append] at hf
    split at hf
    · exact .inl hf
    · rw [List.getElem?_singleton] at hf
      split at hf
      · exact .inr (Option.some.inj hf ▸ rfl)
      · cases hf
  have hcases : s.block.fragments[r.index]? = some f ∨ f.tail = none := by
    dsimp only at hf
    unfold Block.fresh at hf
    split at hf
    · split at hf
      · exact hstart f hf
      · exact .inl hf
    · exact hstart f hf
  exact hcases.imp_left fun hf => Option.bind_eq_some_iff.mpr ⟨s, hs, hf⟩

end Sections

/-! ## Objects -/

section

variable {symbols} {owner : Option FragmentRef} {f g : Fragment (Tail κ)}

theorem Fragment.Finalized.sized (h : Finalized symbols owner f g) (hf : f.Sized) : g.Sized := by
  intro p hp
  obtain ⟨q, hq, owner', hk⟩ := h.parts hp
  rw [hk.all fun _ _ ht => ht.sized]
  exact hf q hq

theorem Fragment.FinalizesTo.finalized (h : FinalizesTo symbols owner f g) : Finalized symbols owner f g := by
  obtain ⟨d, d', he, -⟩ := h
  exact ⟨d, by rw [he]; rfl⟩

end

namespace Object

variable {o : Object κ}

omit [Directive κ] in
theorem Built.fresh (h : o.Built) (k : Nat) (s : Section κ) (hs : o.sections.fresh[k]? = some s) :
    s.block.Built k := by
  rw [Sections.fresh, List.getElem?_map] at hs
  obtain ⟨s', hs', rfl⟩ := Option.map_eq_some_iff.mp hs
  exact (h k s' hs').fresh

theorem Built.finalize (h : o.Built) (d : Diagnostics) : (o.finalize d).1.Built := by
  intro k s' hs'
  rcases forall₂_getElem? (finalized_finalizeSections o.symbols d o.sections) k with ⟨-, hn⟩ | ⟨s, t, hs, ht, hst⟩
  · exact absurd (hs'.symm.trans hn) (by simp)
  · obtain rfl := Option.some.inj (hs'.symm.trans ht)
    have hb := h.fresh k s hs
    refine ⟨hst.sectionIndex.trans hb.sectionIndex, fun i g hg => ?_, fun g hg => ?_⟩
    · rcases forall₂_getElem? hst.fragments i with ⟨-, hn⟩ | ⟨f, g', hf, hg', hfg⟩
      · exact absurd (hg.symm.trans hn) (by simp)
      · obtain rfl := Option.some.inj (hg.symm.trans hg')
        rw [hfg.kin.ref]
        exact hb.refs i f hf
    · obtain ⟨f, hf, hfg⟩ := exists_of_forall₂_right hst.fragments hg
      exact hfg.sized (hb.sized f hf)

theorem finalized_finalize {d : Diagnostics} {r : FragmentRef} {g : Fragment (Tail κ)}
    (h : (o.finalize d).1.sections.fragment? r = some g) :
    ∃ f, o.sections.fresh.fragment? r = some f ∧ f.Finalized o.symbols none g :=
  Sections.fragment?_of_forall₂ ((finalized_finalizeSections o.symbols d o.sections).imp fun _ _ h => h.fragments) h

theorem finalizesTo_finalize [CandidDirective κ] {d : Diagnostics} (hd : (o.finalize d).2.hasErrors = false)
    {r : FragmentRef} {g : Fragment (Tail κ)} (h : (o.finalize d).1.sections.fragment? r = some g) :
    ∃ f, o.sections.fresh.fragment? r = some f ∧ f.FinalizesTo o.symbols none g :=
  Sections.fragment?_of_forall₂ (finalizesTo_finalizeSections o.symbols hd) h

end Object

/-! ## Shapes -/

theorem Fragment.throughout_iff (own : Tail Empty → Bool) (f : Fragment (Tail Empty)) :
    f.tail.all (Tail.throughout own) = true ↔ ∀ p ∈ f.parts, p.tail.all own = true := by
  cases ht : f.tail with
  | none =>
    rw [parts_of_plain (by rw [ht]; rfl)]
    simp [ht]
  | some t =>
    cases t with
    | times count body reps =>
      rw [parts_of_times ht]
      simp [Tail.throughout]
    | gap _ | align _ | origin _ | leb128 _ | branch _ | other _ =>
      rw [parts_of_plain (by rw [ht]; rfl)]
      simp [ht, Tail.throughout]

theorem Fragment.proper_iff (f : Fragment (Tail Empty)) :
    f.tail.all Tail.proper = true ↔ ∀ p ∈ f.parts, p.tail.all Tail.ownProper = true := by
  rw [Tail.proper_eq]
  exact f.throughout_iff _

namespace Fragment

variable {symbols} {owner : Option FragmentRef} {f g : Fragment (Tail Empty)}

theorem Finalized.flat (h : Finalized symbols owner f g) (hf : f.flat = true) : g.flat = true := by
  rw [flat_iff] at hf ⊢
  rcases hf with hf | ⟨count, body, reps, ht, hbody⟩
  · left
    rw [h.kin.all fun _ _ ht => ht.plain]
    exact hf
  · right
    obtain ⟨count', fragments, hg, hfs⟩ := h.times ht
    refine ⟨count', _, reps, hg, fun p hp => ?_⟩
    obtain ⟨q, hq, owner', hk⟩ := hfs p hp
    rw [hk.all fun _ _ ht => ht.plain]
    exact hbody q hq

theorem Finalized.throughout {own : Tail Empty → Bool} (hown : ∀ t t', Tail.Kin t t' → own t' = own t)
    (h : Finalized symbols owner f g) (hf : f.tail.all (Tail.throughout own) = true) :
    g.tail.all (Tail.throughout own) = true := by
  rw [throughout_iff] at hf ⊢
  intro p hp
  obtain ⟨q, hq, owner', hk⟩ := h.parts hp
  rw [hk.all hown]
  exact hf q hq

end Fragment

section

variable {symbols}

theorem Tail.steadyInside_of_plain {t : Tail Empty} (h : t.plain = true) : t.steadyInside = true := by
  cases t with
  | times _ _ _ => cases h
  | gap _ | align _ | origin _ | leb128 _ | branch _ | other _ => simp [Tail.steadyInside]

mutual

theorem Tail.FinalizesTo.steadyInside {info : FragmentInfo} {t t' : Tail Empty}
    (h : Tail.FinalizesTo symbols info t t') : t'.steadyInside = true := by
  match t with
  | .times count body reps =>
    obtain ⟨e, fragments, -, -, rfl, hset, hfs⟩ := h.times
    rw [Tail.steadyInside]
    exact Fragment.FinalizesTo.steadyFragments hfs (by simpa using hset)
  | .gap _ | .align _ | .origin _ | .leb128 _ | .branch _ => exact Tail.steadyInside_of_plain h.kin.plain
  | .other d => exact nomatch d

theorem Fragment.FinalizesTo.steadyInside {owner : Option FragmentRef} {f g : Fragment (Tail Empty)}
    (h : Fragment.FinalizesTo symbols owner f g) : g.steadyInside = true := by
  obtain ⟨fixups, -, hcases⟩ := h.cases
  match f with
  | { tail := none, .. } =>
    rcases hcases with ⟨-, rfl⟩ | ⟨t, t', hsome, -⟩
    · rfl
    · cases hsome
  | { tail := some t, .. } =>
    rcases hcases with ⟨hnone, -⟩ | ⟨t, t', hsome, rfl, htt⟩
    · cases hnone
    · cases hsome
      exact htt.steadyInside

theorem Fragment.FinalizesTo.steadyFragments {owner : Option FragmentRef} {fs gs : List (Fragment (Tail Empty))}
    (h : List.Forall₂ (Fragment.FinalizesTo symbols owner) fs gs) (hset : ∀ g ∈ gs, g.setsOffset = false) :
    SpanLayout.steadyFragments gs = true := by
  match fs, gs, h with
  | [], [], _ => rw [SpanLayout.steadyFragments]
  | f :: fs, g :: gs, .cons hf hfs =>
    rw [SpanLayout.steadyFragments, Bool.and_eq_true, Fragment.steady_iff]
    exact ⟨⟨hset g List.mem_cons_self, hf.steadyInside⟩,
      Fragment.FinalizesTo.steadyFragments hfs fun g hg => hset g (List.mem_cons_of_mem _ hg)⟩

end

end

namespace Object

variable {o : Object Empty}

theorem flat_finalize (h : o.sections.Flat) (d : Diagnostics) : (o.finalize d).1.sections.Flat := by
  intro r g hg
  obtain ⟨f, hf, hfg⟩ := finalized_finalize hg
  refine hfg.flat ?_
  rcases Sections.fragment?_fresh hf with hf | hf
  · exact h r f hf
  · rw [Fragment.flat, hf]
    rfl

theorem throughout_finalize {own : Tail Empty → Bool} (hown : ∀ t t', Tail.Kin t t' → own t' = own t)
    (h : ∀ r f, o.sections.fragment? r = some f → f.tail.all (Tail.throughout own) = true) (d : Diagnostics) :
    ∀ r f, (o.finalize d).1.sections.fragment? r = some f → f.tail.all (Tail.throughout own) = true := by
  intro r g hg
  obtain ⟨f, hf, hfg⟩ := finalized_finalize hg
  refine hfg.throughout hown ?_
  rcases Sections.fragment?_fresh hf with hf | hf
  · exact h r f hf
  · rw [hf]
    rfl

theorem proper_finalize (h : o.sections.Proper) (d : Diagnostics) : (o.finalize d).1.sections.Proper := by
  unfold Sections.Proper at h ⊢
  rw [Tail.proper_eq] at h ⊢
  exact throughout_finalize (fun _ _ ht => ht.ownProper) h d

theorem modest_finalize (h : o.sections.Modest) (d : Diagnostics) : (o.finalize d).1.sections.Modest :=
  throughout_finalize (fun _ _ ht => ht.ownModest) h d

theorem steady_finalize {d : Diagnostics} (hd : (o.finalize d).2.hasErrors = false) :
    (o.finalize d).1.sections.Steady := by
  intro r g hg
  obtain ⟨f, -, hfg⟩ := finalizesTo_finalize hd hg
  exact hfg.steadyInside

end Object

end SpanLayout
