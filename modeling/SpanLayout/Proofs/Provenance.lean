import SpanLayout.Proofs.Relaxation.Settled
import SpanLayout.Proofs.Tail.Grown
import SpanLayout.Proofs.Text

/-!
# Where the parts of a layout come from

Every part of the layout that a relaxation ends with has grown from a part of the object as it was finalized, and that
one was finalized from a part of the object as it was built. -/

namespace SpanLayout

/-! ## Finalizing -/

section

variable {symbols : SymbolTable}

/-- A branch whose target was finalized where its instruction begins, at `l`. -/
structure Branch.Resolved (symbols : SymbolTable) (l : Location) (v : Value) (b : Branch) : Prop where
  target : ({ Value.ofExpr b.target with isSigned := true }).finalized? symbols = some v
  value : b.value = some (v.minusLoc l)
  relative : v.isRelative = true → b.form = .long

theorem Branch.Resolved.lengthen {l : Location} {v : Value} {b : Branch} (h : b.Resolved symbols l v) :
    b.lengthen.Resolved symbols l v := ⟨h.target, h.value, fun _ => rfl⟩

theorem Branch.Resolved.of_finalize {b : Branch} {v : Value} {pos : SourcePos}
    (hv : Value.finalize symbols pos { Value.ofExpr b.target with isSigned := true } = .done v ()) (l : Location) :
    Branch.Resolved symbols l v
      { (if v.isRelative then b.lengthen else b) with value := some (v.minusLoc l) } := by
  refine ⟨?_, rfl, fun hr => ?_⟩
  · have htarget : (if v.isRelative then b.lengthen else b).target = b.target := by
      split <;> rfl
    dsimp only
    rw [htarget]
    exact Value.finalized?_of_done symbols hv
  · dsimp only
    rw [if_pos hr]
    rfl

theorem Tail.FinalizesTo.of_branch {κ : Type} [Directive κ] [CandidDirective κ] {info : FragmentInfo} {t : Tail κ}
    {b : Branch}
    (h : t.FinalizesTo symbols info (.branch b)) :
    ∃ b' v, t = .branch b' ∧
      Value.finalize symbols info.source { Value.ofExpr b'.target with isSigned := true } = .done v () ∧
      b = { (if v.isRelative then b'.lengthen else b') with value := some (v.minusLoc info.tailLoc) } := by
  cases t with
  | gap g => cases h.gap
  | origin o => cases h.origin
  | other d =>
    obtain ⟨d', d'', he, -⟩ := h
    cases congrArg (·.state.1) he
  | align a =>
    obtain ⟨_, _, _, -, -, -, he⟩ := h.align
    cases he
  | leb128 f =>
    obtain ⟨_, -, -, he⟩ := h.leb128
    cases he
  | times count body reps =>
    obtain ⟨_, _, -, -, he, -⟩ := h.times
    cases he
  | branch b' =>
    obtain ⟨v, hv, he⟩ := h.branch
    exact ⟨b', v, rfl, hv, Tail.branch.inj he⟩

theorem Tail.FinalizesTo.resolved {κ : Type} [Directive κ] [CandidDirective κ] {info : FragmentInfo} {t : Tail κ}
    {b : Branch}
    (h : t.FinalizesTo symbols info (.branch b)) : ∃ v, b.Resolved symbols info.tailLoc v := by
  obtain ⟨b', v, -, hv, rfl⟩ := h.of_branch
  exact ⟨v, .of_finalize hv _⟩

/-- An alignment whose boundary is known, and how much may be skipped, if that was given. -/
structure Align.Resolved (a : Align) : Prop where
  boundary : a.boundary.const? = some (a.boundaryVal : Int)
  maxSkip : ∀ e, a.maxSkip = some e → ∃ m : Nat, e.const? = some (m : Int) ∧ a.maxSkipVal = some m

theorem Expr.constant_done {what : String} {pos : SourcePos} {e e' : Expr} {v : Int}
    (h : e.constant what symbols pos = .done e' v) : e'.const? = some v := by
  unfold Expr.constant at h
  split at h
  · cases congrArg Attempt.result h
  · split at h
    · rename_i hc
      cases h
      exact hc
    · cases congrArg Attempt.result h

namespace Align

variable {pos : SourcePos} {a b : Align}

theorem resolveBoundary_done (h : a.resolveBoundary symbols pos = .done b ()) :
    b.boundary.const? = some (b.boundaryVal : Int) := by
  unfold resolveBoundary at h
  split at h
  · cases congrArg Attempt.result h
  · rename_i hc
    split at h
    · cases congrArg Attempt.result h
    · rename_i hv
      cases h
      rw [Expr.constant_done hc]
      simp only [Option.some.injEq]
      omega

theorem resolveFill_done (h : a.resolveFill symbols pos = .done b ()) :
    b.boundary = a.boundary ∧ b.boundaryVal = a.boundaryVal := by
  unfold resolveFill at h
  split at h
  · cases h
    exact ⟨rfl, rfl⟩
  · split at h
    · cases h
      exact ⟨rfl, rfl⟩
    · split at h
      · cases congrArg Attempt.result h
      · cases h
        exact ⟨rfl, rfl⟩

theorem resolveMaxSkip_done (h : a.resolveMaxSkip symbols pos = .done b ()) :
    b.boundary = a.boundary ∧ b.boundaryVal = a.boundaryVal ∧
      ∀ e, b.maxSkip = some e → ∃ m : Nat, e.const? = some (m : Int) ∧ b.maxSkipVal = some m := by
  unfold resolveMaxSkip at h
  split at h
  · rename_i hnone
    cases h
    exact ⟨rfl, rfl, fun e he => nomatch hnone.symm.trans he⟩
  · split at h
    · cases congrArg Attempt.result h
    · rename_i v hc
      split at h
      · cases congrArg Attempt.result h
      · cases h
        refine ⟨rfl, rfl, fun e' he' => ⟨v.toNat, ?_, rfl⟩⟩
        obtain rfl := Option.some.inj he'
        rw [Expr.constant_done hc]
        simp only [Option.some.injEq]
        omega

end Align

theorem Tail.FinalizesTo.align_resolved {info : FragmentInfo} {t : Tail Empty} {a : Align}
    (h : t.FinalizesTo symbols info (.align a)) : a.Resolved := by
  cases t with
  | gap g => cases h.gap
  | origin o => cases h.origin
  | other d => exact nomatch d
  | branch b =>
    obtain ⟨_, -, he⟩ := h.branch
    cases he
  | leb128 f =>
    obtain ⟨_, -, -, he⟩ := h.leb128
    cases he
  | times count body reps =>
    obtain ⟨_, _, -, -, he, -⟩ := h.times
    cases he
  | align a' =>
    obtain ⟨b, c, d, hb, hc, hd, he⟩ := h.align
    obtain rfl := Tail.align.inj he
    obtain ⟨h1, h2⟩ := Align.resolveFill_done hc
    obtain ⟨h3, h4, hskip⟩ := Align.resolveMaxSkip_done hd
    refine ⟨?_, hskip⟩
    rw [h3, h4, h1, h2]
    exact Align.resolveBoundary_done hb

namespace Fragment

variable {owner : Option FragmentRef} {f g p : Fragment (Tail Empty)}

theorem FinalizesTo.parts (h : FinalizesTo symbols owner f g) (hp : p ∈ g.parts) :
    ∃ q ∈ f.parts, ∃ owner', FinalizesTo symbols owner' q p ∧ p.ref = g.ref := by
  have hself : f.tail.all Tail.plain = true → ∃ q ∈ f.parts, ∃ owner', FinalizesTo symbols owner' q p ∧
      p.ref = g.ref := by
    intro hplain
    rw [parts_of_plain ((h.finalized.kin.all fun _ _ ht => ht.plain).trans hplain), List.mem_singleton] at hp
    rw [hp, parts_of_plain hplain]
    exact ⟨f, List.mem_singleton_self f, owner, h, rfl⟩
  obtain ⟨fixups, -, ⟨hnone, -⟩ | ⟨t, t', hsome, rfl, htt⟩⟩ := h.cases
  · exact hself (by rw [hnone]; rfl)
  · by_cases hplain : t.plain = true
    · exact hself (by rw [hsome]; exact hplain)
    · obtain ⟨count, body, reps, rfl⟩ := Tail.exists_times_of_not_plain (Bool.eq_false_iff.2 hplain)
      obtain ⟨e, fragments, -, -, rfl, -, hfs⟩ := htt.times
      rw [parts_of_times rfl] at hp
      obtain ⟨i, hi⟩ := List.mem_iff_getElem?.1 hp
      rcases forall₂_getElem? hfs i with ⟨-, hn⟩ | ⟨q, p', hq, hp', hqp⟩
      · exact absurd (hi.symm.trans hn) (by simp)
      · obtain rfl := Option.some.inj (hi.symm.trans hp')
        rw [parts_of_times hsome]
        exact ⟨q, List.mem_of_getElem? hq, _, hqp, hqp.finalized.kin.ref⟩

end Fragment

end

/-! ## Relaxing -/

open Sections in
/-- The parts of the layout that a relaxation ends with have grown from those that it began with. -/
theorem Relaxation.Ends.grown {config : Config} {diags : Diagnostics} {ss tt : Sections Empty} {s : Relaxation Empty}
    (h : s.Ends (ss.surveyed config diags).sections tt) (hp : ss.Modest)
    (hd : (ss.surveyed config diags).diags.hasErrors = false) {r : FragmentRef} {g : Fragment (Tail Empty)}
    (hg : tt.fragment? r = some g) :
    ∃ f, ss.fragment? r = some f ∧ g.flat = f.flat ∧ g.frame = { f.frame with index := Relaxation.number ss r } ∧
      (g.flat = true → ∀ p ∈ g.parts, Fragment.GrownFrom f.parts p) := by
  obtain ⟨g', hg', rfl⟩ := h.fragment? hg
  obtain ⟨m, hm, hmg⟩ := h.reshaped r g' hg'
  obtain ⟨f, requests, hf, hmeasured, -⟩ := Sections.measured_surveyed hd hm
  have hmf := hmeasured.flat
  refine ⟨f, hf, hmg.flat.trans hmf, ?_, fun hflat => ?_⟩
  · rw [← hmeasured.frame, ← hmg.frame]
    rfl
  obtain ⟨offset, hat⟩ := hmeasured
  have hmodest := (Fragment.throughout_iff _ { f with index := Relaxation.number ss r }).1 (hp r f hf)
  have hmflat : m.flat = true := hmg.flat.symm.trans hflat
  have hrelaid := hmg.relaid (Fragment.relaid_offset g' (s.sections.begins r))
  refine hrelaid.parts (Fragment.kept_grownFrom f.parts) hmflat fun p hp => ?_
  exact (Fragment.grownFrom_measureAt (f := { f with index := number ss r }) (hmf.symm.trans hmflat) hmodest hat p
    hp).of_index

theorem Tail.Grows.of_branch {t : Tail Empty} {b : Branch} (h : t.Grows (.branch b)) :
    ∃ b', t = .branch b' ∧ (b = b' ∨ b = b'.lengthen) := by
  cases h with
  | same => exact ⟨b, rfl, .inl rfl⟩
  | lengthened b' => exact ⟨b', rfl, .inr rfl⟩

theorem Tail.Grows.of_align {t : Tail Empty} {a : Align} (h : t.Grows (.align a)) : t = .align a := by
  cases h
  rfl

namespace Object

variable {o : Object Empty} {diags : Diagnostics} {r : FragmentRef} {f p : Fragment (Tail Empty)}

theorem ref_of_grown (hb : o.Built) (hd : (o.finalize diags).2.hasErrors = false)
    (hf : (o.finalize diags).1.sections.fragment? r = some f) (hp : Fragment.GrownFrom f.parts p) : p.ref = r := by
  obtain ⟨⟨q, hq, hqp⟩, -⟩ := hp
  obtain ⟨f', -, hff⟩ := finalizesTo_finalize hd hf
  obtain ⟨q', -, owner, -, href⟩ := hff.parts hq
  rw [hqp.ref, href, (hb.finalize diags).refsMatch r f hf]

theorem finalized_of_grown (hb : o.Built) (hd : (o.finalize diags).2.hasErrors = false)
    (hf : (o.finalize diags).1.sections.fragment? r = some f) (hp : Fragment.GrownFrom f.parts p) {t : Tail Empty}
    (ht : p.tail = some t) :
    ∃ q ∈ f.parts, ∃ (info : FragmentInfo) (t' t'' : Tail Empty), q.tail = some t'' ∧ t''.Grows t ∧
    t'.FinalizesTo o.symbols info t'' ∧
      info.tailLoc = ⟨r, p.fixedLen⟩ := by
  obtain ⟨⟨q, hq, hqp⟩, -⟩ := hp
  obtain ⟨f', hf', hff⟩ := finalizesTo_finalize hd hf
  obtain ⟨q', -, owner, hqq, href⟩ := hff.parts hq
  rcases hqp.tail with ⟨-, hnone⟩ | ⟨t', u, hqt, hpt, hgrows⟩
  · cases ht.symm.trans hnone
  obtain rfl := Option.some.inj (hpt.symm.trans ht)
  refine ⟨q, hq, { q'.info with ref := owner.getD q'.ref }, ?_⟩
  have hlen : p.fixedLen = q.fixedLen := congrArg List.length hqp.fixed
  rw [(hb.finalize diags).refsMatch r f hf] at href
  obtain ⟨fixups, -, ⟨hnone, rfl⟩ | ⟨v, v', -, rfl, hv⟩⟩ := hqq.cases
  · cases hnone.symm.trans hqt
  · obtain rfl := Option.some.inj hqt
    refine ⟨v, _, hqt, hgrows, hv, ?_⟩
    rw [hlen, ← href]
    rfl

theorem align_resolved_of_grown (hb : o.Built) (hd : (o.finalize diags).2.hasErrors = false)
    (hf : (o.finalize diags).1.sections.fragment? r = some f) (hp : Fragment.GrownFrom f.parts p) {a : Align}
    (ha : p.tail = some (.align a)) : a.Resolved := by
  obtain ⟨q, -, info, t, t', -, hgrows, ht, -⟩ := finalized_of_grown hb hd hf hp ha
  obtain rfl := hgrows.of_align
  exact ht.align_resolved

theorem resolved_of_grown (hb : o.Built) (hproper : o.sections.Proper) (hd : (o.finalize diags).2.hasErrors = false)
    (hf : (o.finalize diags).1.sections.fragment? r = some f) (hp : Fragment.GrownFrom f.parts p) {b : Branch}
    (hpb : p.tail = some (.branch b)) :
    ∃ v, b.Resolved o.symbols ⟨r, p.fixedLen⟩ v ∧ b.short.all Encoding.proper = true ∧ b.long.proper = true := by
  obtain ⟨q, hq, info, t, t', hqt, hgrows, ht, hloc⟩ := finalized_of_grown hb hd hf hp hpb
  obtain ⟨b', rfl, hbb⟩ := hgrows.of_branch
  obtain ⟨v, hv⟩ := ht.resolved
  rw [hloc] at hv
  have hown := (Fragment.proper_iff f).1 (proper_finalize hproper diags r f hf) q hq
  rw [hqt] at hown
  have hencodings : b'.short.all Encoding.proper = true ∧ b'.long.proper = true := by
    simpa [Tail.ownProper] using hown
  rcases hbb with rfl | rfl
  · exact ⟨v, hv, hencodings⟩
  · exact ⟨v, hv.lengthen, hencodings⟩

theorem relax_done {κ : Type} [Directive κ] {o u : Object κ} {diags d : Diagnostics} {stats : Stats}
    (h : o.relax diags = .done (u, d) stats) :
    ∃ t, o.sections.relax o.config diags = .done t stats ∧ u = { o with sections := t.sections } := by
  unfold relax at h
  cases hx : o.sections.relax o.config diags with
  | mk t result =>
    rw [hx] at h
    cases h
    exact ⟨t, rfl, rfl⟩

/-- The relaxation of the finalized object has come to an end in `u`, whose parts have grown from the finalized ones. -/
def GrownInto (o : Object Empty) (diags diags' : Diagnostics) (u : Object Empty) : Prop :=
  u.symbols = o.symbols ∧ ∃ s : Relaxation Empty,
    s.Ends ((o.finalize diags).1.sections.surveyed o.config diags').sections u.sections ∧
    ∀ r g, u.sections.fragment? r = some g → ∃ f, (o.finalize diags).1.sections.fragment? r = some f ∧
      g.flat = f.flat ∧ g.frame = { f.frame with index := Relaxation.number (o.finalize diags).1.sections r } ∧
      (g.flat = true → ∀ p ∈ g.parts, Fragment.GrownFrom f.parts p)

theorem relax_grows (hb : o.Built) (hp : o.sections.Modest) (hd : (o.finalize diags).2.hasErrors = false)
    {diags' : Diagnostics} (hw : (o.finalize diags).1.sections.RunsInWords o.config diags') {u : Object Empty}
    {d : Diagnostics} {stats : Stats} (h : (o.finalize diags).1.relax diags' = .done (u, d) stats) :
    o.GrownInto diags diags' u := by
  obtain ⟨t, ht, rfl⟩ := relax_done h
  have hp' := modest_finalize hp diags
  obtain ⟨s, -, hends⟩ := Sections.relax_settles (hb.finalize diags).refsMatch (steady_finalize hd) hp' hw ht
  exact ⟨rfl, s, hends, fun r g hg => hends.grown hp' (Sections.relax_done ht).1 hg⟩

theorem relax_settles (hb : o.Built) (hp : o.sections.Proper) (hd : (o.finalize diags).2.hasErrors = false)
    {diags' : Diagnostics} (hw : (o.finalize diags).1.sections.RunsInWords o.config diags') {u : Object Empty}
    {d : Diagnostics} {stats : Stats} (h : (o.finalize diags).1.relax diags' = .done (u, d) stats) :
    o.GrownInto diags diags' u :=
  relax_grows hb hp.modest hd hw h

end Object

end SpanLayout
