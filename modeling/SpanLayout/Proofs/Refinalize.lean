import SpanLayout.Proofs.Edits
import SpanLayout.Proofs.Expr.Normal
import SpanLayout.Proofs.Provenance
import SpanLayout.Proofs.Relaxation.Tight

/-!
# Finalizing again

Finalizing leaves no symbol in an expression but one from elsewhere, which stands on its own, and it simplifies what is
left. So whatever has been finalized is finalized to itself, and so is all that has grown from it.
-/

namespace SpanLayout

/-! ## Expressions -/

namespace Expr

mutual

theorem replaceSyms_of_not_mentionsSym (f : String → Attempt String Expr Unit) (e : Expr) (h : e.mentionsSym = false) :
    e.replaceSyms f = .done e () := by
  match e with
  | .const _ | .loc _ | .slot _ => rw [replaceSyms]
  | .sym _ => cases h
  | .neg e =>
    rw [mentionsSym] at h
    rw [replaceSyms, replaceSyms_of_not_mentionsSym f e h]
    rfl
  | .sum ts =>
    rw [mentionsSym] at h
    rw [replaceSyms, replaceAll_of_not_mentionsSym f ts h]
    rfl
  | .mul a b =>
    rw [mentionsSym, Bool.or_eq_false_iff] at h
    rw [replaceSyms, replaceSyms_of_not_mentionsSym f a h.1, replaceSyms_of_not_mentionsSym f b h.2]
    rfl

theorem replaceAll_of_not_mentionsSym (f : String → Attempt String Expr Unit) (ts : List Expr)
    (h : anyMentionsSym ts = false) : replaceAll f ts = .done ts () := by
  match ts with
  | [] => rw [replaceAll]
  | t :: ts =>
    rw [anyMentionsSym, Bool.or_eq_false_iff] at h
    rw [replaceAll, replaceSyms_of_not_mentionsSym f t h.1, replaceAll_of_not_mentionsSym f ts h.2]
    rfl

end

theorem expand_of_not_mentionsSym (symbols : SymbolTable) {e : Expr} (h : e.mentionsSym = false) :
    e.expand symbols = .done e () := by
  unfold expand expandWithin
  exact replaceSyms_of_not_mentionsSym _ e h

theorem anyMentionsSym_eq_false {ts : List Expr} : anyMentionsSym ts = false ↔ ∀ t ∈ ts, t.mentionsSym = false := by
  induction ts with
  | nil => simp [anyMentionsSym]
  | cons t ts ih => simp [anyMentionsSym, ih]

theorem mentionsSym_of_mem_addends {e t : Expr} (h : e.mentionsSym = false) (ht : t ∈ e.addends) :
    t.mentionsSym = false := by
  cases e with
  | sum ts => exact anyMentionsSym_eq_false.1 h t ht
  | const _ | sym _ | loc _ | slot _ | neg _ | mul _ _ =>
    obtain rfl := List.mem_singleton.1 ht
    exact h

theorem mentionsSym_sumWith {ts : List Expr} (h : ∀ t ∈ ts, t.mentionsSym = false) (c : Int64) :
    (sumWith ts c).mentionsSym = false := by
  have hterms : ∀ t ∈ withConst ts c, t.mentionsSym = false := by
    intro t ht
    rcases mem_withConst ht with ht | rfl
    · exact h t ht
    · rfl
  rcases sumWith_cases ts c with ⟨t, hone, ht⟩ | ⟨-, hs⟩
  · rw [ht]
    exact hterms t (by simp [hone])
  · rw [hs]
    exact anyMentionsSym_eq_false.2 hterms

theorem mentionsSym_addAll {ts : List Expr} (h : ∀ t ∈ ts, t.mentionsSym = false) :
    (addAll ts).mentionsSym = false := by
  apply mentionsSym_sumWith
  intro t ht
  obtain ⟨u, hu, htu⟩ := List.mem_flatMap.1 (List.mem_filter.1 (mem_of_mem_cancel ht)).1
  exact mentionsSym_of_mem_addends (h u hu) htu

theorem simplify_sum_addends {e : Expr} (h : e.Normal) : (Expr.sum e.addends).simplify = e := by
  cases e with
  | sum ts => exact h.simplify
  | const c => simp [addends, simplify, simplifyAll, addAll, isConst, constantPart, cancel, sumWith]
  | sym _ | loc _ | slot _ | neg _ | mul _ _ =>
    show addAll [simplify _] = _
    rw [h.simplify]
    simp [addAll, addends, isConst, constantPart, cancel_singleton, sumWith]

end Expr

section

variable {symbols : SymbolTable}

open SpanLayout.Expr in
theorem Value.normal_of_finalize {v v' : Value} {pos : SourcePos} (h : v.finalize symbols pos = .done v' ()) {x : Expr}
    (hx : v'.abs = some x) : x.Normal ∧ x.mentionsSym = false := by
  rcases Value.finalize_cases symbols h with ⟨hnone, rfl⟩ | ⟨e, e', -, -, hc, rfl⟩
  · cases hnone.symm.trans hx
  · cases hx
    have hfixed : ∀ t ∈ e'.simplify.addends.filter fun t => (bareSym? t).isNone, t.simplify = t := by
      intro t ht
      exact ((normal_simplify e').addends t (List.mem_filter.1 ht).1).1.simplify
    refine ⟨normal_simplify _, ?_⟩
    rw [simplify, simplifyAll_of_fixed hfixed]
    refine mentionsSym_addAll fun t ht => ?_
    simpa using fun hm => hc (.inr (List.any_eq_true.2 ⟨t, ht, hm⟩))

open SpanLayout.Expr in
theorem Value.finalize_again {v v' : Value} {pos : SourcePos} (h : v.finalize symbols pos = .done v' ())
    (pos' : SourcePos) : v'.finalize symbols pos' = .done v' () := by
  cases hx : v'.abs with
  | none =>
    unfold Value.finalize
    rw [hx]
  | some x =>
    obtain ⟨hnormal, hfree⟩ := Value.normal_of_finalize h hx
    -- Nothing is split off, since no term is a symbol.
    have hbare (t : Expr) (ht : t ∈ x.addends) : bareSym? t = none := by
      have hs := mentionsSym_of_mem_addends hfree ht
      cases t with
      | sym _ => cases hs
      | const _ | loc _ | slot _ | neg _ | sum _ | mul _ _ => rfl
    have hnone : x.simplify.addends.filterMap bareSym? = [] := by
      rw [hnormal.simplify, List.filterMap_eq_nil_iff]
      exact hbare
    have hall : x.simplify.addends.filter (fun t => (bareSym? t).isNone) = x.addends := by
      rw [hnormal.simplify, List.filter_eq_self]
      intro t ht
      rw [hbare t ht]
      rfl
    rw [Value.finalize_of_expand symbols hx (expand_of_not_mentionsSym symbols hfree) ?_ pos', hnone, hall,
      simplify_sum_addends hnormal, ← hx]
    · rfl
    · rw [hnone, hall]
      rintro (hlt | hany)
      · revert hlt
        dsimp only [List.length_nil]
        split <;> simp
      · obtain ⟨t, ht, hs⟩ := List.any_eq_true.1 hany
        rw [mentionsSym_of_mem_addends hfree ht] at hs
        cases hs

theorem Fixup.finalizeAll_again {pos : SourcePos} {fs gs : List Fixup} (h : finalizeAll symbols pos fs = .done gs ())
    (pos' : SourcePos) : finalizeAll symbols pos' gs = .done gs () := by
  induction fs generalizing gs with
  | nil =>
    cases h
    rfl
  | cons f fs ih =>
    rw [finalizeAll] at h
    split at h
    · rename_i v _ hv
      cases hx : finalizeAll symbols pos fs with
      | mk gs' result =>
        rw [hx] at h
        cases h
        rw [finalizeAll]
        dsimp only
        rw [Value.finalize_again hv pos', ih hx]
        rfl
    · cases congrArg Attempt.result h

/-! ## Tails -/

/-- A tail that is finalized to itself, without an error. -/
def Tail.Final (symbols : SymbolTable) (info : FragmentInfo) (t : Tail Empty) : Prop :=
  ∀ d, ∃ d', t.finalize symbols info d = .done (t, d') () ∧ d'.hasErrors = d.hasErrors

theorem Expr.constant_of_const? {e : Expr} {v : Int} (h : e.const? = some v) (what : String) (pos : SourcePos) :
    e.constant what symbols pos = .done e v := by
  cases e with
  | const c =>
    unfold constant
    rw [expand_of_not_mentionsSym symbols rfl]
    dsimp only [Attempt.done]
    rw [simplify, h]
  | sym _ | loc _ | slot _ | neg _ | sum _ | mul _ _ => cases h

namespace Align

variable {a b : Align} {pos : SourcePos}

theorem resolveBoundary_again (h : a.resolveBoundary symbols pos = .done b ()) (fill : Option Expr) (padding : Padding)
    (maxSkip : Option Expr) (maxSkipVal : Option Nat) (pos' : SourcePos) :
    resolveBoundary symbols pos' { b with fill, padding, maxSkip, maxSkipVal } =
      .done { b with fill, padding, maxSkip, maxSkipVal } () := by
  unfold resolveBoundary at h
  split at h
  · cases congrArg Attempt.result h
  · rename_i hc
    split at h
    · cases congrArg Attempt.result h
    · rename_i hv
      cases h
      unfold resolveBoundary
      dsimp only
      rw [Expr.constant_of_const? (Expr.constant_done hc)]
      exact if_neg hv

theorem resolveFill_again (h : a.resolveFill symbols pos = .done b ()) :
    (∃ fill padding, b = { a with fill, padding }) ∧ ∀ maxSkip maxSkipVal pos',
      resolveFill symbols pos' { b with maxSkip, maxSkipVal } = .done { b with maxSkip, maxSkipVal } () := by
  unfold resolveFill at h
  split at h
  · rename_i hn
    cases h
    refine ⟨⟨_, _, rfl⟩, fun _ _ _ => ?_⟩
    unfold resolveFill
    exact if_pos hn
  · rename_i hn
    split at h
    · rename_i hf
      cases h
      refine ⟨⟨_, _, rfl⟩, fun _ _ _ => ?_⟩
      unfold resolveFill
      rw [if_neg hn]
      dsimp only
      rw [hf]
    · split at h
      · cases congrArg Attempt.result h
      · rename_i hc
        cases h
        refine ⟨⟨_, _, rfl⟩, fun _ _ _ => ?_⟩
        unfold resolveFill
        rw [if_neg hn]
        dsimp only
        rw [Expr.constant_of_const? (Expr.constant_done hc)]
        rfl

theorem resolveMaxSkip_again (h : a.resolveMaxSkip symbols pos = .done b ()) :
    (∃ maxSkip maxSkipVal, b = { a with maxSkip, maxSkipVal }) ∧
    ∀ pos', b.resolveMaxSkip symbols pos' = .done b () := by
  unfold resolveMaxSkip at h
  split at h
  · rename_i hs
    cases h
    refine ⟨⟨_, _, rfl⟩, fun _ => ?_⟩
    unfold resolveMaxSkip
    rw [hs]
  · split at h
    · cases congrArg Attempt.result h
    · rename_i hc
      split at h
      · cases congrArg Attempt.result h
      · rename_i hv
        cases h
        refine ⟨⟨_, _, rfl⟩, fun _ => ?_⟩
        unfold resolveMaxSkip
        dsimp only
        rw [Expr.constant_of_const? (Expr.constant_done hc)]
        exact if_neg hv

end Align

namespace Tail

variable {info : FragmentInfo}

theorem final_align {a b c e : Align} {pos : SourcePos} (hb : a.resolveBoundary symbols pos = .done b ())
    (hc : b.resolveFill symbols pos = .done c ()) (he : c.resolveMaxSkip symbols pos = .done e ()) :
    (Tail.align e).Final symbols info := by
  obtain ⟨⟨fill, padding, rfl⟩, hfill⟩ := Align.resolveFill_again hc
  obtain ⟨⟨maxSkip, maxSkipVal, rfl⟩, hskip⟩ := Align.resolveMaxSkip_again he
  intro d
  refine ⟨d, ?_, rfl⟩
  rw [Tail.finalize]
  dsimp only [Directive.finalize, Attempt.andThen]
  rw [Align.resolveBoundary_again hb fill padding maxSkip maxSkipVal info.source]
  dsimp only [Attempt.done]
  rw [hfill maxSkip maxSkipVal info.source]
  dsimp only [Attempt.done]
  rw [hskip info.source]
  rfl

theorem final_leb128 {f : Leb128.Field} (hn : f.value.Normal) (hs : f.value.mentionsSym = false) :
    (Tail.leb128 f).Final symbols info := by
  intro d
  rw [Tail.finalize]
  dsimp only [Directive.finalize, Leb128.Field.finalize]
  rw [Expr.expand_of_not_mentionsSym symbols hs]
  dsimp only [Attempt.done]
  rw [hn.simplify, hs, if_neg Bool.false_ne_true]
  split
  · split
    · exact ⟨_, rfl, rfl⟩
    · exact ⟨d, rfl, rfl⟩
  · exact ⟨d, rfl, rfl⟩

theorem final_branch {b : Branch} {l : Location} {v : Value} (h : b.Resolved symbols l v) (hl : info.tailLoc = l) :
    (Tail.branch b).Final symbols info := by
  intro d
  refine ⟨d, ?_, rfl⟩
  rw [Tail.finalize]
  dsimp only [Directive.finalize, Branch.finalize]
  rw [Value.done_of_finalized? symbols h.target info.source]
  dsimp only [Attempt.done, Attempt.mapState, Prod.map]
  have hform : (if v.isRelative then b.lengthen else b) = b := by
    split
    · rename_i hr
      unfold Branch.lengthen
      rw [← h.relative hr]
    · rfl
  rw [hform, hl, ← h.value]
  rfl

theorem FinalizesTo.final_of_grows {info' : FragmentInfo} {t t' t'' : Tail Empty} (h : t.FinalizesTo symbols info t')
    (hp : t'.plain = true) (hg : t'.Grows t'') (hloc : info'.tailLoc = info.tailLoc) : t''.Final symbols info' := by
  cases t with
  | gap g =>
    obtain rfl := h.gap
    cases hg
    exact fun d => ⟨d, by rw [Tail.finalize]; rfl, rfl⟩
  | origin o =>
    obtain rfl := h.origin
    cases hg
    exact fun d => ⟨d, by rw [Tail.finalize]; rfl, rfl⟩
  | align a =>
    obtain ⟨b, c, e, hb, hc, he, rfl⟩ := h.align
    cases hg
    exact final_align hb hc he
  | leb128 f =>
    obtain ⟨e, -, hs, rfl⟩ := h.leb128
    cases hg with
    | same => exact final_leb128 (Expr.normal_simplify e) hs
    | widened => exact final_leb128 (Expr.normal_simplify e) hs
  | branch b =>
    obtain ⟨v, -, rfl⟩ := h.branch
    obtain ⟨v, hv⟩ := h.resolved
    cases hg with
    | same => exact final_branch hv hloc
    | lengthened => exact final_branch hv.lengthen hloc
  | times count body reps =>
    obtain ⟨_, _, -, -, rfl, -⟩ := h.times
    cases hp
  | other d => cases d

end Tail

/-! ## Fragments -/

namespace Fragment

variable {f g : Fragment (Tail Empty)} {owner : Option FragmentRef}

/-- A fragment that is finalized to itself, without an error. -/
def Final (symbols : SymbolTable) (owner : Option FragmentRef) (f : Fragment (Tail Empty)) : Prop :=
  ∀ d, ∃ d', f.finalize symbols owner d = .done (f, d') () ∧ d'.hasErrors = d.hasErrors

theorem final_of_tail (href : owner.getD f.ref = f.ref)
    (hfixups : Fixup.finalizeAll symbols f.source f.fixups = .done f.fixups ())
    (htail : ∀ t, f.tail = some t → t.Final symbols f.info) : f.Final symbols owner := by
  intro d
  cases ht : f.tail with
  | none =>
    refine ⟨d, ?_, rfl⟩
    rw [finalize_of_none symbols ht, hfixups, href]
    rfl
  | some t =>
    obtain ⟨d', hd', herrors⟩ := htail t ht d
    refine ⟨d', ?_, herrors⟩
    have hinfo : ({ f.info with ref := f.ref } : FragmentInfo) = f.info := rfl
    rw [finalize_of_some symbols ht, hfixups, href, hinfo, hd']
    dsimp only [Attempt.done, Attempt.mapState]
    rw [← ht]

theorem FinalizesTo.final_of_grown {owner' : Option FragmentRef} {g' : Fragment (Tail Empty)}
    (h : FinalizesTo symbols owner f g) (hg : g.Grown g') (hp : g'.tail.all Tail.plain = true)
    (hown : owner'.getD g'.ref = g'.ref) : g'.Final symbols owner' := by
  obtain ⟨fixups, hfixups, hcases⟩ := h.cases
  have hkept : g.fixups = fixups ∧ g.fixed = f.fixed ∧ g.ref = owner.getD f.ref := by
    rcases hcases with ⟨-, rfl⟩ | ⟨t, t', -, rfl, -⟩ <;> exact ⟨rfl, rfl, rfl⟩
  obtain ⟨hkept, hfixed, href⟩ := hkept
  refine final_of_tail hown ?_ fun t ht => ?_
  · rw [hg.fixups, hkept]
    exact Fixup.finalizeAll_again hfixups _
  · rcases hg.tail with ⟨-, hnone⟩ | ⟨u, u', hu, hu', hgrows⟩
    · cases hnone.symm.trans ht
    obtain rfl := Option.some.inj (hu'.symm.trans ht)
    have hplain : u.plain = true := by
      rw [hu'] at hp
      cases hgrows with
      | same => exact hp
      | widened | lengthened => rfl
    rcases hcases with ⟨hnone, rfl⟩ | ⟨t, t', -, rfl, hfin⟩
    · cases hnone.symm.trans hu
    · obtain rfl := Option.some.inj hu
      refine hfin.final_of_grows hplain hgrows ?_
      show (⟨g'.ref, g'.fixedLen⟩ : Location) = ⟨owner.getD f.ref, f.fixedLen⟩
      unfold fixedLen
      rw [hg.ref, hg.fixed]

end Fragment

theorem finalizeFragments_of_final {owner : Option FragmentRef} {fs : List (Fragment (Tail Empty))}
    (h : ∀ f ∈ fs, f.Final symbols owner) (d : Diagnostics) :
    ∃ d', finalizeFragments symbols owner d fs = (fs, d') ∧ d'.hasErrors = d.hasErrors := by
  induction fs generalizing d with
  | nil =>
    refine ⟨d, ?_, rfl⟩
    rw [finalizeFragments]
  | cons f fs ih =>
    obtain ⟨d₁, hf, hd₁⟩ := h f List.mem_cons_self d
    obtain ⟨d₂, hfs, hd₂⟩ := ih (fun g hg => h g (List.mem_cons_of_mem f hg)) d₁
    refine ⟨d₂, ?_, hd₂.trans hd₁⟩
    rw [finalizeFragments, hf]
    dsimp only [Attempt.done, Diagnostics.reportFailure]
    rw [hfs]

theorem Tail.final_times {info : FragmentInfo} {count : Expr} {n : Int} (hn : count.const? = some n)
    {body : Block (Tail Empty)} (hbody : ∀ p ∈ body.fragments, p.Final symbols (some info.ref))
    (hset : ∀ p ∈ body.fragments, p.setsOffset = false) (reps : Nat) :
    (Tail.times count body reps).Final symbols info := by
  intro d
  obtain ⟨d', hd', herrors⟩ := finalizeFragments_of_final hbody d
  refine ⟨d', ?_, herrors⟩
  have hany : body.fragments.any Fragment.setsOffset = false := by
    rw [List.any_eq_false]
    exact fun p hp => by simp [hset p hp]
  cases count with
  | const c =>
    rw [Tail.finalize, Expr.expand_of_not_mentionsSym symbols rfl]
    dsimp only [Attempt.done, Expr.simplify, Expr.mentionsSym]
    rw [hd']
    dsimp only
    rw [hany]
    rfl
  | sym _ | loc _ | slot _ | neg _ | sum _ | mul _ _ => cases hn

end

/-! ## Objects -/

theorem Block.fresh_of_last {b : Block (Tail Empty)} (h : b.fragments.getLast?.map (·.tail) = some none) :
    b.fresh = b := by
  obtain ⟨f, hf, ht⟩ := Option.map_eq_some_iff.1 h
  unfold fresh
  rw [hf]
  dsimp only
  rw [ht]
  rfl

theorem Block.last_fresh (b : Block (Tail Empty)) : b.fresh.fragments.getLast?.map (·.tail) = some none := by
  have hstart : b.start.fragments.getLast?.map (·.tail) = some none := by
    unfold start appendFragment push
    rw [List.getLast?_concat]
    rfl
  unfold fresh
  split
  · rename_i f hf
    split
    · exact hstart
    · rename_i ht
      rw [hf, Option.map_some, Option.not_isSome_iff_eq_none.1 ht]
  · exact hstart

theorem last_of_forall₂ {R : Fragment (Tail Empty) → Fragment (Tail Empty) → Prop}
    (hR : ∀ f g, R f g → f.tail = none → g.tail = none) {fs gs : List (Fragment (Tail Empty))}
    (h : List.Forall₂ R fs gs) (hf : fs.getLast?.map (·.tail) = some none) : gs.getLast?.map (·.tail) = some none := by
  rw [List.getLast?_eq_getElem?] at hf ⊢
  obtain ⟨f, hfi, ht⟩ := Option.map_eq_some_iff.1 hf
  rw [← h.length_eq]
  rcases forall₂_getElem? h (fs.length - 1) with ⟨hnone, -⟩ | ⟨f', g, hf', hg, hfg⟩
  · cases hnone.symm.trans hfi
  · obtain rfl := Option.some.inj (hf'.symm.trans hfi)
    rw [hg, Option.map_some, hR f' g hfg ht]

namespace Object

variable {o u : Object Empty} {diags diags' : Diagnostics}

theorem finalizeSections_of_final {symbols : SymbolTable} {ss : Sections Empty}
    (h : ∀ s ∈ ss, s.block.fresh = s.block ∧ ∀ f ∈ s.block.fragments, f.Final symbols none) (d : Diagnostics) :
    ∃ d', finalizeSections symbols d ss = (ss, d') ∧ d'.hasErrors = d.hasErrors := by
  induction ss generalizing d with
  | nil => exact ⟨d, rfl, rfl⟩
  | cons s ss ih =>
    obtain ⟨hfresh, hfinal⟩ := h s List.mem_cons_self
    obtain ⟨d₁, hs, hd₁⟩ := finalizeFragments_of_final hfinal d
    obtain ⟨d₂, hss, hd₂⟩ := ih (fun s' hs' => h s' (List.mem_cons_of_mem s hs')) d₁
    refine ⟨d₂, ?_, hd₂.trans hd₁⟩
    rw [finalizeSections, hfresh, Block.finalize, hs]
    dsimp only
    rw [hss]

namespace RelaxesInto

theorem symbols (h : o.RelaxesInto diags diags' u) : u.symbols = o.symbols := by
  obtain ⟨_, _, hdone⟩ := h.done
  obtain ⟨t, -, rfl⟩ := relax_done hdone
  rfl

theorem final_part (h : o.RelaxesInto diags diags' u) {r : FragmentRef} {f g p : Fragment (Tail Empty)}
    (hf : (o.finalize diags).1.sections.fragment? r = some f) (hflat : g.flat = true) (hp : p ∈ g.parts)
    (hgrown : Fragment.GrownFrom f.parts p) {owner : Option FragmentRef} (hown : owner.getD r = r) :
    p.Final u.symbols owner := by
  obtain ⟨f', -, hfin⟩ := finalizesTo_finalize h.clean hf
  have href := ref_of_grown h.built h.clean hf hgrown
  obtain ⟨⟨q, hq, hqp⟩, -⟩ := hgrown
  obtain ⟨q', -, owner', hqq, -⟩ := hfin.parts hq
  rw [h.symbols]
  refine hqq.final_of_grown hqp (Fragment.plain_of_mem_parts hflat hp) ?_
  rw [href, hown]

theorem final (h : o.RelaxesInto diags diags' u) {r : FragmentRef} {g : Fragment (Tail Empty)}
    (hg : u.sections.fragment? r = some g) : g.Final u.symbols none := by
  obtain ⟨f, hf, href, hrelaxed⟩ := h.fragment hg
  rcases (Fragment.flat_iff g).1 hrelaxed.flat with hplain | ⟨count, body, reps, htail, -⟩
  · have hself : g ∈ g.parts := by
      rw [Fragment.parts_of_plain hplain]
      exact List.mem_singleton_self g
    exact h.final_part hf hrelaxed.flat hself (hrelaxed.parts g hself) rfl
  · obtain ⟨f', -, hfin⟩ := finalizesTo_finalize h.clean hf
    obtain ⟨fixups, hfixups, hcases⟩ := hfin.cases
    have hkept : g.fixups = fixups := by
      have hsame : g.fixups = f.fixups := congrArg Frame.fixups hrelaxed.frame
      rw [hsame]
      rcases hcases with ⟨-, rfl⟩ | ⟨_, _, -, rfl, -⟩ <;> rfl
    refine Fragment.final_of_tail rfl ?_ fun t ht => ?_
    · rw [hkept, h.symbols]
      exact Fixup.finalizeAll_again hfixups _
    · obtain rfl := Option.some.inj (htail.symm.trans ht)
      obtain ⟨n, hn, -⟩ := hrelaxed.tight.count count body reps htail
      have hsteady : steadyFragments body.fragments = true := by
        have := hrelaxed.steadyInside
        rwa [Fragment.steadyInside, htail] at this
      refine Tail.final_times hn (fun p hp => ?_) (fun p hp => ?_) reps
      · rw [← Fragment.parts_of_times htail] at hp
        exact h.final_part hf hrelaxed.flat hp (hrelaxed.parts p hp) href
      · exact ((Fragment.steady_iff p).1 ((steadyFragments_iff _).1 hsteady p hp)).1

theorem fresh (h : o.RelaxesInto diags diags' u) {s : Section Empty} (hs : s ∈ u.sections) :
    s.block.fresh = s.block := by
  obtain ⟨_, _, hdone⟩ := h.done
  obtain ⟨t, ht, rfl⟩ := relax_done hdone
  apply Block.fresh_of_last
  obtain ⟨s₁, hs₁, -, -, hsettled⟩ := exists_of_forall₂_right (Sections.alike_relax ht) hs
  obtain ⟨s₀, hs₀, hfinalized⟩ := exists_of_forall₂_right (finalized_finalizeSections o.symbols diags o.sections) hs₁
  obtain ⟨s', -, rfl⟩ := List.mem_map.1 hs₀
  refine last_of_forall₂ (fun f g hfg hnone => ?_) hsettled
    (last_of_forall₂ (fun f g hfg hnone => ?_) hfinalized.fragments s'.block.last_fresh)
  · have htail := hfg.tail
    rwa [hnone, Option.map_none, Option.map_eq_none_iff] at htail
  · rcases hfg.kin.tail with ⟨-, hg⟩ | ⟨_, _, hsome, -, -⟩
    · exact hg
    · cases hnone.symm.trans hsome

/-- The object that a relaxation ends in is finalized to itself. -/
theorem finalize (h : o.RelaxesInto diags diags' u) (d : Diagnostics) :
    ∃ d', u.finalize d = (u, d') ∧ d'.hasErrors = d.hasErrors := by
  have hfinal : ∀ s ∈ u.sections, ∀ f ∈ s.block.fragments, f.Final u.symbols none := by
    intro s hs f hf
    obtain ⟨k, hk⟩ := List.getElem?_of_mem hs
    obtain ⟨i, hi⟩ := List.getElem?_of_mem hf
    have hki : u.sections.fragment? ⟨k, i⟩ = some f := by
      unfold Sections.fragment?
      rw [hk]
      exact hi
    exact h.final hki
  obtain ⟨d', hd', herrors⟩ := finalizeSections_of_final (fun s hs => ⟨h.fresh hs, hfinal s hs⟩) d
  refine ⟨d', ?_, herrors⟩
  unfold Object.finalize
  rw [hd']

end RelaxesInto

end Object

end SpanLayout
