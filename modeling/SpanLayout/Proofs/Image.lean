import SpanLayout.Proofs.Finalize
import SpanLayout.Proofs.Relaxation.History
import SpanLayout.Proofs.Tail.Emit

/-!
# Images

A layout that succeeds writes every section: its fragments, finalized and grown to their final lengths, one after the
other from offset 0, each of them with as many bytes as it is long.
-/

namespace SpanLayout

/-! ## What becomes of a fragment -/

/-- The size of a gap. -/
def Tail.gap? {κ : Type} : Tail κ → Option Nat
  | .gap g => some g.size
  | _ => none

theorem Tail.gap?_measure (info : FragmentInfo) (t : Tail Empty) : (t.measure info).state.1.gap? = t.gap? := by
  cases t with
  | times count body reps =>
    rw [Tail.measure]
    split
    · rfl
    · split
      · rfl
      · split <;> rfl
  | other d => cases d
  | gap _ | align _ | origin _ | leb128 _ | branch _ =>
    rw [Tail.measure]
    rfl

theorem Tail.gap?_expand (info : FragmentInfo) (id old new : Int) (t : Tail Empty) :
    (t.expand info id old new).state.gap? = t.gap? := by
  cases t with
  | times count body reps =>
    obtain ⟨e, h⟩ | ⟨n, -, h⟩ | ⟨slot, id', f, -, -, ⟨e, -, h⟩ | ⟨x, -, h⟩⟩ :=
      Tail.expand_times_cases info id old new count body reps
    all_goals rw [h]; rfl
  | other d => cases d
  | gap _ | align _ | origin _ | leb128 _ | branch _ =>
    rw [Tail.expand]
    rfl

/-- A fragment with the bytes and fields of another, and a tail that came from its tail. It is as long as its form. -/
structure Fragment.Settles (f g : Fragment (Tail Empty)) : Prop where
  source : g.source = f.source
  fixed : g.fixed = f.fixed
  fixups : g.fixups = f.fixups
  tail : g.tail.map Tail.gap? = f.tail.map Tail.gap?
  exact : g.Exact

namespace Fragment

variable {f g : Fragment (Tail Empty)}

theorem gap?_measureAt (offset : Nat) (f : Fragment (Tail Empty)) :
    (f.measureAt offset).state.1.tail.map Tail.gap? = f.tail.map Tail.gap? := by
  cases ht : f.tail with
  | none =>
    rw [measureAt_of_none ht]
    exact congrArg _ ht
  | some t =>
    have hm := Tail.gap?_measure { f.info with offset } t
    rw [measureAt_of_some ht]
    split <;> rename_i heq <;> rw [heq] at hm <;> simpa [Attempt.done, Attempt.fail] using hm

theorem gap?_expand (id old new : Int) (f : Fragment (Tail Empty)) :
    (f.expand id old new).state.tail.map Tail.gap? = f.tail.map Tail.gap? := by
  cases ht : f.tail with
  | none =>
    rw [expand_of_none ht]
    exact congrArg _ ht
  | some t =>
    have hx := Tail.gap?_expand f.info id old new t
    rw [expand_of_some ht]
    split <;> rename_i heq <;> rw [heq] at hx <;> simpa [Attempt.done, Attempt.fail] using hx

theorem settles_of_measured {index : Nat} {requests : List SpanRequest}
    (h : Relaxation.Measured index f g requests) : f.Settles g := by
  obtain ⟨offset, hm⟩ := h
  have hframe := frame_measureAt offset { f with index }
  have hgap := gap?_measureAt offset { f with index }
  have hexact := exact_measureAt offset { f with index } (by rw [hm]; rfl)
  rw [hm] at hframe hgap hexact
  simp only [frame, Frame.mk.injEq] at hframe
  exact ⟨hframe.2.2.1, hframe.2.2.2.1, hframe.2.2.2.2.1, hgap, hexact⟩

theorem Settles.moved (h : f.Settles g) (offset : Nat) : f.Settles { g with offset } :=
  ⟨h.source, h.fixed, h.fixups, h.tail, h.exact.moved offset⟩

theorem Settles.expand (h : f.Settles g) (id old new : Int) : f.Settles (g.expand id old new).state := by
  have hframe := frame_expand id old new g
  simp only [frame, Frame.mk.injEq] at hframe
  exact ⟨hframe.2.2.1.trans h.source, hframe.2.2.2.1.trans h.fixed, hframe.2.2.2.2.1.trans h.fixups,
    (gap?_expand id old new g).trans h.tail, exact_expand id old new g h.exact⟩

theorem Settles.moveTo (h : f.Settles g) (offset : Nat) : f.Settles (g.moveTo offset).state := by
  unfold Fragment.moveTo
  dsimp only
  split
  · exact (h.moved offset).expand _ _ _
  · exact h.moved offset

theorem offset_moveTo {κ : Type} [Directive κ] (offset : Nat) (f : Fragment (Tail κ)) :
    (f.moveTo offset).state.offset = offset := by
  unfold Fragment.moveTo
  dsimp only
  split
  · exact offset_expand 1 0 _ _
  · rfl

end Fragment

/-! ## Laying out, whatever the lengths -/

/-- Moving a fragment keeps the relation, unless it fails. -/
def Fragment.Movable (R : Fragment (Tail Empty) → Fragment (Tail Empty) → Prop) : Prop :=
  ∀ (d f : Fragment (Tail Empty)) (offset n : Nat), R d f → (f.moveTo offset).result = .ok n →
    R d (f.moveTo offset).state

theorem layFragments_settles {R : Fragment (Tail Empty) → Fragment (Tail Empty) → Prop} (hR : Fragment.Movable R)
    {ds fs : List (Fragment (Tail Empty))} (h : List.Forall₂ R ds fs) {offset : Nat} {diags : Diagnostics}
    (hd : (layFragments offset diags fs).2.hasErrors = false) : List.Forall₂ R ds (layFragments offset diags fs).1 := by
  induction h generalizing offset diags with
  | nil => exact .nil
  | @cons d f ds fs hdf _ ih =>
    rw [layFragments] at hd ⊢
    dsimp only at hd ⊢
    have hclean : (diags.reportFailure (f.moveTo offset).result).hasErrors = false := by
      by_contra hs
      rw [Bool.not_eq_false] at hs
      rw [hasErrors_layFragments _ hs] at hd
      cases hd
    obtain ⟨-, n, hn⟩ := Diagnostics.reportFailure_clean
      (OneCause.reported fun e he => (Fragment.moveTo_error he).imp fun _ h => h.1) hclean
    exact .cons (hR d f offset n hdf hn) (ih hd)

theorem layFragments_eq_placeFrom {κ : Type} [Directive κ] (offset : Nat) (diags : Diagnostics)
    (fs : List (Fragment (Tail κ))) :
    (layFragments offset diags fs).1 = Fragment.placeFrom offset (layFragments offset diags fs).1 := by
  induction fs generalizing offset diags with
  | nil => rfl
  | cons f fs ih =>
    have ho := Fragment.offset_moveTo offset f
    rw [layFragments]
    dsimp only
    generalize f.moveTo offset = x at ho ⊢
    subst ho
    rw [Fragment.placeFrom]
    congr 1
    exact ih _ _

namespace Sections

/-- The sections have the same names and starts, and their fragments are related. -/
def Alike (R : Fragment (Tail Empty) → Fragment (Tail Empty) → Prop) (ss tt : Sections Empty) : Prop :=
  List.Forall₂ (fun s t : Section Empty =>
    t.name = s.name ∧ t.start = s.start ∧ List.Forall₂ R s.block.fragments t.block.fragments) ss tt

theorem forall₂_set {α β : Type} {R : α → β → Prop} {as : List α} {bs : List β} (h : List.Forall₂ R as bs) {i : Nat}
    {b : β} (hb : ∀ a, as[i]? = some a → R a b) : List.Forall₂ R as (bs.set i b) := by
  induction h generalizing i with
  | nil => exact .nil
  | cons hab hrest ih =>
    cases i with
    | zero => exact .cons (hb _ rfl) hrest
    | succ i => exact .cons hab (ih fun a ha => hb a ha)

theorem alike_setFragment {R : Fragment (Tail Empty) → Fragment (Tail Empty) → Prop} {ss tt : Sections Empty}
    (h : ss.Alike R tt) {r : FragmentRef} {g : Fragment (Tail Empty)}
    (hg : ∀ d, ss.fragment? r = some d → R d g) : ss.Alike R (tt.setFragment r g) := by
  obtain ⟨k, i⟩ := r
  unfold Alike setFragment at *
  dsimp only
  induction h generalizing k with
  | nil => cases k <;> exact .nil
  | cons hst hrest ih =>
    cases k with
    | zero =>
      refine .cons ⟨hst.1, hst.2.1, ?_⟩ hrest
      exact forall₂_set hst.2.2 fun d hd => hg d (by simpa [fragment?] using hd)
    | succ k => exact .cons hst (ih k fun d hd => hg d (by simpa [fragment?] using hd))

theorem alike_lay {R : Fragment (Tail Empty) → Fragment (Tail Empty) → Prop} (hR : Fragment.Movable R)
    {ss tt : Sections Empty} (h : ss.Alike R tt) {diags : Diagnostics} (hd : (tt.lay diags).2.hasErrors = false) :
    ss.Alike R (tt.lay diags).1 := by
  unfold Alike at h ⊢
  induction h generalizing diags with
  | nil => exact .nil
  | @cons s t ss tt hst _ ih =>
    rw [lay] at hd ⊢
    dsimp only [Block.lay] at hd ⊢
    have hclean : (layFragments 0 diags t.block.fragments).2.hasErrors = false := by
      by_contra hs
      rw [Bool.not_eq_false] at hs
      rw [hasErrors_lay hs] at hd
      cases hd
    exact .cons ⟨hst.1, hst.2.1, layFragments_settles hR hst.2.2 hclean⟩ (ih hd)

theorem placed_of_mem_lay {κ : Type} [Directive κ] {diags : Diagnostics} {ss : Sections κ} {s : Section κ}
    (h : s ∈ (ss.lay diags).1) : s.block.fragments = Fragment.placeFrom 0 s.block.fragments := by
  induction ss generalizing diags with
  | nil => cases h
  | cons t tt ih =>
    rw [lay] at h
    dsimp only [Block.lay] at h
    rcases List.mem_cons.1 h with rfl | h
    · exact layFragments_eq_placeFrom 0 diags t.block.fragments
    · exact ih h

theorem stable_alike (ss : Sections Empty) : Stable (ss.Alike Fragment.Settles) where
  expand := by
    intro tt r g id old new x h hg hx
    refine alike_setFragment h fun d hd => ?_
    obtain ⟨d', hd', hdg⟩ := fragment?_of_forall₂ (h.imp fun _ _ h => h.2.2) hg
    rw [hd] at hd'
    cases hd'
    exact hdg.expand id old new
  lay := fun h hd => alike_lay (fun _ _ offset _ h _ => h.moveTo offset) h hd

end Sections

/-! ## Measuring -/

namespace Relaxation

theorem settles_surveyFragments {index offset setters : Nat} {diags : Diagnostics} {fs : List (Fragment (Tail Empty))}
    (h : (surveyFragments index offset setters diags fs).diags.hasErrors = false) :
    List.Forall₂ Fragment.Settles fs (surveyFragments index offset setters diags fs).measured := by
  induction fs generalizing index offset setters with
  | nil => exact .nil
  | cons f fs ih =>
    obtain ⟨g, requests, hm, -, he⟩ := surveyFragments_cons h
    rw [he] at h ⊢
    exact .cons (Fragment.settles_of_measured hm) (ih h)

theorem alike_surveySections {index setters : Nat} {diags : Diagnostics} {ss : Sections Empty}
    (h : (surveySections index setters diags ss).diags.hasErrors = false) :
    ss.Alike Fragment.Settles (surveySections index setters diags ss).measured := by
  induction ss generalizing index setters diags with
  | nil => exact .nil
  | cons s ss ih =>
    have hs := hasErrors_surveySections_cons h
    rw [surveySections] at h ⊢
    exact .cons ⟨rfl, rfl, settles_surveyFragments hs⟩ (ih h)

end Relaxation

theorem Sections.alike_relax {config : Config} {diags : Diagnostics} {ss : Sections Empty} {t : Relaxation Empty}
    {stats : Stats} (h : ss.relax config diags = .done t stats) : ss.Alike Fragment.Settles t.sections :=
  (stable_alike ss).relax h Relaxation.alike_surveySections

/-! ## Writing -/

section

variable {κ : Type} [Directive κ]

theorem emitFragments_append {site : Site} {at_ : Nat} {fs gs : List (Fragment (Tail κ))} {e : Emission}
    (h : emitFragments site at_ (fs ++ gs) = .ok e) :
    ∃ a b, emitFragments site at_ fs = .ok a ∧ emitFragments site (at_ + a.length) gs = .ok b ∧ e = a ++ b := by
  induction fs generalizing at_ e with
  | nil =>
    rw [emitFragments]
    exact ⟨.empty, e, rfl, h, rfl⟩
  | cons f fs ih =>
    rw [List.cons_append, emitFragments_cons] at h
    obtain ⟨first, hfirst, h⟩ := Except.bind_eq_ok h
    obtain ⟨rest, hrest, h⟩ := Except.bind_eq_ok h
    cases h
    obtain ⟨a, b, ha, hb, rfl⟩ := ih hrest
    refine ⟨first ++ a, b, ?_, ?_, ?_⟩
    · rw [emitFragments_cons, hfirst, Except.bind, ha]
      rfl
    · rwa [Emission.length_append, ← Nat.add_assoc]
    · show Emission.append _ (Emission.append _ _) = Emission.append (Emission.append _ _) _
      simp [Emission.append]

theorem emitFragments_at [LawfulDirective κ] {site : Site} {at_ : Nat} {fs : List (Fragment (Tail κ))} {e : Emission}
    (hexact : ExactFragments fs) (h : emitFragments site at_ fs = .ok e) {i : Nat} {f : Fragment (Tail κ)}
    (hf : fs[i]? = some f) :
    ∃ before own after, emitFragments site at_ (fs.take i) = .ok before ∧ before.length = Fragment.sumLen (fs.take i) ∧
      f.emit site (at_ + Fragment.sumLen (fs.take i)) = .ok own ∧ own.length = f.totalLen ∧
      e = before ++ (own ++ after) := by
  have hmem := List.mem_of_getElem? hf
  rw [exactFragments_iff] at hexact
  have hsplit : fs = fs.take i ++ f :: fs.drop (i + 1) := by
    obtain ⟨hi, rfl⟩ := List.getElem?_eq_some_iff.1 hf
    simp
  rw [hsplit] at h
  obtain ⟨before, rest, hbefore, hrest, rfl⟩ := emitFragments_append h
  have hlen : before.length = Fragment.sumLen (fs.take i) :=
    length_emitFragments site at_ _ ((exactFragments_iff _).2 fun g hg => hexact g (List.mem_of_mem_take hg)) hbefore
  rw [emitFragments_cons, hlen] at hrest
  obtain ⟨own, hown, hrest⟩ := Except.bind_eq_ok hrest
  obtain ⟨after, -, hrest⟩ := Except.bind_eq_ok hrest
  cases hrest
  exact ⟨before, own, after, hbefore, hlen, hown, Fragment.length_emit site _ f (hexact f hmem) hown, rfl⟩

theorem emitFragments_split [LawfulDirective κ] {site : Site} {fs : List (Fragment (Tail κ))} {e : Emission}
    (hplaced : fs = Fragment.placeFrom 0 fs) (hexact : ExactFragments fs) (h : emitFragments site 0 fs = .ok e)
    {i : Nat} {f : Fragment (Tail κ)} (hf : fs[i]? = some f) :
    ∃ before own after, emitFragments site 0 (fs.take i) = .ok before ∧ before.length = f.offset ∧
      f.emit site f.offset = .ok own ∧ own.length = f.totalLen ∧ e = before ++ (own ++ after) := by
  have hoffset : Fragment.sumLen (fs.take i) = f.offset := by
    have hp := Fragment.getElem?_placeFrom 0 fs i
    rw [← hplaced, hf, Option.map_some, Option.some.injEq] at hp
    have := congrArg Fragment.offset hp
    simpa using this.symm
  have hat := emitFragments_at hexact h hf
  rwa [hoffset, Nat.zero_add] at hat

end

namespace Object

section

variable {κ : Type} [Directive κ] {o : Object κ}

theorem failsOnly_sectionImage {P : Error → Prop} (hone : ∀ c : Cause, P (.one c))
    (hother : ∀ site at_ info (d : κ), FailsOnly P (Directive.emit site at_ info d)) (o : Object κ) (s : Section κ) :
    FailsOnly P (o.sectionImage s) := by
  unfold sectionImage
  exact (failsOnly_emitFragments hone hother _ _ _).bind fun e => .ok _

theorem forall₂_of_reports {α : Type} {results : List (Except Error α)}
    (hresults : ∀ r ∈ results, FailsOnly (·.parts ≠ []) r)
    {diags : Diagnostics} (h : (results.foldl Diagnostics.reportFailure diags).hasErrors = false) :
    diags.hasErrors = false ∧ List.Forall₂ (fun r a => r = .ok a) results (results.filterMap Except.toOption) := by
  induction results generalizing diags with
  | nil => exact ⟨h, .nil⟩
  | cons r rs ih =>
    obtain ⟨hr, hrs⟩ := ih (fun r hr => hresults r (List.mem_cons_of_mem _ hr)) h
    obtain ⟨hd, a, rfl⟩ := Diagnostics.reportFailure_clean (hresults r List.mem_cons_self) hr
    exact ⟨hd, .cons rfl hrs⟩

theorem images_clean [CandidDirective κ] {diags : Diagnostics} (h : (o.images diags).2.hasErrors = false) :
    List.Forall₂ (fun s image => o.sectionImage s = .ok image) o.sections (o.images diags).1 := by
  have hreported : ∀ r ∈ o.sections.map o.sectionImage, FailsOnly (·.parts ≠ []) r := by
    intro r hr
    obtain ⟨s, -, rfl⟩ := List.mem_map.1 hr
    exact o.failsOnly_sectionImage (fun _ => List.cons_ne_nil _ _) (fun _ _ _ _ _ => CandidDirective.reported_emit) s
  exact List.forall₂_map_left_iff.1 (forall₂_of_reports hreported h).2

/-- A layout that succeeded was finalized and relaxed without an error, and wrote every section. -/
theorem layout_ok [CandidDirective κ] {images : List Image} (h : o.layout.result = .ok images) :
    ∃ (t : Relaxation κ) (stats : Stats), (o.finalize (.empty o.config.maxErrors)).2.hasErrors = false ∧
      (o.finalize (.empty o.config.maxErrors)).1.sections.relax o.config
        (o.finalize (.empty o.config.maxErrors)).2 = .done t stats ∧
      o.layout.object = { o with sections := t.sections } ∧
      List.Forall₂ (fun s image => o.layout.object.sectionImage s = .ok image) t.sections images := by
  obtain ⟨fin, hfin⟩ : ∃ fin, o.finalize (.empty o.config.maxErrors) = fin := ⟨_, rfl⟩
  have hconst : fin.1 = { o with sections := fin.1.sections } := by
    rw [← hfin]
    rfl
  unfold layout at h ⊢
  rw [hfin] at h ⊢
  dsimp only at h ⊢
  cases he : fin.2.toError? with
  | some e =>
    rw [he] at h
    cases h
  | none =>
    rw [he] at h
    dsimp only at h ⊢
    unfold Object.relax at h ⊢
    rw [show fin.1.config = o.config by rw [hconst]] at h ⊢
    obtain ⟨x, hx⟩ : ∃ x, fin.1.sections.relax o.config fin.2 = x := ⟨_, rfl⟩
    obtain ⟨t, r⟩ := x
    rw [hx] at h ⊢
    cases r with
    | error e => cases h
    | ok stats =>
      dsimp only [Attempt.mapState] at h ⊢
      refine ⟨t, stats, Diagnostics.hasErrors_of_toError? he, rfl, by rw [hconst], ?_⟩
      unfold Diagnostics.toResult at h
      split at h
      · cases h
      · rename_i hd
        cases h
        exact images_clean (Diagnostics.hasErrors_of_toError? hd)

end

/-- How the sections that a successful layout leaves come from those that were built: every fragment was finalized and
has settled, and they lie one after the other. -/
theorem layout_settles {o : Object Empty} {images : List Image} (h : o.layout.result = .ok images) :
    ∃ ss : Sections Empty,
      List.Forall₂ (Section.Finalized o.symbols) o.sections.fresh ss ∧
      List.Forall₂ (fun s s' : Section Empty =>
        List.Forall₂ (Fragment.FinalizesTo o.symbols none) s.block.fragments s'.block.fragments) o.sections.fresh ss ∧
      ss.Alike Fragment.Settles o.layout.object.sections ∧
      (∀ s ∈ o.layout.object.sections, s.block.fragments = Fragment.placeFrom 0 s.block.fragments) := by
  obtain ⟨t, stats, hclean, hrelax, hobject, -⟩ := layout_ok h
  refine ⟨(o.finalize (.empty o.config.maxErrors)).1.sections, finalized_finalizeSections _ _ _,
    finalizesTo_finalizeSections _ hclean, ?_, ?_⟩
  · rw [hobject]
    exact Sections.alike_relax hrelax
  · rw [hobject]
    obtain ⟨tt, d, he, -⟩ := Sections.relax_laid hrelax
    intro s hs
    exact Sections.placed_of_mem_lay (by rw [← he]; exact hs)

end Object

end SpanLayout
