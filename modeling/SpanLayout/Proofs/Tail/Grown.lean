import SpanLayout.Proofs.Tail.Parts

/-!
# What a part has grown from

Measuring and expanding widen fields and lengthen branches, and nothing else: what a part says, and where it stands,
stays. -/

namespace SpanLayout

/-- What becomes of a tail that is no repetition. -/
inductive Tail.Grows : Tail Empty → Tail Empty → Prop
  | same (t : Tail Empty) : Grows t t
  | widened (f : Leb128.Field) (len : Nat) : Grows (.leb128 f) (.leb128 { f with len })
  | lengthened (b : Branch) : Grows (.branch b) (.branch b.lengthen)

namespace Tail.Grows

variable {t u v : Tail Empty}

theorem trans (h : Grows t u) (h' : Grows u v) : Grows t v := by
  cases h with
  | same => exact h'
  | widened f len =>
    cases h' with
    | same => exact .widened f len
    | widened _ len' => exact .widened f len'
  | lengthened b =>
    cases h' with
    | same => exact .lengthened b
    | lengthened _ => exact .lengthened b

theorem measure (info : FragmentInfo) (h : t.plain = true) : Grows t (t.measure info).state.1 := by
  cases t with
  | times _ _ _ => cases h
  | other d => cases d
  | gap _ | align _ | origin _ | branch _ =>
    rw [Tail.measure]
    exact .same _
  | leb128 f =>
    rw [Tail.measure]
    dsimp only [Directive.measure, Leb128.Field.measure]
    cases f.value.const? with
    | none => exact .same _
    | some v => exact .widened f _

theorem expand (info : FragmentInfo) (id old new : Int) (h : t.plain = true) :
    Grows t (t.expand info id old new).state := by
  cases t with
  | times _ _ _ => exact nomatch h
  | other d => exact nomatch d
  | gap _ | align _ | origin _ =>
    rw [Tail.expand]
    exact .same _
  | branch b =>
    rw [Tail.expand]
    exact .lengthened b
  | leb128 f =>
    rw [Tail.expand]
    dsimp only [Directive.expand, Leb128.Field.expand]
    split
    · exact .same _
    · exact .widened f _

end Tail.Grows

/-- What becomes of a fragment that is no repetition. -/
structure Fragment.Grown (f g : Fragment (Tail Empty)) : Prop where
  ref : g.ref = f.ref
  source : g.source = f.source
  fixed : g.fixed = f.fixed
  fixups : g.fixups = f.fixups
  tail : (f.tail = none ∧ g.tail = none) ∨ ∃ t t', f.tail = some t ∧ g.tail = some t' ∧ t.Grows t'

namespace Fragment

variable {f g h : Fragment (Tail Empty)}

theorem Grown.refl (f : Fragment (Tail Empty)) : Grown f f := by
  refine ⟨rfl, rfl, rfl, rfl, ?_⟩
  cases ht : f.tail with
  | none => exact .inl ⟨rfl, rfl⟩
  | some t => exact .inr ⟨t, t, rfl, rfl, .same t⟩

theorem Grown.trans (hfg : Grown f g) (hgh : Grown g h) : Grown f h := by
  refine ⟨hgh.ref.trans hfg.ref, hgh.source.trans hfg.source, hgh.fixed.trans hfg.fixed,
    hgh.fixups.trans hfg.fixups, ?_⟩
  rcases hfg.tail with ⟨hf, hg⟩ | ⟨t, u, hf, hg, htu⟩
  · rcases hgh.tail with ⟨-, hh⟩ | ⟨u, v, hg', -, -⟩
    · exact .inl ⟨hf, hh⟩
    · cases hg.symm.trans hg'
  · rcases hgh.tail with ⟨hg', -⟩ | ⟨u', v, hg', hh, huv⟩
    · cases hg.symm.trans hg'
    · cases hg.symm.trans hg'
      exact .inr ⟨t, v, hf, hh, htu.trans huv⟩

theorem Relaid.grown (hr : Relaid f g) : Grown f g := by
  obtain ⟨offset, len, rfl, -⟩ := hr
  have hf := Grown.refl f
  exact ⟨rfl, rfl, rfl, rfl, hf.tail⟩

theorem grown_expand (hp : f.tail.all Tail.plain = true) (id old new : Int) : Grown f (f.expand id old new).state := by
  cases ht : f.tail with
  | none =>
    rw [expand_of_none ht]
    exact .refl f
  | some t =>
    rw [ht] at hp
    have hgrows := Tail.Grows.expand f.info id old new (t := t) hp
    rw [expand_of_some ht]
    split <;> rename_i heq <;> rw [heq] at hgrows <;> exact ⟨rfl, rfl, rfl, rfl, .inr ⟨t, _, ht, rfl, hgrows⟩⟩

theorem grown_measureAt (hp : f.tail.all Tail.plain = true) {offset : Nat} {requests : List SpanRequest}
    (hm : f.measureAt offset = .done (g, requests) ()) : Grown f g := by
  cases ht : f.tail with
  | none =>
    rw [measureAt_of_none ht] at hm
    obtain ⟨rfl, -⟩ := Prod.mk.inj (congrArg Attempt.state hm)
    exact ⟨rfl, rfl, rfl, rfl, .inl ⟨ht, ht⟩⟩
  | some t =>
    rw [ht] at hp
    have hgrows := Tail.Grows.measure { f.info with offset } (t := t) hp
    rw [measureAt_of_some ht] at hm
    split at hm
    · rename_i heq
      obtain ⟨rfl, -⟩ := Prod.mk.inj (congrArg Attempt.state hm)
      rw [heq] at hgrows
      exact ⟨rfl, rfl, rfl, rfl, .inr ⟨t, _, ht, rfl, hgrows⟩⟩
    · cases congrArg Attempt.result hm

theorem fits_measureAt (hp : f.tail.all Tail.plain = true) (hb : f.tail.all Tail.ownModest = true) {offset : Nat}
    {requests : List SpanRequest} (hm : f.measureAt offset = .done (g, requests) ()) : g.Fits := by
  cases ht : f.tail with
  | none =>
    rw [measureAt_of_none ht] at hm
    obtain ⟨rfl, -⟩ := Prod.mk.inj (congrArg Attempt.state hm)
    unfold Fits
    rw [ht]
    rfl
  | some t =>
    rw [ht] at hp hb
    rw [measureAt_of_some ht] at hm
    split at hm
    · rename_i t' spans len heq
      obtain ⟨rfl, -⟩ := Prod.mk.inj (congrArg Attempt.state hm)
      have hfits := @Tail.measure_fits { f.info with offset } t hp hb len (by rw [heq])
      rw [heq] at hfits
      exact (fits_of_some rfl).2 hfits
    · cases congrArg Attempt.result hm

theorem Fits.relaid (hf : f.Fits) (hr : Relaid f g) : g.Fits := by
  obtain ⟨offset, len, hg, hlen⟩ := hr
  have htail : g.tail = f.tail := by rw [hg]
  have hglen : g.tailLen = len := by rw [hg]
  cases hs : f.setsOffset with
  | false =>
    unfold Fits
    rw [htail, hglen, hlen hs]
    exact hf
  | true =>
    obtain ⟨t, ht, hset⟩ := (Option.any_eq_true _ _).1 hs
    exact (fits_of_some (htail.trans ht)).2 (Tail.fits_of_setsOffset hset _)

/-- What a part of `fs` has become: it has grown, and is as long as its form. -/
def GrownFrom (fs : List (Fragment (Tail Empty))) (g : Fragment (Tail Empty)) : Prop := (∃ f ∈ fs, f.Grown g) ∧ g.Fits

theorem GrownFrom.of_index {index : Nat} (h : GrownFrom ({ f with index } : Fragment (Tail Empty)).parts g) :
    GrownFrom f.parts g := by
  obtain ⟨⟨p, hp, hpg⟩, hfits⟩ := h
  refine ⟨?_, hfits⟩
  unfold parts at hp ⊢
  cases ht : f.tail with
  | some t =>
    rw [ht] at hp
    cases t with
    | times count body reps => exact ⟨p, hp, hpg⟩
    | gap _ | align _ | origin _ | leb128 _ | branch _ | other _ =>
      obtain rfl := List.mem_singleton.1 hp
      exact ⟨f, List.mem_singleton_self f, hpg.ref, hpg.source, hpg.fixed, hpg.fixups, ht ▸ hpg.tail⟩
  | none =>
    rw [ht] at hp
    obtain rfl := List.mem_singleton.1 hp
    exact ⟨f, List.mem_singleton_self f, hpg.ref, hpg.source, hpg.fixed, hpg.fixups, ht ▸ hpg.tail⟩

theorem kept_grownFrom (fs : List (Fragment (Tail Empty))) : Kept (GrownFrom fs) where
  expand := by
    rintro g id old new hp ⟨⟨f, hf, hfg⟩, hfits⟩
    refine ⟨⟨f, hf, hfg.trans (grown_expand hp id old new)⟩, ?_⟩
    rcases expand_plain hp hfits id old new with ⟨g', x, he, hg'⟩ | ⟨e, he⟩ <;> rw [he]
    · exact hg'
    · exact hfits
  relaid := by
    rintro g g' hr ⟨⟨f, hf, hfg⟩, hfits⟩
    exact ⟨⟨f, hf, hfg.trans hr.grown⟩, hfits.relaid hr⟩

theorem grownFrom_measureAt (hf : f.flat = true) (hb : ∀ p ∈ f.parts, p.tail.all Tail.ownModest = true) {offset : Nat}
    {requests : List SpanRequest} (hm : f.measureAt offset = .done (g, requests) ()) :
    ∀ p ∈ g.parts, GrownFrom f.parts p := by
  intro p hp
  obtain ⟨p', hp', at', requests', hm'⟩ := parts_measureAt hf hm hp
  have hplain := plain_of_mem_parts hf hp'
  exact ⟨⟨p', hp', grown_measureAt hplain hm'⟩, fits_measureAt hplain (hb p' hp') hm'⟩

end Fragment

end SpanLayout
