import SpanLayout.Proofs.Relaxation.Survey
import SpanLayout.Proofs.Tail.Headroom

/-!
# Objects as they are built

Fragments know their places, and fields are as wide as fields can be: that is so in an empty object, and every operation
that builds an object keeps it so.
-/

namespace SpanLayout

variable {κ : Type}

/-- A block of section `k` as it is built. -/
structure Block.Built (k : Nat) (b : Block (Tail κ)) : Prop where
  sectionIndex : b.sectionIndex = k
  refs : ∀ (i : Nat) (f : Fragment (Tail κ)), b.fragments[i]? = some f → f.ref = ⟨k, i⟩
  sized : ∀ f ∈ b.fragments, f.Sized

namespace Block.Built

variable {k : Nat} {b : Block (Tail κ)}

theorem push (h : b.Built k) {f : Fragment (Tail κ)} (hf : f.Sized) : (b.push f).Built k := by
  have hsized : ({ f with ref := ⟨b.sectionIndex, b.fragments.length⟩ } : Fragment (Tail κ)).Sized :=
    hf.of_tail rfl
  refine ⟨h.sectionIndex, fun i g hg => ?_, fun g hg => ?_⟩
  · rw [Block.push, List.getElem?_append] at hg
    split at hg
    · exact h.refs i g hg
    · rename_i hi
      obtain ⟨hlt, rfl⟩ := List.getElem?_eq_some_iff.mp hg
      have hi' : i = b.fragments.length := by
        rw [List.length_singleton] at hlt
        omega
      simp [h.sectionIndex, hi']
  · rcases List.mem_append.mp hg with hg | hg
    · exact h.sized g hg
    · rw [List.mem_singleton.mp hg]
      exact hsized

theorem modifyLast (h : b.Built k) {g : Fragment (Tail κ) → Fragment (Tail κ)}
    (hg : ∀ f ∈ b.fragments, (g f).ref = f.ref ∧ (g f).Sized) : (b.modifyLast g).Built k := by
  refine ⟨h.sectionIndex, fun i f hf => ?_, fun f hf => ?_⟩
  · rw [Block.modifyLast, List.getElem?_modify] at hf
    obtain ⟨f', hf', rfl⟩ := Option.map_eq_some_iff.mp hf
    split
    · rw [(hg f' (List.mem_of_getElem? hf')).1, h.refs i f' hf']
    · exact h.refs i f' hf'
  · obtain ⟨i, hi⟩ := List.mem_iff_getElem?.mp hf
    rw [Block.modifyLast, List.getElem?_modify] at hi
    obtain ⟨f', hf', rfl⟩ := Option.map_eq_some_iff.mp hi
    split
    · exact (hg f' (List.mem_of_getElem? hf')).2
    · exact h.sized f' (List.mem_of_getElem? hf')

theorem appendFragment (h : b.Built k) {f : Fragment (Tail κ)} (hf : f.Sized) : (b.appendFragment f).Built k :=
  push (b := { b with lastGap := none }) ⟨h.sectionIndex, h.refs, h.sized⟩ hf

theorem sized_empty : (Fragment.empty : Fragment (Tail κ)).Sized := by
  intro p hp
  rw [List.mem_singleton.mp hp]
  rfl

theorem start (h : b.Built k) : b.start.Built k := h.appendFragment sized_empty

theorem fresh (h : b.Built k) : b.fresh.Built k := by
  unfold Block.fresh
  split
  · split
    · exact h.start
    · exact h
  · exact h.start

theorem appendBytes (h : b.Built k) (bytes : List UInt8) : (b.appendBytes bytes).Built k :=
  h.fresh.modifyLast fun f hf => ⟨rfl, (h.fresh.sized f hf).of_tail rfl⟩

theorem appendValue (h : b.Built k) (size : Nat) (e : Expr) (source : SourcePos) :
    (b.appendValue size e source).Built k := by
  refine h.fresh.modifyLast fun f hf => ?_
  dsimp only
  split
  · exact ⟨rfl, (h.fresh.sized f hf).of_tail rfl⟩
  · exact ⟨rfl, (h.fresh.sized f hf).of_tail rfl⟩

theorem appendTail (h : b.Built k) {t : Tail κ} {source : SourcePos} (ht : (Fragment.ofTail t source).Sized) :
    (b.appendTail t source).Built k :=
  h.appendFragment ht

theorem sized_withGap (f : Fragment (Tail κ)) (n : Nat) : (f.withTail (.gap ⟨n⟩)).Sized := by
  intro p hp
  rw [List.mem_singleton.mp hp]
  rfl

theorem appendGap (h : b.Built k) (size : Nat) (source : SourcePos) : (b.appendGap size source).Built k := by
  unfold Block.appendGap
  split
  · rename_i before _
    have hb := h.modifyLast (g := (·.withTail (.gap ⟨before + size⟩))) fun f _ => ⟨rfl, sized_withGap f _⟩
    exact ⟨hb.sectionIndex, hb.refs, hb.sized⟩
  · have hb : (b.appendTail (.gap ⟨size⟩) source).Built k := h.appendTail ((sized_withGap .empty size).of_tail rfl)
    exact ⟨hb.sectionIndex, hb.refs, hb.sized⟩

end Block.Built

theorem Block.built_empty (k : Nat) : (Block.empty k : Block (Tail κ)).Built k := by
  have hnone : (⟨k, [], none⟩ : Block (Tail κ)).Built k :=
    ⟨rfl, fun i f hf => by simp at hf, fun f hf => by simp at hf⟩
  exact hnone.push Built.sized_empty

/-- An object as it is built. -/
def Object.Built (o : Object κ) : Prop := ∀ (k : Nat) (s : Section κ), o.sections[k]? = some s → s.block.Built k

namespace Object

variable {o : Object κ}

theorem built_empty (config : Config) : (Object.empty config : Object κ).Built :=
  fun k s hs => by simp [Object.empty] at hs

theorem Built.addSection (h : o.Built) (name : String) (start : Nat) : (o.addSection name start).Built := by
  intro k s hs
  rw [Object.addSection, List.getElem?_append] at hs
  split at hs
  · exact h k s hs
  · obtain ⟨hlt, rfl⟩ := List.getElem?_eq_some_iff.mp hs
    have hk : k = List.length o.sections := by
      rw [List.length_singleton] at hlt
      omega
    simpa [hk] using Block.built_empty k

theorem Built.modifyBlock (h : o.Built) (i : Nat) {g : Block (Tail κ) → Block (Tail κ)}
    (hg : ∀ b : Block (Tail κ), b.Built i → (g b).Built i) : (o.modifyBlock i g).Built := by
  intro k s hs
  rw [Object.modifyBlock, List.getElem?_modify] at hs
  obtain ⟨s', hs', rfl⟩ := Option.map_eq_some_iff.mp hs
  split
  · rename_i hi
    subst hi
    exact hg _ (h i s' hs')
  · exact h k s' hs'

theorem Built.define (h : o.Built) (name : String) (s : Symbol) : (o.define name s).state.Built := by
  unfold Object.define
  split
  · exact h
  · exact h

theorem Built.defineLabel (h : o.Built) (i : Nat) (name : String) (pos : SourcePos) :
    (o.defineLabel i name pos).state.Built := by
  unfold Object.defineLabel
  split
  · exact h
  · exact (h.modifyBlock i fun b hb => hb.fresh).define _ _

theorem Built.refsMatch (h : o.Built) : o.sections.RefsMatch := by
  intro r f hf
  obtain ⟨s, hs, hi⟩ := Option.bind_eq_some_iff.mp hf
  exact (h r.sectionIndex s hs).refs r.index f hi

theorem Built.sized (h : o.Built) {r : FragmentRef} {f : Fragment (Tail κ)} (hf : o.sections.fragment? r = some f) :
    f.Sized := by
  obtain ⟨s, hs, hi⟩ := Option.bind_eq_some_iff.mp hf
  exact (h r.sectionIndex s hs).sized f (List.mem_of_getElem? hi)

end Object

end SpanLayout
