import SpanLayout.Proofs.Spelling
import SpanLayout.Proofs.Tail.Deeply

/-!
# How objects are put together

Fragments are put together from bytes and fields, blocks from bytes, fields and fragments, and the body of a repetition
is a block again. However that is done, fragments know their places and the fields of a fragment lie one behind the
other. -/

namespace SpanLayout

variable {κ : Type}

/-! ## Assembly -/

mutual

/-- A tail as it is made, which repeats only what was put together. -/
inductive Tail.Assembled : Tail κ → Prop
  | plain {t : Tail κ} (h : t.plain = true) (hs : t.sized = true) : Tail.Assembled t
  | times (count : Expr) {k : Nat} {body : Block (Tail κ)} (h : Block.Assembled k body) (reps : Nat) :
    Tail.Assembled (.times count body reps)

/-- A fragment that was put together from bytes, fields and a tail. -/
inductive Fragment.Assembled : Fragment (Tail κ) → Prop
  | empty : Fragment.Assembled .empty
  | source {f : Fragment (Tail κ)} (h : Fragment.Assembled f) (source : SourcePos) :
    Fragment.Assembled { f with source }
  | bytes {f : Fragment (Tail κ)} (h : Fragment.Assembled f) (bytes : List UInt8) :
    Fragment.Assembled (f.appendBytes bytes)
  | value {f : Fragment (Tail κ)} (h : Fragment.Assembled f) (v : Value) : Fragment.Assembled (f.appendValue v)
  | tail {f : Fragment (Tail κ)} {t : Tail κ} (h : Fragment.Assembled f) (ht : Tail.Assembled t) :
    Fragment.Assembled (f.withTail t)

/-- A block of section `k` that was put together from bytes, fields, gaps and fragments. -/
inductive Block.Assembled : Nat → Block (Tail κ) → Prop
  | empty (k : Nat) : Block.Assembled k (.empty k)
  | fragment {k : Nat} {b : Block (Tail κ)} {f : Fragment (Tail κ)} (h : Block.Assembled k b)
    (hf : Fragment.Assembled f) : Block.Assembled k (b.appendFragment f)
  | fresh {k : Nat} {b : Block (Tail κ)} (h : Block.Assembled k b) : Block.Assembled k b.fresh
  | bytes {k : Nat} {b : Block (Tail κ)} (h : Block.Assembled k b) (bytes : List UInt8) :
    Block.Assembled k (b.appendBytes bytes)
  | value {k : Nat} {b : Block (Tail κ)} (h : Block.Assembled k b) (size : Nat) (e : Expr) (source : SourcePos) :
    Block.Assembled k (b.appendValue size e source)
  | gap {k : Nat} {b : Block (Tail κ)} (h : Block.Assembled k b) (size : Nat) (source : SourcePos) :
    Block.Assembled k (b.appendGap size source)
  | tail {k : Nat} {b : Block (Tail κ)} {t : Tail κ} (h : Block.Assembled k b) (ht : Tail.Assembled t)
    (source : SourcePos) : Block.Assembled k (b.appendTail t source)

end

/-- An object whose sections were put together, one operation after the other. -/
inductive Object.Assembled : Object κ → Prop
  | empty (config : Config) : Object.Assembled (.empty config)
  | addSection {o : Object κ} (h : Object.Assembled o) (name : String) (start : Nat) :
    Object.Assembled (o.addSection name start)
  | modifyBlock {o : Object κ} (h : Object.Assembled o) (k : Nat) {g : Block (Tail κ) → Block (Tail κ)}
    (hg : ∀ b : Block (Tail κ), b.Assembled k → (g b).Assembled k) : Object.Assembled (o.modifyBlock k g)
  | label {o : Object κ} (h : Object.Assembled o) (k : Nat) (name : String) (pos : SourcePos) :
    Object.Assembled (o.defineLabel k name pos).state
  | define {o : Object κ} (h : Object.Assembled o) (name : String) (e : Expr) (pos : SourcePos) :
    Object.Assembled (o.defineName name e pos).state

/-! ## What building keeps -/

/-- A property that fragments have however they are built, as long as their tails have the property `Q`. -/
structure Fragment.Closed (P : Fragment (Tail κ) → Prop) (Q : Tail κ → Prop) : Prop where
  empty : P .empty
  named : ∀ {f : Fragment (Tail κ)} (ref : FragmentRef) (source : SourcePos), P f → P { f with ref, source }
  bytes : ∀ {f : Fragment (Tail κ)} (bytes : List UInt8), P f → P (f.appendBytes bytes)
  value : ∀ {f : Fragment (Tail κ)} (v : Value), P f → P (f.appendValue v)
  tail : ∀ {f : Fragment (Tail κ)} {t : Tail κ}, P f → Q t → P (f.withTail t)
  gap : ∀ g : Gap, Q (.gap g)

theorem Block.forall_modifyLast {P : Fragment (Tail κ) → Prop} {b : Block (Tail κ)} (hb : ∀ f ∈ b.fragments, P f)
    {c : Fragment (Tail κ) → Fragment (Tail κ)} (hc : ∀ f, P f → P (c f)) : ∀ f ∈ (b.modifyLast c).fragments, P f := by
  intro g hg
  obtain ⟨i, hi⟩ := List.mem_iff_getElem?.1 hg
  rw [Block.modifyLast, List.getElem?_modify] at hi
  obtain ⟨f, hf, rfl⟩ := Option.map_eq_some_iff.1 hi
  split
  · exact hc f (hb f (List.mem_of_getElem? hf))
  · exact hb f (List.mem_of_getElem? hf)

namespace Fragment.Closed

variable {P : Fragment (Tail κ) → Prop} {Q : Tail κ → Prop} (h : Closed P Q) {b : Block (Tail κ)}
  (hb : ∀ f ∈ b.fragments, P f)

include h hb

theorem appendFragment {f : Fragment (Tail κ)} (hf : P f) : ∀ g ∈ (b.appendFragment f).fragments, P g := by
  intro g hg
  rcases List.mem_append.1 hg with hg | hg
  · exact hb g hg
  · rw [List.mem_singleton.1 hg]
    exact h.named _ f.source hf

theorem fresh : ∀ f ∈ b.fresh.fragments, P f := by
  unfold Block.fresh
  split
  · split
    · exact h.appendFragment hb h.empty
    · exact hb
  · exact h.appendFragment hb h.empty

theorem appendBytes (bytes : List UInt8) : ∀ f ∈ (b.appendBytes bytes).fragments, P f :=
  Block.forall_modifyLast (h.fresh hb) fun _ hf => h.bytes bytes hf

theorem appendValue (size : Nat) (e : Expr) (source : SourcePos) :
    ∀ f ∈ (b.appendValue size e source).fragments, P f := by
  refine Block.forall_modifyLast (h.fresh hb) fun f hf => ?_
  dsimp only
  split
  · exact h.value _ (h.named f.ref source hf)
  · exact h.value _ hf

theorem appendTail {t : Tail κ} (ht : Q t) (source : SourcePos) : ∀ f ∈ (b.appendTail t source).fragments, P f :=
  h.appendFragment hb (h.named _ source (h.tail h.empty ht))

theorem appendGap (size : Nat) (source : SourcePos) : ∀ f ∈ (b.appendGap size source).fragments, P f := by
  unfold Block.appendGap
  split
  · exact Block.forall_modifyLast hb fun _ hf => h.tail hf (h.gap _)
  · exact h.appendTail hb (h.gap _) source

end Fragment.Closed

theorem Fragment.Closed.emptyBlock {P : Fragment (Tail κ) → Prop} {Q : Tail κ → Prop} (h : Closed P Q) (k : Nat) :
    ∀ f ∈ (Block.empty k : Block (Tail κ)).fragments, P f := by
  intro f hf
  rw [List.mem_singleton.1 hf]
  exact h.named _ _ h.empty

/-! ## Fields -/

/-- Where a field lies, and how far it extends. -/
def Fixup.place (f : Fixup) : Nat × Nat := (f.offset, f.size)

theorem Value.size_finalize (symbols : SymbolTable) (pos : SourcePos) (v : Value) :
    (v.finalize symbols pos).state.size = v.size := by
  unfold finalize
  split
  · rfl
  · split
    · rfl
    · dsimp only
      split <;> split <;> rfl

theorem Fixup.places_finalizeAll (symbols : SymbolTable) (pos : SourcePos) (fs : List Fixup) :
    (finalizeAll symbols pos fs).state.map place = fs.map place := by
  induction fs with
  | nil => rfl
  | cons f fs ih =>
    have hsize := Value.size_finalize symbols pos f.value
    rw [finalizeAll]
    split <;> rename_i hv <;> rw [hv] at hsize
    · rw [Attempt.mapState_state, List.map_cons, List.map_cons, ih, place, place, size, size, hsize]
    · rw [Attempt.fail, List.map_cons, List.map_cons, place, place, size, size, hsize]

/-- The fields of a fragment lie one behind the other, within its fixed bytes. -/
structure Fragment.InOrder {τ : Type} (f : Fragment τ) : Prop where
  apart : f.fixups.Pairwise fun x y => x.offset + x.size ≤ y.offset
  inside : f.FieldsInside

namespace Fragment.InOrder

variable {τ : Type} {f : Fragment τ}

theorem empty : (Fragment.empty : Fragment τ).InOrder := ⟨.nil, nofun⟩

theorem appendBytes (h : f.InOrder) (bytes : List UInt8) : (f.appendBytes bytes).InOrder :=
  ⟨h.apart, h.inside.appendBytes bytes⟩

theorem appendValue (h : f.InOrder) (v : Value) : (f.appendValue v).InOrder := by
  refine ⟨?_, h.inside.appendValue v⟩
  refine List.pairwise_append.2 ⟨h.apart, List.pairwise_singleton _ _, fun x hx y hy => ?_⟩
  rw [List.mem_singleton.1 hy]
  exact h.inside x hx

theorem of_places (h : f.InOrder) {g : Fragment τ} (hfixed : g.fixed = f.fixed)
    (hplaces : g.fixups.map Fixup.place = f.fixups.map Fixup.place) : g.InOrder := by
  constructor
  · have happart : (f.fixups.map Fixup.place).Pairwise fun p q => p.1 + p.2 ≤ q.1 := List.pairwise_map.2 h.apart
    rw [← hplaces] at happart
    exact List.pairwise_map.1 happart
  · intro x hx
    obtain ⟨y, hy, hxy⟩ := List.mem_map.1 (hplaces ▸ List.mem_map_of_mem hx)
    have := h.inside y hy
    rw [hfixed, show x.offset = y.offset from (congrArg Prod.fst hxy).symm,
      show x.size = y.size from (congrArg Prod.snd hxy).symm]
    exact this

theorem lasting : Lasting (@Fragment.InOrder (Tail κ)) := fun _ _ hfg hf => hf.of_places hfg.fixed (by rw [hfg.fixups])

theorem finalizesTo [Directive κ] {symbols : SymbolTable} {owner : Option FragmentRef} {f g : Fragment (Tail κ)}
    (h : f.FinalizesTo symbols owner g) (hf : f.InOrder) : g.InOrder := by
  obtain ⟨fixups, hfixups, hg⟩ := h.cases
  have hplaces := Fixup.places_finalizeAll symbols f.source f.fixups
  rw [hfixups] at hplaces
  rcases hg with ⟨-, rfl⟩ | ⟨t, t', -, rfl, -⟩
  · exact hf.of_places rfl hplaces
  · exact hf.of_places rfl hplaces

end Fragment.InOrder

/-! ## At every depth -/

/-- The fields of a fragment lie one behind the other, and so do those of all that it repeats. -/
def Fragment.Tidy (f : Fragment (Tail κ)) : Prop := f.Deeply Fragment.InOrder

namespace Fragment

variable {f g : Fragment (Tail κ)}

theorem Tidy.inOrder (h : f.Tidy) : f.InOrder := (f.deeply_iff.1 h).1

theorem Tidy.withTail (h : f.Tidy) {t : Tail κ} (ht : t.Deeply InOrder) : (f.withTail t).Tidy :=
  (deeply_iff _).2 ⟨h.inOrder.of_places rfl rfl, fun _ hu => Option.some.inj hu ▸ ht⟩

theorem Tidy.of_inOrder (h : f.Tidy) (htail : g.tail = f.tail) (hg : g.InOrder) : g.Tidy :=
  g.deeply_iff.2 ⟨hg, fun t ht => (f.deeply_iff.1 h).2 t (htail ▸ ht)⟩

theorem closed_tidy : Closed (κ := κ) Fragment.Tidy (Tail.Deeply InOrder) where
  empty := (deeply_iff _).2 ⟨.empty, nofun⟩
  named _ _ h := h.of_inOrder rfl (h.inOrder.of_places rfl rfl)
  bytes bytes h := h.of_inOrder rfl (h.inOrder.appendBytes bytes)
  value v h := h.of_inOrder rfl (h.inOrder.appendValue v)
  tail h ht := h.withTail ht
  gap _ := Tail.deeply_of_plain rfl

end Fragment

def Block.Tidy (b : Block (Tail κ)) : Prop := ∀ f ∈ b.fragments, f.Tidy

mutual

theorem Tail.Assembled.deeply {t : Tail κ} : t.Assembled → t.Deeply Fragment.InOrder
  | .plain h _ => Tail.deeply_of_plain h
  | .times _ h _ => (deeplyAll_iff _).2 h.tidy

theorem Fragment.Assembled.tidy {f : Fragment (Tail κ)} : f.Assembled → f.Tidy
  | .empty => Fragment.closed_tidy.empty
  | .source h source => Fragment.closed_tidy.named _ source h.tidy
  | .bytes h bytes => Fragment.closed_tidy.bytes bytes h.tidy
  | .value h v => Fragment.closed_tidy.value v h.tidy
  | .tail h ht => Fragment.closed_tidy.tail h.tidy ht.deeply

/-- However a block was put together, its fields lie one behind the other at every depth. -/
theorem Block.Assembled.tidy {k : Nat} {b : Block (Tail κ)} : b.Assembled k → b.Tidy
  | .empty k => Fragment.closed_tidy.emptyBlock k
  | .fragment h hf => Fragment.closed_tidy.appendFragment h.tidy hf.tidy
  | .fresh h => Fragment.closed_tidy.fresh h.tidy
  | .bytes h bytes => Fragment.closed_tidy.appendBytes h.tidy bytes
  | .value h size e source => Fragment.closed_tidy.appendValue h.tidy size e source
  | .gap h size source => Fragment.closed_tidy.appendGap h.tidy size source
  | .tail h ht source => Fragment.closed_tidy.appendTail h.tidy ht.deeply source

end

/-! ## Places and widths -/

theorem Fragment.Sized.tail {f : Fragment (Tail κ)} (h : f.Sized) : f.tail.all Tail.sized = true := by
  unfold Sized parts at h
  split at h
  · rename_i ht
    rw [ht]
    rfl
  · exact h f List.mem_cons_self

mutual

theorem Tail.Assembled.sized {t : Tail κ} : t.Assembled → ∀ f : Fragment (Tail κ), f.tail = some t → f.Sized
  | .plain h hs, f, hf => fun p hp => by
    rw [Fragment.parts_of_plain (by rw [hf]; exact h), List.mem_singleton] at hp
    rw [hp, hf]
    exact hs
  | .times _ h _, f, hf => fun p hp => by
    rw [Fragment.parts_of_times hf] at hp
    exact (h.built.sized p hp).tail

theorem Fragment.Assembled.sized {f : Fragment (Tail κ)} : f.Assembled → f.Sized
  | .empty => Block.Built.sized_empty
  | .source h _ => h.sized.of_tail rfl
  | .bytes h _ => h.sized.of_tail rfl
  | .value h _ => h.sized.of_tail rfl
  | .tail _ ht => ht.sized _ rfl

theorem Block.Assembled.built {k : Nat} {b : Block (Tail κ)} : b.Assembled k → b.Built k
  | .empty k => Block.built_empty k
  | .fragment h hf => h.built.appendFragment hf.sized
  | .fresh h => h.built.fresh
  | .bytes h bytes => h.built.appendBytes bytes
  | .value h size e source => h.built.appendValue size e source
  | .gap h size source => h.built.appendGap size source
  | .tail h ht _ => h.built.appendTail (ht.sized _ rfl)

end

/-! ## Objects -/

namespace Object

variable {o : Object κ}

theorem blocks_modifyBlock (h : ∀ (k : Nat) (s : Section κ), o.sections[k]? = some s → s.block.Assembled k) (j : Nat)
    {g : Block (Tail κ) → Block (Tail κ)} (hg : ∀ b : Block (Tail κ), b.Assembled j → (g b).Assembled j)
    (k : Nat) (s : Section κ) (hs : (o.modifyBlock j g).sections[k]? = some s) : s.block.Assembled k := by
  rw [Object.modifyBlock, List.getElem?_modify] at hs
  obtain ⟨s', hs', rfl⟩ := Option.map_eq_some_iff.1 hs
  split
  · rename_i hj
    subst hj
    exact hg _ (h j s' hs')
  · exact h k s' hs'

theorem Assembled.blocks (h : o.Assembled) (k : Nat) (s : Section κ) (hs : o.sections[k]? = some s) :
    s.block.Assembled k := by
  induction h generalizing k s with
  | empty config => simp [Object.empty] at hs
  | @addSection o _ name start ih =>
    rw [Object.addSection, List.getElem?_append] at hs
    split at hs
    · exact ih k s hs
    · obtain ⟨hlt, rfl⟩ := List.getElem?_eq_some_iff.1 hs
      have hk : k = List.length o.sections := by
        rw [List.length_singleton] at hlt
        omega
      simpa [hk] using Block.Assembled.empty k
  | modifyBlock _ j hg ih => exact blocks_modifyBlock ih j hg k s hs
  | label _ j name pos ih =>
    unfold Object.defineLabel at hs
    split at hs
    · exact ih k s hs
    · rw [sections_define] at hs
      exact blocks_modifyBlock ih j (fun b hb => hb.fresh) k s hs
  | define _ name e pos ih =>
    rw [Object.defineName, sections_define] at hs
    exact ih k s hs

theorem Assembled.built (h : o.Assembled) : o.Built := fun k s hs => (h.blocks k s hs).built

theorem Assembled.deeply_fresh (ho : o.Assembled) :
    ∀ s ∈ o.sections.fresh, ∀ f ∈ s.block.fragments, f.Deeply Fragment.InOrder := by
  intro s hs
  obtain ⟨s', hs', rfl⟩ := List.mem_map.1 hs
  obtain ⟨k, hk⟩ := List.mem_iff_getElem?.1 hs'
  exact (ho.blocks k s' hk).fresh.tidy

theorem Assembled.deeply_layout [Directive κ] [CandidDirective κ] (ho : o.Assembled) {images : List Image}
    (h : o.layout.result = .ok images) : o.layout.object.sections.Deeply fun _ => Fragment.InOrder :=
  Object.deeply_layout (fun _ => Fragment.InOrder.lasting) (fun _ _ _ => Fragment.InOrder.finalizesTo) ho.deeply_fresh h

end Object

end SpanLayout
