import SpanLayout.Proofs.Text

/-!
# What an object is built from

An object is built by one operation after the other. Each of them contributes some bytes to the section it is for; the
image of the section consists of these contributions in their order, and a label lies behind what was contributed before
it.
-/

namespace SpanLayout

/-- What can be added at the end of a section. -/
inductive Addition where
  | bytes (text : List UInt8)
  | value (size : Nat) (e : Expr) (source : SourcePos)
  | gap (size : Nat) (source : SourcePos)
  | tail (t : Tail Empty) (source : SourcePos)
  | start
  /-- A fragment without a tail, unless the last one is such a fragment. -/
  | fresh

def Addition.apply (b : Block (Tail Empty)) : Addition → Block (Tail Empty)
  | .bytes text => b.appendBytes text
  | .value size e source => b.appendValue size e source
  | .gap size source => b.appendGap size source
  | .tail t source => b.appendTail t source
  | .start => b.start
  | .fresh => b.fresh

/-- An operation that builds an object. -/
inductive Edit where
  | addSection (name : String) (start : Nat)
  | add (k : Nat) (a : Addition)
  | label (k : Nat) (name : String) (pos : SourcePos)
  | define (name : String) (e : Expr) (pos : SourcePos)

/-- The object after an operation, whether it fails or not. -/
def Edit.apply (o : Object Empty) : Edit → Object Empty
  | .addSection name start => o.addSection name start
  | .add k a => o.modifyBlock k (a.apply ·)
  | .label k name pos => (o.defineLabel k name pos).state
  | .define name e pos => (o.defineName name e pos).state

def Object.build (config : Config) (edits : List Edit) : Object Empty := edits.foldl Edit.apply (.empty config)

/-- What operations add to section `k`, if there are `n` sections before them. -/
def Edit.additions (k : Nat) : (n : Nat) → List Edit → List Addition
  | _, [] => []
  | n, .addSection _ _ :: es => additions k (n + 1) es
  | n, .add j a :: es => if j = k ∧ k < n then a :: additions k n es else additions k n es
  | n, .label j _ _ :: es => if j = k ∧ k < n then .fresh :: additions k n es else additions k n es
  | n, .define _ _ _ :: es => additions k n es

/-! ## Contributions -/

section

variable (symbols : SymbolTable) (site : Site) (laid : List (Fragment (Tail Empty)))

/-- What a tail contributes, if it is the one of fragment `i`: the zeros of a gap, and otherwise what the fragment emits
in the end. -/
def Tail.written? (i : Nat) (t : Tail Empty) : Option (List UInt8) :=
  match t.gap? with
  | some n => some (List.replicate n 0)
  | none => laid[i]?.bind fun g => bytes? (g.emit site g.offset)

/-- What an addition to a block contributes, if the fragments in the end are `laid`. -/
def Addition.contribution (b : Block (Tail Empty)) : Addition → Option (List UInt8)
  | .bytes text => some text
  | .value size e _ => (Value.ofField size e).written? symbols site
  | .gap size _ => some (List.replicate size 0)
  | .tail t _ => t.written? site laid b.fragments.length
  | .start | .fresh => some []

def contributions : Block (Tail Empty) → List Addition → Option (List UInt8)
  | _, [] => some []
  | b, a :: as => joined (a.contribution symbols site laid b) (contributions (a.apply b) as)

theorem contributions_append (b : Block (Tail Empty)) (as as' : List Addition) :
    contributions symbols site laid b (as ++ as') =
      joined (contributions symbols site laid b as)
      (contributions symbols site laid (as.foldl Addition.apply b) as') := by
  induction as generalizing b with
  | nil => simp [contributions]
  | cons a as ih => rw [List.cons_append, contributions, contributions, ih, List.foldl_cons, joined_assoc]

/-! ## The text of a block -/

/-- The bytes of fragment `i` as it is so far. -/
def Fragment.view (i : Nat) (f : Fragment (Tail Empty)) : Option (List UInt8) :=
  match f.tail with
  | none => f.text? symbols site
  | some t => t.written? site laid i

/-- The bytes of fragments as they are so far, the first of them being number `i`. -/
def views : (i : Nat) → List (Fragment (Tail Empty)) → Option (List UInt8)
  | _, [] => some []
  | i, f :: fs => joined (f.view symbols site laid i) (views (i + 1) fs)

theorem views_append (i : Nat) (fs gs : List (Fragment (Tail Empty))) :
    views symbols site laid i (fs ++ gs) =
      joined (views symbols site laid i fs) (views symbols site laid (i + fs.length) gs) := by
  induction fs generalizing i with
  | nil => simp [views]
  | cons f fs ih =>
    rw [List.cons_append, views, views, ih, joined_assoc, List.length_cons, show i + 1 + fs.length =
      i + (fs.length + 1) by omega]

theorem views_concat (i : Nat) (fs : List (Fragment (Tail Empty))) (f : Fragment (Tail Empty)) :
    views symbols site laid i (fs ++ [f]) =
      joined (views symbols site laid i fs) (f.view symbols site laid (i + fs.length)) := by
  rw [views_append, views, views, joined_nil]

end

/-! ## Blocks as they are built -/

/-- Fragments are called by their places, fields lie within the fixed bytes, a fragment with a tail has no others, and a
gap that can grow is the last thing in the block. -/
structure Block.Shaped (k : Nat) (b : Block (Tail Empty)) : Prop where
  sectionIndex : b.sectionIndex = k
  refs : ∀ (i : Nat) (f : Fragment (Tail Empty)), b.fragments[i]? = some f → f.ref = ⟨k, i⟩
  nonempty : b.fragments ≠ []
  inside : ∀ f ∈ b.fragments, f.FieldsInside
  bare : ∀ f ∈ b.fragments, f.tail.isSome = true → f.fixed = [] ∧ f.fixups = []
  lastGap : ∀ n, b.lastGap = some n → ∃ init f, b.fragments = init ++ [f] ∧ f.tail = some (.gap ⟨n⟩)

namespace Block

variable {k : Nat} {b : Block (Tail Empty)}

theorem modifyLast_concat {init : List (Fragment (Tail Empty))} {f : Fragment (Tail Empty)}
    (h : b.fragments = init ++ [f])
    (g : Fragment (Tail Empty) → Fragment (Tail Empty)) : (b.modifyLast g).fragments = init ++ [g f] := by
  rw [modifyLast, lastIndex, h, List.length_append, List.length_singleton, Nat.add_sub_cancel]
  clear h
  induction init with
  | nil => rfl
  | cons x init ih => exact congrArg (x :: ·) ih

theorem refs_concat {init : List (Fragment (Tail Empty))} {f g : Fragment (Tail Empty)}
    (h : ∀ (i : Nat) (x : Fragment (Tail Empty)), (init ++ [f])[i]? = some x → x.ref = ⟨k, i⟩) (hg : g.ref = f.ref)
    (i : Nat) (x : Fragment (Tail Empty)) (hx : (init ++ [g])[i]? = some x) : x.ref = ⟨k, i⟩ := by
  by_cases hi : i < init.length
  · rw [List.getElem?_append_left hi] at hx
    exact h i x (by rw [List.getElem?_append_left hi, hx])
  · rw [List.getElem?_append_right (by omega)] at hx
    obtain ⟨hlt, rfl⟩ := List.getElem?_eq_some_iff.1 hx
    rw [List.length_singleton] at hlt
    rw [List.getElem_singleton, hg]
    exact h i f (by rw [show i = init.length by omega]; simp)

theorem Shaped.exists_last (h : b.Shaped k) : ∃ init f, b.fragments = init ++ [f] :=
  ⟨_, _, (List.dropLast_append_getLast h.nonempty).symm⟩

theorem Shaped.appendFragment (h : b.Shaped k) {f : Fragment (Tail Empty)} (hf : f.FieldsInside)
    (hbare : f.tail.isSome = true → f.fixed = [] ∧ f.fixups = []) : (b.appendFragment f).Shaped k := by
  refine ⟨h.sectionIndex, ?_, by simp [Block.appendFragment, push], ?_, ?_, nofun⟩
  · intro i x hx
    change (b.fragments ++ [_])[i]? = some x at hx
    by_cases hi : i < b.fragments.length
    · rw [List.getElem?_append_left hi] at hx
      exact h.refs i x hx
    · rw [List.getElem?_append_right (by omega)] at hx
      obtain ⟨hlt, rfl⟩ := List.getElem?_eq_some_iff.1 hx
      rw [List.length_singleton] at hlt
      rw [List.getElem_singleton, show i = b.fragments.length by omega, ← h.sectionIndex]
  · intro g hg
    rcases List.mem_append.1 hg with hg | hg
    · exact h.inside g hg
    · rw [List.mem_singleton] at hg
      subst hg
      exact hf
  · intro g hg
    rcases List.mem_append.1 hg with hg | hg
    · exact h.bare g hg
    · rw [List.mem_singleton] at hg
      subst hg
      exact hbare

theorem shaped_empty (k : Nat) : (Block.empty k : Block (Tail Empty)).Shaped k := by
  refine ⟨rfl, ?_, by simp [Block.empty, push], ?_, ?_, fun n hn => by cases hn⟩
  · intro i f hf
    have := List.getElem?_eq_some_iff.1 hf
    simp only [Block.empty, push, List.nil_append, List.length_singleton, List.getElem_singleton] at this
    obtain ⟨hlt, rfl⟩ := this
    rw [show i = 0 by omega]
    rfl
  · intro f hf
    simp only [Block.empty, push, List.nil_append, List.mem_singleton] at hf
    subst hf
    exact fun x hx => absurd hx List.not_mem_nil
  · intro f hf
    simp only [Block.empty, push, List.nil_append, List.mem_singleton] at hf
    subst hf
    exact fun h => absurd h Bool.false_ne_true

theorem Shaped.start (h : b.Shaped k) : b.start.Shaped k := h.appendFragment nofun nofun

theorem Shaped.appendTail (h : b.Shaped k) (t : Tail Empty) (source : SourcePos) : (b.appendTail t source).Shaped k :=
  h.appendFragment nofun fun _ => ⟨rfl, rfl⟩

theorem fresh_concat {init : List (Fragment (Tail Empty))} {f : Fragment (Tail Empty)} (h : b.fragments = init ++ [f]) :
    b.fresh = if f.tail.isSome then b.start else b := by
  unfold fresh
  rw [h, List.getLast?_concat]

theorem Shaped.fresh (h : b.Shaped k) :
    b.fresh.Shaped k ∧ b.fresh.lastGap = none ∧ ∃ init f, b.fresh.fragments = init ++ [f] ∧ f.tail = none := by
  obtain ⟨init, f, hf⟩ := h.exists_last
  rw [fresh_concat hf]
  cases ht : f.tail with
  | some t => exact ⟨h.start, rfl, b.fragments, _, rfl, rfl⟩
  | none =>
    refine ⟨h, ?_, init, f, hf, ht⟩
    cases hg : b.lastGap with
    | none => exact hg
    | some n =>
      obtain ⟨init', f', hf', ht'⟩ := h.lastGap n hg
      obtain ⟨-, rfl⟩ := List.append_singleton_inj.1 (hf.symm.trans hf')
      rw [ht] at ht'
      cases ht'

theorem Shaped.replaceLast (h : b.Shaped k) {b' : Block (Tail Empty)} (hsec : b'.sectionIndex = b.sectionIndex)
    {init : List (Fragment (Tail Empty))} {f g : Fragment (Tail Empty)} (hf : b.fragments = init ++ [f])
    (hg : b'.fragments = init ++ [g]) (href : g.ref = f.ref) (hin : g.FieldsInside)
    (hbare : g.tail.isSome = true → g.fixed = [] ∧ g.fixups = [])
    (hgap : ∀ n, b'.lastGap = some n → g.tail = some (.gap ⟨n⟩)) : b'.Shaped k := by
  refine ⟨hsec.trans h.sectionIndex, ?_, by simp [hg], ?_, ?_, fun n hn => ⟨init, g, hg, hgap n hn⟩⟩
  · rw [hg]
    exact refs_concat (by rw [← hf]; exact h.refs) href
  · intro x hx
    rw [hg, List.mem_append, List.mem_singleton] at hx
    rcases hx with hx | rfl
    · exact h.inside x (by simp [hf, hx])
    · exact hin
  · intro x hx
    rw [hg, List.mem_append, List.mem_singleton] at hx
    rcases hx with hx | rfl
    · exact h.bare x (by simp [hf, hx])
    · exact hbare

end Block

theorem Fragment.FieldsInside.appendBytes {τ : Type} {f : Fragment τ} (h : f.FieldsInside) (bytes : List UInt8) :
    (f.appendBytes bytes).FieldsInside := by
  intro x hx
  have := h x hx
  simp only [Fragment.appendBytes, List.length_append]
  omega

theorem Fragment.FieldsInside.appendValue {τ : Type} {f : Fragment τ} (h : f.FieldsInside) (v : Value) :
    (f.appendValue v).FieldsInside := by
  intro x hx
  simp only [Fragment.appendValue, List.mem_append, List.mem_singleton, List.length_append,
    List.length_replicate] at hx ⊢
  rcases hx with hx | rfl
  · have := h x hx
    omega
  · exact Nat.le_refl _

/-! ## One addition -/

section

variable (symbols : SymbolTable) (site : Site) (laid : List (Fragment (Tail Empty))) {k : Nat} {b : Block (Tail Empty)}

/-- What an addition keeps and what it adds. -/
structure Addition.Adds (k : Nat) (b b' : Block (Tail Empty)) (contribution : Option (List UInt8)) : Prop where
  shaped : b'.Shaped k
  before : b.fragments.dropLast <+: b'.fragments.dropLast
  views : SpanLayout.views symbols site laid 0 b'.fragments =
    joined (SpanLayout.views symbols site laid 0 b.fragments) contribution

namespace Addition

theorem dropLast_prefix_append (fs : List (Fragment (Tail Empty))) (f : Fragment (Tail Empty)) :
    fs.dropLast <+: (fs ++ [f]).dropLast := by
  rw [List.dropLast_concat]
  exact List.dropLast_prefix fs

theorem adds_start (h : b.Shaped k) : Adds symbols site laid k b b.start (some []) := by
  refine ⟨h.start, dropLast_prefix_append _ _, ?_⟩
  rw [show b.start.fragments = b.fragments ++ [{ (Fragment.empty : Fragment (Tail Empty)) with
    ref := ⟨b.sectionIndex, b.fragments.length⟩ }] from rfl, views_concat]
  rfl

theorem adds_appendTail (h : b.Shaped k) (t : Tail Empty) (source : SourcePos) :
    Adds symbols site laid k b (b.appendTail t source) (t.written? site laid b.fragments.length) := by
  refine ⟨h.appendTail t source, dropLast_prefix_append _ _, ?_⟩
  rw [show (b.appendTail t source).fragments = b.fragments ++ [{ Fragment.ofTail t source with
    ref := ⟨b.sectionIndex, b.fragments.length⟩ }] from rfl, views_concat, Nat.zero_add]
  rfl

theorem adds_fresh (h : b.Shaped k) : Adds symbols site laid k b b.fresh (some []) := by
  obtain ⟨init, f, hf⟩ := h.exists_last
  rw [Block.fresh_concat hf]
  split
  · exact adds_start symbols site laid h
  · exact ⟨h, List.prefix_refl _, by simp⟩

theorem adds_modifyFresh (h : b.Shaped k) {g : Fragment (Tail Empty) → Fragment (Tail Empty)}
    {contribution : Option (List UInt8)}
    (hg : ∀ f : Fragment (Tail Empty), f.tail = none → f.FieldsInside → (g f).tail = none ∧ (g f).ref = f.ref ∧
      (g f).FieldsInside ∧ (g f).text? symbols site = joined (f.text? symbols site) contribution) :
    Adds symbols site laid k b (b.fresh.modifyLast g) contribution := by
  obtain ⟨hshaped, hgap, init, f, hf, ht⟩ := h.fresh
  have hfresh := adds_fresh symbols site laid h
  obtain ⟨htail, href, hin, htext⟩ := hg f ht (hshaped.inside f (by simp [hf]))
  have hmod := Block.modifyLast_concat hf g
  refine ⟨?_, ?_, ?_⟩
  · refine hshaped.replaceLast rfl hf hmod href hin (by rw [htail]; exact nofun) fun n hn => ?_
    cases hgap.symm.trans hn
  · have hbefore := hfresh.before
    rw [hf, List.dropLast_concat] at hbefore
    rwa [hmod, List.dropLast_concat]
  · have hviews := hfresh.views
    rw [hf, views_concat, joined_nil] at hviews
    rw [hmod, views_concat, ← hviews, joined_assoc]
    congr 1
    simp only [Fragment.view, htail, ht]
    exact htext

theorem adds_appendGap (h : b.Shaped k) (size : Nat) (source : SourcePos) :
    Adds symbols site laid k b (b.appendGap size source) (some (List.replicate size 0)) := by
  unfold Block.appendGap
  split
  · rename_i n hn
    obtain ⟨init, f, hf, ht⟩ := h.lastGap n hn
    obtain ⟨b', hb'⟩ : ∃ b', b' = ({ b.modifyLast (·.withTail (.gap ⟨n + size⟩)) with
      lastGap := some (n + size) } : Block (Tail Empty)) := ⟨_, rfl⟩
    have hmod : b'.fragments = init ++ [f.withTail (.gap ⟨n + size⟩)] := by
      rw [hb']
      exact Block.modifyLast_concat hf _
    rw [← hb']
    refine ⟨?_, ?_, ?_⟩
    · refine h.replaceLast (by rw [hb']; rfl) hf hmod rfl (h.inside f (by simp [hf]))
        (fun _ => h.bare f (by simp [hf]) (by rw [ht]; rfl)) fun m hm => ?_
      rw [hb'] at hm
      cases hm
      rfl
    · have hsame : b'.fragments.dropLast = b.fragments.dropLast := by
        rw [hmod, hf, List.dropLast_concat, List.dropLast_concat]
      exact hsame ▸ List.prefix_refl _
    · rw [hmod, hf, views_concat, views_concat, joined_assoc]
      congr 1
      simp [Fragment.view, Fragment.withTail, ht, Tail.written?, Tail.gap?, joined, List.replicate_append_replicate]
  · have ha := adds_appendTail symbols site laid h (.gap ⟨size⟩) source
    refine ⟨⟨ha.shaped.sectionIndex, ha.shaped.refs, ha.shaped.nonempty, ha.shaped.inside, ha.shaped.bare, ?_⟩,
      ha.before, ha.views⟩
    intro m hm
    cases hm
    exact ⟨_, _, rfl, rfl⟩

theorem adds_apply (h : b.Shaped k) (a : Addition) :
    Adds symbols site laid k b (a.apply b) (a.contribution symbols site laid b) := by
  cases a with
  | bytes text =>
    refine adds_modifyFresh symbols site laid h fun f ht hin => ⟨ht, rfl, hin.appendBytes text, ?_⟩
    exact f.text?_appendBytes symbols site hin text
  | value size e source =>
    refine adds_modifyFresh symbols site laid h fun f ht hin => ?_
    dsimp only
    split
    · exact ⟨ht, rfl, hin.appendValue _, Fragment.text?_appendValue symbols site (f := { f with source }) hin _⟩
    · exact ⟨ht, rfl, hin.appendValue _, f.text?_appendValue symbols site hin _⟩
  | gap size source => exact adds_appendGap symbols site laid h size source
  | tail t source => exact adds_appendTail symbols site laid h t source
  | start => exact adds_start symbols site laid h
  | fresh => exact adds_fresh symbols site laid h

theorem Adds.trans {b b' b'' : Block (Tail Empty)} {x y : Option (List UInt8)} (h : Adds symbols site laid k b b' x)
    (h' : Adds symbols site laid k b' b'' y) : Adds symbols site laid k b b'' (joined x y) := by
  refine ⟨h'.shaped, h.before.trans h'.before, ?_⟩
  rw [h'.views, h.views, joined_assoc]

theorem adds_foldl (h : b.Shaped k) (as : List Addition) :
    Adds symbols site laid k b (as.foldl Addition.apply b) (contributions symbols site laid b as) := by
  induction as generalizing b with
  | nil => exact ⟨h, List.prefix_refl _, by simp [contributions]⟩
  | cons a as ih =>
    have ha := adds_apply symbols site laid h a
    exact ha.trans symbols site laid (ih ha.shaped)

end Addition

end

/-! ## The end -/

section

variable {symbols : SymbolTable} {site : Site} {laid : List (Fragment (Tail Empty))}

theorem Fragment.view_of_settles {f f' g : Fragment (Tail Empty)} {i : Nat}
    (hbare : f.tail.isSome = true → f.fixed = [] ∧ f.fixups = []) (hfin : f.FinalizesTo symbols none f')
    (hg : f'.Settles g) (hi : laid[i]? = some g) : f.view symbols site laid i = bytes? (g.emit site g.offset) := by
  obtain ⟨fixups, hfixups, ⟨ht, rfl⟩ | ⟨t, t', ht, rfl, ht'⟩⟩ := hfin.cases
  · have htail : g.tail = none := by
      have := hg.tail
      rw [ht, Option.map_none, Option.map_eq_none_iff] at this
      exact this
    rw [Fragment.view, ht, Fragment.emit_of_none htail, hg.fixed, hg.fixups,
      Fixup.bytes?_patch site _ 0 _ .unknown]
    dsimp only
    rw [Fragment.text?, Fixup.finalized?_of_done symbols hfixups]
    rfl
  · rw [Fragment.view, ht]
    dsimp only
    unfold Tail.written?
    cases hgap : t.gap? with
    | none => rw [hi, Option.bind_some]
    | some n =>
      obtain ⟨hfixed, hempty⟩ := hbare (by rw [ht]; rfl)
      rw [hempty, Fixup.finalizeAll] at hfixups
      cases hfixups
      have htail : g.tail = some (.gap ⟨n⟩) := by
        obtain rfl : t = .gap ⟨n⟩ := by
          cases t <;> simp [Tail.gap?] at hgap
          rw [← hgap]
        have := hg.tail
        rw [ht'.gap, Option.map_some, Option.map_eq_some_iff] at this
        obtain ⟨u, hu, hn⟩ := this
        cases u <;> simp [Tail.gap?] at hn
        rw [hu, ← hn]
      rw [Fragment.emit_of_some htail, hg.fixups, hg.fixed, hfixed, Fixup.patch, Except.bind, Tail.emit]
      rfl

theorem views_of_settles {fs gs : List (Fragment (Tail Empty))}
    (h : List.Forall₂ (fun f g => ∃ f', f.FinalizesTo symbols none f' ∧ f'.Settles g) fs gs)
    (hbare : ∀ f ∈ fs, f.tail.isSome = true → f.fixed = [] ∧ f.fixups = []) {i at_ : Nat}
    (hlaid : ∀ (j : Nat) (g : Fragment (Tail Empty)), gs[j]? = some g → laid[i + j]? = some g)
    (hplaced : gs = Fragment.placeFrom at_ gs) :
    views symbols site laid i fs = bytes? (emitFragments site at_ gs) := by
  induction h generalizing i at_ with
  | nil =>
    rw [emitFragments]
    rfl
  | @cons f g fs gs hfg _ ih =>
    obtain ⟨f', hfin, hg⟩ := hfg
    rw [Fragment.placeFrom, List.cons.injEq] at hplaced
    have hoffset : g.offset = at_ := by
      rw [hplaced.1]
    have hview : f.view symbols site laid i = bytes? (g.emit site g.offset) :=
      Fragment.view_of_settles (hbare f List.mem_cons_self) hfin hg (hlaid 0 g rfl)
    rw [views]
    rw [hview, emitFragments_cons, hoffset]
    cases he : g.emit site at_ with
    | error e => rfl
    | ok e =>
      have hlen := Fragment.length_emit site at_ g hg.exact he
      have hrest := ih (fun f hf => hbare f (List.mem_cons_of_mem _ hf))
        (fun j g hj => by rw [show i + 1 + j = i + (j + 1) by omega]; exact hlaid (j + 1) g hj) hplaced.2
      rw [hrest, Except.bind, hlen]
      cases emitFragments site (at_ + g.totalLen) gs <;> rfl

end

end SpanLayout
