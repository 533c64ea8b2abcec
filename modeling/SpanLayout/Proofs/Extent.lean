import SpanLayout.Proofs.Spelling

/-!
# The end of a block that is being built

The location of the end of a block is taken with the lengths that fragments have at that time. Tails have none before
they are laid out, so the location lies in front of the tail that the block ends with, if there is one; a block that
ends with fixed bytes has it behind all that was put into it. -/

namespace SpanLayout

/-! ## Lengths in the end -/

/-- What can be put at the end of a block: an addition, or a whole fragment that was not measured yet. -/
inductive Piece where
  | add (a : Addition)
  | fragment (f : Fragment (Tail Empty)) (hf : f.tailLen = 0)

def Piece.apply (b : Block (Tail Empty)) : Piece → Block (Tail Empty)
  | .add a => a.apply b
  | .fragment f _ => b.appendFragment f

section

variable (laid : List (Fragment (Tail Empty)))

/-- How long the tail of fragment `i` is once the fragments are `laid`. A gap counts as it is, for it may yet grow. -/
def Tail.extent (i : Nat) (t : Tail Empty) : Nat := t.gap?.getD ((laid[i]?.map (·.tailLen)).getD 0)

/-- How long the tail that a fragment has is in the end, if it has one. -/
def Fragment.tailExtent (i : Nat) (f : Fragment (Tail Empty)) : Nat := (f.tail.map (Tail.extent laid i)).getD 0

def Fragment.extent (i : Nat) (f : Fragment (Tail Empty)) : Nat := f.fixedLen + f.tailExtent laid i

/-- How long in the end is what a piece adds to a block. -/
def Piece.extent (b : Block (Tail Empty)) : Piece → Nat
  | .add (.bytes text) => text.length
  | .add (.value size _ _) => (size + 7) / 8
  | .add (.gap size _) => size
  | .add (.tail t _) => t.extent laid b.fragments.length
  | .add .start => 0
  | .add .fresh => 0
  | .fragment f _ => f.extent laid b.fragments.length

/-- How long in the end is the tail that a block ends with, if it ends with one. -/
def Block.trailing (b : Block (Tail Empty)) : Nat :=
  (b.fragments.getLast?.map (Fragment.tailExtent laid (b.fragments.length - 1))).getD 0

/-- How long in the end is what pieces add to a block. -/
def extents : Block (Tail Empty) → List Piece → Nat
  | _, [] => 0
  | b, p :: ps => p.extent laid b + extents (p.apply b) ps

theorem extents_append (b : Block (Tail Empty)) (ps qs : List Piece) :
    extents laid b (ps ++ qs) = extents laid b ps + extents laid (ps.foldl Piece.apply b) qs := by
  induction ps generalizing b with
  | nil => simp [extents]
  | cons p ps ih => rw [List.cons_append, extents, extents, ih, List.foldl_cons, Nat.add_assoc]

/-- The length of fragments in the end as far as they are built, the first of them being number `i`. -/
def reach : (i : Nat) → List (Fragment (Tail Empty)) → Nat
  | _, [] => 0
  | i, f :: fs => f.extent laid i + reach (i + 1) fs

theorem reach_append (i : Nat) (fs gs : List (Fragment (Tail Empty))) :
    reach laid i (fs ++ gs) = reach laid i fs + reach laid (i + fs.length) gs := by
  induction fs generalizing i with
  | nil => simp [reach]
  | cons f fs ih =>
    rw [List.cons_append, reach, reach, ih, List.length_cons, show i + 1 + fs.length = i + (fs.length + 1) by omega,
      Nat.add_assoc]

theorem reach_concat (fs : List (Fragment (Tail Empty))) (f : Fragment (Tail Empty)) :
    reach laid 0 (fs ++ [f]) = reach laid 0 fs + f.extent laid fs.length := by
  rw [reach_append, reach, reach, Nat.zero_add, Nat.add_zero]

end

/-! ## Blocks that were not laid out -/

/-- Fragments are called by their places and have not been measured, and a gap that can grow is the last thing in the
block. -/
structure Block.Raw (k : Nat) (b : Block (Tail Empty)) : Prop where
  sectionIndex : b.sectionIndex = k
  refs : ∀ (i : Nat) (f : Fragment (Tail Empty)), b.fragments[i]? = some f → f.ref = ⟨k, i⟩
  nonempty : b.fragments ≠ []
  unmeasured : ∀ f ∈ b.fragments, f.tailLen = 0
  lastGap : ∀ n, b.lastGap = some n → ∃ init f, b.fragments = init ++ [f] ∧ f.tail = some (.gap ⟨n⟩)

namespace Block.Raw

variable {k : Nat} {b : Block (Tail Empty)}

theorem exists_last (h : b.Raw k) : ∃ init f, b.fragments = init ++ [f] :=
  ⟨_, _, (List.dropLast_append_getLast h.nonempty).symm⟩

theorem empty (k : Nat) : (Block.empty k : Block (Tail Empty)).Raw k := by
  have h := Block.shaped_empty k
  refine ⟨h.sectionIndex, h.refs, h.nonempty, ?_, h.lastGap⟩
  intro f hf
  rw [List.mem_singleton.mp hf]
  rfl

theorem appendFragment (h : b.Raw k) {f : Fragment (Tail Empty)} (hf : f.tailLen = 0) : (b.appendFragment f).Raw k := by
  refine ⟨h.sectionIndex, ?_, by simp [Block.appendFragment, push], ?_, fun n hn => by cases hn⟩
  · intro i x hx
    change (b.fragments ++ [_])[i]? = some x at hx
    rw [List.getElem?_append] at hx
    split at hx
    · exact h.refs i x hx
    · obtain ⟨hlt, rfl⟩ := List.getElem?_eq_some_iff.mp hx
      rw [List.length_singleton] at hlt
      rw [List.getElem_singleton, show i = b.fragments.length by omega, ← h.sectionIndex]
  · intro x hx
    rcases List.mem_append.mp hx with hx | hx
    · exact h.unmeasured x hx
    · rw [List.mem_singleton.mp hx]
      exact hf

theorem replaceLast (h : b.Raw k) {b' : Block (Tail Empty)} (hsec : b'.sectionIndex = b.sectionIndex)
    {init : List (Fragment (Tail Empty))} {f g : Fragment (Tail Empty)} (hf : b.fragments = init ++ [f])
    (hg : b'.fragments = init ++ [g]) (href : g.ref = f.ref) (hlen : g.tailLen = 0)
    (hgap : ∀ n, b'.lastGap = some n → g.tail = some (.gap ⟨n⟩)) : b'.Raw k := by
  refine ⟨hsec.trans h.sectionIndex, ?_, by simp [hg], ?_, fun n hn => ⟨init, g, hg, hgap n hn⟩⟩
  · rw [hg]
    exact Block.refs_concat (by rw [← hf]; exact h.refs) href
  · intro x hx
    rw [hg, List.mem_append, List.mem_singleton] at hx
    rcases hx with hx | rfl
    · exact h.unmeasured x (by simp [hf, hx])
    · exact hlen

theorem endLoc (h : b.Raw k) {init : List (Fragment (Tail Empty))} {f : Fragment (Tail Empty)}
    (hf : b.fragments = init ++ [f]) : b.endLoc = ⟨⟨k, init.length⟩, f.fixedLen⟩ := by
  have hlen : f.totalLen = f.fixedLen := by
    rw [Fragment.totalLen, h.unmeasured f (by simp [hf]), Nat.add_zero]
  rw [Block.endLoc, hf, List.getLast?_concat]
  dsimp only
  rw [hlen, h.refs init.length f (by rw [hf, List.getElem?_concat_length])]

end Block.Raw

/-! ## Pieces -/

/-- What a piece keeps and how much it adds. -/
structure Piece.Grows (laid : List (Fragment (Tail Empty))) (k : Nat) (b b' : Block (Tail Empty)) (n : Nat) : Prop where
  raw : b'.Raw k
  before : b.fragments.dropLast <+: b'.fragments.dropLast
  reach : SpanLayout.reach laid 0 b'.fragments = SpanLayout.reach laid 0 b.fragments + n

namespace Piece

variable {laid : List (Fragment (Tail Empty))} {k : Nat} {b : Block (Tail Empty)}

theorem Grows.trans {b' b'' : Block (Tail Empty)} {m n : Nat} (h : Grows laid k b b' m) (h' : Grows laid k b' b'' n) :
    Grows laid k b b'' (m + n) := by
  refine ⟨h'.raw, h.before.trans h'.before, ?_⟩
  rw [h'.reach, h.reach, Nat.add_assoc]

variable (laid)

theorem grows_appendFragment (h : b.Raw k) {f : Fragment (Tail Empty)} (hf : f.tailLen = 0) :
    Grows laid k b (b.appendFragment f) (f.extent laid b.fragments.length) := by
  refine ⟨h.appendFragment hf, Addition.dropLast_prefix_append _ _, ?_⟩
  exact reach_concat laid b.fragments { f with ref := ⟨b.sectionIndex, b.fragments.length⟩ }

theorem grows_fresh (h : b.Raw k) : Grows laid k b b.fresh 0 := by
  obtain ⟨init, f, hf⟩ := h.exists_last
  rw [Block.fresh_concat hf]
  split
  · exact grows_appendFragment laid h (f := .empty) rfl
  · exact ⟨h, List.prefix_refl _, rfl⟩

theorem fresh_last (h : b.Raw k) : b.fresh.lastGap = none ∧ ∃ init f, b.fresh.fragments = init ++ [f] ∧
    f.tail = none := by
  obtain ⟨init, f, hf⟩ := h.exists_last
  rw [Block.fresh_concat hf]
  cases ht : f.tail with
  | some t => exact ⟨rfl, b.fragments, _, rfl, rfl⟩
  | none =>
    refine ⟨?_, init, f, hf, ht⟩
    cases hg : b.lastGap with
    | none => exact hg
    | some n =>
      obtain ⟨init', f', hf', ht'⟩ := h.lastGap n hg
      obtain ⟨-, rfl⟩ := List.append_singleton_inj.mp (hf.symm.trans hf')
      cases ht.symm.trans ht'

theorem grows_modifyFresh (h : b.Raw k) {g : Fragment (Tail Empty) → Fragment (Tail Empty)} {n : Nat}
    (hg : ∀ f : Fragment (Tail Empty), (g f).tail = f.tail ∧ (g f).ref = f.ref ∧ (g f).tailLen = f.tailLen ∧
      (g f).fixedLen = f.fixedLen + n) : Grows laid k b (b.fresh.modifyLast g) n := by
  have hfresh := grows_fresh laid h
  obtain ⟨hgap, init, f, hf, ht⟩ := fresh_last h
  obtain ⟨htail, href, hlen, hfixed⟩ := hg f
  have hmod := Block.modifyLast_concat hf g
  refine ⟨?_, ?_, ?_⟩
  · refine hfresh.raw.replaceLast rfl hf hmod href (hlen.trans (hfresh.raw.unmeasured f (by simp [hf]))) fun m hm => ?_
    cases hgap.symm.trans hm
  · have hbefore := hfresh.before
    rw [hf, List.dropLast_concat] at hbefore
    rwa [hmod, List.dropLast_concat]
  · have hreach := hfresh.reach
    rw [hf, reach_concat] at hreach
    rw [hmod, reach_concat, ← Nat.add_zero (SpanLayout.reach laid 0 b.fragments), ← hreach]
    simp only [Fragment.extent, Fragment.tailExtent, htail, hfixed]
    omega

theorem grows_appendGap (h : b.Raw k) (size : Nat) (source : SourcePos) :
    Grows laid k b (b.appendGap size source) size := by
  unfold Block.appendGap
  split
  · rename_i n hn
    obtain ⟨init, f, hf, ht⟩ := h.lastGap n hn
    have hmod := Block.modifyLast_concat hf (·.withTail (.gap ⟨n + size⟩))
    refine ⟨?_, ?_, ?_⟩
    · refine h.replaceLast rfl hf hmod rfl rfl fun m hm => ?_
      cases hm
      rfl
    · have hsame : (b.modifyLast (·.withTail (.gap ⟨n + size⟩))).fragments.dropLast = b.fragments.dropLast := by
        rw [hmod, hf, List.dropLast_concat, List.dropLast_concat]
      exact hsame ▸ List.prefix_refl _
    · refine (congrArg (SpanLayout.reach laid 0) hmod).trans ?_
      rw [hf, reach_concat, reach_concat]
      simp only [Fragment.extent, Fragment.tailExtent, Fragment.withTail, Fragment.fixedLen, ht, Option.map_some,
        Option.getD_some, Tail.extent, Tail.gap?]
      omega
  · have hg := grows_appendFragment laid h (f := .ofTail (.gap ⟨size⟩) source) rfl
    have hextent : (Fragment.ofTail (.gap ⟨size⟩) source).extent laid b.fragments.length = size := Nat.zero_add size
    rw [hextent] at hg
    refine ⟨⟨hg.raw.sectionIndex, hg.raw.refs, hg.raw.nonempty, hg.raw.unmeasured, ?_⟩, hg.before, hg.reach⟩
    intro m hm
    cases hm
    exact ⟨_, _, rfl, rfl⟩

theorem grows_apply (h : b.Raw k) (p : Piece) : Grows laid k b (p.apply b) (p.extent laid b) := by
  cases p with
  | fragment f hf => exact grows_appendFragment laid h hf
  | add a =>
    cases a with
    | bytes text => exact grows_modifyFresh laid h fun f => ⟨rfl, rfl, rfl, List.length_append⟩
    | value size e source =>
      refine grows_modifyFresh laid h fun f => ?_
      have hlen (f : Fragment (Tail Empty)) :
          (f.appendValue (.ofField size e)).fixedLen = f.fixedLen + (size + 7) / 8 := by
        simp [Fragment.appendValue, Fragment.fixedLen, Fixup.size, Value.ofField]
      dsimp only
      split
      · exact ⟨rfl, rfl, rfl, hlen _⟩
      · exact ⟨rfl, rfl, rfl, hlen _⟩
    | gap size source => exact grows_appendGap laid h size source
    | tail t source =>
      have hg := grows_appendFragment laid h (f := .ofTail t source) rfl
      have hextent : (Fragment.ofTail t source).extent laid b.fragments.length = t.extent laid b.fragments.length :=
        Nat.zero_add _
      rwa [hextent] at hg
    | start => exact grows_appendFragment laid h (f := .empty) rfl
    | fresh => exact grows_fresh laid h

theorem grows_foldl (h : b.Raw k) (ps : List Piece) : Grows laid k b (ps.foldl Piece.apply b) (extents laid b ps) := by
  induction ps generalizing b with
  | nil => exact ⟨h, List.prefix_refl _, rfl⟩
  | cons p ps ih =>
    have hp := grows_apply laid h p
    exact hp.trans (ih hp.raw)

end Piece

/-! ## Laying out -/

namespace Object

variable {o : Object Empty} {images : List Image} {k : Nat}

theorem totalLen_of_settles {f f' g : Fragment (Tail Empty)} {i : Nat} {laid : List (Fragment (Tail Empty))}
    (hfin : f.FinalizesTo o.symbols none f') (hg : f'.Settles g) (hi : laid[i]? = some g) :
    g.totalLen = f.extent laid i := by
  have hexact := hg.exact
  obtain ⟨fixups, -, ⟨ht, rfl⟩ | ⟨t, t', ht, rfl, ht'⟩⟩ := hfin.cases
  · have htail : g.tail = none := by
      have := hg.tail
      rwa [ht, Option.map_none, Option.map_eq_none_iff] at this
    rw [Fragment.exact_of_none htail] at hexact
    rw [Fragment.totalLen, Fragment.extent, Fragment.tailExtent, ht, hexact, Fragment.fixedLen, hg.fixed]
    rfl
  · rw [Fragment.totalLen, Fragment.extent, Fragment.tailExtent, ht, Fragment.fixedLen, hg.fixed]
    refine congrArg (f.fixedLen + ·) ?_
    dsimp only [Option.map_some, Option.getD_some, Tail.extent]
    cases t with
    | gap n =>
      -- A gap stays one, and it is as long as its size says.
      have hgap : g.tail.map Tail.gap? = some (some n.size) := by
        rw [hg.tail, ht'.gap]
        rfl
      obtain ⟨u, hu, hn⟩ := Option.map_eq_some_iff.mp hgap
      cases u with
      | gap m =>
        rw [Fragment.exact_of_some hu, Tail.Exact] at hexact
        exact hexact.trans (Option.some.inj hn)
      | _ => cases hn
    | _ => simp [Tail.gap?, hi]

theorem reach_of_settles {fs gs laid : List (Fragment (Tail Empty))}
    (h : List.Forall₂ (fun f g => ∃ f', f.FinalizesTo o.symbols none f' ∧ f'.Settles g) fs gs) {i : Nat}
    (hlaid : ∀ (j : Nat) (g : Fragment (Tail Empty)), gs[j]? = some g → laid[i + j]? = some g) :
    Fragment.sumLen gs = reach laid i fs := by
  induction h generalizing i with
  | nil => rfl
  | @cons f g fs gs hfg _ ih =>
    obtain ⟨f', hfin, hg⟩ := hfg
    have hrest := ih (i := i + 1) fun j x hj => by
      rw [show i + 1 + j = i + (j + 1) by omega]
      exact hlaid (j + 1) x hj
    rw [Fragment.sumLen_cons, reach, hrest]
    exact congrArg (· + reach laid (i + 1) fs) (totalLen_of_settles hfin hg (hlaid 0 g rfl))

theorem start_layout (h : o.layout.result = .ok images) {s s' : Section Empty} (hs : o.sections[k]? = some s)
    (hs' : o.layout.object.sections[k]? = some s') : s'.start = s.start := by
  obtain ⟨ss, hfinalized, -, halike, -⟩ := layout_settles h
  obtain ⟨-, hnone⟩ | ⟨s₁, s₂, hs₁, hs₂, -, hstart, -⟩ := forall₂_getElem? halike k
  · cases hs'.symm.trans hnone
  cases hs'.symm.trans hs₂
  obtain ⟨-, hnone⟩ | ⟨s₀, s₃, hs₀, hs₃, hfin⟩ := forall₂_getElem? hfinalized k
  · cases hs₁.symm.trans hnone
  cases hs₁.symm.trans hs₃
  rw [Sections.fresh, List.getElem?_map, hs, Option.map_some] at hs₀
  cases hs₀
  exact hstart.trans hfin.start

theorem exists_rest {b : Block (Tail Empty)} (hb : b.Raw k) {init : List (Fragment (Tail Empty))}
    {f : Fragment (Tail Empty)} (hf : b.fragments = init ++ [f]) (after : List Piece) :
    ∃ f' rest, (after.foldl Piece.apply b).fresh.fragments = init ++ f' :: rest := by
  -- Fragments before the last one stay as they are, whatever is put behind them.
  have hafter := Piece.grows_foldl [] hb after
  have hfresh := Piece.grows_fresh [] hafter.raw
  obtain ⟨init', f', hf'⟩ := hfresh.raw.exists_last
  have hbefore := hafter.before.trans hfresh.before
  rw [hf, hf', List.dropLast_concat, List.dropLast_concat] at hbefore
  obtain ⟨rest, rfl⟩ := hbefore
  rw [hf', List.append_assoc]
  cases rest with
  | nil => exact ⟨f', [], rfl⟩
  | cons x rest => exact ⟨x, rest ++ [f'], rfl⟩

theorem offset_of_settles {fs laid : List (Fragment (Tail Empty))}
    (h : List.Forall₂ (fun f g => ∃ f', f.FinalizesTo o.symbols none f' ∧ f'.Settles g) fs laid)
    (hplaced : laid = Fragment.placeFrom 0 laid) {init rest : List (Fragment (Tail Empty))} {f : Fragment (Tail Empty)}
    (hf : fs = init ++ f :: rest) :
    ∃ g, laid[init.length]? = some g ∧ g.offset = reach laid 0 init := by
  obtain ⟨hnone, -⟩ | ⟨-, g, -, hg, -⟩ := forall₂_getElem? h init.length
  · simp [hf] at hnone
  refine ⟨g, hg, ?_⟩
  have hinit := List.forall₂_take init.length h
  rw [hf, List.take_left] at hinit
  have hreach : Fragment.sumLen (laid.take init.length) = reach laid 0 init := by
    refine reach_of_settles hinit fun j x hj => ?_
    rw [List.getElem?_take] at hj
    split at hj
    · rwa [Nat.zero_add]
    · cases hj
  have hat := Fragment.getElem?_placeFrom 0 laid init.length
  rw [← hplaced, hg, Option.map_some, Option.some.injEq] at hat
  rw [hat, ← hreach]
  exact Nat.zero_add _

/-- The location of the end that a block had after some of its pieces lies, in the end, in front of the tail that the
block ended with at that time. All pieces together make up the section. The section ends at an address that is a word.
-/
theorem address?_endLoc (o : Object Empty) (k : Nat) (s : Section Empty) (before after : List Piece)
    (images : List Image)
    (hs : o.sections[k]? = some s) (hblock : s.block = (before ++ after).foldl Piece.apply (.empty k))
    (h : o.layout.result = .ok images) (hend : s.start + o.layout.object.sections.length k < 2 ^ 64) :
    let final := o.layout.object
    let laid := final.sections.fragmentsOf k
    let b : Block (Tail Empty) := before.foldl Piece.apply (.empty k)
    final.sections.length k = extents laid (.empty k) (before ++ after) ∧
    ∃ address, final.address? b.endLoc = some address ∧
      address + b.trailing laid = s.start + extents laid (.empty k) before := by
  intro final laid b
  obtain ⟨s', hs'⟩ : ∃ s', final.sections[k]? = some s' := by
    refine ⟨_, List.getElem?_eq_getElem ?_⟩
    rw [(length_sections_layout h).1]
    exact (List.getElem?_eq_some_iff.mp hs).1
  have hlaid : laid = s'.block.fragments := fragmentsOf_of_some hs'
  obtain ⟨image, -, hsettled⟩ := settled_of_layout h hs'
  have hplaced := hsettled.placed
  have hsettles := hsettled.settles
  rw [blockOf_of_some hs, hblock, ← hlaid] at hsettles
  rw [← hlaid] at hplaced
  have hempty : reach laid 0 (Block.empty k : Block (Tail Empty)).fragments = 0 := rfl
  have hlength : final.sections.length k = extents laid (.empty k) (before ++ after) := by
    have hall := Piece.grows_foldl laid (.empty k) (before ++ after)
    have hfresh := Piece.grows_fresh laid hall.raw
    have hreach : Fragment.sumLen laid = reach laid 0 _ := reach_of_settles hsettles fun j g hj => by rwa [Nat.zero_add]
    rw [hfresh.reach, hall.reach, hempty, Nat.zero_add, Nat.add_zero] at hreach
    exact hreach
  refine ⟨hlength, ?_⟩
  have hbefore := Piece.grows_foldl laid (.empty k) before
  obtain ⟨init, f, hf⟩ := hbefore.raw.exists_last
  rw [List.foldl_append] at hsettles
  obtain ⟨f', rest, hrest⟩ := exists_rest hbefore.raw hf after
  obtain ⟨g, hg, hoffset⟩ := offset_of_settles hsettles hplaced hrest
  have htotal : reach laid 0 init + f.fixedLen + b.trailing laid = extents laid (.empty k) before := by
    have hreach := hbefore.reach
    rw [hempty, Nat.zero_add, hf, reach_concat, Fragment.extent] at hreach
    have htrailing : b.trailing laid = f.tailExtent laid init.length := by
      rw [Block.trailing, hf, List.getLast?_concat, List.length_append, List.length_singleton, Nat.add_sub_cancel]
      rfl
    omega
  refine ⟨s.start + (reach laid 0 init + f.fixedLen), address?_of_lt ?_ ?_, by omega⟩
  · rw [hbefore.raw.endLoc hf, ← start_layout h hs hs']
    rw [hlaid] at hg
    simp [Sections.address?, Sections.offset?, Sections.fragment?, hs', hg, hoffset]
  · have hle : extents laid (.empty k) before ≤ o.layout.object.sections.length k := by
      refine Nat.le_trans ?_ (Nat.le_of_eq hlength.symm)
      rw [extents_append]
      exact Nat.le_add_right _ _
    omega

/-- A byte with a jump behind it, and another byte. -/
def jumpAndByte : List Piece :=
  [.fragment { (Fragment.empty : Fragment (Tail Empty)) with
    fixed := [0x40], tail := some (.branch (.jump (.sym "far"))) } rfl, .add (.bytes [0x90])]

/-- Two gaps that are merged, and a place for a label. -/
def gapAndPlace : List Piece := [.add (.gap 100 .unknown), .add (.gap 100 .unknown), .add .fresh]

/-- The jump goes over the gap, which is too wide for its short form. -/
def jumpOverGap : Object Empty :=
  let o := ((Object.empty .standard).addSection ".text" 4096).modifyBlock 0 fun b =>
    (jumpAndByte ++ gapAndPlace).foldl Piece.apply b
  (o.defineLabel 0 "far" .unknown).state

theorem address?_endLoc_jumpOverGap :
    let final := jumpOverGap.layout.object
    let laid := final.sections.fragmentsOf 0
    let b : Block (Tail Empty) := jumpAndByte.foldl Piece.apply (.empty 0)
    jumpOverGap.layout.result.toOption.isSome = true ∧ final.sections.length 0 = 207 ∧ b.trailing laid = 0 ∧
      final.address? b.endLoc = some (4096 + 7) := by
  intro final laid b
  have hok : jumpOverGap.layout.result.toOption.isSome = true := by decide +kernel
  have htrailing : b.trailing laid = 0 := by decide +kernel
  have hbefore : extents laid (.empty 0) jumpAndByte = 7 := by decide +kernel
  have hall : extents laid (.empty 0) (jumpAndByte ++ gapAndPlace) = 207 := by decide +kernel
  have hend : 4096 + final.sections.length 0 < 2 ^ 64 := by decide +kernel
  obtain ⟨images, himages⟩ := Option.isSome_iff_exists.mp hok
  obtain ⟨hlength, address, haddress, htotal⟩ :=
    address?_endLoc jumpOverGap 0 _ jumpAndByte gapAndPlace images rfl rfl (Attempt.ok_of_toOption himages) hend
  refine ⟨hok, hlength.trans hall, htrailing, haddress.trans (congrArg some ?_)⟩
  have hstart : address + 0 = 4096 + 7 := by
    rw [← htrailing, ← hbefore]
    exact htotal
  exact hstart

/-- The location of the end behind a gap is the one in front of it. -/
theorem endLoc_in_front_of_gap :
    let before : List Piece := [.add (.gap 4 .unknown)]
    let o := ((Object.empty .standard).addSection ".text" 0).modifyBlock 0 fun b => before.foldl Piece.apply b
    let final := o.layout.object
    let b : Block (Tail Empty) := before.foldl Piece.apply (.empty 0)
    o.layout.result.toOption = some [⟨".text", 0, [0, 0, 0, 0], []⟩] ∧
      extents (final.sections.fragmentsOf 0) (.empty 0) before = 4 ∧ final.address? b.endLoc = some 0 := by
  decide +kernel

end Object

end SpanLayout
