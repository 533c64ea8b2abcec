import SpanLayout.Proofs.Relaxation.Least

/-!
# The branches that have to be long

Which branches are long decides where everything lies, and so which of the other branches reach their targets. A set of
branches will do if the others all do. Among the sets that will do and have the branches that were long at first, the
one that a relaxation ends with is the least. -/

namespace SpanLayout

/-! ## Targets -/

theorem Expr.isDifference_minus (a b : Location) : (Expr.minus (.loc a) (.loc b)).simplify.IsDifference a b 0 :=
  ⟨false, rfl⟩

/-- The location that an expression names, if it is a label or a location. -/
def Expr.location? (symbols : SymbolTable) : Expr → Option Location
  | .loc l => some l
  | .sym name => symbols.label? name
  | _ => none

theorem Expr.expand_of_location {symbols : SymbolTable} {e : Expr} {l : Location} (h : e.location? symbols = some l) :
    e.expand symbols = .done (.loc l) () := by
  cases e with
  | loc l' =>
    obtain rfl := Option.some.inj h
    rw [expand, expandWithin, replaceSyms]
  | sym name =>
    have h : symbols.label? name = some l := h
    rw [expand, expandWithin, replaceSyms]
    unfold SymbolTable.label? at h
    split at h
    · rename_i l' p hfind
      obtain rfl := Option.some.inj h
      split
      · rename_i hn
        rw [hn] at hfind
        cases hfind
      · rename_i l'' p' hs
        rw [hs] at hfind
        cases hfind
        rfl
      · rename_i hs
        rw [hs] at hfind
        cases hfind
    · cases h
  | const _ | slot _ | neg _ | sum _ | mul _ _ => cases h

theorem Value.spans_of_location {symbols : SymbolTable} {pos : SourcePos} {e : Expr} {l : Location}
    (h : e.location? symbols = some l) {v : Value}
    (hv : Value.finalize symbols pos { Value.ofExpr e with isSigned := true } = .done v ()) (origin : Location) :
    v.isRelative = false ∧ (v.minusLoc origin).Spans ⟨origin, l⟩ := by
  have hfinal : Value.finalize symbols pos { Value.ofExpr e with isSigned := true } =
      .done { Value.ofExpr (.loc l) with isSigned := true } () := by
    unfold finalize
    rw [show ({ Value.ofExpr e with isSigned := true } : Value).abs = some e from rfl]
    dsimp only
    rw [Expr.expand_of_location h]
    rfl
  rw [hfinal] at hv
  obtain rfl := congrArg Attempt.state hv
  exact ⟨rfl, rfl, _, rfl, Expr.isDifference_minus l origin⟩

/-! ## Layouts for given forms -/

/-- The tail in the form that is asked for, if it is a branch. -/
def Tail.inForm (form : Form) : Tail Empty → Tail Empty
  | .branch b => .branch { b with form }
  | t => t

/-- How long a gap is, or a branch in its form. -/
def Tail.formLen : Tail Empty → Nat
  | .branch b => b.encoding.len
  | .gap g => g.size
  | _ => 0

/-- The fragment with its branch in the form that is asked for, and as long as that makes it. -/
def Fragment.inForm (form : Form) (f : Fragment (Tail Empty)) : Fragment (Tail Empty) :=
  let tail := f.tail.map (·.inForm form)
  { f with tail, tailLen := tail.elim 0 Tail.formLen }

theorem Tail.branching_inForm (form : Form) (t : Tail Empty) : (t.inForm form).branching = t.branching := by
  cases t <;> rfl

theorem Fragment.fits_iff_of_branching {f : Fragment (Tail Empty)} (h : f.tail.all Tail.branching = true) :
    f.Fits ↔ f.tailLen = f.tail.elim 0 Tail.formLen := by
  unfold Fits
  cases ht : f.tail with
  | none => rfl
  | some t =>
    rw [ht] at h
    cases t with
    | gap _ | branch _ => rfl
    | align _ | origin _ | leb128 _ | times _ _ _ => cases h
    | other d => exact nomatch d

theorem Fragment.fits_inForm (form : Form) {f : Fragment (Tail Empty)} (h : f.tail.all Tail.branching = true) :
    (f.inForm form).Fits := by
  refine (fits_iff_of_branching ?_).mpr rfl
  unfold inForm
  cases ht : f.tail with
  | none => rfl
  | some t =>
    rw [ht] at h
    exact (t.branching_inForm form).trans h

/-- Whether the fragment ends with a branch in its long form. -/
def Fragment.isLong (f : Fragment (Tail Empty)) : Bool :=
  match f.tail with
  | some (.branch b) => b.form = .long
  | _ => false

namespace Sections

/-- The layout in which exactly the branches of `long` are long. -/
def inForms (long : Finset FragmentRef) (ss : Sections Empty) : Sections Empty :=
  ss.mapIdx fun k s =>
    let fragments := s.block.fragments.mapIdx fun i f => f.inForm (if ⟨k, i⟩ ∈ long then .long else .short)
    { s with block := { s.block with fragments } }

/-- The branches in their long form. -/
def longBranches (ss : Sections Empty) : Finset FragmentRef :=
  (Finset.range (List.length ss)).biUnion fun k =>
    ((Finset.range (ss.fragmentsOf k).length).image (FragmentRef.mk k)).filter fun r =>
      (ss.fragment? r).any Fragment.isLong

variable {ss tt : Sections Empty} {long : Finset FragmentRef}

theorem fragment?_inForms (long : Finset FragmentRef) (ss : Sections Empty) (r : FragmentRef) :
    (ss.inForms long).fragment? r = (ss.fragment? r).map (·.inForm (if r ∈ long then .long else .short)) := by
  unfold fragment? inForms
  rw [List.getElem?_mapIdx]
  cases hs : ss[r.sectionIndex]? with
  | none => rfl
  | some s => exact List.getElem?_mapIdx

theorem mem_longBranches {r : FragmentRef} :
    r ∈ ss.longBranches ↔ ∃ f b, ss.fragment? r = some f ∧ f.tail = some (.branch b) ∧ b.form = .long := by
  have hlong (f : Fragment (Tail Empty)) : f.isLong = true ↔ ∃ b, f.tail = some (.branch b) ∧ b.form = .long := by
    unfold Fragment.isLong
    split
    · rename_i b hb
      simp [hb]
    · rename_i hb
      simp only [Bool.false_eq_true, false_iff, not_exists, not_and]
      exact fun b hb' => absurd hb' (hb b)
  unfold longBranches
  simp only [Finset.mem_biUnion, Finset.mem_filter, Finset.mem_image, Finset.mem_range]
  constructor
  · rintro ⟨k, -, -, hany⟩
    cases hf : ss.fragment? r with
    | none =>
      rw [hf] at hany
      cases hany
    | some f =>
      rw [hf] at hany
      obtain ⟨b, hb, hform⟩ := (hlong f).mp hany
      exact ⟨f, b, rfl, hb, hform⟩
  · rintro ⟨f, b, hf, hb, hform⟩
    obtain ⟨s, hs, -⟩ := Option.bind_eq_some_iff.mp hf
    refine ⟨r.sectionIndex, (List.getElem?_eq_some_iff.mp hs).1, ⟨r.index, ?_, rfl⟩, ?_⟩
    · rw [fragment?_eq] at hf
      exact (List.getElem?_eq_some_iff.mp hf).1
    · rw [hf]
      exact (hlong f).mpr ⟨b, hb, hform⟩

theorem position_congr (h : ∀ r, (ss.fragment? r).map Fragment.totalLen = (tt.fragment? r).map Fragment.totalLen)
    (l : Location) : ss.position l = tt.position l := by
  have hbegins (k i : Nat) : ss.begins ⟨k, i⟩ = tt.begins ⟨k, i⟩ := by
    induction i with
    | zero => rfl
    | succ i ih =>
      have hlen := h ⟨k, i⟩
      cases hf : ss.fragment? ⟨k, i⟩ with
      | none =>
        rw [hf] at hlen
        rw [begins_succ_of_none hf, begins_succ_of_none (Option.map_eq_none_iff.mp hlen.symm), ih]
      | some f =>
        rw [hf] at hlen
        obtain ⟨g, hg, hfg⟩ := Option.map_eq_some_iff.mp hlen.symm
        rw [begins_succ hf, begins_succ hg, ih, hfg]
  rw [position, position, hbegins]

end Sections

/-! ## Layouts above the first one -/

theorem Branch.inForm_of_ne_long {b : Branch} (h : b.form ≠ .long) : ({ b with form := .short } : Branch) = b := by
  obtain ⟨target, value, short, long, form⟩ := b
  cases form with
  | short => rfl
  | long => exact absurd rfl h

theorem Fragment.under_inForm {f g : Fragment (Tail Empty)} (hfixed : g.fixed = f.fixed) (htail : g.tail = f.tail)
    (hfits : g.Fits) (hkind : f.tail.all Tail.branching = true) {form : Form}
    (hb : ∀ b, f.tail = some (.branch b) → b.encoding.len ≤ b.long.len ∧ (b.form = .long → form = .long)) :
    g.Under (f.inForm form) := by
  refine ⟨hfixed.symm, ?_, hfits, fits_inForm form hkind⟩
  rw [htail, inForm]
  cases ht : f.tail with
  | none => exact .inl ⟨rfl, rfl⟩
  | some t =>
    refine .inr ⟨t, t.inForm form, rfl, rfl, ?_⟩
    cases t with
    | branch b =>
      obtain ⟨hle, hlong⟩ := hb b ht
      cases form with
      | long => exact .longer b hle
      | short =>
        rw [Tail.inForm, Branch.inForm_of_ne_long (fun h => by cases hlong h)]
        exact .same _
    | _ => exact .same _

theorem Fragment.Under.totalLen_eq {f g k : Fragment (Tail Empty)} (h : g.Under k) (hfixed : g.fixed = f.fixed)
    (htail : g.tail = f.tail) (hkind : f.tail.all Tail.branching = true) {form : Form}
    (hform : ∀ b, k.tail = some (.branch b) → b.form = form) : k.totalLen = (f.inForm form).totalLen := by
  have hsame : k.tail = (f.inForm form).tail := by
    rw [inForm]
    cases ht : f.tail with
    | none =>
      rcases h.tail with ⟨-, hk⟩ | ⟨t, _, hg, -⟩
      · exact hk
      · rw [htail, ht] at hg
        cases hg
    | some t =>
      obtain ⟨u, hu, htu⟩ := h.tail_of_some (htail.trans ht)
      rw [hu]
      cases htu with
      | same =>
        cases t with
        | branch b =>
          have : b.form = form := hform b hu
          subst this
          rfl
        | _ => rfl
      | wider x _ =>
        rw [ht] at hkind
        cases hkind
      | longer b _ =>
        have : Form.long = form := hform b.lengthen hu
        subst this
        rfl
  have hkind' : k.tail.all Tail.branching = true := by
    rw [hsame, inForm, Option.all_map]
    simpa [Function.comp_def, Tail.branching_inForm] using hkind
  have hlen : k.tailLen = (f.inForm form).tailLen := by
    rw [(fits_iff_of_branching hkind').mp h.fits', hsame]
    rfl
  have hfixedLen : k.fixedLen = f.fixedLen := by rw [h.fixedLen, Fragment.fixedLen, hfixed]; rfl
  rw [totalLen, totalLen, hlen, hfixedLen]
  rfl

namespace Sections

variable {config : Config} {diags : Diagnostics} {ss : Sections Empty}

theorem Branching.surveyed_cases (h : ss.Branching) (hd : diags.hasErrors = false) (config : Config) (r : FragmentRef) :
    (ss.fragment? r = none ∧ (ss.surveyed config diags).sections.fragment? r = none) ∨
      ∃ f g, ss.fragment? r = some f ∧ (ss.surveyed config diags).sections.fragment? r = some g ∧ g.tail = f.tail ∧
        g.fixed = f.fixed ∧ g.Fits := by
  cases hg : (ss.surveyed config diags).sections.fragment? r with
  | none =>
    refine .inl ⟨?_, rfl⟩
    by_contra hf
    obtain ⟨f, hf⟩ := Option.ne_none_iff_exists'.mp hf
    obtain ⟨g, hg', -⟩ := @fixedLen_surveyed config diags ss (by rw [diags_surveyed h]; exact hd) r f hf
    cases hg.symm.trans hg'
  | some g =>
    obtain ⟨f, hf, htail, hfixed, hfits⟩ := exists_of_surveyed h hd hg
    exact .inr ⟨f, g, hf, rfl, htail, hfixed, hfits⟩

theorem Branching.under_inForms (h : ss.Branching) (hd : diags.hasErrors = false) (config : Config)
    {long : Finset FragmentRef} (hlong : ss.longBranches ⊆ long) :
    (ss.surveyed config diags).sections.Under (ss.inForms long) := by
  intro r
  rcases h.surveyed_cases hd config r with ⟨hf, hg⟩ | ⟨f, g, hf, hg, htail, hfixed, hfits⟩
  · exact .inl ⟨hg, by rw [fragment?_inForms, hf]; rfl⟩
  · refine .inr
      ⟨g, _, hg, by rw [fragment?_inForms, hf]; rfl, Fragment.under_inForm hfixed htail hfits (h.tails r f hf) ?_⟩
    refine fun b hb => ⟨h.encoding_le hf hb, fun hform => ?_⟩
    rw [if_pos (hlong (mem_longBranches.mpr ⟨f, b, hf, hb, hform⟩))]

/-- What the first layout grows to is the layout for the branches that are long in the end. -/
theorem Branching.position_inForms (h : ss.Branching) (hd : diags.hasErrors = false) {config : Config}
    {tt : Sections Empty} (hu : (ss.surveyed config diags).sections.Under tt) (l : Location) :
    (ss.inForms tt.longBranches).position l = tt.position l := by
  refine position_congr (fun r => ?_) l
  rw [fragment?_inForms]
  rcases h.surveyed_cases hd config r with ⟨hf, hg⟩ | ⟨f, g, hf, hg, htail, hfixed, hfits⟩
  · rcases hu r with ⟨-, hk⟩ | ⟨_, _, hg', -⟩
    · rw [hf, hk]
      rfl
    · cases hg.symm.trans hg'
  · obtain ⟨k, hk, hgk⟩ := hu.exists_right hg
    rw [hf, hk, Option.map_some, Option.map_some, Option.map_some]
    refine congrArg some (hgk.totalLen_eq hfixed htail (h.tails r f hf) fun b hb => ?_).symm
    cases hform : b.form with
    | long => rw [if_pos (mem_longBranches.mpr ⟨k, b, hk, hb, hform⟩)]
    | short =>
      rw [if_neg]
      intro hmem
      obtain ⟨k', b', hk', hb', hform'⟩ := mem_longBranches.mp hmem
      obtain rfl := Option.some.inj (hk.symm.trans hk')
      obtain rfl := Tail.branch.inj (Option.some.inj (hb.symm.trans hb'))
      cases hform.symm.trans hform'

end Sections

/-! ## Objects -/

theorem Tail.FinalizesTo.exists_branch {symbols : SymbolTable} {info : FragmentInfo} {t : Tail Empty} {b : Branch}
    (h : t.FinalizesTo symbols info (.branch b)) : ∃ b', t = .branch b' := by
  cases t with
  | branch b' => exact ⟨b', rfl⟩
  | gap _ => cases h.gap
  | origin _ => cases h.origin
  | align _ =>
    obtain ⟨_, _, _, -, -, -, ht⟩ := h.align
    cases ht
  | leb128 _ =>
    obtain ⟨_, -, -, ht⟩ := h.leb128
    cases ht
  | times _ _ _ =>
    obtain ⟨_, _, -, -, ht, -⟩ := h.times
    cases ht
  | other d => exact nomatch d

theorem Fragment.FinalizesTo.isBranch {symbols : SymbolTable} {owner : Option FragmentRef} {f g : Fragment (Tail Empty)}
    (h : f.FinalizesTo symbols owner g) (hg : g.isBranch = true) : f.isBranch = true := by
  obtain ⟨fixups, -, ⟨hnone, rfl⟩ | ⟨t, t', ht, rfl, htail⟩⟩ := h.cases
  · exact hg
  · unfold Fragment.isBranch at hg ⊢
    cases t' with
    | branch b =>
      obtain ⟨b', rfl⟩ := htail.exists_branch
      rw [ht]
    | _ => cases hg

theorem Sections.branchCount_le_of_forall₂ {R : Fragment (Tail Empty) → Fragment (Tail Empty) → Prop}
    (hR : ∀ f g, R f g → g.isBranch = true → f.isBranch = true) {ss tt : Sections Empty}
    (h : List.Forall₂ (fun s t : Section Empty => List.Forall₂ R s.block.fragments t.block.fragments) ss tt) :
    tt.branchCount ≤ ss.branchCount := by
  have hfragments {fs gs : List (Fragment (Tail Empty))} (h : List.Forall₂ R fs gs) :
      gs.countP Fragment.isBranch ≤ fs.countP Fragment.isBranch := by
    induction h with
    | nil => exact Nat.le_refl 0
    | @cons f g fs gs hfg _ ih =>
      rw [List.countP_cons, List.countP_cons]
      refine Nat.add_le_add ih ?_
      by_cases hg : g.isBranch = true
      · rw [if_pos hg, if_pos (hR f g hfg hg)]
      · rw [if_neg hg]
        exact Nat.zero_le _
  unfold branchCount
  induction h with
  | nil => exact Nat.le_refl 0
  | cons hs _ ih =>
    rw [List.map_cons, List.map_cons, List.sum_cons, List.sum_cons]
    exact Nat.add_le_add (hfragments hs) ih

namespace Object

/-- Whether a tail in section `k` is a gap or a branch that is no longer in its short form than in its long one, and
goes to a label of its section. -/
def branchesWithin (o : Object Empty) (k : Nat) : Tail Empty → Bool
  | .gap _ => true
  | .branch b =>
    b.short.all (fun e => decide (e.len ≤ b.long.len)) &&
      (b.target.location? o.symbols).any fun l => decide (l.fragment.sectionIndex = k) && o.sections.holds l
  | _ => false

/-- The object is made of bytes, fields, gaps and such branches. -/
def OnlyBranches (o : Object Empty) : Prop :=
  ∀ r f, o.sections.fragment? r = some f → f.tail.all (o.branchesWithin r.sectionIndex) = true

instance (o : Object Empty) : Decidable o.OnlyBranches :=
  inferInstanceAs
    (Decidable (∀ r f, o.sections.fragment? r = some f → f.tail.all (o.branchesWithin r.sectionIndex) = true))

theorem branchesWithin_branch {o : Object Empty} {k : Nat} {b : Branch} (h : o.branchesWithin k (.branch b) = true) :
    (∀ e, b.short = some e → e.len ≤ b.long.len) ∧ ∃ l, b.target.location? o.symbols = some l ∧
      l.fragment.sectionIndex = k ∧ o.sections.holds l = true := by
  unfold branchesWithin at h
  rw [Bool.and_eq_true, Option.any_eq_true] at h
  obtain ⟨hshort, l, hl, hwithin⟩ := h
  rw [Bool.and_eq_true, decide_eq_true_eq] at hwithin
  refine ⟨fun e he => ?_, l, hl, hwithin⟩
  rw [he, Option.all_some, decide_eq_true_eq] at hshort
  exact hshort

/-- In the layout where exactly the branches of `long` are long, all others reach their targets in their short forms. -/
def ShortsReach (o : Object Empty) (long : Finset FragmentRef) : Prop :=
  ∀ r f b e l, o.sections.fragment? r = some f → f.tail = some (.branch b) → r ∉ long → b.short = some e →
    b.target.location? o.symbols = some l →
    e.range.contains
      ((o.sections.inForms long).position l - ((o.sections.inForms long).position ⟨r, f.fixedLen⟩ + e.len)) = true

variable {o : Object Empty} {diags : Diagnostics}

/-! ## Finalizing -/

theorem exists_finalize {r : FragmentRef} {f : Fragment (Tail Empty)} (hf : o.sections.fragment? r = some f)
    (diags : Diagnostics) : ∃ g, (o.finalize diags).1.sections.fragment? r = some g ∧ g.fixed = f.fixed := by
  obtain ⟨s, hs, hi⟩ := Option.bind_eq_some_iff.mp hf
  have hfresh : s.block.fresh.fragments[r.index]? = some f := by
    have hlt := (List.getElem?_eq_some_iff.mp hi).1
    have hstart : s.block.start.fragments[r.index]? = some f := by
      rw [Block.start, Block.appendFragment, Block.push, List.getElem?_append_left hlt]
      exact hi
    unfold Block.fresh
    split
    · split
      · exact hstart
      · exact hi
    · exact hstart
  have hs' : o.sections.fresh[r.sectionIndex]? = some { s with block := s.block.fresh } := by
    rw [Sections.fresh, List.getElem?_map, hs]
    rfl
  rcases forall₂_getElem? (finalized_finalizeSections o.symbols diags o.sections) r.sectionIndex with
    ⟨hn, -⟩ | ⟨a, t, ha, ht, hfin⟩
  · cases hn.symm.trans hs'
  · obtain rfl := Option.some.inj (ha.symm.trans hs')
    rcases forall₂_getElem? hfin.fragments r.index with ⟨hn, -⟩ | ⟨f', g, hf', hg, hfg⟩
    · cases hn.symm.trans hfresh
    · obtain rfl := Option.some.inj (hf'.symm.trans hfresh)
      exact ⟨g, Option.bind_eq_some_iff.mpr ⟨t, ht, hg⟩, hfg.kin.fixed⟩

theorem holds_finalize {l : Location} (h : o.sections.holds l = true) (diags : Diagnostics) :
    (o.finalize diags).1.sections.holds l = true := by
  obtain ⟨f, hf, hle⟩ := Sections.exists_of_holds h
  obtain ⟨g, hg, hfixed⟩ := exists_finalize hf diags
  rw [Sections.holds, hg]
  refine decide_eq_true ?_
  rwa [Fragment.fixedLen, hfixed]

theorem OnlyBranches.finalized (ho : o.OnlyBranches) (hb : o.Built) (hd : (o.finalize diags).2.hasErrors = false)
    {r : FragmentRef} {g : Fragment (Tail Empty)} (hg : (o.finalize diags).1.sections.fragment? r = some g) :
    g.tail.all Tail.branching = true ∧ ∀ b, g.tail = some (.branch b) →
      (∀ e, b.short = some e → e.len ≤ b.long.len) ∧ ∃ l v, b.target.location? o.symbols = some l ∧
        l.fragment.sectionIndex = r.sectionIndex ∧ o.sections.holds l = true ∧ b.value = some v ∧
        v.Spans ⟨⟨r, g.fixedLen⟩, l⟩ := by
  obtain ⟨f, hf, hto⟩ := finalizesTo_finalize hd hg
  have href := (hb.finalize diags).refsMatch r g hg
  obtain ⟨fixups, -, ⟨hnone, rfl⟩ | ⟨t, t', ht, rfl, htail⟩⟩ := hto.cases
  · refine ⟨?_, fun b hb => ?_⟩
    · rw [hnone]
      rfl
    · rw [hnone] at hb
      cases hb
  · have hf : o.sections.fragment? r = some f := by
      rcases Sections.fragment?_fresh hf with hf | hnone
      · exact hf
      · rw [hnone] at ht
        cases ht
    have hkind := ho r f hf
    rw [ht, Option.all_some] at hkind
    cases t with
    | gap gap =>
      obtain rfl := htail.gap
      exact ⟨rfl, fun b hb => by cases hb⟩
    | align _ | origin _ | leb128 _ | times _ _ _ => cases hkind
    | other d => exact nomatch d
    | branch b =>
      obtain ⟨v, hv, rfl⟩ := htail.branch
      obtain ⟨hshorter, l, hl, hsec, hholds⟩ := branchesWithin_branch hkind
      obtain ⟨hrel, hspans⟩ := Value.spans_of_location hl hv ⟨r, f.fixedLen⟩
      refine ⟨rfl, fun b' hb' => ?_⟩
      rw [hrel] at hb'
      obtain rfl := Tail.branch.inj (Option.some.inj hb')
      refine ⟨hshorter, l, _, hl, hsec, hholds, rfl, ?_⟩
      rw [show ({ f.info with ref := (none : Option FragmentRef).getD f.ref } : FragmentInfo).tailLoc =
        ⟨r, f.fixedLen⟩ from congrArg (Location.mk · f.fixedLen) href]
      exact hspans

theorem OnlyBranches.branching (ho : o.OnlyBranches) (hb : o.Built) (hd : (o.finalize diags).2.hasErrors = false) :
    (o.finalize diags).1.sections.Branching := by
  refine ⟨fun r g hg => (ho.finalized hb hd hg).1, fun r g b e hg hbranch he => ?_, fun r g b hg hbranch => ?_⟩
  · exact ((ho.finalized hb hd hg).2 b hbranch).1 e he
  · obtain ⟨l, v, -, hsec, hholds, hv, hspans⟩ := ((ho.finalized hb hd hg).2 b hbranch).2
    exact ⟨l, v, hsec, holds_finalize hholds diags, hv, hspans⟩

theorem branchCount_finalize (hd : (o.finalize diags).2.hasErrors = false) :
    (o.finalize diags).1.sections.branchCount ≤ o.sections.branchCount := by
  -- Only a branch is finalized to a branch, so there are no more of them.
  have hfresh (b : Block (Tail Empty)) : b.fresh.fragments.countP Fragment.isBranch =
      b.fragments.countP Fragment.isBranch := by
    have hstart : b.start.fragments.countP Fragment.isBranch = b.fragments.countP Fragment.isBranch := by
      rw [Block.start, Block.appendFragment, Block.push, List.countP_append]
      rfl
    unfold Block.fresh
    split
    · split
      · exact hstart
      · rfl
    · exact hstart
  calc (o.finalize diags).1.sections.branchCount
      ≤ o.sections.fresh.branchCount := Sections.branchCount_le_of_forall₂
        (fun _ _ h hg => h.isBranch hg) (finalizesTo_finalizeSections o.symbols hd)
    _ = o.sections.branchCount := by
        unfold Sections.branchCount Sections.fresh
        rw [List.map_map]
        exact congrArg List.sum (List.map_congr_left fun s _ => hfresh s.block)

/-! ## Reach -/

section

variable {diags' : Diagnostics} (ho : o.OnlyBranches) (hb : o.Built) (hd : (o.finalize diags).2.hasErrors = false)
  (hd' : diags'.hasErrors = false)
  (hlen : ∀ k, ((o.finalize diags).1.sections.surveyed o.config diags').sections.length k < 2 ^ 63)
include ho hb hd hd' hlen

theorem OnlyBranches.signed_len {r : FragmentRef} {f : Fragment (Tail Empty)} {b : Branch} {e : Encoding}
    (hf : (o.finalize diags).1.sections.fragment? r = some f) (hbranch : f.tail = some (.branch b))
    (hshort : b.shortInUse? = some e) : signed e.len = e.len := by
  have h := ho.branching hb hd
  rcases h.surveyed_cases hd' o.config r with ⟨hn, -⟩ | ⟨f', g, hf', hg, htail, -, hfits⟩
  · cases hn.symm.trans hf
  obtain rfl := Option.some.inj (hf.symm.trans hf')
  have htailLen : g.tailLen = e.len := by
    have := (Fragment.fits_of_some (htail.trans hbranch)).mp hfits
    rwa [Tail.Fits, Branch.encoding, hshort] at this
  have := Sections.begins_add_totalLen_le hg
  have := hlen r.sectionIndex
  have : g.totalLen = g.fixedLen + g.tailLen := rfl
  exact signed_eq _ (by omega)

/-- If the short branches reach their targets, the layout meets what their forms depend on. -/
theorem OnlyBranches.meets {long : Finset FragmentRef} (hlong : (o.finalize diags).1.sections.longBranches ⊆ long)
    (h : (o.finalize diags).1.ShortsReach long) : ((o.finalize diags).1.sections.inForms long).Meets := by
  intro r g hg q hq d hspans
  rw [Sections.fragment?_inForms] at hg
  obtain ⟨f, hf, rfl⟩ := Option.map_eq_some_iff.mp hg
  obtain ⟨hkind, hbranch⟩ := ho.finalized hb hd hf
  unfold Fragment.own Fragment.inForm at hq
  cases ht : f.tail with
  | none =>
    rw [ht] at hq
    cases hq
  | some t =>
    rw [ht] at hq hkind
    cases t with
    | gap _ => cases hq
    | align _ | origin _ | leb128 _ | times _ _ _ => cases hkind
    | other d => exact nomatch d
    | branch b =>
      obtain ⟨-, l, v, hl, -, -, hv, hv'⟩ := hbranch b ht
      have hq : q ∈ (Tail.branch { b with form := if r ∈ long then .long else .short }).own := hq
      rcases Tail.mem_own hq with ⟨_, hx, -⟩ | ⟨b', e, v', hx, hshort, hvalue, rfl⟩
      · cases hx
      obtain rfl := Tail.branch.inj hx
      obtain rfl := Option.some.inj (hv.symm.trans hvalue)
      obtain ⟨hform, he⟩ := Branch.short_of_shortInUse? hshort
      have hr : r ∉ long := fun hr => by
        rw [if_pos hr] at hform
        cases hform
      have hne : b.form ≠ .long := fun hlong' => hr (hlong (Sections.mem_longBranches.mpr ⟨f, b, hf, ht, hlong'⟩))
      rw [if_neg hr, Branch.inForm_of_ne_long hne] at hshort
      have hreach := h r f b e l hf ht hr he hl
      rw [hspans.extent_eq hv', Sections.extent, ho.signed_len hb hd hd' hlen hf ht hshort]
      rw [Window.contains_iff] at hreach ⊢
      dsimp only at hreach ⊢
      omega

/-- If a layout above the first one meets what its forms depend on, its short branches reach their targets. -/
theorem OnlyBranches.shortsReach {tt : Sections Empty}
    (hu : ((o.finalize diags).1.sections.surveyed o.config diags').sections.Under tt) (hmeets : tt.Meets) :
    (o.finalize diags).1.ShortsReach tt.longBranches := by
  intro r f b e l hf ht hr he hl
  have h := ho.branching hb hd
  rw [h.position_inForms hd' hu, h.position_inForms hd' hu]
  obtain ⟨-, l', v, hl', -, -, hv, hspans⟩ := (ho.finalized hb hd hf).2 b ht
  obtain rfl := Option.some.inj (hl.symm.trans hl')
  rcases h.surveyed_cases hd' o.config r with ⟨hn, -⟩ | ⟨f', g, hf', hg, htail, -, -⟩
  · cases hn.symm.trans hf
  obtain rfl := Option.some.inj (hf.symm.trans hf')
  obtain ⟨k, hk, hgk⟩ := hu.exists_right hg
  rcases hgk.branch (htail.trans ht) with hkt | hkt
  · have hform : b.form = .short := by
      cases hform : b.form with
      | short => rfl
      | long => exact absurd (Sections.mem_longBranches.mpr ⟨k, b, hk, hkt, hform⟩) hr
    have hshort : b.shortInUse? = some e := by rw [Branch.shortInUse?, hform]; exact he
    have hown :=
      hmeets r k hk _ (by rw [Fragment.own, hkt]; exact Branch.own_of_short hshort hv ▸ List.mem_singleton.mpr rfl) _
      hspans
    rw [Sections.extent, ho.signed_len hb hd hd' hlen hf ht hshort] at hown
    rw [Window.contains_iff] at hown ⊢
    dsimp only at hown ⊢
    omega
  · exact absurd (Sections.mem_longBranches.mpr ⟨k, b.lengthen, hk, hkt, rfl⟩) hr

end

/-- Where an object is made of branches, and may make as many expansions as it has branches, its relaxation succeeds.
The branches that are long in the end are the least set with those that were long at first such that all other branches
reach their targets in their short forms. -/
theorem relax_leaves_least (o : Object Empty) (diags diags' : Diagnostics) (hb : o.Built) (ho : o.OnlyBranches)
    (hbudget : o.sections.branchCount ≤ o.config.maxExpansions) (hd : (o.finalize diags).2.hasErrors = false)
    (hd' : diags'.hasErrors = false) (hw : (o.finalize diags).1.sections.StaysBelow o.config diags') :
    ∃ u d stats, (o.finalize diags).1.relax diags' = .done (u, d) stats ∧
      IsLeast {long | (o.finalize diags).1.sections.longBranches ⊆ long ∧ (o.finalize diags).1.ShortsReach long}
        u.sections.longBranches := by
  have h := ho.branching hb hd
  have hlen := hw _ .surveyed
  have hbuilt := hb.finalize diags
  obtain ⟨t, stats, hrelax, hleast⟩ :=
    Sections.relax_branching hbuilt.refsMatch h hd' hw (fun _ _ hf => hbuilt.sized hf)
    ((branchCount_finalize hd).trans hbudget)
  obtain ⟨u, d, hu, hsections⟩ := @relax_of_sections (o.finalize diags).1 o.config rfl diags' stats
    (show ((o.finalize diags).1.sections.relax o.config diags').result.toOption = some stats by rw [hrelax]; rfl)
  rw [hrelax] at hsections
  refine ⟨u, d, stats, hu, ?_⟩
  rw [show u.sections = t.sections from hsections]
  refine ⟨⟨fun r hr => ?_, ho.shortsReach hb hd hd' hlen hleast.grown hleast.meets⟩,
    fun long ⟨hlong, hreach⟩ r hr => ?_⟩
  · -- A branch that was long at first stays long.
    obtain ⟨f, b, hf, hbranch, hform⟩ := Sections.mem_longBranches.mp hr
    rcases h.surveyed_cases hd' o.config r with ⟨hn, -⟩ | ⟨f', g, hf', hg, htail, -, -⟩
    · cases hn.symm.trans hf
    obtain rfl := Option.some.inj (hf.symm.trans hf')
    obtain ⟨k, hk, hgk⟩ := hleast.grown.exists_right hg
    rcases hgk.branch (htail.trans hbranch) with hkt | hkt
    · exact Sections.mem_longBranches.mpr ⟨k, b, hk, hkt, hform⟩
    · exact Sections.mem_longBranches.mpr ⟨k, b.lengthen, hk, hkt, rfl⟩
  · -- A branch that is long in the end is long in every layout that meets what the forms depend on.
    have hunder := hleast.under _ (h.under_inForms hd' o.config hlong) (ho.meets hb hd hd' hlen hlong hreach)
    obtain ⟨k, b, hk, hkt, hform⟩ := Sections.mem_longBranches.mp hr
    obtain ⟨g, hg, hkg⟩ := hunder.exists_right hk
    rw [Sections.fragment?_inForms] at hg
    obtain ⟨f, -, rfl⟩ := Option.map_eq_some_iff.mp hg
    by_contra hr'
    rw [if_neg hr'] at hkg
    have hgt : ∃ b', (f.inForm .short).tail = some (.branch b') ∧ b'.form = .long := by
      rcases hkg.branch hkt with hgt | hgt
      · exact ⟨b, hgt, hform⟩
      · exact ⟨b.lengthen, hgt, rfl⟩
    obtain ⟨b', hgt, hform'⟩ := hgt
    obtain ⟨t', -, ht'⟩ := Option.map_eq_some_iff.mp (show f.tail.map (·.inForm .short) = some (.branch b') from hgt)
    cases t' with
    | branch _ =>
      obtain rfl := Tail.branch.inj ht'
      cases hform'
    | _ => cases ht'

/-- Three jumps: the first one is in reach of the near label until the second one has been widened, which is not in
reach of the far label; the last one goes back to the near label. -/
def chainedJumps : Object Empty :=
  let o := ((Object.empty ⟨3, 64⟩).addSection ".text" 4096).modifyBlock 0 fun b =>
    ((b.appendTail (.branch (.jump (.sym "near"))) .unknown).appendTail
      (.branch (.jump (.sym "far"))) .unknown).appendGap 125 .unknown
  let o := (o.defineLabel 0 "near" .unknown).state.modifyBlock 0 fun b => b.appendGap 100 .unknown
  (o.defineLabel 0 "far" .unknown).state.modifyBlock 0 fun b => b.appendTail (.branch (.jump (.sym "near"))) .unknown

theorem built_chainedJumps : chainedJumps.Built := by
  refine Built.modifyBlock (Built.defineLabel (Built.modifyBlock (Built.defineLabel (Built.modifyBlock
    ((built_empty _).addSection _ _) 0 fun b hb => ?_) _ _ _) 0 fun b hb => ?_) _ _ _) 0 fun b hb => ?_
  · exact ((hb.appendTail (by decide)).appendTail (by decide)).appendGap _ _
  · exact hb.appendGap _ _
  · exact hb.appendTail (by decide)

theorem prepared_chainedJumps :
    (chainedJumps.finalize (.empty 64)).1.sections.prepared ⟨3, 64⟩ (.empty 64) =
      ((chainedJumps.finalize (.empty 64)).1.sections.rechecked ⟨3, 64⟩ (.empty 64)).indexedInOrder.checkCycles :=
  Sections.prepared_of_sorted (built_chainedJumps.finalize _).refsMatch (by decide +kernel) (by decide +kernel)

theorem relax_leaves_least_chainedJumps :
    let p := (chainedJumps.finalize (.empty 64)).1
    chainedJumps.Built ∧ chainedJumps.OnlyBranches ∧
    chainedJumps.sections.branchCount = chainedJumps.config.maxExpansions ∧
      (chainedJumps.finalize (.empty 64)).2.hasErrors = false ∧ p.sections.StaysBelow chainedJumps.config (.empty 64) ∧
      p.sections.longBranches = ∅ ∧ ∃ u d stats, p.relax (.empty 64) = .done (u, d) stats ∧
        u.sections.longBranches = {⟨0, 1⟩, ⟨0, 2⟩} ∧
        IsLeast {long | p.sections.longBranches ⊆ long ∧ p.ShortsReach long} u.sections.longBranches := by
  have ho : chainedJumps.OnlyBranches := by decide +kernel
  have hcount : chainedJumps.sections.branchCount = chainedJumps.config.maxExpansions := by decide +kernel
  have hd : (chainedJumps.finalize (.empty 64)).2.hasErrors = false := by decide +kernel
  have hw : (chainedJumps.finalize (.empty 64)).1.sections.StaysBelow chainedJumps.config (.empty 64) := by
    intro tt ht
    refine (@Sections.fitsThroughout_of_drainsWithin ⟨3, 64⟩ (.empty 64) _ 4 (by decide +kernel) (by decide +kernel)
      (by decide +kernel) ?_ chainedJumps.config tt ht).lengths
    rw [prepared_chainedJumps]
    decide +kernel
  have hlong : ((chainedJumps.finalize (.empty 64)).1.sections.relax ⟨3, 64⟩ (.empty 64)).state.sections.longBranches =
      {⟨0, 1⟩, ⟨0, 2⟩} := by
    rw [Sections.relax_of_queued (by rw [prepared_chainedJumps]; decide +kernel) (by decide +kernel),
      prepared_chainedJumps]
    decide +kernel
  obtain ⟨u, d, stats, hu, hleast⟩ :=
    relax_leaves_least chainedJumps (.empty 64) (.empty 64) built_chainedJumps ho hcount.le hd rfl hw
  obtain ⟨t, ht, rfl⟩ := relax_done hu
  refine ⟨built_chainedJumps, ho, hcount, hd, hw, by decide +kernel, _, d, stats, hu, ?_, hleast⟩
  rw [show (chainedJumps.finalize (.empty 64)).1.config = ⟨3, 64⟩ by decide +kernel] at ht
  rw [ht] at hlong
  exact hlong

end Object

end SpanLayout
