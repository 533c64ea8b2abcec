import Mathlib.Data.List.Induction
import SpanLayout.Proofs.Edits
import SpanLayout.Proofs.Relaxation.Persistence

/-!
# Images and labels of built objects

The image of every section that layout writes consists of what the operations contributed to it, and every label of the
table lies behind what was contributed to its section before it was defined.
-/

namespace SpanLayout

/-! ## The block of a section -/

namespace Object

/-- The block of section `k`, which is empty as long as there is no such section. -/
def blockOf (o : Object Empty) (k : Nat) : Block (Tail Empty) := (o.sections[k]?.map (·.block)).getD (.empty k)

theorem blockOf_of_some {o : Object Empty} {k : Nat} {s : Section Empty} (h : o.sections[k]? = some s) :
    o.blockOf k = s.block := by
  simp [blockOf, h]

theorem blockOf_addSection (o : Object Empty) (name : String) (start k : Nat) :
    (o.addSection name start).blockOf k = o.blockOf k := by
  unfold blockOf addSection
  dsimp only
  by_cases hk : k < List.length o.sections
  · rw [List.getElem?_append_left hk]
  · rw [List.getElem?_append_right (by omega), List.getElem?_eq_none (show List.length o.sections ≤ k by omega)]
    by_cases he : k - List.length o.sections = 0
    · rw [he, show List.length o.sections = k by omega]
      rfl
    · rw [List.getElem?_eq_none (by simp; omega)]

theorem blockOf_modifyBlock (o : Object Empty) (j k : Nat) (g : Block (Tail Empty) → Block (Tail Empty)) :
    (o.modifyBlock j g).blockOf k = if j = k ∧ k < List.length o.sections then g (o.blockOf k) else o.blockOf k := by
  unfold blockOf modifyBlock
  dsimp only
  rw [List.getElem?_modify]
  by_cases hj : j = k
  · by_cases hk : k < List.length o.sections
    · rw [if_pos ⟨hj, hk⟩, List.getElem?_eq_getElem hk]
      simp [hj]
    · rw [if_neg (fun h => hk h.2), List.getElem?_eq_none (by omega)]
      rfl
  · rw [if_neg (fun h => hj h.1)]
    simp [hj]

theorem sections_define {κ : Type} (o : Object κ) (name : String) (s : Symbol) :
    (o.define name s).state.sections = o.sections := by
  unfold define
  split <;> rfl

end Object

theorem Edit.blockOf_apply (o : Object Empty) (e : Edit) (k : Nat) :
    (e.apply o).blockOf k = (additions k (List.length o.sections) [e]).foldl Addition.apply (o.blockOf k) := by
  cases e with
  | addSection name start => exact o.blockOf_addSection name start k
  | add j a =>
    rw [Edit.apply, Object.blockOf_modifyBlock]
    simp only [additions]
    split <;> rfl
  | define name e pos =>
    simp only [Edit.apply, Object.defineName, Object.blockOf, Object.sections_define]
    rfl
  | label j name pos =>
    rw [Edit.apply, Object.defineLabel]
    simp only [additions]
    split
    · rename_i hs
      rw [if_neg]
      · rfl
      · rintro ⟨rfl, hk⟩
        rw [List.getElem?_eq_getElem hk] at hs
        cases hs
    · have hb : ∀ s, ((o.modifyBlock j Block.fresh).define name s).state.blockOf k =
          (o.modifyBlock j Block.fresh).blockOf k := by
        intro s
        simp only [Object.blockOf, Object.sections_define]
      rw [hb, Object.blockOf_modifyBlock]
      split <;> rfl

/-- Whether an operation adds a section. -/
def Edit.isSection : Edit → Bool
  | .addSection _ _ => true
  | _ => false

theorem Edit.additions_append (k n : Nat) (es es' : List Edit) :
    additions k n (es ++ es') = additions k n es ++
      additions k (n + es.countP isSection) es' := by
  induction es generalizing n with
  | nil => simp [additions]
  | cons e es ih =>
    cases e with
    | addSection name start =>
      rw [List.cons_append, additions, additions, ih, List.countP_cons_of_pos rfl, Nat.add_assoc, Nat.add_comm 1]
    | define name e pos =>
      rw [List.cons_append, additions, additions, ih, List.countP_cons_of_neg (by simp [isSection])]
    | add j a =>
      rw [List.cons_append, additions, additions, ih, List.countP_cons_of_neg (by simp [isSection])]
      split <;> rfl
    | label j name pos =>
      rw [List.cons_append, additions, additions, ih, List.countP_cons_of_neg (by simp [isSection])]
      split <;> rfl

theorem Edit.length_sections_apply (o : Object Empty) (e : Edit) :
    List.length (e.apply o).sections = List.length o.sections + [e].countP isSection := by
  cases e with
  | addSection name start => exact List.length_append
  | define name e pos => exact congrArg List.length (o.sections_define name _)
  | add j a => exact List.length_modify _ _ _
  | label j name pos =>
    simp only [Edit.apply, Object.defineLabel]
    split
    · rfl
    · rw [Object.sections_define]
      exact List.length_modify _ _ _

namespace Object

theorem blockOf_build (config : Config) (edits : List Edit) (k : Nat) :
    (build config edits).blockOf k = (Edit.additions k 0 edits).foldl Addition.apply (.empty k) := by
  suffices h : ∀ o : Object Empty, (edits.foldl Edit.apply o).blockOf k =
      (Edit.additions k (List.length o.sections) edits).foldl Addition.apply (o.blockOf k) from h (.empty config)
  induction edits with
  | nil => exact fun o => rfl
  | cons e es ih =>
    intro o
    have hlen := Edit.length_sections_apply o e
    have happ := Edit.additions_append k (List.length o.sections) [e] es
    rw [List.foldl_cons, ih, hlen, Edit.blockOf_apply, ← List.foldl_append, ← happ]
    rfl

theorem length_sections_build (config : Config) (edits : List Edit) :
    List.length (build config edits).sections = edits.countP Edit.isSection := by
  suffices h : ∀ o : Object Empty, List.length (edits.foldl Edit.apply o).sections =
      List.length o.sections + edits.countP Edit.isSection by simpa [build, empty] using h (.empty config)
  induction edits with
  | nil => exact fun o => rfl
  | cons e es ih =>
    intro o
    rw [List.foldl_cons, ih, Edit.length_sections_apply, Nat.add_assoc, ← List.countP_append, List.singleton_append]

theorem build_append (config : Config) (es es' : List Edit) :
    build config (es ++ es') = es'.foldl Edit.apply (build config es) := List.foldl_append

theorem build_concat (config : Config) (es : List Edit) (e : Edit) :
    build config (es ++ [e]) = e.apply (build config es) := List.foldl_concat _ _ _ _

end Object

/-! ## Symbols -/

theorem SymbolTable.mem_insertEntry {name : String} {s : Symbol} {es : List (String × Symbol)} {x : String × Symbol} :
    x ∈ insertEntry name s es ↔ x = (name, s) ∨ x ∈ es := by
  induction es with
  | nil => simp [insertEntry]
  | cons e es ih =>
    rw [insertEntry]
    split
    · simp
    · simp only [List.mem_cons, ih]
      tauto

theorem SymbolTable.mem_labels {t : SymbolTable} {name : String} {l : Location} :
    (name, l) ∈ t.labels ↔ ∃ pos, (name, Symbol.label l pos) ∈ t.entries := by
  simp only [labels, List.mem_filterMap]
  constructor
  · rintro ⟨⟨n, s⟩, hmem, hs⟩
    cases s with
    | label l' pos =>
      simp only [Option.some.injEq, Prod.mk.injEq] at hs
      obtain ⟨rfl, rfl⟩ := hs
      exact ⟨pos, hmem⟩
    | definition e pos => cases hs
  · rintro ⟨pos, hmem⟩
    exact ⟨_, hmem, rfl⟩

namespace Object

theorem define_cases (o : Object Empty) (name : String) (s : Symbol) :
    (∃ e, o.define name s = .fail o e) ∨
      (o.define name s).result = .ok () ∧
        ∀ x, x ∈ (o.define name s).state.symbols.entries ↔ x = (name, s) ∨ x ∈ o.symbols.entries := by
  unfold define
  unfold SymbolTable.define
  cases o.symbols.find? name with
  | some first => exact .inl ⟨_, rfl⟩
  | none => exact .inr ⟨rfl, fun x => SymbolTable.mem_insertEntry⟩

theorem defineLabel_cases (o : Object Empty) (k : Nat) (name : String) (pos : SourcePos) :
    ((∃ e, (o.defineLabel k name pos).result = .error e) ∧ (o.defineLabel k name pos).state.symbols = o.symbols) ∨
      (o.defineLabel k name pos).result = .ok () ∧ k < List.length o.sections ∧
        ∀ x, x ∈ (o.defineLabel k name pos).state.symbols.entries ↔
          x = (name, .label (o.blockOf k).fresh.cursor pos) ∨ x ∈ o.symbols.entries := by
  unfold defineLabel
  cases hs : o.sections[k]? with
  | none => exact .inl ⟨⟨_, rfl⟩, rfl⟩
  | some s =>
    rw [blockOf_of_some hs]
    obtain ⟨e, h⟩ | ⟨hok, h⟩ := (o.modifyBlock k Block.fresh).define_cases name (.label s.block.fresh.cursor pos)
    · exact .inl ⟨⟨e, congrArg (·.result) h⟩, by dsimp only; rw [h]; rfl⟩
    · exact .inr ⟨hok, (List.getElem?_eq_some_iff.1 hs).1, h⟩

/-- Every label of a built object was defined by an operation that succeeded. -/
theorem exists_label_of_mem (config : Config) {edits : List Edit} {name : String} {l : Location} {pos : SourcePos}
    (h : (name, Symbol.label l pos) ∈ (build config edits).symbols.entries) :
    ∃ before k after, edits = before ++ .label k name pos :: after ∧
      ((build config before).defineLabel k name pos).result = .ok () ∧
      l = ((build config before).blockOf k).fresh.cursor := by
  induction edits using List.reverseRecOn with
  | nil => cases h
  | append_singleton es e ih =>
    have old (h : (name, Symbol.label l pos) ∈ (build config es).symbols.entries) :
        ∃ before k after, es ++ [e] = before ++ .label k name pos :: after ∧
          ((build config before).defineLabel k name pos).result = .ok () ∧
          l = ((build config before).blockOf k).fresh.cursor := by
      obtain ⟨before, k, after, rfl, hrest⟩ := ih h
      exact ⟨before, k, after ++ [e], by simp, hrest⟩
    rw [build_concat] at h
    cases e with
    | addSection name start => exact old h
    | add j a => exact old h
    | define n x p =>
      obtain ⟨e, he⟩ | ⟨-, he⟩ := (build config es).define_cases n (.definition x p)
      · rw [Edit.apply, defineName, he] at h
        exact old h
      · rw [Edit.apply, defineName, he] at h
        rcases h with h | h
        · cases h
        · exact old h
    | label j n p =>
      obtain ⟨-, he⟩ | ⟨hok, -, he⟩ := (build config es).defineLabel_cases j n p
      · rw [Edit.apply, he] at h
        exact old h
      · rw [Edit.apply, he] at h
        rcases h with h | h
        · cases h
          exact ⟨es, j, [], rfl, hok, rfl⟩
        · exact old h

theorem mem_symbols_foldl {o : Object Empty} {x : String × Symbol} (h : x ∈ o.symbols.entries) (es : List Edit) :
    x ∈ (es.foldl Edit.apply o).symbols.entries := by
  induction es generalizing o with
  | nil => exact h
  | cons e es ih =>
    refine ih ?_
    cases e with
    | addSection name start => exact h
    | add j a => exact h
    | define n y p =>
      obtain ⟨e, he⟩ | ⟨-, he⟩ := o.define_cases n (.definition y p)
      · rw [Edit.apply, defineName, he]
        exact h
      · exact (he x).2 (.inr h)
    | label j n p =>
      obtain ⟨-, he⟩ | ⟨-, -, he⟩ := o.defineLabel_cases j n p
      · rw [Edit.apply, he]
        exact h
      · exact (he x).2 (.inr h)

end Object

/-! ## Layout -/

namespace Object

/-- Where section `k` is written. -/
def site {κ : Type} (o : Object κ) (k : Nat) : Site := ⟨o.sections.base k, o.sections.address?⟩

/-- What operations have contributed to section `k` of the object that was laid out. -/
def contributions (final : Object Empty) (k : Nat) (edits : List Edit) : Option (List UInt8) :=
  SpanLayout.contributions final.symbols (final.site k) (final.sections.fragmentsOf k) (.empty k)
    (Edit.additions k 0 edits)

theorem views_empty (symbols : SymbolTable) (site : Site) (laid : List (Fragment (Tail Empty))) (k : Nat) :
    views symbols site laid 0 (Block.empty k : Block (Tail Empty)).fragments = some [] := rfl

section

variable {config : Config} {edits : List Edit} {images : List Image}

theorem symbols_layout {o : Object Empty} (h : o.layout.result = .ok images) : o.layout.object.symbols = o.symbols := by
  obtain ⟨t, stats, -, -, hobject, -⟩ := layout_ok h
  rw [hobject]

/-- Section `k` of an object that has been laid out, with its image. -/
structure Written {κ : Type} [Directive κ] (o : Object κ) (k : Nat) (s : Section κ) (image : Image) : Prop where
  name : image.name = s.name
  start : image.start = s.start
  emitted : emitFragments (o.layout.object.site k) 0 s.block.fragments = .ok ⟨image.bytes, image.relocs⟩
  exact : ExactFragments s.block.fragments
  placed : s.block.fragments = Fragment.placeFrom 0 s.block.fragments

theorem written_of_layout {κ : Type} [Directive κ] [LawfulDirective κ] [CandidDirective κ] {o : Object κ}
    (h : o.layout.result = .ok images) {k : Nat} {s : Section κ} (hs : o.layout.object.sections[k]? = some s) :
    ∃ image, images[k]? = some image ∧ o.Written k s image := by
  obtain ⟨t, stats, -, hrelax, hobject, himages⟩ := layout_ok h
  have hsite : o.layout.object.site k = ⟨s.start, o.layout.object.sections.address?⟩ := by
    simp [site, Sections.base, hs]
  have hst : t.sections[k]? = some s := by
    rw [← hs, hobject]
  obtain ⟨hplaced, hexact⟩ := Sections.relax_writable hrelax (List.mem_of_getElem? hst)
  obtain ⟨hnone, -⟩ | ⟨s₀, image, hs₀, himage, hok⟩ := forall₂_getElem? himages k
  · cases hst.symm.trans hnone
  cases hst.symm.trans hs₀
  obtain ⟨e, he, hok⟩ := Except.bind_eq_ok hok
  cases hok
  exact ⟨_, himage, rfl, rfl, by rw [hsite]; exact he, hexact, hplaced⟩

theorem Written.length_bytes {κ : Type} [Directive κ] [LawfulDirective κ] {o : Object κ} {k : Nat} {s : Section κ}
    {image : Image} (h : o.Written k s image) : image.bytes.length = s.size := by
  rw [Section.size_of_placed h.placed]
  exact length_emitFragments _ _ _ h.exact h.emitted

/-- A section that has been laid out, with the fragments it was built from. -/
structure Settled (o : Object Empty) (k : Nat) (s : Section Empty) (image : Image) : Prop extends
    o.Written k s image where
  settles : List.Forall₂ (fun f g => ∃ f', f.FinalizesTo o.symbols none f' ∧ f'.Settles g)
    (o.blockOf k).fresh.fragments s.block.fragments

theorem settled_of_layout {o : Object Empty} (h : o.layout.result = .ok images) {k : Nat} {s : Section Empty}
    (hs : o.layout.object.sections[k]? = some s) : ∃ image, images[k]? = some image ∧ o.Settled k s image := by
  obtain ⟨image, himage, hwritten⟩ := written_of_layout h hs
  obtain ⟨ss, -, hfin, halike, -⟩ := layout_settles h
  obtain ⟨-, hnone⟩ | ⟨s₁, s₂, hs₁, hs₂, -, -, hsettles⟩ := forall₂_getElem? halike k
  · rw [hs] at hnone
    cases hnone
  cases hs.symm.trans hs₂
  obtain ⟨-, hnone⟩ | ⟨s₀, s₃, hs₀, hs₃, hfinalizes⟩ := forall₂_getElem? hfin k
  · rw [hs₁] at hnone
    cases hnone
  cases hs₁.symm.trans hs₃
  have hblock : (o.blockOf k).fresh.fragments = s₀.block.fragments := by
    rw [Sections.fresh, List.getElem?_map] at hs₀
    obtain ⟨s₄, hs₄, rfl⟩ := Option.map_eq_some_iff.1 hs₀
    rw [blockOf_of_some hs₄]
  refine ⟨image, himage, hwritten, ?_⟩
  rw [hblock]
  exact forall₂_comp hfinalizes hsettles

theorem length_sections_layout {o : Object Empty} (h : o.layout.result = .ok images) :
    List.length o.layout.object.sections = List.length o.sections ∧ images.length = List.length o.sections := by
  obtain ⟨t, stats, -, -, hobject, himages⟩ := layout_ok h
  obtain ⟨ss, -, hfin, halike, -⟩ := layout_settles h
  have hlen : List.length o.layout.object.sections = List.length o.sections := by
    rw [← halike.length_eq, ← hfin.length_eq, Sections.fresh, List.length_map]
  refine ⟨hlen, ?_⟩
  rw [← himages.length_eq, ← hlen, hobject]

namespace Settled

variable {o : Object Empty} {k : Nat} {s : Section Empty} {image : Image}

theorem slice (h : o.Settled k s image) {f : Fragment (Tail Empty)} (hf : f ∈ s.block.fragments) :
    bytes? (f.emit (o.layout.object.site k) f.offset) =
      some ((image.bytes.drop f.offset).take (f.nextOffset - f.offset)) := by
  obtain ⟨i, hi⟩ := List.mem_iff_getElem?.1 hf
  obtain ⟨before, own, after, -, hbefore, hown, hlen, he⟩ := emitFragments_split h.placed h.exact h.emitted hi
  have hbytes : image.bytes = before.bytes ++ (own.bytes ++ after.bytes) := congrArg Emission.bytes he
  have hnext : f.nextOffset - f.offset = own.bytes.length := by
    rw [Fragment.nextOffset, Nat.add_sub_cancel_left]
    exact hlen.symm
  rw [hown, bytes?_ok, hbytes, hnext, ← hbefore]
  simp [Emission.length]

end Settled

theorem fragmentsOf_of_some {ss : Sections Empty} {k : Nat} {s : Section Empty} (h : ss[k]? = some s) :
    ss.fragmentsOf k = s.block.fragments := by
  simp [Sections.fragmentsOf, h]

theorem contributions_eq_views (final : Object Empty) (config : Config) (k : Nat) (edits : List Edit) :
    final.contributions k edits = views final.symbols (final.site k) (final.sections.fragmentsOf k) 0
      ((build config edits).blockOf k).fresh.fragments := by
  have h := Addition.adds_foldl final.symbols (final.site k) (final.sections.fragmentsOf k) (Block.shaped_empty k)
    (Edit.additions k 0 edits)
  have hfresh := Addition.adds_fresh final.symbols (final.site k) (final.sections.fragmentsOf k) h.shaped
  rw [blockOf_build, hfresh.views, h.views, joined_nil, views_empty, nil_joined]
  rfl

theorem exists_contributions {final : Object Empty} {k : Nat} {es es' : List Edit} {text : List UInt8}
    (h : final.contributions k (es ++ es') = some text) :
    ∃ text', final.contributions k es = some text' ∧ text'.length ≤ text.length := by
  unfold contributions at h ⊢
  rw [Edit.additions_append, contributions_append] at h
  obtain ⟨text', rest, htext, -, rfl⟩ := joined_eq_some h
  exact ⟨text', htext, by simp⟩

theorem shaped_blockOf (config : Config) (k : Nat) (edits : List Edit) : ((build config edits).blockOf k).Shaped k := by
  rw [blockOf_build]
  exact (Addition.adds_foldl .empty ⟨0, fun _ => none⟩ [] (Block.shaped_empty k) _).shaped

/-- The image of a section consists of what has been contributed to it. -/
theorem contributions_of_settled (hlayout : (build config edits).layout.result = .ok images) {k : Nat}
    {s : Section Empty} {image : Image} (hs : (build config edits).layout.object.sections[k]? = some s)
    (h : (build config edits).Settled k s image) :
    (build config edits).layout.object.contributions k edits = some image.bytes := by
  rw [contributions_eq_views _ config, fragmentsOf_of_some hs, symbols_layout hlayout, views_of_settles h.settles
    (shaped_blockOf config k edits).fresh.1.bare (by simp) h.placed, h.emitted]
  rfl

theorem length_views_of_settled {o : Object Empty} {k : Nat} {s : Section Empty} {image : Image}
    (h : o.Settled k s image)
    (hshaped : (o.blockOf k).fresh.Shaped k) {init rest : List (Fragment (Tail Empty))} {f : Fragment (Tail Empty)}
    (hf : (o.blockOf k).fresh.fragments = init ++ f :: rest) :
    ∃ (g : Fragment (Tail Empty)) (text : List UInt8), s.block.fragments[init.length]? = some g ∧
      views o.symbols (o.layout.object.site k) s.block.fragments 0 init = some text ∧ text.length = g.offset := by
  obtain ⟨hnone, -⟩ | ⟨-, g, -, hg, -⟩ := forall₂_getElem? h.settles init.length
  · rw [hf] at hnone
    simp at hnone
  obtain ⟨before, own, after, hbefore, hlen, -⟩ := emitFragments_split h.placed h.exact h.emitted hg
  have hinit := List.forall₂_take init.length h.settles
  rw [hf, List.take_left] at hinit
  refine ⟨g, before.bytes, hg, ?_, hlen⟩
  have hviews : views o.symbols (o.layout.object.site k) s.block.fragments 0 init =
      bytes? (emitFragments (o.layout.object.site k) 0 (s.block.fragments.take init.length)) := by
    refine views_of_settles hinit (fun f' hf' => hshaped.bare f' (by rw [hf]; exact List.mem_append_left _ hf')) ?_ ?_
    · intro j g hj
      rw [Nat.zero_add]
      rw [List.getElem?_take] at hj
      split at hj
      · exact hj
      · cases hj
    · rw [← Fragment.take_placeFrom, ← h.placed]
  rw [hviews, hbefore]
  rfl

theorem exists_rest_of_label {before after : List Edit} {k : Nat} {name : String} {pos : SourcePos}
    (hedits : edits = before ++ .label k name pos :: after) (hk : k < before.countP Edit.isSection)
    {init : List (Fragment (Tail Empty))} {f : Fragment (Tail Empty)}
    (hf : ((build config before).blockOf k).fresh.fragments = init ++ [f]) :
    ∃ f' rest, ((build config edits).blockOf k).fresh.fragments = init ++ f' :: rest := by
  have hblock : (build config edits).blockOf k = (Edit.additions k (before.countP Edit.isSection) after).foldl
      Addition.apply ((build config before).blockOf k).fresh := by
    rw [blockOf_build, blockOf_build, hedits, Edit.additions_append, Nat.zero_add, Edit.additions, if_pos ⟨rfl, hk⟩,
      List.foldl_append]
    rfl
  have hlater := Addition.adds_foldl .empty ⟨0, fun _ => none⟩ [] (shaped_blockOf config k before).fresh.1
    (Edit.additions k (before.countP Edit.isSection) after)
  rw [← hblock] at hlater
  obtain ⟨-, -, init', f', hf', -⟩ := hlater.shaped.fresh
  have hend := hlater.before.trans (Addition.adds_fresh .empty ⟨0, fun _ => none⟩ [] hlater.shaped).before
  rw [hf, hf', List.dropLast_concat, List.dropLast_concat] at hend
  obtain ⟨rest, rfl⟩ := hend
  rw [hf', List.append_assoc]
  cases rest with
  | nil => exact ⟨f', [], rfl⟩
  | cons x rest => exact ⟨x, rest ++ [f'], rfl⟩

/-- Where a label lies that was defined after some of the operations. -/
theorem address?_label (hlayout : (build config edits).layout.result = .ok images) {before after : List Edit} {k : Nat}
    {name : String} {pos : SourcePos} (hedits : edits = before ++ .label k name pos :: after)
    (hok : ((build config before).defineLabel k name pos).result = .ok ()) :
    let final := (build config edits).layout.object
    ∃ s text, final.sections[k]? = some s ∧ final.contributions k before = some text ∧ text.length ≤ s.size ∧
      final.sections.address? ((build config before).blockOf k).fresh.cursor = some (s.start + text.length) := by
  intro final
  have hk : k < before.countP Edit.isSection := by
    obtain ⟨⟨e, he⟩, -⟩ | ⟨-, hk, -⟩ := (build config before).defineLabel_cases k name pos
    · rw [hok] at he
      cases he
    · rwa [length_sections_build] at hk
  obtain ⟨s, hs⟩ : ∃ s, final.sections[k]? = some s := by
    refine ⟨_, List.getElem?_eq_getElem ?_⟩
    rw [(length_sections_layout hlayout).1, length_sections_build, hedits, List.countP_append]
    omega
  obtain ⟨image, -, hsettled⟩ := settled_of_layout hlayout hs
  obtain ⟨hshaped, -, init, f, hf, ht⟩ := (shaped_blockOf config k before).fresh
  obtain ⟨f', rest, hf'⟩ := exists_rest_of_label hedits hk hf
  obtain ⟨g, old, hg, hold, hlen⟩ := length_views_of_settled hsettled (shaped_blockOf config k edits).fresh.1 hf'
  -- What was contributed before the label is the fragments before it and the bytes of its own fragment so far.
  obtain ⟨text, htext, hle⟩ : ∃ text, final.contributions k before = some text ∧ text.length ≤ image.bytes.length := by
    have hall : final.contributions k (before ++ .label k name pos :: after) = some image.bytes := by
      rw [← hedits]
      exact contributions_of_settled hlayout hs hsettled
    exact exists_contributions hall
  refine ⟨s, text, hs, htext, hsettled.length_bytes ▸ hle, ?_⟩
  have hviews := htext
  rw [contributions_eq_views _ config, hf, fragmentsOf_of_some hs, views_concat, Nat.zero_add, symbols_layout hlayout,
    hold, Fragment.view, ht] at hviews
  obtain ⟨x, own, hx, hown, rfl⟩ := joined_eq_some hviews
  cases hx
  dsimp only at hown
  have hcursor : ((build config before).blockOf k).fresh.cursor = ⟨⟨k, init.length⟩, f.fixedLen⟩ := by
    rw [Block.cursor, hf, List.getLast?_concat]
    dsimp only
    rw [hshaped.refs init.length f (by rw [hf, List.getElem?_concat_length])]
  rw [hcursor, List.length_append, hlen, Fragment.length_text? _ _ hown]
  simp [Sections.address?, Sections.offset?, Sections.fragment?, hs, hg]

theorem mem_labelTable {o : Object Empty} {name : String} {addr : Nat} :
    (name, addr) ∈ o.labelTable ↔
      ∃ l pos, (name, Symbol.label l pos) ∈ o.symbols.entries ∧ o.address? l = some addr := by
  simp only [labelTable, List.mem_filterMap, Prod.exists, Option.map_eq_some_iff, Prod.mk.injEq]
  constructor
  · rintro ⟨n, l, hl, a, ha, rfl, rfl⟩
    obtain ⟨pos, hpos⟩ := SymbolTable.mem_labels.1 hl
    exact ⟨l, pos, hpos, ha⟩
  · rintro ⟨l, pos, hpos, ha⟩
    exact ⟨name, l, SymbolTable.mem_labels.2 ⟨pos, hpos⟩, addr, ha, rfl, rfl⟩

theorem mem_symbols_of_label {before after : List Edit} {k : Nat} {name : String} {pos : SourcePos}
    (hedits : edits = before ++ .label k name pos :: after)
    (hok : ((build config before).defineLabel k name pos).result = .ok ()) :
    (name, Symbol.label ((build config before).blockOf k).fresh.cursor pos) ∈ (build config edits).symbols.entries := by
  rw [hedits, build_append, List.foldl_cons]
  refine mem_symbols_foldl ?_ after
  obtain ⟨⟨e, he⟩, -⟩ | ⟨-, -, hmem⟩ := (build config before).defineLabel_cases k name pos
  · rw [hok] at he
    cases he
  · exact (hmem _).2 (.inl rfl)

/-- **Images and labels.** If layout succeeds, there is one image for each section, of the size of the section, in which
each fragment's part is what the fragment emits where it lies; the image consists of what the operations contributed to
the section, in their order. As long as the sections end at addresses that are words, the table of labels has those that
could be defined, each behind what was contributed to its section before. -/
theorem layout_spells_edits (config : Config) (edits : List Edit) (images : List Image)
    (h : (build config edits).layout.result = .ok images)
    (hend : ∀ s ∈ (build config edits).layout.object.sections, s.start + s.size < 2 ^ 64) :
    let final := (build config edits).layout.object
    images.length = List.length final.sections ∧
    (∀ (k : Nat) (s : Section Empty), final.sections[k]? = some s →
      ∃ image, images[k]? = some image ∧ image.name = s.name ∧ image.start = s.start ∧ image.bytes.length = s.size ∧
        (∀ f ∈ s.block.fragments, bytes? (f.emit (final.site k) f.offset) =
          some ((image.bytes.drop f.offset).take (f.nextOffset - f.offset))) ∧
        final.contributions k edits = some image.bytes) ∧
    ∀ (name : String) (addr : Nat), (name, addr) ∈ final.labelTable ↔
      ∃ before k pos after s text, edits = before ++ .label k name pos :: after ∧
        ((build config before).defineLabel k name pos).result = .ok () ∧ final.sections[k]? = some s ∧
        final.contributions k before = some text ∧ addr = s.start + text.length := by
  intro final
  refine ⟨?_, ?_, ?_⟩
  · rw [(length_sections_layout h).2, (length_sections_layout h).1]
  · intro k s hs
    obtain ⟨image, himage, hsettled⟩ := settled_of_layout h hs
    exact ⟨image, himage, hsettled.name, hsettled.start, hsettled.length_bytes, fun f hf => hsettled.slice hf,
      contributions_of_settled h hs hsettled⟩
  · intro name addr
    rw [mem_labelTable, symbols_layout h]
    constructor
    · rintro ⟨l, pos, hl, haddr⟩
      obtain ⟨before, k, after, hedits, hok, rfl⟩ := exists_label_of_mem config hl
      obtain ⟨s, text, hs, htext, hle, haddr'⟩ := address?_label h hedits hok
      have hs' := hend s (List.mem_of_getElem? hs)
      rw [address?_of_lt haddr' (by omega), Option.some.injEq] at haddr
      exact ⟨before, k, pos, after, s, text, hedits, hok, hs, htext, haddr.symm⟩
    · rintro ⟨before, k, pos, after, s, text, hedits, hok, hs, htext, rfl⟩
      obtain ⟨s', text', hs', htext', hle, haddr⟩ := address?_label h hedits hok
      cases hs.symm.trans hs'
      cases htext.symm.trans htext'
      have hs' := hend s (List.mem_of_getElem? hs)
      exact ⟨_, pos, mem_symbols_of_label hedits hok, address?_of_lt haddr (by omega)⟩

end

/-- Bytes and gaps, which are merged only if there is no label between them, a jump back, and a label that cannot be
defined because there is one of that name. -/
def labelledGaps : List Edit :=
  [.addSection "text" 256, .add 0 (.bytes [1, 2]), .label 0 "first" .unknown, .add 0 (.gap 2 .unknown),
    .add 0 (.gap 3 .unknown), .label 0 "second" .unknown, .label 0 "first" .unknown, .add 0 (.gap 1 .unknown),
    .add 0 (.tail (.branch (.jump (.sym "first"))) .unknown), .add 0 (.value 16 (.sym "last") .unknown),
    .label 0 "last" .unknown, .add 0 (.bytes [7])]

theorem layout_spells_labelledGaps :
    let final := (build .standard labelledGaps).layout.object
    let text : List UInt8 := [1, 2, 0, 0, 0, 0, 0, 0, 0xEB, 0xF8, 0x0C, 0x01, 7]
    (build .standard labelledGaps).layout.result.toOption = some [⟨"text", 256, text, []⟩] ∧
      final.contributions 0 labelledGaps = some text ∧ ("last", 256 + 12) ∈ final.labelTable ∧
      ∃ before k text, final.contributions k before = some text ∧ text.length = 12 := by
  intro final text
  have hresult : (build .standard labelledGaps).layout.result.toOption = some [⟨"text", 256, text, []⟩] := by
    decide +kernel
  have hmem : ("last", 256 + 12) ∈ final.labelTable := by decide +kernel
  have hstart : (final.sections.map (·.start)) = [256] := by decide +kernel
  have hend : ∀ s ∈ final.sections, s.start + s.size < 2 ^ 64 := by decide +kernel
  obtain ⟨hlen, himages, hlabels⟩ := layout_spells_edits .standard labelledGaps _ (Attempt.ok_of_toOption hresult) hend
  refine ⟨hresult, ?_, hmem, ?_⟩
  · obtain ⟨image, himage, -, -, -, -, hc⟩ := himages 0 _ (List.getElem?_eq_getElem (by rw [← hlen]; exact Nat.one_pos))
    cases himage
    exact hc
  · obtain ⟨before, k, -, -, s, text, -, -, hs, htext, haddr⟩ := (hlabels "last" (256 + 12)).1 hmem
    have hbase : s.start = 256 := by
      have : s.start ∈ final.sections.map (·.start) := List.mem_map_of_mem (List.mem_of_getElem? hs)
      rwa [hstart, List.mem_singleton] at this
    exact ⟨before, k, text, htext, by omega⟩

end Object

end SpanLayout
