import SpanLayout.Proofs.Reshape

/-!
# The parts of a fragment

What a repetition emits comes from the fragments of its body, what any other fragment emits comes from itself. As long
as no repetition stands in another, these parts change only by being expanded or moved, and their lengths stay those of
the forms they have.
-/

namespace SpanLayout

/-- The fragments of the body of a repetition, or the fragment itself. -/
def Fragment.parts {κ : Type} (f : Fragment (Tail κ)) : List (Fragment (Tail κ)) :=
  match f.tail with
  | some (.times _ body _) => body.fragments
  | _ => [f]

namespace Fragment

theorem parts_of_times {κ : Type} {f : Fragment (Tail κ)} {count : Expr} {body : Block (Tail κ)} {reps : Nat}
    (h : f.tail = some (.times count body reps)) : f.parts = body.fragments := by
  rw [parts, h]

theorem parts_of_plain {κ : Type} {f : Fragment (Tail κ)} (h : f.tail.all Tail.plain = true) : f.parts = [f] := by
  unfold parts
  split
  · rename_i ht
    rw [ht] at h
    exact nomatch h
  · rfl

theorem flat_iff (f : Fragment (Tail Empty)) :
    f.flat = true ↔ f.tail.all Tail.plain = true ∨
      ∃ count body reps, f.tail = some (.times count body reps) ∧
      ∀ g ∈ body.fragments, g.tail.all Tail.plain = true := by
  unfold flat
  cases f.tail with
  | none => simp
  | some t => cases t <;> simp [Tail.flat, Tail.plain]

theorem plain_of_mem_parts {f g : Fragment (Tail Empty)} (h : f.flat = true) (hg : g ∈ f.parts) :
    g.tail.all Tail.plain = true := by
  rcases (flat_iff f).1 h with hp | ⟨count, body, reps, ht, hbody⟩
  · rw [parts_of_plain hp, List.mem_singleton] at hg
    rwa [hg]
  · rw [parts_of_times ht] at hg
    exact hbody g hg

/-! ## Expanding -/

theorem expand_times {f : Fragment (Tail Empty)} {count : Expr} {body : Block (Tail Empty)} {reps : Nat}
    (h : f.tail = some (.times count body reps)) (id old new : Int) :
    (∃ e, f.expand id old new = .fail f e) ∨
    (∃ n x, f.expand id old new = .done { f with tail := some (.times count body n), tailLen := x.len } x ∧
      x.len = sumLen body.fragments * n) ∨
    ∃ (slot : Nat) (id' : Int) (g : Fragment (Tail Empty)), body.fragments[slot]? = some g ∧
      let fragments := body.fragments.set slot (g.expand id' old new).state
      ((∃ e e', (g.expand id' old new).result = .error e' ∧
        f.expand id old new = .fail { f with tail := some (.times count { body with fragments } reps) } e) ∨
      ∃ x, f.expand id old new =
        .done { f with
          tail := some (.times count { body with fragments := placeFrom 0 fragments } reps)
          tailLen := x.len } x ∧ x.len = sumLen fragments * reps) := by
  rw [expand_of_some h]
  rcases Tail.expand_times_cases f.info id old new count body reps with
    ⟨e, he⟩ | ⟨n, -, he⟩ | ⟨slot, id', g, -, hg, ⟨e, hge, he⟩ | ⟨x, -, he⟩⟩ <;> rw [he]
  · refine .inl ⟨e, ?_⟩
    show Attempt.fail { f with tail := some (Tail.times count body reps) } e = _
    rw [← h]
  · exact .inr (.inl ⟨n, _, rfl, rfl⟩)
  · exact .inr (.inr ⟨slot, id', g, hg, .inl ⟨e, e, hge, rfl⟩⟩)
  · exact .inr (.inr ⟨slot, id', g, hg, .inr ⟨_, rfl, rfl⟩⟩)

theorem parts_expand {f g : Fragment (Tail Empty)} (hf : f.flat = true) {id old new : Int}
    (hg : g ∈ (f.expand id old new).state.parts) :
    ∃ p ∈ f.parts, ∃ offset, g = { p with offset } ∨ ∃ id', g = { (p.expand id' old new).state with offset } := by
  rcases (flat_iff f).1 hf with hp | ⟨count, body, reps, ht, hbody⟩
  · rw [parts_of_plain ((plain_expand id old new f).trans hp), List.mem_singleton] at hg
    rw [parts_of_plain hp]
    exact ⟨f, List.mem_singleton.2 rfl, g.offset, .inr ⟨id, by rw [hg]⟩⟩
  · rw [parts_of_times ht]
    rcases expand_times ht id old new
      with ⟨e, he⟩ | ⟨n, x, he, -⟩ | ⟨slot, id', p, hslot, ⟨e, -, -, he⟩ | ⟨x, he, -⟩⟩ <;>
      rw [he] at hg
    · rw [Attempt.fail, parts_of_times ht] at hg
      exact ⟨g, hg, g.offset, .inl rfl⟩
    · rw [Attempt.done, parts_of_times rfl] at hg
      exact ⟨g, hg, g.offset, .inl rfl⟩
    · rw [Attempt.fail, parts_of_times rfl] at hg
      rcases List.mem_or_eq_of_mem_set hg with hg | rfl
      · exact ⟨g, hg, g.offset, .inl rfl⟩
      · exact ⟨p, List.mem_of_getElem? hslot, _, .inr ⟨id', rfl⟩⟩
    · rw [Attempt.done, parts_of_times rfl] at hg
      obtain ⟨j, hj⟩ := List.mem_iff_getElem?.1 hg
      rw [getElem?_placeFrom] at hj
      obtain ⟨p', hp', rfl⟩ := Option.map_eq_some_iff.1 hj
      rcases List.mem_or_eq_of_mem_set (List.mem_of_getElem? hp') with hmem | rfl
      · exact ⟨p', hmem, _, .inl rfl⟩
      · exact ⟨p, List.mem_of_getElem? hslot, _, .inr ⟨id', rfl⟩⟩

/-- What expanding and moving leave true of a fragment that is no repetition. -/
structure Kept (P : Fragment (Tail Empty) → Prop) : Prop where
  expand : ∀ (f : Fragment (Tail Empty)) (id old new : Int), f.tail.all Tail.plain = true → P f →
    P (f.expand id old new).state
  relaid : ∀ f g : Fragment (Tail Empty), Relaid f g → P f → P g

theorem relaid_offset (f : Fragment (Tail Empty)) (offset : Nat) : Relaid f { f with offset } :=
  ⟨offset, f.tailLen, rfl, fun _ => rfl⟩

theorem Reshaped.parts {P : Fragment (Tail Empty) → Prop} (hP : Kept P) {f g : Fragment (Tail Empty)}
    (h : Reshaped f g) (hflat : f.flat = true) (hf : ∀ p ∈ f.parts, P p) : ∀ p ∈ g.parts, P p := by
  induction h with
  | refl => exact hf
  | expand h id old new ih =>
    intro p hp
    obtain ⟨p', hp', offset, rfl | ⟨id', rfl⟩⟩ := parts_expand (h.flat.trans hflat) hp
    · exact hP.relaid _ _ (relaid_offset ..) (ih p' hp')
    · exact hP.relaid _ _ (relaid_offset ..)
        (hP.expand _ _ _ _ (plain_of_mem_parts (h.flat.trans hflat) hp') (ih p' hp'))
  | relaid h hr ih =>
    rename_i g g'
    rcases (flat_iff g).1 (h.flat.trans hflat) with hp | ⟨count, body, reps, ht, -⟩
    · rw [parts_of_plain hp] at ih
      rw [parts_of_plain (by rwa [hr.tail])]
      intro p hp
      rw [List.mem_singleton.1 hp]
      exact hP.relaid _ _ hr (ih g (List.mem_singleton.2 rfl))
    · rw [parts_of_times ht] at ih
      rwa [parts_of_times (hr.tail.trans ht)]

/-! ## Measuring -/

theorem mem_measureBody {owner : FragmentInfo} {slot offset : Nat} {fs : List (Fragment (Tail Empty))}
    (hok : (measureBody owner slot offset fs).result = .ok ()) {g : Fragment (Tail Empty)}
    (hg : g ∈ (measureBody owner slot offset fs).state.1) :
    ∃ f ∈ fs, ∃ offset requests, f.measureAt offset = .done (g, requests) () := by
  induction fs generalizing slot offset with
  | nil =>
    rw [measureBody] at hg
    cases hg
  | cons f fs ih =>
    rw [measureBody] at hok hg
    split at hg
    · rename_i heq
      rw [heq] at hok
      cases hok
    · rename_i f' spans _ heq
      rw [heq] at hok
      rcases List.mem_cons.1 hg with rfl | hg
      · exact ⟨f, List.mem_cons_self, offset, spans, heq⟩
      · obtain ⟨p, hp, hm⟩ := ih hok hg
        exact ⟨p, List.mem_cons_of_mem f hp, hm⟩

theorem placed_measureBody {owner : FragmentInfo} {slot offset : Nat} {fs : List (Fragment (Tail Empty))}
    (h : (measureBody owner slot offset fs).result = .ok ()) :
    (measureBody owner slot offset fs).state.1 = placeFrom offset (measureBody owner slot offset fs).state.1 := by
  induction fs generalizing slot offset with
  | nil =>
    rw [measureBody]
    rfl
  | cons f fs ih =>
    have hoffset := offset_measureAt offset f
    rw [measureBody] at h ⊢
    cases hm : f.measureAt offset with
    | mk state result =>
      obtain ⟨g, spans⟩ := state
      rw [hm] at h hoffset
      cases result with
      | error e => cases h
      | ok _ =>
        have hoffset : g.offset = offset := hoffset
        subst hoffset
        dsimp only [Attempt.mapState] at h ⊢
        rw [placeFrom]
        exact congrArg (g :: ·) (ih h)

theorem measureAt_times {f g : Fragment (Tail Empty)} {requests : List SpanRequest} {offset : Nat} {count : Expr}
    {body : Block (Tail Empty)} {reps : Nat} (ht : f.tail = some (.times count body reps))
    (h : f.measureAt offset = .done (g, requests) ()) :
    ∃ fragments n, g.tail = some (.times count { body with fragments } n) ∧ g.tailLen = sumLen fragments * n ∧
      fragments = placeFrom 0 fragments ∧
      (∀ v, count.const? = some v → Repetition.reps { f.info with offset } v = .ok n) ∧
      ∀ p ∈ fragments, ∃ p' ∈ body.fragments, ∃ offset requests, p'.measureAt offset = .done (p, requests) () := by
  rw [measureAt_of_some ht, Tail.measure] at h
  cases hb : measureBody { f.info with offset } 0 0 body.fragments with
  | mk state result =>
    obtain ⟨fragments, spans⟩ := state
    rw [hb] at h
    cases result with
    | error e => exact nomatch h
    | ok u =>
      have hok : (measureBody { f.info with offset } 0 0 body.fragments).result = .ok () := by rw [hb]
      have hparts : ∀ p ∈ fragments, ∃ p' ∈ body.fragments, ∃ offset requests,
          p'.measureAt offset = .done (p, requests) () := by
        intro p hp
        exact mem_measureBody hok (by rw [hb]; exact hp)
      have hplaced := placed_measureBody hok
      rw [hb] at hplaced
      dsimp only at h
      cases hc : count.const? with
      | none =>
        rw [hc] at h
        obtain ⟨rfl, -⟩ := Prod.mk.inj (congrArg Attempt.state h)
        exact ⟨fragments, 0, rfl, rfl, hplaced, by simp, hparts⟩
      | some v =>
        rw [hc] at h
        dsimp only at h
        cases hr : Repetition.reps { f.info with offset } v with
        | error e =>
          rw [hr] at h
          exact nomatch h
        | ok n =>
          rw [hr] at h
          obtain ⟨rfl, -⟩ := Prod.mk.inj (congrArg Attempt.state h)
          refine ⟨fragments, n, rfl, rfl, hplaced, fun w hw => ?_, hparts⟩
          obtain rfl := Option.some.inj hw
          exact hr

theorem parts_measureAt {f g : Fragment (Tail Empty)} (hf : f.flat = true) {offset : Nat} {requests : List SpanRequest}
    (h : f.measureAt offset = .done (g, requests) ()) {p : Fragment (Tail Empty)} (hp : p ∈ g.parts) :
    ∃ p' ∈ f.parts, ∃ offset requests, p'.measureAt offset = .done (p, requests) () := by
  rcases (flat_iff f).1 hf with hplain | ⟨count, body, reps, ht, -⟩
  · have hg : g.tail.all Tail.plain = true := by
      have hsame := plain_measureAt offset f
      rw [h] at hsame
      exact hsame.trans hplain
    rw [parts_of_plain hg, List.mem_singleton] at hp
    rw [parts_of_plain hplain]
    exact ⟨f, List.mem_singleton.2 rfl, offset, requests, hp ▸ h⟩
  · obtain ⟨fragments, n, hg, -, -, -, hparts⟩ := measureAt_times ht h
    rw [parts_of_times hg] at hp
    rw [parts_of_times ht]
    exact hparts p hp

end Fragment

/-! ## Lengths -/

/-- Whether `len` is the length of the form that a tail has. The length of one that follows its offset is left open. -/
def Tail.Fits (len : Nat) : Tail Empty → Prop
  | .gap g => len = g.size
  | .leb128 f => len = f.len ∧ 1 ≤ f.len ∧ f.len ≤ Leb128.maxLen ∧
      ∀ v, f.value.const? = some v → Leb128.size f.isSigned v ≤ f.len
  | .branch b => len = b.encoding.len
  | .times _ body reps => len = Fragment.sumLen body.fragments * reps
  | .align _ | .origin _ | .other _ => True

def Fragment.Fits (f : Fragment (Tail Empty)) : Prop := f.tail.elim (f.tailLen = 0) (·.Fits f.tailLen)

theorem Fragment.fits_of_some {f : Fragment (Tail Empty)} {t : Tail Empty} (h : f.tail = some t) :
    f.Fits ↔ t.Fits f.tailLen := by
  rw [Fits, h]
  rfl

theorem Tail.fits_of_setsOffset {t : Tail Empty} (h : t.setsOffset = true) (len : Nat) : t.Fits len := by
  cases t with
  | align _ | origin _ => trivial
  | other d => exact nomatch d
  | _ => exact nomatch h

theorem Tail.expand_plain (info : FragmentInfo) (id old new : Int) {t : Tail Empty} (hp : t.plain = true) {len : Nat}
    (h : t.Fits len) :
    (∃ t' x, t.expand info id old new = .done t' x ∧ t'.Fits x.len) ∨ ∃ e, t.expand info id old new = .fail t e := by
  cases t with
  | times _ _ _ => exact nomatch hp
  | other d => exact nomatch d
  | gap g =>
    rw [Tail.expand]
    exact .inr ⟨_, rfl⟩
  | align a =>
    rw [Tail.expand]
    exact .inl ⟨_, _, rfl, trivial⟩
  | branch b =>
    rw [Tail.expand]
    exact .inl ⟨_, _, rfl, rfl⟩
  | origin o =>
    rw [Tail.expand]
    dsimp only [Directive.expand, Attempt.mapState]
    cases o.padding info new with
    | error e => exact .inr ⟨e, rfl⟩
    | ok n => exact .inl ⟨_, _, rfl, trivial⟩
  | leb128 f =>
    obtain ⟨-, hpos, hmax, hconst⟩ := h
    rw [Tail.expand]
    dsimp only [Directive.expand, Leb128.Field.expand]
    split
    · exact .inr ⟨_, rfl⟩
    · refine .inl ⟨_, _, rfl, rfl, ?_, ?_, fun v hv => ?_⟩ <;> dsimp only [Attempt.done] <;>
        unfold Leb128.maxLen at hmax ⊢
      · omega
      · omega
      · have hv := hconst v hv
        omega

theorem Expr.const_word {e : Expr} {v : Int} (h : e.const? = some v) : -wordBound ≤ v ∧ v < wordBound := by
  cases e with
  | const c =>
    obtain rfl := Option.some.inj h
    exact ⟨c.le_toInt, c.toInt_lt⟩
  | _ => exact nomatch h

open SpanLayout.Expr in
theorem Tail.measure_fits {info : FragmentInfo} {t : Tail Empty} (hp : t.plain = true) (hb : t.ownModest = true)
    {len : Nat} (h : (t.measure info).result = .ok len) : (t.measure info).state.1.Fits len := by
  cases t with
  | times _ _ _ => exact nomatch hp
  | other d => exact nomatch d
  | align _ | origin _ =>
    rw [Tail.measure]
    trivial
  | gap g | branch b =>
    rw [Tail.measure] at h ⊢
    obtain rfl := Except.ok.inj h
    rfl
  | leb128 f =>
    have hlen : f.len = 1 := of_decide_eq_true hb
    rw [Tail.measure] at h ⊢
    dsimp only [Directive.measure, Leb128.Field.measure] at h ⊢
    cases hc : f.value.const? with
    | none =>
      rw [hc] at h
      obtain rfl := Except.ok.inj h
      exact ⟨rfl, by rw [hlen], by rw [hlen]; decide, fun v hv => nomatch hc.symm.trans hv⟩
    | some v =>
      rw [hc] at h
      obtain rfl := Except.ok.inj h
      obtain ⟨hl, hh⟩ := const_word hc
      refine ⟨rfl, Leb128.size_pos .., Leb128.size_le_maxLen _ hl hh, fun v' hv' => ?_⟩
      obtain rfl := Option.some.inj (hc.symm.trans hv')
      exact Nat.le_refl _

namespace Fragment

theorem expand_plain {f : Fragment (Tail Empty)} (hp : f.tail.all Tail.plain = true) (h : f.Fits) (id old new : Int) :
    (∃ g x, f.expand id old new = .done g x ∧ g.Fits) ∨ ∃ e, f.expand id old new = .fail f e := by
  cases ht : f.tail with
  | none => exact .inl ⟨f, _, expand_of_none ht id old new, h⟩
  | some t =>
    rw [fits_of_some ht] at h
    rw [ht] at hp
    rw [expand_of_some ht]
    rcases Tail.expand_plain f.info id old new hp h with ⟨t', x, he, hfits⟩ | ⟨e, he⟩ <;> rw [he]
    · exact .inl ⟨_, _, rfl, hfits⟩
    · refine .inr ⟨e, ?_⟩
      show Attempt.fail { f with tail := some t } e = _
      rw [← ht]

end Fragment

end SpanLayout
