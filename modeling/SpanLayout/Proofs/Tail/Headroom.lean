import SpanLayout.Proofs.Tail.Grown

/-!
# How often a span can still be expanded

A branch takes its long form once, and a LEB128 field widens with every expansion until it is as wide as a word can
ask for. So the window of a span tells how many expansions are left to it.
-/

namespace SpanLayout

namespace Leb128

/-- The width of the field that has the window `w`. -/
def widthOf (signed : Bool) (w : Window) : Nat :=
  (List.range maxLen).findIdx (fun n => decide (window signed (n + 1) = w)) + 1

theorem widthOf_window (signed : Bool) {len : Nat} (h1 : 1 ≤ len) (h10 : len ≤ maxLen) :
    widthOf signed (window signed len) = len := by
  unfold maxLen at h10
  interval_cases len <;> cases signed <;> decide

end Leb128

/-! ## Tails -/

namespace Tail

/-- How many expansions are left to a span with the window `w`. -/
def headroom (w : Window) : Tail Empty → Nat
  | .leb128 f => Leb128.maxLen - Leb128.widthOf f.isSigned w
  | .branch _ => 1
  | _ => 0

/-- Whether a span of the tail can have the window `w`. -/
def Admits (w : Window) : Tail Empty → Prop
  | .leb128 f => ∃ len, 1 ≤ len ∧ len ≤ Leb128.maxLen ∧ w = Leb128.window f.isSigned len
  | .branch _ => True
  | _ => False

theorem Admits.headroom_le {t : Tail Empty} {w : Window} (h : t.Admits w) : t.headroom w ≤ 9 := by
  cases t with
  | leb128 f =>
    obtain ⟨len, h1, h10, rfl⟩ := h
    rw [headroom, Leb128.widthOf_window _ h1 h10]
    unfold Leb128.maxLen at h10 ⊢
    omega
  | branch b => exact (by decide : 1 ≤ 9)
  | _ => exact h.elim

/-- Both tails leave as many expansions to a span, and the same windows. -/
def Alike (t t' : Tail Empty) : Prop := ∀ w, t'.headroom w = t.headroom w ∧ (t'.Admits w ↔ t.Admits w)

theorem Alike.refl (t : Tail Empty) : Alike t t := fun _ => ⟨rfl, Iff.rfl⟩

theorem Grows.alike {t t' : Tail Empty} (h : t.Grows t') : Alike t t' := by
  cases h <;> exact .refl _

/-- An expansion for a word that is out of the window of a span uses up some of its headroom. -/
theorem expand_headroom (info : FragmentInfo) (id old : Int) {new : Int} {t : Tail Empty} {w : Window}
    (ha : t.Admits w) (hl : -wordBound ≤ new) (hh : new < wordBound) (hw : w.contains new = false) :
    1 ≤ t.headroom w ∧ ∀ x, (t.expand info id old new).result = .ok x →
      x.window = none ∨ ∃ w', x.window = some w' ∧ t.Admits w' ∧ t.headroom w' < t.headroom w := by
  cases t with
  | leb128 f =>
    obtain ⟨len, h1, h10, rfl⟩ := ha
    have hsize : len < Leb128.size f.isSigned new := by
      by_contra hle
      rw [(Leb128.contains_window_iff h1 h10 hl hh).mpr (by omega)] at hw
      exact nomatch hw
    have hmax := Leb128.size_le_maxLen f.isSigned hl hh
    rw [headroom, Leb128.widthOf_window _ h1 h10]
    refine ⟨by omega, fun x hx => .inr ?_⟩
    rw [Tail.expand] at hx
    dsimp only [Directive.expand, Leb128.Field.expand, Attempt.mapState] at hx
    split at hx
    · exact nomatch hx
    · obtain rfl := Except.ok.inj hx
      refine ⟨_, rfl, ⟨_, by omega, Nat.min_le_right _ _, rfl⟩, ?_⟩
      rw [headroom, Leb128.widthOf_window _ (by omega) (Nat.min_le_right _ _)]
      omega
  | branch b =>
    refine ⟨Nat.le_refl 1, fun x hx => .inl ?_⟩
    rw [Tail.expand] at hx
    obtain rfl := Except.ok.inj hx
    rfl
  | _ => exact ha.elim

theorem expand_admits {info : FragmentInfo} {id old new : Int} {t : Tail Empty} {w : Window} (ha : t.Admits w)
    {x : Expansion} (hx : (t.expand info id old new).result = .ok x) {w' : Window} (hw : x.window = some w') :
    t.Admits w' := by
  cases t with
  | leb128 f =>
    rw [Tail.expand] at hx
    dsimp only [Directive.expand, Leb128.Field.expand, Attempt.mapState] at hx
    split at hx
    · cases hx
    · obtain rfl := Except.ok.inj hx
      obtain rfl := Option.some.inj hw
      have hsize := Leb128.size_pos f.isSigned new
      exact ⟨_, by unfold Leb128.maxLen; omega, Nat.min_le_right _ _, rfl⟩
  | branch b => trivial
  | _ => exact ha.elim

/-- Whether the width of a field is one that a word can ask for. -/
def sized {κ : Type} : Tail κ → Bool
  | .leb128 f => decide (1 ≤ f.len) && decide (f.len ≤ Leb128.maxLen)
  | _ => true

theorem own_admits {t : Tail Empty} (h : t.sized = true) {q : SpanRequest} (hq : q ∈ t.own) : t.Admits q.window := by
  cases t with
  | leb128 f =>
    simp only [sized, Bool.and_eq_true, decide_eq_true_eq] at h
    simp only [own, Leb128.Field.measure] at hq
    split at hq
    · cases hq
    · rw [List.mem_singleton.mp hq]
      exact ⟨f.len, h.1, h.2, rfl⟩
  | branch b => trivial
  | _ => cases hq

theorem sized_measure (info : FragmentInfo) {t : Tail Empty} (hp : t.plain = true) (h : t.sized = true) :
    (t.measure info).state.1.sized = true := by
  cases t with
  | times _ _ _ => exact nomatch hp
  | other d => exact nomatch d
  | leb128 f =>
    rw [Tail.measure]
    dsimp only [Directive.measure, Leb128.Field.measure, Attempt.mapState]
    cases hc : f.value.const? with
    | none => exact h
    | some v =>
      obtain ⟨hl, hh⟩ := Expr.const_word hc
      show (decide _ && decide _) = true
      rw [Bool.and_eq_true, decide_eq_true_eq, decide_eq_true_eq]
      exact ⟨Leb128.size_pos .., Leb128.size_le_maxLen _ hl hh⟩
  | gap _ | align _ | origin _ | branch _ =>
    rw [Tail.measure]
    rfl

end Tail

/-! ## Fragments -/

namespace Fragment

/-- The tail that the span `id` belongs to. -/
def spanTail? (id : Int) (f : Fragment (Tail Empty)) : Option (Tail Empty) :=
  match f.tail with
  | some (.times _ body _) => (Repetition.unpack id).bind fun p => body.fragments[p.1]?.bind (·.tail)
  | t => t

/-- How many expansions are left to the span `id` with the window `w`. -/
def headroom (id : Int) (w : Window) (f : Fragment (Tail Empty)) : Nat := (f.spanTail? id).elim 0 (·.headroom w)

/-- Whether the span `id` can have the window `w`. -/
def Admits (id : Int) (w : Window) (f : Fragment (Tail Empty)) : Prop := ∃ t, f.spanTail? id = some t ∧ t.Admits w

theorem headroom_of_spanTail {f : Fragment (Tail Empty)} {id : Int} {t : Tail Empty} (h : f.spanTail? id = some t)
    (w : Window) : f.headroom id w = t.headroom w := by
  rw [headroom, h]
  rfl

theorem Admits.headroom_le {f : Fragment (Tail Empty)} {id : Int} {w : Window} (h : f.Admits id w) :
    f.headroom id w ≤ 9 := by
  obtain ⟨t, ht, ha⟩ := h
  rw [headroom_of_spanTail ht]
  exact ha.headroom_le

theorem spanTail?_of_plain {f : Fragment (Tail Empty)} (h : f.tail.all Tail.plain = true) (id : Int) :
    f.spanTail? id = f.tail := by
  unfold spanTail?
  split
  · rename_i ht
    rw [ht] at h
    exact nomatch h
  · rfl

theorem spanTail?_of_times {f : Fragment (Tail Empty)} {count : Expr} {body : Block (Tail Empty)} {reps : Nat}
    (h : f.tail = some (.times count body reps)) (id : Int) :
    f.spanTail? id = (Repetition.unpack id).bind fun p => body.fragments[p.1]?.bind (·.tail) := by
  rw [spanTail?, h]

/-- The spans of both fragments belong to tails that are alike. -/
def Alike (f g : Fragment (Tail Empty)) : Prop :=
  ∀ id, (f.spanTail? id = none ∧ g.spanTail? id = none) ∨
    ∃ t t', f.spanTail? id = some t ∧ g.spanTail? id = some t' ∧ t.Alike t'

theorem Alike.headroom {f g : Fragment (Tail Empty)} (h : Alike f g) (id : Int) (w : Window) :
    g.headroom id w = f.headroom id w := by
  rcases h id with ⟨hf, hg⟩ | ⟨t, t', hf, hg, hlike⟩
  · rw [Fragment.headroom, Fragment.headroom, hf, hg]
  · rw [headroom_of_spanTail hf, headroom_of_spanTail hg, (hlike w).1]

theorem Alike.admits {f g : Fragment (Tail Empty)} (h : Alike f g) (id : Int) (w : Window) :
    g.Admits id w ↔ f.Admits id w := by
  rcases h id with ⟨hf, hg⟩ | ⟨t, t', hf, hg, hlike⟩
  · simp [Admits, hf, hg]
  · simpa [Admits, hf, hg] using (hlike w).2

/-- The tails that the spans of one fragment belong to have grown to those of the other. -/
def SpansGrow (f g : Fragment (Tail Empty)) : Prop :=
  ∀ id, (f.spanTail? id = none ∧ g.spanTail? id = none) ∨
    ∃ t t', f.spanTail? id = some t ∧ g.spanTail? id = some t' ∧ t.Grows t'

theorem SpansGrow.of_spanTail {f g : Fragment (Tail Empty)} (h : ∀ id, g.spanTail? id = f.spanTail? id) :
    SpansGrow f g := by
  intro id
  cases hf : f.spanTail? id with
  | none => exact .inl ⟨rfl, (h id).trans hf⟩
  | some t => exact .inr ⟨t, t, rfl, (h id).trans hf, .same t⟩

theorem SpansGrow.trans {f g h : Fragment (Tail Empty)} (hfg : SpansGrow f g) (hgh : SpansGrow g h) :
    SpansGrow f h := by
  intro id
  rcases hfg id with ⟨hf, hg⟩ | ⟨t, t', hf, hg, hgrows⟩ <;> rcases hgh id with ⟨hg', hh⟩ | ⟨u, u', hg', hh, hgrows'⟩
  · exact .inl ⟨hf, hh⟩
  · cases hg.symm.trans hg'
  · cases hg.symm.trans hg'
  · obtain rfl := Option.some.inj (hg.symm.trans hg')
    exact .inr ⟨t, u', hf, hh, hgrows.trans hgrows'⟩

theorem spansGrow_times {f g : Fragment (Tail Empty)} {count : Expr} {body : Block (Tail Empty)} {reps n : Nat}
    (hf : f.tail = some (.times count body reps)) {fragments : List (Fragment (Tail Empty))}
    (hg : g.tail = some (.times count { body with fragments } n))
    (h : ∀ slot : Nat, (body.fragments[slot]?.bind (·.tail) = none ∧ fragments[slot]?.bind (·.tail) = none) ∨
      ∃ t t', body.fragments[slot]?.bind (·.tail) = some t ∧ fragments[slot]?.bind (·.tail) = some t' ∧ t.Grows t') :
    SpansGrow f g := by
  intro id
  rw [spanTail?_of_times hf, spanTail?_of_times hg]
  cases Repetition.unpack id with
  | none => exact .inl ⟨rfl, rfl⟩
  | some p => exact h p.1

theorem spansGrow_expand {f : Fragment (Tail Empty)} (hf : f.flat = true) (id old new : Int) :
    SpansGrow f (f.expand id old new).state := by
  rcases (flat_iff f).1 hf with hp | ⟨count, body, reps, ht, hbody⟩
  · intro id'
    rw [spanTail?_of_plain hp, spanTail?_of_plain ((plain_expand id old new f).trans hp)]
    exact (grown_expand hp id old new).tail
  · -- The fragment of the body that is expanded grows, the others stay as they are.
    have hset {slot : Nat} {g : Fragment (Tail Empty)} (hslot : body.fragments[slot]? = some g) (id' : Int) (j : Nat) :
        (body.fragments[j]?.bind (·.tail) = none ∧
            (body.fragments.set slot (g.expand id' old new).state)[j]?.bind (·.tail) = none) ∨
          ∃ t t', body.fragments[j]?.bind (·.tail) = some t ∧
            (body.fragments.set slot (g.expand id' old new).state)[j]?.bind (·.tail) = some t' ∧ t.Grows t' := by
      by_cases hj : slot = j
      · subst hj
        rw [List.getElem?_set_self (List.getElem?_eq_some_iff.mp hslot).1, hslot]
        exact (grown_expand (hbody g (List.mem_of_getElem? hslot)) id' old new).tail
      · rw [List.getElem?_set_ne hj]
        cases hjt : body.fragments[j]?.bind (·.tail) with
        | none => exact .inl ⟨rfl, rfl⟩
        | some t => exact .inr ⟨t, t, rfl, rfl, .same t⟩
    rcases expand_times ht id old new
      with ⟨e, he⟩ | ⟨n, x, he, -⟩ | ⟨slot, id', p, hslot, ⟨e, -, -, he⟩ | ⟨x, he, -⟩⟩ <;>
      rw [he]
    · exact .of_spanTail fun _ => rfl
    · refine .of_spanTail fun id' => ?_
      rw [spanTail?_of_times ht]
      exact spanTail?_of_times rfl id'
    · exact spansGrow_times ht rfl (hset hslot id')
    · refine spansGrow_times ht rfl fun j => ?_
      rw [getElem?_placeFrom, Option.bind_map]
      exact hset hslot id' j

theorem Reshaped.spansGrow {f g : Fragment (Tail Empty)} (h : Reshaped f g) (hf : f.flat = true) : SpansGrow f g := by
  induction h with
  | refl => exact .of_spanTail fun _ => rfl
  | expand h id old new ih => exact ih.trans (spansGrow_expand (h.flat.trans hf) id old new)
  | relaid h hr ih =>
    refine ih.trans (.of_spanTail fun id => ?_)
    rw [spanTail?, hr.tail]
    rfl

theorem Reshaped.alike {f g : Fragment (Tail Empty)} (h : Reshaped f g) (hf : f.flat = true) : Alike f g := by
  intro id
  rcases h.spansGrow hf id with hnone | ⟨t, t', ht, ht', hgrows⟩
  · exact .inl hnone
  · exact .inr ⟨t, t', ht, ht', hgrows.alike⟩

theorem expand_spanTail {f : Fragment (Tail Empty)} {id old new : Int} {t : Tail Empty} (ht : f.spanTail? id = some t)
    {x : Expansion} (hok : (f.expand id old new).result = .ok x) :
    ∃ info id' x', (t.expand info id' old new).result = .ok x' ∧ x.window = x'.window := by
  cases hf : f.tail with
  | none => simp [spanTail?, hf] at ht
  | some u =>
    by_cases hp : u.plain = true
    · rw [spanTail?_of_plain (by rw [hf]; exact hp), hf, Option.some.injEq] at ht
      subst ht
      rw [expand_of_some hf] at hok
      split at hok
      · rename_i heq
        obtain rfl := Except.ok.inj hok
        exact ⟨f.info, id, _, congrArg Attempt.result heq, rfl⟩
      · cases hok
    · cases u with
      | times count body reps =>
        rw [spanTail?_of_times hf] at ht
        obtain ⟨⟨slot, id'⟩, hu, ht⟩ := Option.bind_eq_some_iff.mp ht
        obtain ⟨g, hg, ht⟩ := Option.bind_eq_some_iff.mp ht
        rw [expand_of_some hf] at hok
        rcases Tail.expand_times_cases f.info id old new count body reps with
          ⟨e, he⟩ | ⟨n, hid, -⟩ | ⟨slot', id'', g', hu', hg', ⟨e, -, he⟩ | ⟨x', hx', he⟩⟩
        · rw [he] at hok
          cases hok
        · rw [hid] at hu
          cases hu
        · rw [he] at hok
          cases hok
        · obtain ⟨rfl, rfl⟩ := Prod.mk.inj (Option.some.inj (hu.symm.trans hu'))
          obtain rfl := Option.some.inj (hg.symm.trans hg')
          rw [he] at hok
          obtain rfl := Except.ok.inj hok
          rw [expand_of_some ht] at hx'
          split at hx'
          · rename_i heq
            obtain rfl := Except.ok.inj hx'
            exact ⟨g.info, id', _, congrArg Attempt.result heq, rfl⟩
          · cases hx'
      | _ => exact absurd rfl hp

theorem expand_headroom {f : Fragment (Tail Empty)} {id : Int} (old : Int) {new : Int} {w : Window} (ha : f.Admits id w)
    (hl : -wordBound ≤ new) (hh : new < wordBound) (hw : w.contains new = false) :
    1 ≤ f.headroom id w ∧ ∀ x, (f.expand id old new).result = .ok x →
      x.window = none ∨ ∃ w', x.window = some w' ∧ f.Admits id w' ∧ f.headroom id w' < f.headroom id w := by
  obtain ⟨t, ht, ha⟩ := ha
  refine ⟨?_, fun x hok => ?_⟩
  · rw [headroom_of_spanTail ht]
    exact (Tail.expand_headroom f.info id old ha hl hh hw).1
  · obtain ⟨info, id', x', hok', hwin⟩ := expand_spanTail ht hok
    rw [hwin]
    rcases (Tail.expand_headroom info id' old ha hl hh hw).2 x' hok' with hnone | ⟨w', hsome, ha', hlt⟩
    · exact .inl hnone
    · refine .inr ⟨w', hsome, ⟨t, ht, ha'⟩, ?_⟩
      rw [headroom_of_spanTail ht, headroom_of_spanTail ht]
      exact hlt

theorem expand_admits {f : Fragment (Tail Empty)} {id old new : Int} {w : Window} (ha : f.Admits id w) {x : Expansion}
    (hok : (f.expand id old new).result = .ok x) {w' : Window} (hw : x.window = some w') : f.Admits id w' := by
  obtain ⟨t, ht, ha⟩ := ha
  obtain ⟨info, id', x', hok', hwin⟩ := expand_spanTail ht hok
  exact ⟨t, ht, Tail.expand_admits ha hok' (hwin ▸ hw)⟩

/-! ## Measuring -/

/-- The widths of the fields of a fragment, and of the fragments that it repeats, are those of 64-bit integers. -/
def Sized {κ : Type} (f : Fragment (Tail κ)) : Prop := ∀ p ∈ f.parts, p.tail.all Tail.sized = true

instance {κ : Type} (f : Fragment (Tail κ)) : Decidable f.Sized :=
  inferInstanceAs (Decidable (∀ p ∈ f.parts, p.tail.all Tail.sized = true))

theorem Sized.of_tail {κ : Type} {f g : Fragment (Tail κ)} (h : f.Sized) (ht : g.tail = f.tail) : g.Sized := by
  unfold Sized parts at h ⊢
  rw [ht]
  split
  · rename_i body reps heq
    rw [heq] at h
    exact h
  · rename_i hne
    intro p hp
    rw [List.mem_singleton.mp hp, ht]
    split at h
    · rename_i count body reps heq
      exact (hne count body reps heq).elim
    · exact h f List.mem_cons_self

theorem sized_measureAt {f g : Fragment (Tail Empty)} (hp : f.tail.all Tail.plain = true)
    (h : f.tail.all Tail.sized = true) {offset : Nat} {requests : List SpanRequest}
    (hm : f.measureAt offset = .done (g, requests) ()) : g.tail.all Tail.sized = true := by
  cases ht : f.tail with
  | none =>
    rw [measureAt_of_none ht] at hm
    obtain ⟨rfl, -⟩ := Prod.mk.inj (congrArg Attempt.state hm)
    rw [ht]
    rfl
  | some t =>
    rw [ht] at hp h
    have hsized := Tail.sized_measure { f.info with offset } hp h
    rw [measureAt_of_some ht] at hm
    split at hm
    · rename_i heq
      obtain ⟨rfl, -⟩ := Prod.mk.inj (congrArg Attempt.state hm)
      rw [heq] at hsized
      exact hsized
    · cases congrArg Attempt.result hm

theorem own_admits {f : Fragment (Tail Empty)} (h : f.tail.all Tail.sized = true) {q : SpanRequest} (hq : q ∈ f.own) :
    ∃ t, f.tail = some t ∧ t.Admits q.window := by
  obtain ⟨t, ht, hq⟩ := exists_of_mem_own hq
  rw [ht] at h
  exact ⟨t, ht, Tail.own_admits h hq⟩

theorem requests_admits {f : Fragment (Tail Empty)} (hf : f.flat = true) (h : f.Sized) {q : SpanRequest}
    (hq : q ∈ f.requests) : 0 < q.id ∧ f.Admits q.id q.window := by
  refine ⟨requests_pos hq, ?_⟩
  rcases (flat_iff f).1 hf with hp | ⟨count, body, reps, ht, hbody⟩
  · rw [Sized, parts_of_plain hp] at h
    rw [requests_of_plain hp] at hq
    obtain ⟨t, ht, ha⟩ := own_admits (h f (List.mem_singleton.mpr rfl)) hq
    exact ⟨t, by rw [spanTail?_of_plain hp, ht], ha⟩
  · rw [Sized, parts_of_times ht] at h
    rw [requests_of_some ht] at hq
    obtain ⟨slot, p, r, hslot, hr, hrelay⟩ := mem_bodyRequests.mp hq
    obtain ⟨hwin, -, hunpack, -⟩ := Repetition.mem_relay hrelay (own_id hr)
    obtain ⟨t, hpt, ha⟩ := own_admits (h p (List.mem_of_getElem? hslot)) hr
    refine ⟨t, ?_, hwin ▸ ha⟩
    rw [spanTail?_of_times ht, hunpack]
    show body.fragments[slot]?.bind (·.tail) = some t
    rw [hslot]
    exact hpt

/-- A span that measuring asks for is one that expansions can widen, or the count of a repetition. -/
theorem measureAt_admits {f g : Fragment (Tail Empty)} (hf : f.flat = true) (h : f.Sized) {offset : Nat}
    {requests : List SpanRequest} (hm : f.measureAt offset = .done (g, requests) ()) {q : SpanRequest}
    (hq : q ∈ requests) : (0 < q.id ∧ g.Admits q.id q.window) ∨ q ∈ f.countRequests := by
  obtain ⟨hsame, rfl⟩ := measureAt_requests hf hm
  have hflat := flat_measureAt offset f
  rw [hm] at hflat
  rcases List.mem_append.mp hq with hq | hq
  · refine .inl (requests_admits (hflat.trans hf) (fun p hp => ?_) (hsame ▸ hq))
    obtain ⟨p', hp', offset', requests', hm'⟩ := parts_measureAt hf hm hp
    exact sized_measureAt (plain_of_mem_parts hf hp') (h p' hp') hm'
  · exact .inr hq

end Fragment

end SpanLayout
