import SpanLayout.Proofs.Tail.Measure

/-!
# What a form asks for

The values that the present form of a tail depends on, each with the window that this form can take. A tail that is
expanded asks for no values that it did not ask for before, and tolerates at least as much.
-/

namespace SpanLayout

/-! ## Windows -/

/-- Every value of one window lies in the other. -/
def Window.Inside (v w : Window) : Prop := ∀ x, v.contains x = true → w.contains x = true

theorem Window.Inside.refl (w : Window) : w.Inside w := fun _ h => h

theorem Window.Inside.trans {u v w : Window} (h : u.Inside v) (h' : v.Inside w) : u.Inside w :=
  fun x hx => h' x (h x hx)

theorem Leb128.window_inside_widened (signed : Bool) (len size : Nat) :
    (window signed len).Inside (window signed (min (max len size) maxLen)) := by
  -- Widening a field widens its window; one of the greatest width holds every word already.
  intro x hx
  by_cases hlen : len ≤ maxLen
  · exact contains_window_mono (by omega) hx
  · have hmin : min (max len size) maxLen = maxLen := by omega
    rw [hmin]
    unfold maxLen at hlen
    rw [Window.contains_iff] at hx ⊢
    cases signed <;> simp [window, lowest, highest, maxLen] at hx ⊢ <;> split_ifs at hx <;> omega

/-! ## Flat tails -/

section

variable {κ : Type}

/-- Whether a tail is no repetition. -/
def Tail.plain : Tail κ → Bool
  | .times _ _ _ => false
  | _ => true

/-- Whether nothing in the body of a repetition is a repetition. -/
def Tail.flat : Tail κ → Bool
  | .times _ body _ => body.fragments.all (·.tail.all Tail.plain)
  | _ => true

def Fragment.flat (f : Fragment (Tail κ)) : Bool := f.tail.all Tail.flat

end

theorem Tail.flat_of_plain {t : Tail Empty} (h : t.plain = true) : t.flat = true := by
  cases t with
  | times _ _ _ => exact nomatch h
  | _ => rfl

theorem Tail.plain_expand (info : FragmentInfo) (id old new : Int) (t : Tail Empty) :
    (t.expand info id old new).state.plain = t.plain := by
  cases t with
  | times count body reps =>
    rw [Tail.expand]
    split
    · split <;> rfl
    · split
      · rfl
      · split <;> rfl
  | other d => cases d
  | gap _ | align _ | origin _ | leb128 _ | branch _ =>
    rw [Tail.expand]
    rfl

theorem Fragment.plain_expand (id old new : Int) (f : Fragment (Tail Empty)) :
    (f.expand id old new).state.tail.all Tail.plain = f.tail.all Tail.plain := by
  cases ht : f.tail with
  | none =>
    rw [Fragment.expand_of_none ht]
    exact congrArg _ ht
  | some t =>
    have hp := Tail.plain_expand f.info id old new t
    rw [Fragment.expand_of_some ht]
    split <;> rename_i heq <;> rw [heq] at hp <;> exact hp

theorem expandInBody_eq {κ : Type} [Directive κ] (id old new : Int) (slot : Nat) (fs : List (Fragment (Tail κ))) :
    expandInBody id old new slot fs = fs[slot]?.map fun f => (f.expand id old new).mapState (fs.set slot) := by
  induction fs generalizing slot with
  | nil => simp [expandInBody]
  | cons f fs ih =>
    cases slot with
    | zero =>
      rw [expandInBody]
      rfl
    | succ slot =>
      rw [expandInBody, ih, List.getElem?_cons_succ, Option.map_map]
      rfl

/-- What expanding a repetition comes to: nothing, another count, or the expansion of one fragment of the body. -/
theorem Tail.expand_times_cases (info : FragmentInfo) (id old new : Int) (count : Expr) (body : Block (Tail Empty))
    (reps : Nat) :
    (∃ e, (Tail.times count body reps).expand info id old new = .fail (.times count body reps) e) ∨
    (∃ n, id = Repetition.countId ∧ (Tail.times count body reps).expand info id old new =
      .done (.times count body n) (.within (Fragment.sumLen body.fragments * n) 0 0)) ∨
    ∃ slot id' f, Repetition.unpack id = some (slot, id') ∧ body.fragments[slot]? = some f ∧
      ((∃ e, (f.expand id' old new).result = .error e ∧ (Tail.times count body reps).expand info id old new =
        .fail (.times count { body with fragments := body.fragments.set slot (f.expand id' old new).state } reps) e) ∨
      ∃ x, (f.expand id' old new).result = .ok x ∧ (Tail.times count body reps).expand info id old new =
        .done (.times count { body with
            fragments := Fragment.placeFrom 0 (body.fragments.set slot (f.expand id' old new).state) } reps)
          { x with len := Fragment.sumLen (body.fragments.set slot (f.expand id' old new).state) * reps }) := by
  rw [Tail.expand]
  split
  · rename_i hid
    split
    · exact .inl ⟨_, rfl⟩
    · rename_i n _
      exact .inr (.inl ⟨n, hid, rfl⟩)
  · split
    · exact .inl ⟨_, rfl⟩
    · rename_i slot id' hu
      rw [expandInBody_eq]
      cases hf : body.fragments[slot]? with
      | none => exact .inl ⟨_, rfl⟩
      | some f =>
        refine .inr (.inr ⟨slot, id', f, hu, hf, ?_⟩)
        rw [Option.map_some, Attempt.mapState]
        cases hx : (f.expand id' old new).result with
        | error e => exact .inl ⟨e, rfl, rfl⟩
        | ok x => exact .inr ⟨x, rfl, rfl⟩

theorem plain_set_expand {fs : List (Fragment (Tail Empty))} {slot : Nat} {f : Fragment (Tail Empty)}
    (hf : fs[slot]? = some f) (id old new : Int) :
    (fs.set slot (f.expand id old new).state).all (·.tail.all Tail.plain) = fs.all (·.tail.all Tail.plain) := by
  induction fs generalizing slot with
  | nil => rfl
  | cons g fs ih =>
    cases slot with
    | zero =>
      obtain rfl := Option.some.inj hf
      rw [List.set_cons_zero, List.all_cons, List.all_cons, Fragment.plain_expand]
    | succ slot => rw [List.set_cons_succ, List.all_cons, List.all_cons, ih hf]

theorem plain_placeFrom (offset : Nat) (fs : List (Fragment (Tail Empty))) :
    (Fragment.placeFrom offset fs).all (·.tail.all Tail.plain) = fs.all (·.tail.all Tail.plain) := by
  induction fs generalizing offset with
  | nil => rfl
  | cons f fs ih => simp [Fragment.placeFrom, ih]

theorem Tail.flat_expand (info : FragmentInfo) (id old new : Int) (t : Tail Empty) :
    (t.expand info id old new).state.flat = t.flat := by
  cases t with
  | times count body reps =>
    rcases Tail.expand_times_cases info id old new count body reps with
      ⟨e, he⟩ | ⟨n, -, he⟩ | ⟨slot, id', f, -, hf, ⟨e, -, he⟩ | ⟨x, -, he⟩⟩ <;> rw [he]
    · rfl
    · rfl
    · exact plain_set_expand hf id' old new
    · exact (plain_placeFrom 0 _).trans (plain_set_expand hf id' old new)
  | other d => cases d
  | gap _ | align _ | origin _ | leb128 _ | branch _ =>
    rw [Tail.expand]
    rfl

theorem Fragment.flat_expand (id old new : Int) (f : Fragment (Tail Empty)) :
    (f.expand id old new).state.flat = f.flat := by
  cases ht : f.tail with
  | none =>
    rw [Fragment.expand_of_none ht]
    rfl
  | some t =>
    have hflat := Tail.flat_expand f.info id old new t
    rw [Fragment.expand_of_some ht, Fragment.flat, Fragment.flat, ht]
    split <;> rename_i heq <;> rw [heq] at hflat <;> exact hflat

/-! ## Requests -/

/-- What a tail asks for that is no repetition. -/
def Tail.own : Tail Empty → List SpanRequest
  | .leb128 f => f.measure.state.2
  | .branch b => b.measure.state.2
  | _ => []

def Fragment.own (f : Fragment (Tail Empty)) : List SpanRequest := f.tail.elim [] Tail.own

theorem Fragment.exists_of_mem_own {f : Fragment (Tail Empty)} {q : SpanRequest} (h : q ∈ f.own) :
    ∃ t, f.tail = some t ∧ q ∈ t.own := by
  unfold own at h
  cases ht : f.tail with
  | none =>
    rw [ht] at h
    cases h
  | some t =>
    rw [ht] at h
    exact ⟨t, rfl, h⟩

/-- What the fragments of a repetition's body ask for, as the repetition passes it on. -/
def bodyRequests (owner : FragmentInfo) (slot : Nat) (fs : List (Fragment (Tail Empty))) : List SpanRequest :=
  (fs.zipIdx slot).flatMap fun (f, slot) => f.own.flatMap (Repetition.relay owner slot)

/-- What a flat tail asks for, apart from the count of a repetition. -/
def Tail.requests (info : FragmentInfo) : Tail Empty → List SpanRequest
  | .times _ body _ => bodyRequests info 0 body.fragments
  | t => t.own

def Fragment.requests (f : Fragment (Tail Empty)) : List SpanRequest := f.tail.elim [] (·.requests f.info)

theorem mem_bodyRequests {owner : FragmentInfo} {fs : List (Fragment (Tail Empty))} {q : SpanRequest} :
    q ∈ bodyRequests owner 0 fs ↔
      ∃ slot f p, fs[slot]? = some f ∧ p ∈ f.own ∧ q ∈ Repetition.relay owner slot p := by
  simp only [bodyRequests, List.mem_flatMap, Prod.exists, List.mem_zipIdx_iff_getElem?]
  exact ⟨fun ⟨f, slot, hf, p, hp, hq⟩ => ⟨slot, f, p, hf, hp, hq⟩, fun ⟨slot, f, p, hf, hp, hq⟩ =>
    ⟨f, slot, hf, p, hp, hq⟩⟩

theorem Tail.requests_of_plain {t : Tail Empty} (h : t.plain = true) (info : FragmentInfo) :
    t.requests info = t.own := by
  cases t with
  | times _ _ _ => exact nomatch h
  | _ => rfl

theorem Fragment.requests_of_some {f : Fragment (Tail Empty)} {t : Tail Empty} (h : f.tail = some t) :
    f.requests = t.requests f.info := by
  rw [Fragment.requests, h]
  rfl

theorem Fragment.requests_of_plain {f : Fragment (Tail Empty)} (h : f.tail.all Tail.plain = true) :
    f.requests = f.own := by
  unfold Fragment.requests Fragment.own
  cases ht : f.tail with
  | none => rfl
  | some t => exact Tail.requests_of_plain (by simpa [ht] using h) f.info

theorem Tail.requests_congr {info info' : FragmentInfo} (hr : info'.ref = info.ref)
    (hl : info'.fixedLen = info.fixedLen) (t : Tail Empty) : t.requests info' = t.requests info := by
  have hrelay : Repetition.relay info' = Repetition.relay info := by
    funext slot q
    unfold Repetition.relay FragmentInfo.tailLoc
    rw [hr, hl]
  cases t with
  | times _ body _ =>
    unfold Tail.requests bodyRequests
    rw [hrelay]
  | _ => rfl

theorem Fragment.requests_congr {f g : Fragment (Tail Empty)} (ht : g.tail = f.tail) (hr : g.ref = f.ref)
    (hl : g.fixedLen = f.fixedLen) : g.requests = f.requests := by
  unfold Fragment.requests
  rw [ht]
  cases f.tail with
  | none => rfl
  | some t => exact @Tail.requests_congr f.info g.info hr hl t

/-! ## Measuring -/

theorem Tail.plain_measure (info : FragmentInfo) (t : Tail Empty) : (t.measure info).state.1.plain = t.plain := by
  cases t with
  | other d => cases d
  | times count body reps =>
    rw [Tail.measure]
    split
    · rfl
    · split
      · rfl
      · split <;> rfl
  | gap _ | align _ | origin _ | leb128 _ | branch _ =>
    rw [Tail.measure]
    rfl

theorem Fragment.plain_measureAt (offset : Nat) (f : Fragment (Tail Empty)) :
    (f.measureAt offset).state.1.tail.all Tail.plain = f.tail.all Tail.plain := by
  cases ht : f.tail with
  | none =>
    rw [Fragment.measureAt_of_none ht]
    exact congrArg (Option.all Tail.plain) ht
  | some t =>
    have hplain := Tail.plain_measure { f.info with offset } t
    rw [Fragment.measureAt_of_some ht]
    split <;> rename_i heq <;> rw [heq] at hplain <;> exact hplain

theorem plain_measureBody (owner : FragmentInfo) (slot offset : Nat) (fs : List (Fragment (Tail Empty))) :
    (measureBody owner slot offset fs).state.1.all (·.tail.all Tail.plain) = fs.all (·.tail.all Tail.plain) := by
  induction fs generalizing slot offset with
  | nil =>
    rw [measureBody]
    rfl
  | cons f fs ih =>
    have hf := Fragment.plain_measureAt offset f
    rw [measureBody]
    split
    · rename_i heq
      rw [heq] at hf
      simp only [Attempt.fail, List.all_cons] at hf ⊢
      rw [hf]
    · rename_i g spans _ heq
      rw [heq] at hf
      simp only [Attempt.mapState_state, List.all_cons, ih] at hf ⊢
      rw [hf]

theorem Tail.flat_measure (info : FragmentInfo) (t : Tail Empty) : (t.measure info).state.1.flat = t.flat := by
  cases t with
  | other d => cases d
  | times count body reps =>
    have hbody := plain_measureBody info 0 0 body.fragments
    rw [Tail.measure]
    split <;> rename_i heq <;> rw [heq] at hbody
    · exact hbody
    · split
      · exact hbody
      · split <;> exact hbody
  | gap _ | align _ | origin _ | leb128 _ | branch _ =>
    rw [Tail.measure]
    rfl

theorem Fragment.flat_measureAt (offset : Nat) (f : Fragment (Tail Empty)) :
    (f.measureAt offset).state.1.flat = f.flat := by
  cases ht : f.tail with
  | none =>
    rw [Fragment.measureAt_of_none ht]
    rfl
  | some t =>
    have hflat := Tail.flat_measure { f.info with offset } t
    rw [Fragment.measureAt_of_some ht, Fragment.flat, Fragment.flat, ht]
    split <;> rename_i heq <;> rw [heq] at hflat <;> exact hflat

theorem Tail.measure_own (info : FragmentInfo) {t : Tail Empty} (h : t.plain = true) :
    (t.measure info).state.2 = t.own ∧ (t.measure info).state.1.own = t.own := by
  cases t with
  | times _ _ _ => exact nomatch h
  | other d => exact nomatch d
  | leb128 f =>
    rw [Tail.measure]
    refine ⟨rfl, ?_⟩
    cases hc : f.value.const? <;> simp [Directive.measure, Tail.own, Leb128.Field.measure, hc, Attempt.done]
  | gap _ | align _ | origin _ | branch _ =>
    rw [Tail.measure]
    exact ⟨rfl, rfl⟩

theorem Fragment.measureAt_own (offset : Nat) {f : Fragment (Tail Empty)} (h : f.tail.all Tail.plain = true) :
    (f.measureAt offset).state.2 = f.own ∧ (f.measureAt offset).state.1.own = f.own := by
  cases ht : f.tail with
  | none =>
    rw [Fragment.measureAt_of_none ht]
    exact ⟨by rw [Fragment.own, ht]; rfl, rfl⟩
  | some t =>
    have hm := Tail.measure_own { f.info with offset } (t := t) (by simpa [ht] using h)
    rw [Fragment.own, ht, Fragment.measureAt_of_some ht]
    split <;> rename_i heq <;> rw [heq] at hm <;> exact hm

theorem bodyRequests_cons (owner : FragmentInfo) (slot : Nat) (f : Fragment (Tail Empty))
    (fs : List (Fragment (Tail Empty))) :
    bodyRequests owner slot (f :: fs) =
      f.own.flatMap (Repetition.relay owner slot) ++ bodyRequests owner (slot + 1) fs := by
  simp [bodyRequests]

theorem measureBody_requests (owner : FragmentInfo) (slot offset : Nat) {fs : List (Fragment (Tail Empty))}
    (h : fs.all (·.tail.all Tail.plain) = true) (hok : (measureBody owner slot offset fs).result = .ok ()) :
    (measureBody owner slot offset fs).state.2 = bodyRequests owner slot fs ∧
      bodyRequests owner slot (measureBody owner slot offset fs).state.1 = bodyRequests owner slot fs := by
  induction fs generalizing slot offset with
  | nil =>
    rw [measureBody]
    exact ⟨rfl, rfl⟩
  | cons f fs ih =>
    rw [List.all_cons, Bool.and_eq_true] at h
    obtain ⟨hown, hsame⟩ := Fragment.measureAt_own offset h.1
    rw [measureBody] at hok ⊢
    split
    · rename_i heq
      rw [heq] at hok
      cases hok
    · rename_i g spans _ heq
      rw [heq] at hok hown hsame
      obtain ⟨hrest, hsame'⟩ := ih (slot + 1) (offset + g.totalLen) h.2 hok
      have hspans : spans = f.own := hown
      have hg : g.own = f.own := hsame
      simp only [Attempt.mapState_state, bodyRequests_cons, hspans, hg, hrest, hsame', and_self]

/-- The span for the number of copies, if that depends on the layout. -/
def Tail.countRequests : Tail Empty → List SpanRequest
  | .times count _ _ => if count.const?.isSome then [] else [⟨Repetition.countId, .ofExpr count, ⟨0, 0⟩⟩]
  | _ => []

/-- What measuring asks for beside the spans that the form depends on. -/
def Fragment.countRequests (f : Fragment (Tail Empty)) : List SpanRequest := f.tail.elim [] Tail.countRequests

theorem Tail.mem_countRequests {t : Tail Empty} {q : SpanRequest} (h : q ∈ t.countRequests) :
    ∃ count body reps, t = .times count body reps ∧ count.const? = none ∧
      q = ⟨Repetition.countId, .ofExpr count, ⟨0, 0⟩⟩ := by
  cases t with
  | times count body reps =>
    rw [Tail.countRequests] at h
    split at h
    · cases h
    · rename_i hc
      exact ⟨count, body, reps, rfl, by simpa using hc, List.mem_singleton.mp h⟩
  | gap _ | align _ | origin _ | leb128 _ | branch _ | other _ => cases h

theorem Fragment.exists_of_mem_countRequests {f : Fragment (Tail Empty)} {q : SpanRequest} (h : q ∈ f.countRequests) :
    ∃ t, f.tail = some t ∧ q ∈ t.countRequests := by
  unfold Fragment.countRequests at h
  cases ht : f.tail with
  | none =>
    rw [ht] at h
    cases h
  | some t =>
    rw [ht] at h
    exact ⟨t, rfl, h⟩

/-- Measuring asks for the spans of the form that it leaves, and for that of the count. -/
theorem Tail.measure_requests {info : FragmentInfo} {t : Tail Empty} (h : t.flat = true) {len : Nat}
    (hok : (t.measure info).result = .ok len) :
    (t.measure info).state.1.requests info = t.requests info ∧
      (t.measure info).state.2 = t.requests info ++ t.countRequests := by
  by_cases hp : t.plain = true
  · obtain ⟨hown, hsame⟩ := Tail.measure_own info hp
    have hcount : t.countRequests = [] := by
      cases t with
      | times _ _ _ => cases hp
      | gap _ | align _ | origin _ | leb128 _ | branch _ | other _ => rfl
    rw [Tail.requests_of_plain ((Tail.plain_measure info t).trans hp), Tail.requests_of_plain hp, hsame, hown, hcount,
      List.append_nil]
    exact ⟨rfl, rfl⟩
  · cases t with
    | times count body reps =>
      rw [Tail.measure] at hok ⊢
      split
      · rename_i heq
        rw [heq] at hok
        cases hok
      · rename_i fragments spans _ heq
        obtain ⟨hspans, hsame⟩ := measureBody_requests info 0 0 h (by rw [heq])
        rw [heq] at hspans hsame hok
        dsimp only at hspans hsame hok
        subst hspans
        cases hc : count.const? with
        | none => exact ⟨hsame, by simp [Tail.requests, Tail.countRequests, hc, Attempt.done]⟩
        | some n =>
          rw [hc] at hok
          dsimp only at hok ⊢
          split at hok
          · cases hok
          · exact ⟨hsame, by simp [Tail.requests, Tail.countRequests, hc, Attempt.done]⟩
    | gap _ | align _ | origin _ | leb128 _ | branch _ | other _ => exact absurd rfl hp

theorem Fragment.measureAt_requests {offset : Nat} {f g : Fragment (Tail Empty)} {requests : List SpanRequest}
    (h : f.flat = true) (hm : f.measureAt offset = .done (g, requests) ()) :
    g.requests = f.requests ∧ requests = f.requests ++ f.countRequests := by
  cases ht : f.tail with
  | none =>
    rw [Fragment.measureAt_of_none ht] at hm
    obtain ⟨rfl, rfl⟩ := Prod.mk.inj (congrArg Attempt.state hm)
    exact ⟨rfl, by simp [Fragment.requests, Fragment.countRequests, ht, Attempt.done]⟩
  | some t =>
    rw [Fragment.measureAt_of_some ht] at hm
    split at hm
    · rename_i t' spans len heq
      obtain ⟨rfl, rfl⟩ := Prod.mk.inj (congrArg Attempt.state hm)
      obtain ⟨hsame, hspans⟩ := Tail.measure_requests
        (show t.flat = true by simpa [Fragment.flat, ht] using h) (congrArg Attempt.result heq)
      rw [heq] at hsame hspans
      -- The length of the tail is not yet known when it is measured, but no span depends on it.
      have hcongr := @Tail.requests_congr { f.info with offset } f.info rfl rfl t
      have hcongr' := @Tail.requests_congr { f.info with offset }
        ({ f with offset, tail := some t', tailLen := len } : Fragment (Tail Empty)).info rfl rfl t'
      refine ⟨?_, ?_⟩
      · exact hcongr'.trans (hsame.trans (hcongr.symm.trans (Fragment.requests_of_some ht).symm))
      · rw [Fragment.requests_of_some ht, hcongr, Fragment.countRequests, ht]
        exact hspans
    · cases congrArg Attempt.result hm

/-- Whether a displacement has one to four bytes and the opcode is of a size that occurs. -/
def Encoding.proper (e : Encoding) : Bool :=
  decide (1 ≤ e.dispSize) && decide (e.dispSize ≤ 4) && decide (e.opcode.length < 4611686018427387904)

/-- Whether a tail that is no repetition is as it is built. -/
def Tail.ownProper {κ : Type} : Tail κ → Bool
  | .leb128 f => decide (f.len = 1)
  | .branch b => b.short.all Encoding.proper && b.long.proper
  | _ => true

/-- Whether a flat tail is as it is built: its fields begin with one byte, and its branches have proper encodings. -/
def Tail.proper {κ : Type} : Tail κ → Bool
  | .times _ body _ => body.fragments.all (·.tail.all Tail.ownProper)
  | t => t.ownProper

/-- Whether an instruction is smaller than what its distances could be told from. -/
def Encoding.modest (e : Encoding) : Bool := decide (e.len < 4611686018427387908)

/-- Whether a tail that is no repetition begins small: a field with one byte, a branch with a modest short form. -/
def Tail.ownModest {κ : Type} : Tail κ → Bool
  | .leb128 f => decide (f.len = 1)
  | .branch b => b.short.all Encoding.modest
  | _ => true

/-- Whether a tail has a property, or all that it repeats. -/
def Tail.throughout {κ : Type} (p : Tail κ → Bool) : Tail κ → Bool
  | .times _ body _ => body.fragments.all (·.tail.all p)
  | t => p t

theorem Tail.proper_eq {κ : Type} : (Tail.proper : Tail κ → Bool) = Tail.throughout Tail.ownProper := by
  funext t
  cases t <;> rfl

theorem Tail.throughout_imp {κ : Type} {p q : Tail κ → Bool} (h : ∀ t, p t = true → q t = true) {t : Tail κ}
    (ht : t.throughout p = true) : t.throughout q = true := by
  cases t with
  | times _ body _ =>
    refine List.all_eq_true.2 fun f hf => ?_
    have hall := List.all_eq_true.1 ht f hf
    cases htail : f.tail with
    | none => rfl
    | some t =>
      rw [htail] at hall
      exact h t hall
  | gap _ | align _ | origin _ | leb128 _ | branch _ | other _ => exact h _ ht

theorem Encoding.modest_of_proper {e : Encoding} (h : e.proper = true) : e.modest = true := by
  simp only [proper, Bool.and_eq_true, decide_eq_true_eq] at h
  refine decide_eq_true ?_
  unfold len
  omega

theorem Tail.ownModest_of_ownProper {κ : Type} {t : Tail κ} (h : t.ownProper = true) : t.ownModest = true := by
  cases t with
  | branch b =>
    rw [ownProper, Bool.and_eq_true] at h
    rw [ownModest]
    cases hs : b.short with
    | none => rfl
    | some e =>
      rw [hs] at h
      exact Encoding.modest_of_proper h.1
  | leb128 _ => exact h
  | gap _ | align _ | origin _ | times _ _ _ | other _ => rfl

theorem Encoding.range_bounds (e : Encoding) : -2147483648 ≤ e.range.low ∧ e.range.high < 2147483648 := by
  have hbits : e.dispBits - 1 ≤ 31 := by
    unfold dispBits
    omega
  have hpow : (1 <<< (e.dispBits - 1) : Nat) ≤ 2147483648 := by
    rw [Nat.one_shiftLeft]
    exact Nat.pow_le_pow_right (by decide) hbits
  simp only [range]
  omega

theorem Encoding.signed_len_of_modest {e : Encoding} (h : e.modest = true) :
    signed e.len = e.len ∧ e.len < 4611686018427387908 := by
  have hlen : e.len < 4611686018427387908 := of_decide_eq_true h
  exact ⟨signed_eq _ (by omega), hlen⟩

theorem Encoding.signed_len {e : Encoding} (h : e.proper = true) : signed e.len = e.len ∧ e.len < 4611686018427387908 :=
  signed_len_of_modest (modest_of_proper h)

theorem Tail.own_tame {t : Tail Empty} (h : t.ownModest = true) {q : SpanRequest} (hq : q ∈ t.own) :
    q.window.contains unknownValue = false := by
  cases t with
  | leb128 f =>
    have hlen : f.len = 1 := of_decide_eq_true h
    simp only [Tail.own, Leb128.Field.measure] at hq
    split at hq
    · cases hq
    · rw [List.mem_singleton.mp hq, hlen]
      show (Leb128.window f.isSigned 1).contains unknownValue = false
      cases f.isSigned <;> decide
  | branch b =>
    simp only [Tail.own, Branch.measure, Attempt.done] at hq
    split at hq
    · rename_i s v hs _
      rw [List.mem_singleton.mp hq]
      have hmodest : s.modest = true := by
        rw [Tail.ownModest] at h
        unfold Branch.shortInUse? at hs
        split at hs
        · rw [hs] at h
          exact h
        · cases hs
      obtain ⟨hsigned, hlen⟩ := Encoding.signed_len_of_modest hmodest
      have := s.range_bounds
      rw [← Bool.not_eq_true, Window.contains_iff, hsigned]
      unfold unknownValue wordBound
      dsimp only
      omega
    · cases hq
  | gap _ | align _ | origin _ | times _ _ _ => cases hq
  | other d => cases d

theorem Fragment.own_tame {f : Fragment (Tail Empty)} (h : f.tail.all Tail.ownModest = true) {q : SpanRequest}
    (hq : q ∈ f.own) : q.window.contains unknownValue = false := by
  unfold Fragment.own at hq
  cases ht : f.tail with
  | none =>
    rw [ht] at hq
    exact nomatch hq
  | some t =>
    rw [ht] at hq h
    exact Tail.own_tame (by simpa using h) hq

/-! ## Expanding -/

theorem Tail.own_id {t : Tail Empty} {q : SpanRequest} (h : q ∈ t.own) : q.id = 1 := by
  cases t with
  | leb128 f =>
    simp only [Tail.own, Leb128.Field.measure] at h
    split at h
    · cases h
    · rw [List.mem_singleton.mp h]
  | branch b =>
    simp only [Tail.own, Branch.measure, Attempt.done] at h
    split at h
    · rw [List.mem_singleton.mp h]
    · cases h
  | gap _ | align _ | origin _ | times _ _ _ => cases h
  | other d => cases d

/-- `p` is what the request `q` was before an expansion of `id` for the value `new` that ended with `window`: it asked
for the same value and tolerated no more. If it was the one that was expanded, the value was known, and `q` tolerates
all of the new window. -/
structure SpanRequest.From (q p : SpanRequest) (id new : Int) (window : Option Window) : Prop where
  sameId : p.id = q.id
  sameValue : p.value = q.value
  inside : p.window.Inside q.window
  renewed : q.id = id → new ≠ unknownValue ∧ ∃ w, window = some w ∧ w.Inside q.window

theorem Tail.expand_own {info : FragmentInfo} {id old new : Int} {t : Tail Empty} {x : Expansion}
    (hp : t.plain = true) (h : (t.expand info id old new).result = .ok x) {q : SpanRequest}
    (hq : q ∈ (t.expand info id old new).state.own) (id' : Int) : ∃ p ∈ t.own, q.From p id' new x.window := by
  cases t with
  | leb128 f =>
    rw [Tail.expand] at h hq
    simp only [Directive.expand, Leb128.Field.expand, Attempt.mapState_result, Attempt.mapState_state] at h hq
    split at h
    · exact nomatch h
    · rename_i hnew
      rw [if_neg hnew] at hq
      obtain rfl := Except.ok.inj h
      cases hc : f.value.const? with
      | some v => simp [Tail.own, Leb128.Field.measure, Attempt.done, hc] at hq
      | none =>
        simp only [Tail.own, Leb128.Field.measure, Attempt.done, hc, List.mem_singleton] at hq ⊢
        subst hq
        exact ⟨_, rfl, rfl, rfl, Leb128.window_inside_widened _ _ _, fun _ => ⟨hnew, _, rfl, .refl _⟩⟩
  | branch b =>
    -- A branch in its long form depends on nothing.
    rw [Tail.expand] at hq
    simp [Directive.expand, Branch.expand, Attempt.done, Tail.own, Branch.measure, Branch.lengthen,
      Branch.shortInUse?] at hq
  | gap _ | align _ | origin _ =>
    rw [Tail.expand] at hq
    exact nomatch hq
  | times _ _ _ => exact nomatch hp
  | other d => exact nomatch d

theorem Fragment.expand_own {id old new : Int} {f : Fragment (Tail Empty)} {x : Expansion}
    (hp : f.tail.all Tail.plain = true) (h : (f.expand id old new).result = .ok x) {q : SpanRequest}
    (hq : q ∈ (f.expand id old new).state.own) (id' : Int) : ∃ p ∈ f.own, q.From p id' new x.window := by
  cases ht : f.tail with
  | none =>
    rw [Fragment.expand_of_none ht, Fragment.own, Attempt.done, ht] at hq
    cases hq
  | some t =>
    have hown (hok : (t.expand f.info id old new).result = .ok x)
        (hm : q ∈ (t.expand f.info id old new).state.own) := Tail.expand_own (by simpa [ht] using hp) hok hm id'
    rw [Fragment.own, ht]
    rw [Fragment.expand_of_some ht] at h hq
    split at h
    · rename_i heq
      rw [heq] at hown hq
      obtain rfl := Except.ok.inj h
      exact hown rfl hq
    · cases h

/-- The slot of a span that was passed on can be told from its id. -/
theorem Repetition.unpack_pack (slot : Nat) {anchor : Nat} (h : anchor ≤ 1) :
    0 < pack 1 slot anchor ∧ unpack (pack 1 slot anchor) = some (slot, 1) := by
  have hn : pack 1 slot anchor = ((100 * (slot + 1) + 50 * anchor + 1 : Nat) : Int) := by
    simp only [pack, stride, anchorStride, if_pos (show (0 : Int) < 1 by decide)]
    omega
  have hdiv : (100 * (slot + 1) + 50 * anchor + 1) / 100 = slot + 1 := by omega
  have hmod : (100 * (slot + 1) + 50 * anchor + 1) % 100 % 50 = 1 := by omega
  rw [hn]
  refine ⟨by omega, ?_⟩
  simp only [unpack, stride, anchorStride, Int.natAbs_natCast, hdiv, hmod]
  rw [Int.sign_eq_one_of_pos (by omega)]
  rfl

theorem Repetition.mem_relay {owner : FragmentInfo} {slot : Nat} {p q : SpanRequest} (h : q ∈ relay owner slot p)
    (hid : p.id = 1) :
    q.window = p.window ∧ 0 < q.id ∧ unpack q.id = some (slot, 1) ∧
      ∀ p' : SpanRequest, p'.id = p.id → p'.value = p.value → { q with window := p'.window } ∈ relay owner slot p' := by
  have hpack0 := unpack_pack slot (show 0 ≤ 1 by decide)
  have hpack1 := unpack_pack slot (show 1 ≤ 1 by decide)
  unfold relay at h ⊢
  dsimp only at h ⊢
  split at h
  · rename_i hl
    rw [List.mem_singleton] at h
    subst h
    rw [hid]
    refine ⟨rfl, hpack0.1, hpack0.2, fun p' hi hv => ?_⟩
    rw [hv, if_pos hl, hi]
    exact List.mem_singleton.mpr rfl
  · rename_i hl
    rw [List.mem_cons, List.mem_singleton] at h
    rcases h with rfl | rfl <;> rw [hid]
    · refine ⟨rfl, hpack0.1, hpack0.2, fun p' hi hv => ?_⟩
      rw [hv, if_neg hl, hi]
      exact List.mem_cons_self
    · refine ⟨rfl, hpack1.1, hpack1.2, fun p' hi hv => ?_⟩
      rw [hv, if_neg hl, hi]
      exact List.mem_cons_of_mem _ List.mem_cons_self

theorem Fragment.own_id {f : Fragment (Tail Empty)} {q : SpanRequest} (h : q ∈ f.own) : q.id = 1 := by
  unfold Fragment.own at h
  cases ht : f.tail with
  | none =>
    rw [ht] at h
    exact nomatch h
  | some t =>
    rw [ht] at h
    exact Tail.own_id h

theorem bodyRequests_placeFrom (owner : FragmentInfo) (slot offset : Nat) (fs : List (Fragment (Tail Empty))) :
    bodyRequests owner slot (Fragment.placeFrom offset fs) = bodyRequests owner slot fs := by
  induction fs generalizing slot offset with
  | nil => rfl
  | cons f fs ih =>
    rw [Fragment.placeFrom, bodyRequests_cons, bodyRequests_cons, ih]
    rfl

theorem Tail.expand_requests {info : FragmentInfo} {id old new : Int} {t : Tail Empty} {x : Expansion}
    (hf : t.flat = true) (h : (t.expand info id old new).result = .ok x) {q : SpanRequest}
    (hq : q ∈ (t.expand info id old new).state.requests info) : ∃ p ∈ t.requests info, q.From p id new x.window := by
  by_cases hp : t.plain = true
  · rw [Tail.requests_of_plain ((Tail.plain_expand info id old new t).trans hp)] at hq
    rw [Tail.requests_of_plain hp]
    exact Tail.expand_own hp h hq id
  cases t with
  | times count body reps =>
    rcases Tail.expand_times_cases info id old new count body reps with
      ⟨e, he⟩ | ⟨n, hid, he⟩ | ⟨slot, id', f, hu, hf', ⟨e, -, he⟩ | ⟨y, hy, he⟩⟩ <;> rw [he] at h hq
    · exact nomatch h
    · obtain ⟨slot, f, p, -, hp, hq'⟩ := mem_bodyRequests.mp hq
      have := (Repetition.mem_relay hq' (Fragment.own_id hp)).2.1
      refine ⟨q, hq, rfl, rfl, .refl _, fun hi => ?_⟩
      rw [hi, hid, Repetition.countId] at this
      omega
    · exact nomatch h
    · obtain rfl := Except.ok.inj h
      rw [Attempt.done, Tail.requests, bodyRequests_placeFrom] at hq
      obtain ⟨slot', g, p, hg, hp', hrelay⟩ := mem_bodyRequests.mp hq
      obtain ⟨hwindow, -, hunpack, hsame⟩ := Repetition.mem_relay hrelay (Fragment.own_id hp')
      by_cases hs : slot = slot'
      · subst hs
        rw [List.getElem?_set_self (List.getElem?_eq_some_iff.mp hf').1, Option.some.injEq] at hg
        subst hg
        have hplain : f.tail.all Tail.plain = true := List.all_eq_true.mp hf f (List.mem_of_getElem? hf')
        obtain ⟨p', hmem, hfrom⟩ := Fragment.expand_own hplain hy hp' 1
        refine ⟨_, mem_bodyRequests.mpr ⟨slot, f, p', hf', hmem, hsame p' hfrom.sameId hfrom.sameValue⟩, rfl,
          rfl, ?_, ?_⟩
        · rw [hwindow]
          exact hfrom.inside
        · intro _
          rw [hwindow]
          exact hfrom.renewed (Fragment.own_id hp')
      · rw [List.getElem?_set_ne hs] at hg
        refine ⟨q, mem_bodyRequests.mpr ⟨slot', g, p, hg, hp', hrelay⟩, rfl, rfl, .refl _, fun hid => ?_⟩
        rw [hid, hu] at hunpack
        exact absurd (congrArg Prod.fst (Option.some.inj hunpack)) hs
  | _ => exact absurd rfl hp

theorem Fragment.expand_requests {id old new : Int} {f : Fragment (Tail Empty)} {x : Expansion} (hf : f.flat = true)
    (h : (f.expand id old new).result = .ok x) {q : SpanRequest} (hq : q ∈ (f.expand id old new).state.requests) :
    ∃ p ∈ f.requests, q.From p id new x.window := by
  cases ht : f.tail with
  | none =>
    rw [Fragment.expand_of_none ht, Fragment.requests, Attempt.done, ht] at hq
    cases hq
  | some t =>
    have hreq (hok : (t.expand f.info id old new).result = .ok x)
        (hm : q ∈ (t.expand f.info id old new).state.requests f.info) :=
      Tail.expand_requests (by simpa [Fragment.flat, ht] using hf) hok hm
    rw [Fragment.requests_of_some ht]
    rw [Fragment.expand_of_some ht] at h hq
    split at h
    · rename_i t' y heq
      rw [heq] at hreq hq
      obtain rfl := Except.ok.inj h
      have hsame := @Tail.requests_congr f.info
        ({ f with tail := some t', tailLen := y.len } : Fragment (Tail Empty)).info rfl rfl t'
      exact hreq rfl (hsame ▸ hq)
    · cases h

theorem Fragment.requests_pos {f : Fragment (Tail Empty)} {q : SpanRequest} (h : q ∈ f.requests) : 0 < q.id := by
  cases ht : f.tail with
  | none =>
    rw [Fragment.requests, ht] at h
    exact nomatch h
  | some t =>
    rw [Fragment.requests_of_some ht] at h
    by_cases hp : t.plain = true
    · rw [Tail.requests_of_plain hp] at h
      rw [Tail.own_id h]
      decide
    · cases t with
      | times _ _ _ =>
        obtain ⟨slot, g, p, -, hp, hq⟩ := mem_bodyRequests.mp h
        exact (Repetition.mem_relay hq (Fragment.own_id hp)).2.1
      | _ => exact absurd rfl hp

theorem Fragment.requests_eq_nil {f : Fragment (Tail Empty)} (h : f.setsOffset = true) : f.requests = [] := by
  obtain ⟨t, ht, hs⟩ := exists_tail_of_setsOffset h
  rw [Fragment.requests_of_some ht]
  cases t with
  | align _ | origin _ => rfl
  | gap _ | leb128 _ | branch _ | times _ _ _ => exact nomatch hs
  | other d => exact nomatch d

/-- No form depends on a span that would not mind if its value was lost. -/
theorem Fragment.requests_tame {f : Fragment (Tail Empty)} (h : f.tail.all (Tail.throughout Tail.ownModest) = true)
    {q : SpanRequest} (hq : q ∈ f.requests) : q.window.contains unknownValue = false := by
  cases ht : f.tail with
  | none =>
    rw [Fragment.requests, ht] at hq
    cases hq
  | some t =>
    rw [Fragment.requests_of_some ht] at hq
    rw [ht, Option.all_some] at h
    by_cases hp : t.plain = true
    · rw [Tail.requests_of_plain hp] at hq
      refine Tail.own_tame ?_ hq
      cases t with
      | times _ _ _ => cases hp
      | gap _ | align _ | origin _ | leb128 _ | branch _ | other _ => exact h
    · cases t with
      | times count body reps =>
        obtain ⟨slot, g, p, hg, hp, hrelay⟩ := mem_bodyRequests.mp hq
        rw [(Repetition.mem_relay hrelay (Fragment.own_id hp)).1]
        exact Fragment.own_tame (List.all_eq_true.mp h g (List.mem_of_getElem? hg)) hp
      | gap _ | align _ | origin _ | leb128 _ | branch _ | other _ => exact absurd rfl hp

theorem Fragment.measureAt_tame {offset : Nat} {f g : Fragment (Tail Empty)} {requests : List SpanRequest}
    (hf : f.flat = true) (h : f.tail.all (Tail.throughout Tail.ownModest) = true)
    (hm : f.measureAt offset = .done (g, requests) ())
    {q : SpanRequest} (hq : q ∈ requests) (hid : 0 < q.id) : q.window.contains unknownValue = false := by
  rw [(Fragment.measureAt_requests hf hm).2] at hq
  rcases List.mem_append.mp hq with hq | hq
  · exact Fragment.requests_tame h hq
  · obtain ⟨t, -, hcount⟩ := Fragment.exists_of_mem_countRequests hq
    obtain ⟨count, body, reps, -, -, rfl⟩ := Tail.mem_countRequests hcount
    cases hid

end SpanLayout
