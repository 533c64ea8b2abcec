import SpanLayout.Proofs.Tail.Expand

/-!
# Laying out is monotone

If less stands in front of a padding, it may be longer, but it ends no later. So where no tail is longer, nothing lies
further back, and no origin overlaps what stands in front of it that did not do so before. Clients may have directives
of their own, as long as these do not follow their offsets. -/

namespace SpanLayout

/-! ## Counting reports -/

namespace Diagnostics

/-- How many errors were reported, kept or not. -/
def reported (d : Diagnostics) : Nat := d.errors.length + d.dropped

theorem reported_keep (d : Diagnostics) (e : Error) : (d.keep e).reported = d.reported + 1 := by
  unfold keep reported
  split <;> simp <;> omega

theorem reported_report (d : Diagnostics) (e : Error) : (d.report e).reported = d.reported + e.parts.length := by
  unfold report
  induction e.parts generalizing d with
  | nil => rfl
  | cons e es ih =>
    rw [List.foldl_cons, ih, reported_keep, List.length_cons]
    omega

theorem reported_le_reportFailure {α : Type} (d : Diagnostics) (r : Except Error α) :
    d.reported ≤ (d.reportFailure r).reported := by
  cases r with
  | ok _ => exact Nat.le_refl _
  | error e => exact (d.reported_report e).symm ▸ Nat.le_add_right _ _

end Diagnostics

variable {κ : Type} [Directive κ]

theorem reported_le_layFragments (offset : Nat) (d : Diagnostics) (fs : List (Fragment (Tail κ))) :
    d.reported ≤ (layFragments offset d fs).2.reported := by
  induction fs generalizing offset d with
  | nil => exact Nat.le_refl _
  | cons f fs ih => exact Nat.le_trans (d.reported_le_reportFailure _) (ih _ _)

/-! ## One fragment -/

theorem Tail.setsOffset_of_pads {t : Tail κ} (h : t.pads = true) : t.setsOffset = true := by
  cases t with
  | align _ | origin _ => rfl
  | gap _ | leb128 _ | branch _ | times _ _ _ | other _ => cases h

namespace Fragment

variable {f g : Fragment (Tail κ)} {m n : Nat}

theorem place_expand (id old new : Int) (f : Fragment (Tail κ)) :
    (f.expand id old new).state.offset = f.offset ∧ (f.expand id old new).state.fixedLen = f.fixedLen := by
  cases ht : f.tail with
  | none =>
    rw [expand_of_none ht]
    exact ⟨rfl, rfl⟩
  | some t =>
    rw [expand_of_some ht]
    split <;> exact ⟨rfl, rfl⟩

theorem place_moveTo (offset : Nat) (f : Fragment (Tail κ)) :
    (f.moveTo offset).state.offset = offset ∧ (f.moveTo offset).state.fixedLen = f.fixedLen := by
  unfold moveTo
  dsimp only
  split
  · exact place_expand 1 0 _ { f with offset }
  · exact ⟨rfl, rfl⟩

/-- If the tail follows its offset, it is an alignment or an origin. -/
def Steady (f : Fragment (Tail κ)) : Prop := f.setsOffset = false ∨ ∃ t, f.tail = some t ∧ t.pads = true

/-- The length that the tail takes at `offset`, unless it cannot begin there. -/
def lengthAt (offset : Nat) (f : Fragment (Tail κ)) : Option Nat :=
  if f.setsOffset then f.tail.bind (Tail.padding? (offset + f.fixedLen)) else some f.tailLen

theorem lengthAt_of_pads {t : Tail κ} (ht : f.tail = some t) (hp : t.pads = true) (offset : Nat) :
    f.lengthAt offset = t.padding? (offset + f.fixedLen) := by
  unfold lengthAt
  rw [setsOffset_of_some ht, Tail.setsOffset_of_pads hp, if_pos rfl, ht]
  rfl

theorem lengthAt_of_not_setsOffset (h : f.setsOffset = false) (offset : Nat) : f.lengthAt offset = some f.tailLen := by
  unfold lengthAt
  rw [h, if_neg (by decide)]

theorem moveTo_spec (h : f.Steady) (hb : m + f.fixedLen < 2 ^ 63) :
    (∃ len, f.lengthAt m = some len ∧
    f.moveTo m = .done { f with offset := m, tailLen := len } (m + f.fixedLen + len)) ∨
      (f.lengthAt m = none ∧ ∃ c : Cause, f.moveTo m = .fail { f with offset := m } (.one c)) := by
  unfold moveTo
  dsimp only
  rcases h with hs | ⟨t, ht, hp⟩
  · rw [if_neg
      (by rw [show ({ f with offset := m } : Fragment (Tail κ)).setsOffset = f.setsOffset from rfl, hs]; decide)]
    exact .inl ⟨f.tailLen, lengthAt_of_not_setsOffset hs m, by rw [nextOffset, totalLen, ← Nat.add_assoc]; rfl⟩
  · have hs : ({ f with offset := m } : Fragment (Tail κ)).setsOffset = true :=
      (setsOffset_of_some (f := { f with offset := m }) ht).trans (Tail.setsOffset_of_pads hp)
    have hword : signed ({ f with offset := m } : Fragment (Tail κ)).tailOffset = ((m + f.fixedLen : Nat) : Int) :=
      signed_eq _ hb
    rw [if_pos hs, hword, lengthAt_of_pads ht hp]
    rcases expand_padding (f := { f with offset := m }) ht hp 1 0 (m + f.fixedLen)
      with ⟨len, w, hlen, hx⟩ | ⟨hnone, c, hx⟩
    · refine .inl ⟨len, hlen, ?_⟩
      rw [hx]
      simp [Attempt.done, Attempt.mapResult, Except.map, nextOffset, totalLen, fixedLen, Nat.add_assoc]
    · refine .inr ⟨hnone, c, ?_⟩
      rw [hx]
      simp [Attempt.fail, Attempt.mapResult, Except.map]

theorem nextOffset_moveTo (h : f.Steady) (hb : m + f.fixedLen < 2 ^ 63) :
    (f.moveTo m).state.nextOffset = m + f.fixedLen + (f.lengthAt m).getD f.tailLen := by
  rcases moveTo_spec h hb with ⟨len, hlen, hx⟩ | ⟨hnone, c, hx⟩
  · rw [hx, hlen, nextOffset, totalLen, ← Nat.add_assoc]
    rfl
  · rw [hx, hnone, nextOffset, totalLen, ← Nat.add_assoc]
    rfl

theorem reportFailure_moveTo (h : f.Steady) (hb : m + f.fixedLen < 2 ^ 63) (hfits : f.lengthAt m ≠ none)
    (d : Diagnostics) : d.reportFailure (f.moveTo m).result = d := by
  rcases moveTo_spec h hb with ⟨len, -, hx⟩ | ⟨hnone, -⟩
  · rw [hx]
    rfl
  · exact absurd hnone hfits

theorem reported_lt_moveTo (h : f.Steady) (hb : m + f.fixedLen < 2 ^ 63) (hnone : f.lengthAt m = none)
    (d : Diagnostics) : d.reported < (d.reportFailure (f.moveTo m).result).reported := by
  rcases moveTo_spec h hb with ⟨len, hlen, -⟩ | ⟨-, c, hx⟩
  · cases hnone.symm.trans hlen
  · rw [hx]
    exact (d.reported_report (.one c)).symm ▸ Nat.lt_succ_self _

/-- `f` has as many fixed bytes as `g`, and its tail is no longer. If the tails follow their offsets, they are the same
alignment or the same origin. -/
structure NoLonger (f g : Fragment (Tail κ)) : Prop where
  fixedLen : f.fixedLen = g.fixedLen
  tailLen : f.tailLen ≤ g.tailLen
  tail : f.setsOffset = false ∧ g.setsOffset = false ∨ ∃ t, f.tail = some t ∧ g.tail = some t ∧ t.pads = true

theorem NoLonger.steady (h : f.NoLonger g) : f.Steady ∧ g.Steady := by
  rcases h.tail with ⟨hf, hg⟩ | ⟨t, hf, hg, hp⟩
  · exact ⟨.inl hf, .inl hg⟩
  · exact ⟨.inr ⟨t, hf, hp⟩, .inr ⟨t, hg, hp⟩⟩

theorem NoLonger.end_le (h : f.NoLonger g) (hmn : m ≤ n) :
    m + f.fixedLen + (f.lengthAt m).getD f.tailLen ≤ n + g.fixedLen + (g.lengthAt n).getD g.tailLen := by
  -- What begins no later ends no later, even where an origin overlaps what stands in front of it.
  have hfixed := h.fixedLen
  have htail := h.tailLen
  rcases h.tail with ⟨hf, hg⟩ | ⟨t, hf, hg, hp⟩
  · rw [lengthAt_of_not_setsOffset hf, lengthAt_of_not_setsOffset hg, Option.getD_some, Option.getD_some]
    omega
  · rw [lengthAt_of_pads hf hp, lengthAt_of_pads hg hp, hfixed]
    cases t with
    | align a => exact a.end_mono (Nat.add_le_add_right hmn g.fixedLen)
    | origin o =>
      simp only [Tail.padding?]
      split <;> split <;> simp only [Option.getD_some, Option.getD_none] <;> omega
    | gap _ | leb128 _ | branch _ | times _ _ _ | other _ => cases hp

theorem NoLonger.fits (h : f.NoLonger g) (hmn : m ≤ n) (hm : f.lengthAt m = none) : g.lengthAt n = none := by
  rcases h.tail with ⟨hf, -⟩ | ⟨t, hf, hg, hp⟩
  · rw [lengthAt_of_not_setsOffset hf] at hm
    cases hm
  · rw [lengthAt_of_pads hf hp, h.fixedLen] at hm
    rw [lengthAt_of_pads hg hp]
    cases hlen : t.padding? (n + g.fixedLen) with
    | none => rfl
    | some len =>
      obtain ⟨len', hlen', -⟩ := Tail.padding?_of_le hlen (Nat.add_le_add_right hmn g.fixedLen)
      cases hm.symm.trans hlen'

end Fragment

/-! ## All fragments -/

open Fragment

/-- Where fragments that begin at `offset` end. -/
def endFrom {τ : Type} (offset : Nat) (fs : List (Fragment τ)) : Nat := (fs.getLast?.map nextOffset).getD offset

theorem endFrom_cons {τ : Type} (offset : Nat) (f : Fragment τ) (fs : List (Fragment τ)) :
    endFrom offset (f :: fs) = endFrom f.nextOffset fs := by
  unfold endFrom
  rw [List.getLast?_cons]
  cases fs.getLast? <;> rfl

theorem le_endFrom_layFragments (offset : Nat) (d : Diagnostics) (fs : List (Fragment (Tail κ))) :
    offset ≤ endFrom offset (layFragments offset d fs).1 := by
  induction fs generalizing offset d with
  | nil => exact Nat.le_refl _
  | cons f fs ih =>
    have hstep : offset ≤ (f.moveTo offset).state.nextOffset := by
      unfold nextOffset
      rw [(place_moveTo offset f).1]
      exact Nat.le_add_right _ _
    rw [layFragments, endFrom_cons]
    exact Nat.le_trans hstep (ih _ _)

/-- If nothing begins later and no tail is longer, nothing is laid out further back, and what is reported was reported
before. -/
theorem layFragments_mono {fs gs : List (Fragment (Tail κ))} (h : List.Forall₂ NoLonger fs gs) (d d' : Diagnostics)
    {m n : Nat} (hmn : m ≤ n) (hb : endFrom n (layFragments n d' gs).1 < 2 ^ 63) :
    List.Forall₂ (fun f g => f.offset ≤ g.offset) (layFragments m d fs).1 (layFragments n d' gs).1 ∧
      ((layFragments n d' gs).2 = d' → (layFragments m d fs).2 = d) := by
  induction h generalizing m n d d' with
  | nil => exact ⟨.nil, fun _ => rfl⟩
  | @cons f g fs gs hfg _ ih =>
    obtain ⟨hf, hg⟩ := hfg.steady
    rw [layFragments, endFrom_cons] at hb
    have hrest := le_endFrom_layFragments (g.moveTo n).state.nextOffset (d'.reportFailure (g.moveTo n).result) gs
    have hgb : n + g.fixedLen < 2 ^ 63 := by
      have hle : n + g.fixedLen ≤ (g.moveTo n).state.nextOffset := by
        unfold nextOffset totalLen
        rw [(place_moveTo n g).1, (place_moveTo n g).2]
        omega
      omega
    have hfb : m + f.fixedLen < 2 ^ 63 := by
      have := hfg.fixedLen
      omega
    have hend : (f.moveTo m).state.nextOffset ≤ (g.moveTo n).state.nextOffset := by
      rw [nextOffset_moveTo hf hfb, nextOffset_moveTo hg hgb]
      exact hfg.end_le hmn
    obtain ⟨hoffsets, hquiet⟩ := ih (d.reportFailure (f.moveTo m).result) (d'.reportFailure (g.moveTo n).result) hend hb
    refine ⟨.cons ?_ hoffsets, fun hd => ?_⟩
    · rw [(place_moveTo m f).1, (place_moveTo n g).1]
      exact hmn
    · -- The sink is what it was, so nothing was reported for the first fragment either.
      have hsame : (layFragments (g.moveTo n).state.nextOffset (d'.reportFailure (g.moveTo n).result) gs).2 = d' := hd
      have hgfits : g.lengthAt n ≠ none := by
        intro hnone
        have hmore := reported_lt_moveTo hg hgb hnone d'
        have hle := reported_le_layFragments (g.moveTo n).state.nextOffset (d'.reportFailure (g.moveTo n).result) gs
        rw [hsame] at hle
        omega
      have hffits : f.lengthAt m ≠ none := fun hnone => hgfits (hfg.fits hmn hnone)
      rw [reportFailure_moveTo hg hgb hgfits, reportFailure_moveTo hf hfb hffits] at hquiet
      rw [reportFailure_moveTo hg hgb hgfits] at hsame
      rw [layFragments, reportFailure_moveTo hf hfb hffits]
      exact hquiet hsame

/-- If no tail of a block is longer than in another, laying it out puts no fragment further back than in the other, and
reports nothing unless something is reported for the other. -/
theorem Block.lay_mono {b c : Block (Tail κ)} (h : List.Forall₂ NoLonger b.fragments c.fragments) (d d' : Diagnostics)
    (hsize : (c.lay d').1.size < 2 ^ 63) :
    ((c.lay d').2 = d' → (b.lay d).2 = d) ∧
      List.Forall₂ (fun f g => f.offset ≤ g.offset) (b.lay d).1.fragments (c.lay d').1.fragments := by
  have hend : (c.lay d').1.size = endFrom 0 (layFragments 0 d' c.fragments).1 := by
    unfold Block.size endFrom
    split <;> rename_i hlast <;> rw [show (layFragments 0 d' c.fragments).1.getLast? = _ from hlast] <;> rfl
  obtain ⟨hoffsets, hquiet⟩ := layFragments_mono h d d' (Nat.le_refl 0) (hend ▸ hsize)
  exact ⟨hquiet, hoffsets⟩

/-- A jump of `len` bytes, an alignment that skips at most two bytes, a gap, and an origin. -/
def paddedCode (len : Nat) : Block (Tail Empty) :=
  let jump := { Fragment.ofTail (.branch (.jump (.sym "far"))) .unknown with fixed := [0x90], tailLen := len }
  let align := Fragment.ofTail (.align ⟨.const 8, none, some (.const 2), false, 8, .zeros, some 2⟩) .unknown
  let gap := { Fragment.ofTail (.gap ⟨4⟩) .unknown with tailLen := 4 }
  let origin := Fragment.ofTail (.origin ⟨16, 0⟩) .unknown
  { (Block.empty 0 : Block (Tail Empty))
  with fragments := [jump, align, gap, origin, Fragment.empty.appendBytes [1, 2]] }

-- With the shorter jump the alignment pads less, as it would have to skip too much, and the origin pads more.
theorem Block.lay_mono_paddedCode :
    let short := (paddedCode 2).lay (.empty 8)
    let long := (paddedCode 5).lay (.empty 8)
    short.1.fragments.map (fun f => (f.offset, f.tailLen)) = [(0, 2), (3, 0), (3, 4), (7, 9), (16, 0)] ∧
      long.1.fragments.map (fun f => (f.offset, f.tailLen)) = [(0, 5), (6, 2), (8, 4), (12, 4), (16, 0)] ∧
      long.2 = .empty 8 ∧ short.2 = .empty 8 ∧
      List.Forall₂ (fun f g => f.offset ≤ g.offset) short.1.fragments long.1.fragments := by
  intro short long
  have hlonger : List.Forall₂ NoLonger (paddedCode 2).fragments (paddedCode 5).fragments := by
    refine .cons ⟨rfl, by decide, .inl ⟨rfl, rfl⟩⟩ (.cons ⟨rfl, by decide, .inr ⟨_, rfl, rfl, rfl⟩⟩
      (.cons ⟨rfl, by decide, .inl ⟨rfl, rfl⟩⟩ (.cons ⟨rfl, by decide, .inr ⟨_, rfl, rfl, rfl⟩⟩
      (.cons ⟨rfl, by decide, .inl ⟨rfl, rfl⟩⟩ .nil))))
  have hquiet : long.2 = .empty 8 := by decide +kernel
  obtain ⟨hsilent, hoffsets⟩ := Block.lay_mono hlonger (.empty 8) (.empty 8) (by decide +kernel)
  exact ⟨by decide +kernel, by decide +kernel, hquiet, hsilent hquiet, hoffsets⟩

end SpanLayout
