import Mathlib.Algebra.Ring.Int.Defs
import Mathlib.Data.Int.Cast.Lemmas
import Mathlib.Tactic.Ring
import SpanLayout.Expr.Eval

/-!
# What expressions mean

The value of an expression in a commutative ring. In the integers it is the exact value, which evaluation finds if it
finds any; modulo `2 ^ 64` it is the word that an expression stands for, whatever overflows on the way.
-/

namespace SpanLayout

/-- What symbols, locations and slots are worth. -/
structure Valuation (R : Type) where
  sym : String → R
  loc : Location → R
  slot : Nat → R

namespace Expr

variable {R : Type} [CommRing R]

mutual

/-- The value of an expression. -/
def value (ρ : Valuation R) : Expr → R
  | .const v => (v.toInt : R)
  | .sym s => ρ.sym s
  | .loc l => ρ.loc l
  | .slot n => ρ.slot n
  | .neg e => -e.value ρ
  | .sum ts => total ρ ts
  | .mul a b => a.value ρ * b.value ρ

/-- The value of a sum. -/
def total (ρ : Valuation R) : List Expr → R
  | [] => 0
  | t :: ts => t.value ρ + total ρ ts

end

@[simp] theorem total_nil (ρ : Valuation R) : total ρ [] = 0 := by rw [total]

@[simp] theorem total_cons (ρ : Valuation R) (t : Expr) (ts : List Expr) :
    total ρ (t :: ts) = t.value ρ + total ρ ts := by rw [total]

@[simp] theorem total_append (ρ : Valuation R) (ts us : List Expr) :
    total ρ (ts ++ us) = total ρ ts + total ρ us := by
  induction ts with
  | nil => simp
  | cons t ts ih => rw [List.cons_append, total_cons, total_cons, ih, add_assoc]

theorem total_erase (ρ : Valuation R) {t : Expr} {ts : List Expr} (h : t ∈ ts) :
    total ρ (ts.erase t) = total ρ ts - t.value ρ := by
  induction ts with
  | nil => simp at h
  | cons u ts ih =>
    by_cases hu : u = t
    · subst hu
      rw [List.erase_cons_head, total_cons]
      ring
    · rw [List.erase_cons_tail (by simpa using hu), total_cons, total_cons,
        ih ((List.mem_cons.mp h).resolve_left (Ne.symm hu))]
      ring

theorem total_filter_add (ρ : Valuation R) (p : Expr → Bool) (ts : List Expr) :
    total ρ (ts.filter p) + total ρ (ts.filter fun t => !p t) = total ρ ts := by
  induction ts with
  | nil => simp
  | cons t ts ih =>
    cases hp : p t
    · rw [List.filter_cons_of_neg (by simp [hp]), List.filter_cons_of_pos (by simp [hp]), total_cons, total_cons, ← ih]
      ring
    · rw [List.filter_cons_of_pos hp, List.filter_cons_of_neg (by simp [hp]), total_cons, total_cons, ← ih]
      ring

/-! ## Evaluation -/

theorem eq_of_checked {x v : Int} (h : checked x = some v) : v = x := by
  unfold checked at h
  split at h
  · exact (Option.some.inj h).symm
  · simp at h

theorem checked_eq {x : Int} (hl : -wordBound ≤ x) (hh : x < wordBound) : checked x = some x := by
  rw [checked, if_pos ⟨hl, hh⟩]

theorem bounds_of_checked {x v : Int} (h : checked x = some v) : -wordBound ≤ v ∧ v < wordBound := by
  have hx := eq_of_checked h
  unfold checked at h
  split at h
  · rw [hx]
    assumption
  · simp at h

mutual

theorem value_of_eval {env : Env} {ρ : Valuation R} (hs : ∀ n x, env.slot n = some x → ρ.slot n = x)
    (hl : ∀ l x, env.loc l = some x → ρ.loc l = x) (e : Expr) {v : Int} (h : e.eval env = some v) :
    e.value ρ = v := by
  match e with
  | .const c =>
    simp only [eval, Option.some.injEq] at h
    rw [value, h]
  | .sym s => simp [eval] at h
  | .loc l => exact hl l v (by simpa [eval] using h)
  | .slot n => exact hs n v (by simpa [eval] using h)
  | .neg e =>
    rw [eval, Option.bind_eq_some_iff] at h
    obtain ⟨x, hx, h⟩ := h
    rw [value, value_of_eval hs hl e hx, eq_of_checked h, Int.cast_neg]
  | .sum ts =>
    rw [eval] at h
    have := total_of_evalFrom hs hl ts h
    rw [value, this]
    simp
  | .mul a b =>
    simp only [eval, Option.bind_eq_some_iff] at h
    obtain ⟨x, hx, y, hy, h⟩ := h
    rw [value, value_of_eval hs hl a hx, value_of_eval hs hl b hy, eq_of_checked h, Int.cast_mul]

theorem total_of_evalFrom {env : Env} {ρ : Valuation R} (hs : ∀ n x, env.slot n = some x → ρ.slot n = x)
    (hl : ∀ l x, env.loc l = some x → ρ.loc l = x) (ts : List Expr) {acc v : Int}
    (h : evalFrom env acc ts = some v) : total ρ ts = v - acc := by
  match ts with
  | [] =>
    simp only [evalFrom, Option.some.injEq] at h
    rw [total_nil, h, sub_self]
  | t :: ts =>
    simp only [evalFrom, Option.bind_eq_some_iff] at h
    obtain ⟨x, hx, y, hy, h⟩ := h
    rw [total_cons, value_of_eval hs hl t hx, total_of_evalFrom hs hl ts h, eq_of_checked hy, Int.cast_add]
    ring

end

theorem word_of_evalFrom {env : Env} {acc v : Int} (ha : -wordBound ≤ acc ∧ acc < wordBound) (ts : List Expr)
    (h : evalFrom env acc ts = some v) : -wordBound ≤ v ∧ v < wordBound := by
  induction ts generalizing acc with
  | nil =>
    simp only [evalFrom, Option.some.injEq] at h
    rwa [← h]
  | cons t ts ih =>
    simp only [evalFrom, Option.bind_eq_some_iff] at h
    obtain ⟨x, -, y, hy, h⟩ := h
    exact ih (bounds_of_checked hy) h

theorem word_of_eval {env : Env} (hs : ∀ n x, env.slot n = some x → -wordBound ≤ x ∧ x < wordBound)
    (hl : ∀ l x, env.loc l = some x → -wordBound ≤ x ∧ x < wordBound) (e : Expr) {v : Int}
    (h : e.eval env = some v) : -wordBound ≤ v ∧ v < wordBound := by
  cases e with
  | const c =>
    simp only [eval, Option.some.injEq] at h
    rw [← h]
    exact ⟨c.le_toInt, c.toInt_lt⟩
  | sym s => simp [eval] at h
  | loc l => exact hl l v (by simpa [eval] using h)
  | slot n => exact hs n v (by simpa [eval] using h)
  | neg e =>
    rw [eval, Option.bind_eq_some_iff] at h
    obtain ⟨x, -, h⟩ := h
    exact bounds_of_checked h
  | sum ts =>
    rw [eval] at h
    exact word_of_evalFrom (by decide) ts h
  | mul a b =>
    simp only [eval, Option.bind_eq_some_iff] at h
    obtain ⟨x, -, y, -, h⟩ := h
    exact bounds_of_checked h

/-! ## What a value depends on -/

mutual

/-- Whether a slot occurs. -/
def mentionsSlot : Expr → Bool
  | .slot _ => true
  | .neg e => e.mentionsSlot
  | .sum ts => anyMentionsSlot ts
  | .mul a b => a.mentionsSlot || b.mentionsSlot
  | .const _ | .sym _ | .loc _ => false

/-- Whether a slot occurs in some term. -/
def anyMentionsSlot : List Expr → Bool
  | [] => false
  | t :: ts => t.mentionsSlot || anyMentionsSlot ts

end

mutual

/-- Whether a location in the fragment `r` occurs. -/
def mentionsFragment (r : FragmentRef) : Expr → Bool
  | .loc l => decide (l.fragment = r)
  | .neg e => e.mentionsFragment r
  | .sum ts => anyMentionsFragment r ts
  | .mul a b => a.mentionsFragment r || b.mentionsFragment r
  | .const _ | .sym _ | .slot _ => false

/-- Whether a location in the fragment `r` occurs in some term. -/
def anyMentionsFragment (r : FragmentRef) : List Expr → Bool
  | [] => false
  | t :: ts => t.mentionsFragment r || anyMentionsFragment r ts

end

mutual

theorem value_slot_congr {ρ ρ' : Valuation R} (hs : ρ.sym = ρ'.sym) (hl : ρ.loc = ρ'.loc) (e : Expr)
    (h : e.mentionsSlot = false) : e.value ρ = e.value ρ' := by
  match e with
  | .const _ => rfl
  | .sym _ => simp only [value, hs]
  | .loc _ => simp only [value, hl]
  | .slot _ => simp [mentionsSlot] at h
  | .neg e => rw [value, value, value_slot_congr hs hl e (by simpa [mentionsSlot] using h)]
  | .sum ts => rw [value, value, total_slot_congr hs hl ts (by simpa [mentionsSlot] using h)]
  | .mul a b =>
    simp only [mentionsSlot, Bool.or_eq_false_iff] at h
    rw [value, value, value_slot_congr hs hl a h.1, value_slot_congr hs hl b h.2]

theorem total_slot_congr {ρ ρ' : Valuation R} (hs : ρ.sym = ρ'.sym) (hl : ρ.loc = ρ'.loc) (ts : List Expr)
    (h : anyMentionsSlot ts = false) : total ρ ts = total ρ' ts := by
  match ts with
  | [] => simp
  | t :: ts =>
    simp only [anyMentionsSlot, Bool.or_eq_false_iff] at h
    rw [total_cons, total_cons, value_slot_congr hs hl t h.1, total_slot_congr hs hl ts h.2]

end

end Expr

end SpanLayout
