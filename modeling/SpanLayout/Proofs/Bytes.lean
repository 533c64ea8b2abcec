import Mathlib.Data.Int.ModEq
import Mathlib.Tactic.Ring
import SpanLayout.Proofs.Tail.Requests

/-!
# Reading bytes back

The bytes of an integer in two's complement give it back if it fits them, and the displacements of an encoding are those
that do.
-/

namespace SpanLayout

/-- The natural number that bytes stand for, lowest first. -/
def unsignedOf : List UInt8 → Nat
  | [] => 0
  | b :: bs => b.toNat + 256 * unsignedOf bs

/-- The integer that bytes stand for in two's complement, lowest first. -/
def signedOf (bytes : List UInt8) : Int := Int.bmod (unsignedOf bytes) (256 ^ bytes.length)

theorem toNat_lowest_byte (x : Int) : ((UInt8.ofNat (x % 256).toNat).toNat : Int) = x % 256 := by
  rw [UInt8.toNat_ofNat_of_lt' (show (x % 256).toNat < 256 by omega)]
  omega

theorem dvd_unsignedOf_sub (n : Nat) (x : Int) : (256 ^ n : Int) ∣ unsignedOf (littleEndian n x) - x := by
  induction n generalizing x with
  | zero => simp
  | succ n ih =>
    obtain ⟨k, hk⟩ := ih (x / 256)
    refine ⟨k, ?_⟩
    have hx := Int.mul_ediv_add_emod x 256
    rw [littleEndian, unsignedOf]
    push_cast
    rw [toNat_lowest_byte, pow_succ', mul_assoc, ← hk]
    omega

theorem signedOf_littleEndian {n : Nat} {x : Int} (hl : -256 ^ n ≤ x * 2) (hh : x * 2 < 256 ^ n) :
    signedOf (littleEndian n x) = x := by
  have hmod : ((unsignedOf (littleEndian n x) : Int) % (256 ^ n : Nat)) = x % (256 ^ n : Nat) := by
    rw [Int.emod_eq_emod_iff_emod_sub_eq_zero, ← Int.dvd_iff_emod_eq_zero]
    exact_mod_cast dvd_unsignedOf_sub n x
  rw [signedOf, littleEndian_length, ← Int.emod_bmod, hmod, Int.emod_bmod]
  exact Int.bmod_eq_of_le_mul_two (by exact_mod_cast hl) (by exact_mod_cast hh)

theorem Encoding.signedOf_displacement {e : Encoding} (h : e.proper = true) {x : Int} (hx : e.range.contains x = true) :
    signedOf (littleEndian e.dispSize x) = x := by
  simp only [proper, Bool.and_eq_true, decide_eq_true_eq] at h
  obtain ⟨⟨h1, h4⟩, -⟩ := h
  rw [Window.contains_iff] at hx
  unfold range dispBits at hx
  rw [Nat.one_shiftLeft] at hx
  obtain ⟨opcode, dispSize⟩ := e
  dsimp only at *
  apply signedOf_littleEndian <;> interval_cases dispSize <;> norm_num at hx ⊢ <;> omega

end SpanLayout
