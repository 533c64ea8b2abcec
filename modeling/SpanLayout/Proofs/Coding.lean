import SpanLayout.Proofs.Leb128

/-!
# LEB128 bytes

What is written is read back, in however many bytes it is written. The number of bytes that an integer takes is the
least from which it can be read. -/

namespace SpanLayout.Leb128

/-! ## Reading -/

/-- The integer at the beginning of some bytes, and the bytes behind it: bytes with the top bit are followed by others,
and the last one has the sign, if there is one. -/
def read (signed : Bool) : List UInt8 → Option (Int × List UInt8)
  | [] => none
  | b :: bs =>
    if b.toNat < 128 then some (if signed ∧ 64 ≤ b.toNat then b.toNat - 128 else b.toNat, bs)
    else (read signed bs).map fun (x, rest) => (b.toNat - 128 + 128 * x, rest)

theorem toNat_group {x : Int} (h : 0 ≤ x) (hx : x < 256) : ((UInt8.ofNat x.toNat).toNat : Int) = x := by
  rw [UInt8.toNat_ofNat']
  omega

theorem read_last {signed : Bool} {x : Int} (hf : fits signed x = true) (hx : signed = true ∨ 0 ≤ x)
    (rest : List UInt8) : read signed (UInt8.ofNat (x % 128).toNat :: rest) = some (x, rest) := by
  have hbyte := toNat_group (x := x % 128) (by omega) (by omega)
  unfold read
  rw [if_pos (by omega), hbyte]
  cases signed with
  | true =>
    simp only [fits, if_true, decide_eq_true_eq] at hf
    simp only [Option.some.injEq, Prod.mk.injEq, and_true, true_and]
    split <;> omega
  | false =>
    simp only [fits, Bool.false_eq_true, if_false, decide_eq_true_eq] at hf
    simp only [Bool.false_eq_true, false_and, if_false, Option.some.injEq, Prod.mk.injEq, and_true]
    simp only [Bool.false_eq_true, false_or] at hx
    omega

theorem read_more {signed : Bool} {x y : Int} {bytes rest : List UInt8} (h : read signed bytes = some (y, rest)) :
    read signed (UInt8.ofNat (x % 128 + 128).toNat :: bytes) = some (x % 128 + 128 * y, rest) := by
  have hbyte := toNat_group (x := x % 128 + 128) (by omega) (by omega)
  rw [read, if_neg (by omega), h, hbyte, Int.add_sub_cancel]
  rfl

theorem read_encodeGroups {signed : Bool} (minLen : Nat) {x : Int} (hx : signed = true ∨ 0 ≤ x) (rest : List UInt8) :
    read signed (encodeGroups signed minLen x ++ rest) = some (x, rest) := by
  fun_induction encodeGroups signed minLen x with
  | case1 minLen x h => exact read_last h.1 hx rest
  | case2 minLen x h ih =>
    rw [List.cons_append, read_more (ih (hx.imp_right fun h => Int.ediv_nonneg h (by decide))), Int.emod_add_mul_ediv]

/-- All bytes but the last have the top bit. -/
def Terminated (bytes : List UInt8) : Prop :=
  ∃ init last, bytes = init ++ [last] ∧ (∀ b ∈ init, 128 ≤ b.toNat) ∧ last.toNat < 128

theorem terminated_encodeGroups (signed : Bool) (minLen : Nat) (x : Int) :
    Terminated (encodeGroups signed minLen x) := by
  fun_induction encodeGroups signed minLen x with
  | case1 minLen x h =>
    have hbyte := toNat_group (x := x % 128) (by omega) (by omega)
    exact ⟨[], _, rfl, nofun, by omega⟩
  | case2 minLen x h ih =>
    have hbyte := toNat_group (x := x % 128 + 128) (by omega) (by omega)
    obtain ⟨init, last, he, hinit, hlast⟩ := ih
    refine ⟨_ :: init, last, congrArg (List.cons _) he, fun b hb => ?_, hlast⟩
    rcases List.mem_cons.1 hb with rfl | hb
    · omega
    · exact hinit b hb

theorem fits_div {signed : Bool} {x : Int} (h : fits signed x = true) : fits signed (x / 128) = true := by
  -- If one group says all there is to say, one more says nothing else.
  cases signed with
  | true =>
    simp only [fits, if_true, decide_eq_true_eq] at h ⊢
    omega
  | false =>
    simp only [fits, Bool.false_eq_true, if_false, decide_eq_true_eq] at h ⊢
    omega

theorem length_encodeGroups (signed : Bool) (minLen : Nat) (x : Int) :
    (encodeGroups signed minLen x).length = max minLen (groups signed x) := by
  fun_induction encodeGroups signed minLen x with
  | case1 minLen x h =>
    rw [groups_of_fits h.1, List.length_singleton]
    omega
  | case2 minLen x h ih =>
    rw [List.length_cons, ih]
    by_cases hf : fits signed x = true
    · have hlen : ¬ minLen ≤ 1 := fun hlen => h ⟨hf, hlen⟩
      rw [groups_of_fits hf, groups_of_fits (fits_div hf)]
      omega
    · rw [groups_of_not_fits (x := x) (by simpa using hf)]
      omega

theorem payload_nonneg (signed : Bool) (v : Int) : signed = true ∨ 0 ≤ payload signed v := by
  cases signed with
  | true => exact .inl rfl
  | false => exact .inr (Int.emod_nonneg _ (by decide))

/-! ## Reading words -/

/-- Reads a word. The next group goes to bit `shift`, above those in `acc`; what does not fit the word is lost, and the
last group gives its sign to the bits above it. -/
def decodeFrom (signed : Bool) (shift : Nat) (acc : BitVec 64) : List UInt8 → Option (BitVec 64 × List UInt8)
  | [] => none
  | b :: bs =>
    let acc := acc ||| BitVec.ofNat 64 (b.toNat % 128) <<< shift
    if b.toNat < 128 then
      some (if signed ∧ 64 ≤ b.toNat then acc ||| BitVec.allOnes 64 <<< (shift + 7) else acc, bs)
    else decodeFrom signed (shift + 7) acc bs

/-- The word at the beginning of some bytes, and the bytes behind it. -/
def decode (signed : Bool) (bytes : List UInt8) : Option (BitVec 64 × List UInt8) := decodeFrom signed 0 0 bytes

theorem ofInt_group {g : Nat} (hg : g < 128) (y : Int) :
    BitVec.ofInt 64 (g + 128 * y) = BitVec.ofNat 64 g ||| BitVec.ofInt 64 y <<< 7 := by
  have hdisjoint : BitVec.ofNat 64 g &&& BitVec.ofInt 64 y <<< 7 = 0 := by
    refine BitVec.eq_of_getLsbD_eq fun i hi => ?_
    rw [BitVec.getLsbD_and, BitVec.getLsbD_shiftLeft, BitVec.getLsbD_ofNat]
    by_cases h7 : i < 7
    · simp [h7]
    · have hbit : g.testBit i = false :=
        Nat.testBit_lt_two_pow (Nat.lt_of_lt_of_le hg (Nat.pow_le_pow_right (n := 2) (by decide) (Nat.not_lt.1 h7)))
      simp [hbit]
  rw [← BitVec.add_eq_or_of_and_eq_zero _ _ hdisjoint, BitVec.ofInt_add, BitVec.ofInt_natCast, BitVec.ofInt_mul,
    BitVec.shiftLeft_eq_mul_twoPow, BitVec.mul_comm]
  rfl

theorem decodeFrom_eq (signed : Bool) (shift : Nat) (acc : BitVec 64) (bytes : List UInt8) :
    decodeFrom signed shift acc bytes =
      (read signed bytes).map fun p => (acc ||| BitVec.ofInt 64 p.1 <<< shift, p.2) := by
  induction bytes generalizing shift acc with
  | nil => rfl
  | cons b bs ih =>
    have hgroup (g : Nat) (hg : g < 128) (y : Int) : acc ||| BitVec.ofInt 64 (g + 128 * y) <<< shift =
        acc ||| BitVec.ofNat 64 g <<< shift ||| BitVec.ofInt 64 y <<< (shift + 7) := by
      rw [ofInt_group hg, BitVec.shiftLeft_or_distrib, ← BitVec.shiftLeft_add, Nat.add_comm 7, BitVec.or_assoc]
    rw [decodeFrom, read]
    by_cases hlast : b.toNat < 128
    · rw [if_pos hlast, if_pos hlast, Nat.mod_eq_of_lt hlast, Option.map_some]
      dsimp only
      by_cases hsign : signed = true ∧ 64 ≤ b.toNat
      · rw [if_pos hsign, if_pos hsign, show (b.toNat : Int) - 128 = b.toNat + 128 * (-1) by omega, hgroup _ hlast]
        rfl
      · rw [if_neg hsign, if_neg hsign, BitVec.ofInt_natCast]
    · have hb := b.toNat_lt
      rw [if_neg hlast, if_neg hlast, ih, Option.map_map]
      congr 1
      funext ⟨y, rest⟩
      have hg : (b.toNat : Int) - 128 = ((b.toNat % 128 : Nat) : Int) := by omega
      simp only [Function.comp_apply, hg]
      rw [hgroup _ (Nat.mod_lt _ (by decide))]

theorem decode_eq (signed : Bool) (bytes : List UInt8) :
    decode signed bytes = (read signed bytes).map fun p => (BitVec.ofInt 64 p.1, p.2) := by
  unfold decode
  rw [decodeFrom_eq]
  simp

/-! ## Appending -/

theorem toList_pushGroups (signed : Bool) (minLen count : Nat) (x : Int) (out : Array UInt8) :
    (pushGroups signed minLen count x out).toList = out.toList ++ encodeGroups signed (minLen + 1 - count) x := by
  fun_induction pushGroups signed minLen count x out with
  | case1 count x out h => rw [encodeGroups, dif_pos ⟨h.1, by omega⟩, Array.toList_push]
  | case2 count x out h ih =>
    have howed : ¬ (fits signed x = true ∧ minLen + 1 - count ≤ 1) := fun hlast => h ⟨hlast.1, by omega⟩
    rw [ih, encodeGroups.eq_def signed (minLen + 1 - count), dif_neg howed, Array.toList_push, List.append_assoc,
      List.singleton_append, Nat.sub_sub]

theorem toList_append (signed : Bool) (minLen : Nat) (v : Int) (out : Array UInt8) :
    (append signed minLen v out).toList = out.toList ++ encode signed minLen v :=
  toList_pushGroups signed minLen 1 (payload signed v) out

/-! ## The fewest bytes -/

theorem groups_le_succ (signed : Bool) (x : Int) : groups signed x ≤ groups signed (x / 128) + 1 := by
  by_cases hf : fits signed x = true
  · rw [groups_of_fits hf]
    omega
  · rw [groups_of_not_fits (x := x) (by simpa using hf)]

theorem groups_add_length_le_of_read {signed : Bool} {bytes rest : List UInt8} {x : Int}
    (h : read signed bytes = some (x, rest)) : groups signed x + rest.length ≤ bytes.length := by
  induction bytes generalizing x with
  | nil => cases h
  | cons b bs ih =>
    rw [read] at h
    rw [List.length_cons]
    split at h
    · obtain ⟨rfl, rfl⟩ := Prod.mk.inj (Option.some.inj h)
      rw [groups_of_fits]
      · omega
      · unfold fits
        cases signed <;> simp <;> omega
    · obtain ⟨⟨y, rest'⟩, hy, hx⟩ := Option.map_eq_some_iff.1 h
      obtain ⟨rfl, rfl⟩ := Prod.mk.inj hx
      have hrest := ih hy
      have hle := groups_le_succ signed (b.toNat - 128 + 128 * y)
      have hb := b.toNat_lt
      rw [show ((b.toNat : Int) - 128 + 128 * y) / 128 = y by omega] at hle
      omega

theorem nonneg_of_read {bytes rest : List UInt8} {x : Int} (h : read false bytes = some (x, rest)) : 0 ≤ x := by
  induction bytes generalizing x with
  | nil => cases h
  | cons b bs ih =>
    rw [read] at h
    split at h
    · obtain ⟨rfl, -⟩ := Prod.mk.inj (Option.some.inj h)
      simp
    · obtain ⟨⟨y, rest'⟩, hy, hx⟩ := Option.map_eq_some_iff.1 h
      obtain ⟨rfl, rfl⟩ := Prod.mk.inj hx
      have := ih hy
      omega

theorem payload_word (v : Int64) : payload false v.toInt = v.toUInt64.toNat := by
  have hbits : v.toInt = (v.toUInt64.toNat : Int).bmod (2 ^ 64) := BitVec.toInt_eq_toNat_bmod v.toBitVec
  have hlt := v.toUInt64.toNat_lt
  unfold payload
  rw [if_neg (by decide), hbits, show (18446744073709551616 : Int) = ((2 ^ 64 : Nat) : Int) from rfl, Int.bmod_emod]
  omega

/-- Of the integers that are a word modulo `2 ^ 64`, none takes fewer groups than the word itself: nine groups are too
few for two of them. -/
theorem size_le_groups {signed : Bool} {v : Int64} {x : Int} (hx : signed = true ∨ 0 ≤ x)
    (h : BitVec.ofInt 64 x = v.toBitVec) : size signed v.toInt ≤ groups signed x := by
  have hl := v.le_toInt
  have hh := v.toInt_lt
  have hmod : x % (2 ^ 64 : Nat) = v.toInt % (2 ^ 64 : Nat) := by
    rw [← Int.bmod_emod, ← BitVec.toInt_ofInt, h]
    rfl
  by_cases hg : groups signed x ≤ 8 + 1
  · suffices hpayload : payload signed v.toInt = x by
      unfold size
      rw [hpayload]
    unfold payload
    cases signed with
    | true =>
      rw [groups_signed_le_iff] at hg
      rw [if_pos rfl]
      omega
    | false =>
      rw [groups_unsigned_le_iff] at hg
      rw [if_neg (by decide)]
      simp only [Bool.false_eq_true, false_or] at hx
      omega
  · have hmax := size_le_maxLen signed (v := v.toInt) (by unfold wordBound; omega) (by unfold wordBound; omega)
    unfold maxLen at hmax
    omega

theorem size_add_length_le_of_decode {signed : Bool} {bytes rest : List UInt8} {v : Int64}
    (h : decode signed bytes = some (v.toBitVec, rest)) : size signed v.toInt + rest.length ≤ bytes.length := by
  rw [decode_eq] at h
  obtain ⟨⟨x, rest'⟩, hread, hx⟩ := Option.map_eq_some_iff.1 h
  obtain ⟨hword, rfl⟩ := Prod.mk.inj hx
  have hgroups := groups_add_length_le_of_read hread
  have hnonneg : signed = true ∨ 0 ≤ x := by
    cases signed with
    | true => exact .inl rfl
    | false => exact .inr (nonneg_of_read hread)
  have hsize := size_le_groups hnonneg hword
  dsimp only
  omega

theorem ofInt_payload (signed : Bool) (v : Int64) : BitVec.ofInt 64 (payload signed v.toInt) = v.toBitVec := by
  cases signed with
  | true => exact BitVec.ofInt_toInt
  | false =>
    rw [payload_word, BitVec.ofInt_natCast]
    exact (BitVec.ofNat_toNat 64 v.toBitVec).trans (BitVec.setWidth_eq _)

/-- Appending a word leaves what is there and adds as many bytes as the word takes, or as many as are asked for, all but
the last with the top bit. They are read as the word, which as an integer is the word itself, or its bits if it is
unsigned. The word is not read from fewer bytes than it takes. -/
theorem append_reads_back (signed : Bool) (minLen : Nat) (v : Int64) (out : Array UInt8) :
    ∃ bytes, (append signed minLen v.toInt out).toList = out.toList ++ bytes ∧
      bytes.length = max (max (size signed v.toInt) minLen) 1 ∧ Terminated bytes ∧
      (∀ rest, read signed (bytes ++ rest) = some (if signed then v.toInt else v.toUInt64.toNat, rest)) ∧
      (∀ rest, decode signed (bytes ++ rest) = some (v.toBitVec, rest)) ∧
      ∀ others rest, decode signed others = some (v.toBitVec, rest) → size signed v.toInt + rest.length ≤
      others.length := by
  have hread (rest : List UInt8) :
      read signed (encode signed minLen v.toInt ++ rest) = some (payload signed v.toInt, rest) :=
    read_encodeGroups minLen (payload_nonneg signed v.toInt) rest
  refine ⟨encode signed minLen v.toInt, toList_append signed minLen v.toInt out, ?_, terminated_encodeGroups _ _ _,
    fun rest => ?_, fun rest => ?_, fun others rest h => size_add_length_le_of_decode h⟩
  · have hpos := size_pos signed v.toInt
    unfold encode
    rw [length_encodeGroups, show groups signed (payload signed v.toInt) = size signed v.toInt from rfl]
    omega
  · rw [hread]
    cases signed with
    | true => rfl
    | false => rw [payload_word, if_neg (by decide)]
  · rw [decode_eq, hread, Option.map_some, ofInt_payload]

-- Past the tenth byte there is nothing but the sign.
example : (append true 12 (-2) #[7]).toList = [7, 254] ++ List.replicate 10 255 ++ [127] := by
  decide +kernel

end SpanLayout.Leb128
