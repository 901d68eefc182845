/-
  The CRC-32 of cksum (user/coreutils/src/cksum.rs).

  The remainder is moved on by a byte with one look into a table.  Moving it on by a
  bit is linear, so the table gives what eight single bits give.
-/

import OpenOS.Base.Bytes

namespace OpenOS.User.Cksum

open Base List

/-- A round of the loop that builds a table entry. -/
def shift (crc : BitVec 32) : BitVec 32 :=
  if crc &&& 1 ≠ 0 then (crc >>> 1) ^^^ 0xEDB88320 else crc >>> 1

def shifts : Nat → BitVec 32 → BitVec 32
  | 0, crc => crc
  | n + 1, crc => shifts n (shift crc)

/-- CRC32_TABLE -/
def table (i : BitVec 32) : BitVec 32 := shifts 8 i

/-- A round of the loop of `crc32_update`. -/
def updateByte (crc : BitVec 32) (byte : Byte) : BitVec 32 :=
  (crc >>> 8) ^^^ table ((crc ^^^ byte.setWidth 32) &&& 0xFF)

def crc32Update (crc : BitVec 32) (data : List Byte) : BitVec 32 := data.foldl updateByte crc

/-- What cksum prints for a file that is read in these chunks. -/
def cksum (chunks : List (List Byte)) : BitVec 32 :=
  chunks.foldl crc32Update 0xFFFFFFFF ^^^ 0xFFFFFFFF

/-! ## Bit by bit -/

/-- The polynomial is subtracted or not. -/
def poly (bit : Bool) : BitVec 32 := if bit then 0xEDB88320 else 0#32

/-- The division takes the next bit of the message. -/
def divideBit (crc : BitVec 32) (bit : Bool) : BitVec 32 :=
  (crc >>> 1) ^^^ poly (crc.getLsbD 0 ^^ bit)

/-- The bits of a byte, least significant first. -/
def bits (byte : Byte) : List Bool := (range 8).map byte.getLsbD

/-- The reflected CRC-32 of the bits. -/
def bitwiseCrc (data : List Byte) : BitVec 32 :=
  (data.flatMap bits).foldl divideBit 0xFFFFFFFF ^^^ 0xFFFFFFFF

theorem poly_xor (a b : Bool) : poly (a ^^ b) = poly a ^^^ poly b := by
  cases a <;> cases b <;> rfl

theorem shift_eq (crc : BitVec 32) : shift crc = (crc >>> 1) ^^^ poly (crc.getLsbD 0) := by
  have h : crc &&& 1 = (BitVec.ofBool (crc.getLsbD 0)).setWidth 32 :=
    BitVec.and_one_eq_setWidth_ofBool_getLsbD
  rw [shift, h]
  cases crc.getLsbD 0
  · exact BitVec.xor_zero.symm
  · rfl

theorem shift_xor (a b : BitVec 32) : shift (a ^^^ b) = shift a ^^^ shift b := by
  rw [shift_eq, shift_eq, shift_eq, BitVec.getLsbD_xor, BitVec.ushiftRight_xor_distrib, poly_xor]
  ac_rfl

theorem shifts_xor (n : Nat) (a b : BitVec 32) : shifts n (a ^^^ b) = shifts n a ^^^ shifts n b := by
  induction n generalizing a b with
  | zero => rfl
  | succ n ih => rw [shifts, shift_xor, ih, shifts, shifts]

/-- Clear low bits only move the rest down. -/
theorem shifts_of_clear (h : ∀ i < n, a.getLsbD i = false) : shifts n a = a >>> n := by
  induction n generalizing a with
  | zero => rfl
  | succ n ih =>
    rw [shifts, shift_eq, h 0 (Nat.succ_pos n), poly, if_neg Bool.false_ne_true,
      BitVec.xor_zero, ih, Nat.add_comm, BitVec.shiftRight_add]
    intro i hi
    simpa [Nat.add_comm] using h (i + 1) (by omega)

theorem shiftRight_eight (h : x.toNat < 256) : (x : BitVec 32) >>> 8 = 0#32 := by
  apply BitVec.eq_of_toNat_eq
  rw [BitVec.toNat_ushiftRight, Nat.shiftRight_eq_div_pow]
  exact Nat.div_eq_of_lt h

/-- Eight shifts are one look into the table. -/
theorem shifts_eight (x : BitVec 32) : shifts 8 x = (x >>> 8) ^^^ table (x &&& 0xFF) := by
  have hmask : ∀ i < 8, (0xFF : BitVec 32).getLsbD i = true := by decide
  have hclear : ∀ i < 8, (x ^^^ (x &&& 0xFF)).getLsbD i = false := by
    intro i hi
    rw [BitVec.getLsbD_xor, BitVec.getLsbD_and, hmask i hi, Bool.and_true, Bool.xor_self]
  have hlow : (x &&& 0xFF) >>> 8 = 0#32 := by
    apply shiftRight_eight
    exact Nat.lt_of_le_of_lt Nat.and_le_right (by decide)
  have hx : x = (x ^^^ (x &&& 0xFF)) ^^^ (x &&& 0xFF) := by
    rw [BitVec.xor_assoc, BitVec.xor_self, BitVec.xor_zero]
  nth_rewrite 1 [hx]
  rw [shifts_xor, shifts_of_clear hclear, BitVec.ushiftRight_xor_distrib, hlow, BitVec.xor_zero, table]

/-- To divide by the low bits of a word is to add the word and to shift. -/
theorem foldl_divideBit (h : ∀ i ≥ n, y.getLsbD i = false) :
    ((range n).map y.getLsbD).foldl divideBit crc = shifts n (crc ^^^ y) := by
  induction n generalizing crc y with
  | zero =>
    have hy : y = 0#32 := BitVec.eq_of_getLsbD_eq fun i _ => by simpa using h i (Nat.zero_le i)
    rw [hy, BitVec.xor_zero]
    rfl
  | succ n ih =>
    have hnext : (range (n + 1)).map y.getLsbD =
        y.getLsbD 0 :: (range n).map (y >>> 1).getLsbD := by
      rw [range_succ_eq_map, map_cons, map_map]
      simp [Function.comp_def, Nat.add_comm]
    have hshift : shift (crc ^^^ y) = divideBit crc (y.getLsbD 0) ^^^ (y >>> 1) := by
      rw [shift_eq, divideBit, BitVec.getLsbD_xor, BitVec.ushiftRight_xor_distrib]
      ac_rfl
    rw [hnext, foldl_cons, ih, shifts, hshift]
    intro i hi
    simpa [Nat.add_comm] using h (i + 1) (by omega)

theorem updateByte_eq (crc : BitVec 32) (byte : Byte) :
    updateByte crc byte = shifts 8 (crc ^^^ byte.setWidth 32) := by
  have hbyte : byte.setWidth 32 >>> 8 = 0#32 := by
    apply shiftRight_eight
    rw [BitVec.toNat_setWidth]
    omega
  rw [shifts_eight, BitVec.ushiftRight_xor_distrib, hbyte, BitVec.xor_zero, updateByte]

theorem foldl_bits (crc : BitVec 32) (byte : Byte) :
    (bits byte).foldl divideBit crc = updateByte crc byte := by
  have hbits : bits byte = (range 8).map (byte.setWidth 32).getLsbD := by
    apply map_congr_left
    intro i hi
    rw [mem_range] at hi
    simp
    omega
  rw [updateByte_eq, hbits, foldl_divideBit]
  intro i hi
  rw [BitVec.getLsbD_setWidth, BitVec.getLsbD_of_ge byte i hi, Bool.and_false]

theorem crc32Update_xor (h : a.length = b.length) :
    crc32Update (c ^^^ c') (zipWith (· ^^^ ·) a b) = crc32Update c a ^^^ crc32Update c' b := by
  induction a generalizing b c c' with
  | nil =>
    cases b with
    | nil => rfl
    | cons => cases h
  | cons x a ih =>
    cases b with
    | nil => cases h
    | cons y b =>
      have hbyte : updateByte (c ^^^ c') (x ^^^ y) = updateByte c x ^^^ updateByte c' y := by
        rw [updateByte_eq, updateByte_eq, updateByte_eq, ← shifts_xor, BitVec.setWidth_xor]
        congr 1
        ac_rfl
      rw [zipWith_cons_cons, crc32Update, foldl_cons, hbyte]
      exact ih (Nat.succ.inj h)

/-- The table gives the division of the whole file, and the remainder is affine in the bytes. -/
theorem cksum_eq_bitwiseCrc :
    (∀ chunks, cksum chunks = bitwiseCrc chunks.flatten) ∧
    ∀ init a b, a.length = b.length → crc32Update init (zipWith (· ^^^ ·) a b) =
      crc32Update init a ^^^ crc32Update init b ^^^ crc32Update init (replicate a.length 0) := by
  refine ⟨fun chunks => ?_, fun init a b h => ?_⟩
  · rw [bitwiseCrc, foldl_flatMap, foldl_flatten]
    simp only [foldl_bits]
    rfl
  · have hlen : (zipWith (· ^^^ ·) a b).length = (replicate a.length (0 : Byte)).length := by
      simp [h]
    have hzero : zipWith (· ^^^ ·) (zipWith (· ^^^ ·) a b) (replicate a.length 0) =
        zipWith (· ^^^ ·) a b := by
      apply ext_getElem
      · simp [h]
      · simp
    rw [← crc32Update_xor h, ← crc32Update_xor hlen, hzero, BitVec.xor_self, BitVec.zero_xor]

theorem cksum_eq_bitwiseCrc_twoBytes :
    crc32Update 5 (zipWith (· ^^^ ·) [1, 2] [3, 4]) =
      crc32Update 5 [1, 2] ^^^ crc32Update 5 [3, 4] ^^^ crc32Update 5 [0, 0] :=
  cksum_eq_bitwiseCrc.2 5 [1, 2] [3, 4] rfl

end OpenOS.User.Cksum
