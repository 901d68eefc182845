/-
  Little-endian bytes: the number a list of bytes stands for, the bytes of a
  word, and a word with one byte replaced.
-/

import OpenOS.Base.Word

namespace OpenOS.Base

open BitVec List

/-- A byte (`u8`). -/
abbrev Byte := BitVec 8

/-- The number with these bytes, least significant first. -/
def leNat : List Byte → Nat
  | [] => 0
  | b :: bs => b.toNat + 256 * leNat bs

/-- `u64::from_le_bytes` -/
def Word.fromLeBytes (bytes : List Byte) : Word := BitVec.ofNat 64 (leNat bytes)

/-- `u64::to_le_bytes` -/
def Word.toLeBytes (w : Word) : List Byte := (range 8).map fun i => (w >>> (8 * i)).setWidth 8

/-- The low `n` bytes of a number, least significant first. -/
def leBytes : Nat → Nat → List Byte
  | 0, _ => []
  | n + 1, x => BitVec.ofNat 8 x :: leBytes n (x / 256)

@[simp] theorem length_leBytes (n x : Nat) : (leBytes n x).length = n := by
  induction n generalizing x with
  | zero => rfl
  | succ n ih => rw [leBytes, length_cons, ih]

/-- `n` bytes hold a number modulo `256 ^ n`. -/
theorem leNat_leBytes (n x : Nat) : leNat (leBytes n x) = x % 256 ^ n := by
  induction n generalizing x with
  | zero => rw [leBytes, leNat, Nat.pow_zero, Nat.mod_one]
  | succ n ih =>
    have hsplit : x % 256 ^ (n + 1) = x % 256 + 256 * (x / 256 % 256 ^ n) := by
      rw [Nat.pow_succ', Nat.mod_mul]
    rw [leBytes, leNat, ih, toNat_ofNat, hsplit]

@[simp] theorem Word.length_toLeBytes (w : Word) : (Word.toLeBytes w).length = 8 := by
  simp [Word.toLeBytes]

theorem Word.toLeBytes_eq (w : Word) : Word.toLeBytes w = leBytes 8 w.toNat := by
  have hbyte : ∀ i, (w >>> (8 * i)).setWidth 8 = BitVec.ofNat 8 (w.toNat / 256 ^ i) := by
    intro i
    apply eq_of_toNat_eq
    rw [toNat_setWidth, toNat_ushiftRight, toNat_ofNat, Nat.shiftRight_eq_div_pow, Nat.pow_mul]
  simp only [Word.toLeBytes, hbyte, leBytes, range, range.loop, map_cons,
    map_nil, Nat.div_div_eq_div_mul, Nat.pow_zero, Nat.div_one, Nat.pow_succ]

/-- A word is read back from its bytes. -/
theorem leNat_toLeBytes (w : Word) : leNat (Word.toLeBytes w) = w.toNat := by
  have hlt : w.toNat < 256 ^ 8 := w.isLt
  rw [Word.toLeBytes_eq, leNat_leBytes, Nat.mod_eq_of_lt hlt]

/-! ## One byte of a word -/

/-- Byte `k` of a word. -/
def getByte (w : Word) (k : Nat) : Byte := w.extractLsb' (8 * k) 8

/-- The word with byte `k` replaced. -/
def putByte (w : Word) (k : Nat) (b : Byte) : Word :=
  (w &&& ~~~(0xFF#64 <<< (8 * k))) ||| (b.setWidth 64 <<< (8 * k))

/-- The byte that was put is read back, and no other changes. -/
theorem getByte_putByte (w : Word) (b : Byte) (hj : j < 8) (hk : k < 8) :
    getByte (putByte w k b) j = if j = k then b else getByte w j := by
  apply eq_of_getLsbD_eq
  intro i hi
  have hlt : 8 * j + i < 64 := by omega
  have hmask : (0xFF#64).getLsbD (8 * j + i - 8 * k) = decide (8 * j + i - 8 * k < 8) := by
    rw [show (0xFF#64) = setWidth 64 (allOnes 8) by decide, getLsbD_setWidth, getLsbD_allOnes]
    have hsub : 8 * j + i - 8 * k < 64 := by omega
    simp [hsub]
  -- both sides bit by bit
  simp only [getByte, putByte, getLsbD_extractLsb',
    getLsbD_or, getLsbD_and, getLsbD_not, hlt, getLsbD_shiftLeft, hmask]
  by_cases hjk : j = k
  · subst hjk
    have hge : ¬ 8 * j + i < 8 * j := by omega
    have hi64 : i < 64 := by omega
    simp [hge, hi, hi64]
  rw [if_neg hjk]
  rcases Nat.lt_or_gt_of_ne hjk with h | h
  · have hbelow : 8 * j + i < 8 * k := by omega
    simp [hbelow]
  have habove : ¬ 8 * j + i - 8 * k < 8 := by omega
  have hzero : b.getLsbD (8 * j + i - 8 * k) = false := getLsbD_of_ge _ _ (by omega)
  simp [habove, hzero]

end OpenOS.Base
