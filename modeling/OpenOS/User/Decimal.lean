/-
  Decimal numerals in user programs: `format_u64` of the coreutils
  (user/coreutils/src/common.rs) and of tar (user/tar/src/main.rs).

  `format_u64` steps one place past the first digit before its loop ends, so its
  slice starts with a byte of the old buffer unless all 20 places are in use.
-/

import Mathlib.Data.Nat.Digits.Defs
import OpenOS.Base.Bytes

namespace OpenOS.User

open Base
open List (length_cons length_drop length_map length_reverse length_set
  drop_eq_getElem_cons getElem_set_self drop_set_of_lt)

/-- `b'0' + (val % 10) as u8` -/
def digit (val : Nat) : Byte := 0x30 + BitVec.ofNat 8 (val % 10)

/-- The loop of `format_u64` from `pos` on. -/
def writeDigits : Nat → Nat → List Byte → List Byte × Nat
  | 0, tmp, buf => if tmp = 0 then (buf, 0) else (buf.set 0 (digit tmp), 0)
  | pos + 1, tmp, buf =>
    if tmp = 0 then (buf, pos + 1)
    else writeDigits pos (tmp / 10) (buf.set (pos + 1) (digit tmp))

/-- `format_u64` of the coreutils. -/
def formatU64 (val : Word) (buf : Vector Byte 20) : List Byte :=
  if val = 0 then (buf.toList.set 0 0x30).take 1
  else
    let (buf, pos) := writeDigits 19 val.toNat buf.toList
    buf.drop pos

/-- `format_u64` of tar. -/
def formatU64Tar (val : Word) (buf : Vector Byte 20) : List Byte :=
  if val = 0 then [0x30]
  else
    let (buf, pos) := writeDigits 19 val.toNat buf.toList
    buf.drop pos

/-- The decimal numeral. -/
def numeral (val : Nat) : List Byte :=
  if val = 0 then [0x30] else (Nat.digits 10 val).reverse.map digit

theorem length_writeDigits (pos tmp : Nat) (buf : List Byte) :
    (writeDigits pos tmp buf).1.length = buf.length := by
  induction pos generalizing tmp buf with
  | zero =>
    rw [writeDigits]
    split_ifs <;> simp
  | succ pos ih =>
    rw [writeDigits]
    split_ifs <;> simp [ih]

/-- With a place to spare the loop ends before the first digit. -/
theorem writeDigits_of_lt (buf : List Byte) (h : tmp < 10 ^ pos) :
    (writeDigits pos tmp buf).2 + (Nat.digits 10 tmp).length = pos := by
  induction pos generalizing tmp buf with
  | zero =>
    rw [Nat.lt_one_iff.mp h]
    rfl
  | succ pos ih =>
    rw [writeDigits]
    split_ifs with hzero
    · simp [hzero]
    · rw [Nat.digits_def' (by decide) (Nat.pos_of_ne_zero hzero), length_cons]
      have hlt : tmp / 10 < 10 ^ pos := by omega
      have hrest := ih (buf.set (pos + 1) (digit tmp)) hlt
      omega

/-- A number with a digit for each place is written from the start. -/
theorem writeDigits_of_le (h : 10 ^ pos ≤ tmp) (hlt : tmp < 10 ^ (pos + 1))
    (hlen : pos < buf.length) : writeDigits pos tmp buf =
      ((Nat.digits 10 tmp).reverse.map digit ++ buf.drop (pos + 1), 0) := by
  have hpos : 0 < tmp := lt_of_lt_of_le (Nat.pow_pos (by decide)) h
  induction pos generalizing tmp buf with
  | zero =>
    rw [writeDigits, if_neg (by omega), Nat.digits_of_lt 10 tmp (by omega) (by omega)]
    cases buf with
    | nil => cases hlen
    | cons b buf => simp
  | succ pos ih =>
    have hrest : writeDigits pos (tmp / 10) (buf.set (pos + 1) (digit tmp)) = _ :=
      ih (by omega) (by omega) (by rw [length_set]; omega) (by omega)
    rw [writeDigits, if_neg (by omega), hrest, Nat.digits_def' (by decide) hpos,
      drop_eq_getElem_cons (by rw [length_set]; omega), getElem_set_self, drop_set_of_lt (by omega)]
    simp [digit]

/-- Both functions return the numeral. -/
def Exact (val : Word) (buf : Vector Byte 20) : Prop :=
  formatU64 val buf = numeral val.toNat ∧ formatU64Tar val buf = numeral val.toNat

theorem exact_iff (val : Word) (buf : Vector Byte 20) :
    Exact val buf ↔ val = 0 ∨ 10 ^ 19 ≤ val.toNat := by
  by_cases hzero : val = 0
  · subst hzero
    refine iff_of_true ⟨?_, rfl⟩ (.inl rfl)
    show (buf.toList.set 0 0x30).take 1 = [0x30]
    cases h : buf.toList with
    | nil => simpa [h] using buf.length_toList
    | cons b l => rfl
  have hne : val.toNat ≠ 0 := fun h => hzero (BitVec.eq_of_toNat_eq h)
  rw [Exact, formatU64, formatU64Tar, if_neg hzero, if_neg hzero, and_self, numeral, if_neg hne,
    or_iff_right hzero]
  by_cases hlarge : 10 ^ 19 ≤ val.toNat
  · refine iff_of_true ?_ hlarge
    rw [writeDigits_of_le hlarge (lt_trans val.isLt (by decide)) (by simp)]
    simp
  · refine iff_of_false (fun h => ?_) hlarge
    have hlen := congrArg List.length h
    have hstop := writeDigits_of_lt buf.toList (Nat.lt_of_not_le hlarge)
    rw [length_drop, length_writeDigits, length_map, length_reverse, buf.length_toList] at hlen
    omega

/-- The buffer is new, and the numeral of 5 has a zero byte before it. -/
theorem not_exact_five : ¬ Exact 5 (.replicate 20 0) := by
  intro h
  exact absurd h.1 (by decide +kernel)

end OpenOS.User
