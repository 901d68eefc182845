/-
  Text as the kernel sees it: decimal numbers and the first component of a path,
  over lists of characters, and the UTF-8 bytes of a string.
-/

import OpenOS.Base.Bytes
import Mathlib.Data.List.Basic

namespace OpenOS.Base

open List

/-! ## Decimal numbers -/

/-- The digits of `str::parse::<u64>`, after an optional plus sign. -/
def stripPlus : List Char → List Char
  | '+' :: rest => rest
  | s => s

/-- `str::parse::<u64>`: decimal digits, at least one, of a value that fits. -/
def parseU64 (s : List Char) : Option Word :=
  let digits := stripPlus s
  if digits ≠ [] ∧ digits.all Char.isDigit ∧ Nat.ofDigitChars 10 digits 0 < 2 ^ 64 then
    some (BitVec.ofNat 64 (Nat.ofDigitChars 10 digits 0))
  else none

/-- `u64::to_string` -/
def decimal (w : Word) : List Char := Nat.toDigits 10 w.toNat

theorem isDigit_of_mem_decimal (h : c ∈ decimal w) : c.isDigit = true :=
  Nat.isDigit_of_mem_toDigits (by decide) (by decide) h

theorem decimal_ne_nil (w : Word) : decimal w ≠ [] := Nat.toDigits_ne_nil

theorem notMem_decimal (hc : c.isDigit = false) (w : Word) : c ∉ decimal w := by
  intro h
  rw [isDigit_of_mem_decimal h] at hc
  cases hc

/-- What is printed can be parsed back. -/
theorem parseU64_decimal (w : Word) : parseU64 (decimal w) = some w := by
  have hplus : stripPlus (decimal w) = decimal w := by
    cases hd : decimal w with
    | nil => rfl
    | cons c cs =>
      have hdigit : c.isDigit = true := isDigit_of_mem_decimal (w := w) (by simp [hd])
      unfold stripPlus
      split
      · rename_i heq
        obtain ⟨rfl, -⟩ := cons_eq_cons.mp heq
        cases hdigit
      · rfl
  have hall : (decimal w).all Char.isDigit = true :=
    all_eq_true.mpr fun c hc => isDigit_of_mem_decimal hc
  have hval : Nat.ofDigitChars 10 (decimal w) 0 = w.toNat := by
    simp [decimal]
  simp only [parseU64, hplus]
  rw [if_pos ⟨decimal_ne_nil w, hall, hval ▸ w.isLt⟩, hval, BitVec.ofNat_toNat, BitVec.setWidth_eq]

theorem decimal_injective : Function.Injective decimal := by
  intro a b h
  have heq : some a = some b := by rw [← parseU64_decimal a, h, parseU64_decimal]
  exact Option.some.inj heq

/-! ## Path components -/

/-- `splitn(2, '/')`: what stands before the first slash, and what after it. -/
def splitSlash : List Char → List Char × Option (List Char)
  | [] => ([], none)
  | c :: cs =>
    if c = '/' then ([], some cs)
    else
      let q := splitSlash cs
      (c :: q.1, q.2)

theorem splitSlash_append (ha : '/' ∉ a) (b : List Char) :
    splitSlash (a ++ '/' :: b) = (a, some b) := by
  induction a with
  | nil => rfl
  | cons c cs ih =>
    rw [mem_cons, not_or] at ha
    rw [cons_append, splitSlash, if_neg (Ne.symm ha.1), ih ha.2]

theorem splitSlash_of_notMem (ha : '/' ∉ a) : splitSlash a = (a, none) := by
  induction a with
  | nil => rfl
  | cons c cs ih =>
    rw [mem_cons, not_or] at ha
    rw [splitSlash, if_neg (Ne.symm ha.1), ih ha.2]

/-! ## UTF-8 -/

/-- `str::as_bytes` -/
def utf8Bytes (s : String) : List Byte := s.toUTF8.data.toList.map UInt8.toBitVec

def fromUtf8 (bytes : List Byte) : Option String :=
  String.fromUTF8? ⟨(bytes.map UInt8.ofBitVec).toArray⟩

theorem map_ofBitVec_utf8Bytes (s : String) :
    (utf8Bytes s).map UInt8.ofBitVec = s.toUTF8.data.toList := by
  rw [utf8Bytes, map_map]
  exact map_id'' (fun _ => rfl) _

theorem fromUtf8_utf8Bytes (s : String) : fromUtf8 (utf8Bytes s) = some s := by
  rw [fromUtf8, map_ofBitVec_utf8Bytes]
  show String.fromUTF8? s.toByteArray = some s
  rw [String.fromUTF8?, dif_pos s.isValidUTF8]
  rfl

theorem utf8Bytes_of_fromUtf8 (h : fromUtf8 bytes = some s) : utf8Bytes s = bytes := by
  unfold fromUtf8 String.fromUTF8? at h
  split at h
  · cases h
    show map UInt8.toBitVec (bytes.map UInt8.ofBitVec) = bytes
    rw [map_map]
    exact map_id'' (fun _ => rfl) _
  · cases h

theorem length_utf8Bytes (s : String) : (utf8Bytes s).length = s.utf8ByteSize := by
  rw [utf8Bytes, length_map]
  rfl

theorem utf8Bytes_append (s t : String) : utf8Bytes (s ++ t) = utf8Bytes s ++ utf8Bytes t := by
  simp [utf8Bytes]

theorem utf8Bytes_eq_nil : utf8Bytes s = [] ↔ s = "" := by
  rw [← length_eq_zero_iff, length_utf8Bytes, String.utf8ByteSize_eq_zero_iff]

end OpenOS.Base
