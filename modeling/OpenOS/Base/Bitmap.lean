/-
  A bitmap stored in bytes, least significant bit first: bit `j` is bit
  `j % 8` of byte `j / 8`.  The lemmas restate the masks `1 << k` and the scan
  for the first clear bit on bit numbers.
-/

import Mathlib.Data.Nat.Bitwise
import Mathlib.Data.List.Range

namespace OpenOS.Base

open BitVec List Bool

/-- A bitmap of `n` bytes. -/
abbrev Bitmap (n : Nat) := Fin n → BitVec 8

namespace Bitmap

/-- Byte `i`, or `none` when the index is out of bounds (a panic). -/
def read (bm : Bitmap n) (i : Nat) : Option (BitVec 8) :=
  if h : i < n then some (bm ⟨i, h⟩) else none

/-- Replace byte `i`. -/
def write (bm : Bitmap n) (i : Nat) (b : BitVec 8) : Bitmap n :=
  fun j => if j.val = i then b else bm j

/-- Bit `j` of the bitmap; out of bounds it reads as clear. -/
def bit (bm : Bitmap n) (j : Nat) : Bool :=
  if h : j / 8 < n then (bm ⟨j / 8, h⟩).getLsbD (j % 8) else false

/-! ## One byte -/

variable {bm : Bitmap n}

theorem and_mask_eq_zero_iff (b : BitVec 8) (hk : k < 8) :
    b &&& 1#8 <<< k = 0 ↔ b.getLsbD k = false := by
  rw [show 1#8 <<< k = twoPow 8 k from rfl, and_twoPow]
  cases hb : b.getLsbD k with
  | false => simp
  | true =>
    simp only [true_eq_false, iff_false]
    intro hzero
    have hbit := congrArg (fun x => getLsbD x k) hzero
    simp [hk] at hbit

theorem getLsbD_or_mask (b : BitVec 8) (hj : j < 8) :
    (b ||| 1#8 <<< k).getLsbD j = if j = k then true else b.getLsbD j := by
  rw [show 1#8 <<< k = twoPow 8 k from rfl]
  by_cases hjk : j = k
  · subst hjk
    simp [hj]
  · simp [hjk, Ne.symm hjk]

theorem getLsbD_and_not_mask (b : BitVec 8) (hj : j < 8) :
    (b &&& ~~~(1#8 <<< k)).getLsbD j = if j = k then false else b.getLsbD j := by
  rw [show 1#8 <<< k = twoPow 8 k from rfl]
  by_cases hjk : j = k
  · subst hjk
    simp [hj]
  · simp [hjk, hj]

theorem eq_allOnes_iff (b : BitVec 8) : b = 0xFF#8 ↔ ∀ k < 8, b.getLsbD k = true := by
  constructor
  · rintro rfl k hk
    have hall : 0xFF#8 = allOnes 8 := rfl
    rw [hall, getLsbD_allOnes, decide_eq_true hk]
  · intro h
    have hall : 0xFF#8 = allOnes 8 := rfl
    rw [hall]
    apply eq_of_getLsbD_eq
    intro k hk
    rw [h k hk, getLsbD_allOnes, decide_eq_true hk]

/-! ## Setting and clearing a bit -/

theorem bit_eq_of_lt (bm : Bitmap n) (h : j / 8 < n) :
    bm.bit j = (bm ⟨j / 8, h⟩).getLsbD (j % 8) := by
  rw [bit, dif_pos h]

theorem lt_of_bit (h : bm.bit j = true) : j / 8 < n := by
  unfold bit at h
  split at h
  · assumption
  · cases h

theorem bit_mul_add (bm : Bitmap n) (hi : i < n) (hk : k < 8) :
    bm.bit (i * 8 + k) = (bm ⟨i, hi⟩).getLsbD k := by
  have hdiv : (i * 8 + k) / 8 = i := by omega
  have hmod : (i * 8 + k) % 8 = k := by omega
  rw [bit_eq_of_lt _ (by omega)]
  simp [hdiv, hmod]

/-- Rewriting the byte of bit `j` by an operation that changes that bit alone. -/
theorem bit_write (hread : bm.read (j / 8) = some b)
    (hb : ∀ k < 8, b'.getLsbD k = if k = j % 8 then v else b.getLsbD k) (m : Nat) :
    (bm.write (j / 8) b').bit m = if m = j then v else bm.bit m := by
  have hj : j / 8 < n := by
    by_contra hout
    rw [read, dif_neg hout] at hread
    cases hread
  rw [read, dif_pos hj] at hread
  cases hread
  by_cases hm : m / 8 < n
  · rw [bit_eq_of_lt _ hm, bit_eq_of_lt _ hm]
    unfold write
    by_cases hbyte : m / 8 = j / 8
    · -- the same byte: the bits decide
      rw [if_pos hbyte, hb _ (Nat.mod_lt _ (by decide))]
      by_cases hmj : m = j
      · rw [if_pos hmj, if_pos (by rw [hmj])]
      · have hmod : m % 8 ≠ j % 8 := by omega
        rw [if_neg hmj, if_neg hmod]
        simp [hbyte]
    · have hmj : m ≠ j := by
        intro h
        exact hbyte (by rw [h])
      rw [if_neg hbyte, if_neg hmj]
  · have hmj : m ≠ j := by
      intro h
      exact hm (h ▸ hj)
    rw [if_neg hmj, bit, dif_neg hm, bit, dif_neg hm]

theorem bit_setBit (hread : bm.read (j / 8) = some b) (m : Nat) :
    (bm.write (j / 8) (b ||| 1#8 <<< (j % 8))).bit m = if m = j then true else bm.bit m :=
  bit_write hread (fun _ hk => getLsbD_or_mask b hk) m

theorem bit_clearBit (hread : bm.read (j / 8) = some b) (m : Nat) :
    (bm.write (j / 8) (b &&& ~~~(1#8 <<< (j % 8)))).bit m =
      if m = j then false else bm.bit m :=
  bit_write hread (fun _ hk => getLsbD_and_not_mask b hk) m

/-! ## Finding the first clear bit -/

/-- The lowest clear bit of a byte, tested mask by mask. -/
def scanByte (b : BitVec 8) : Option Nat := (range 8).find? fun k => b &&& 1#8 <<< k = 0

/-- The first clear bit of the bytes with the given indices: its byte and bit, or `none`
    inside when all are set. The outer `none` is an index out of bounds. -/
def scan (bm : Bitmap n) : List Nat → Option (Option (Nat × Nat))
  | [] => some none
  | i :: is =>
    match bm.read i with
    | none => none
    | some b =>
      if b ≠ 0xFF#8 then
        match scanByte b with
        | some k => some (some (i, k))
        | none => scan bm is
      else scan bm is

theorem scanByte_eq_some (h : scanByte b = some k) :
    k < 8 ∧ b.getLsbD k = false ∧ ∀ m < k, b.getLsbD m = true := by
  unfold scanByte at h
  rw [find?_range_eq_some] at h
  obtain ⟨hclear, hk, hlow⟩ := h
  have hk' : k < 8 := mem_range.mp hk
  refine ⟨hk', (and_mask_eq_zero_iff b hk').mp (of_decide_eq_true hclear), ?_⟩
  intro m hm
  have hset := hlow m hm
  rw [not_eq_true', decide_eq_false_iff_not, and_mask_eq_zero_iff b (by omega)] at hset
  exact eq_true_of_not_eq_false hset

theorem scanByte_ne_none (h : b ≠ 0xFF#8) : scanByte b ≠ none := by
  intro hnone
  refine h ((eq_allOnes_iff b).mpr ?_)
  intro k hk
  have hset := find?_eq_none.mp hnone k (mem_range.mpr hk)
  rw [decide_eq_true_eq, and_mask_eq_zero_iff b hk] at hset
  exact eq_true_of_not_eq_false hset

theorem bit_of_full_byte (hi : i < n) (hfull : bm ⟨i, hi⟩ = 0xFF#8) (hlo : i * 8 ≤ j)
    (hhi : j < (i + 1) * 8) : bm.bit j = true := by
  have hj : j = i * 8 + (j - i * 8) := by omega
  rw [hj, bit_mul_add bm hi (by omega)]
  exact (eq_allOnes_iff _).mp hfull _ (by omega)

/-- The scan of the bytes from `i` on: the lowest clear bit among them, or all
    of them are set. -/
theorem scan_range' (bm : Bitmap n) (i m : Nat) (h : i + m ≤ n) :
    (bm.scan (range' i m) = some none ∧
      ∀ j, i * 8 ≤ j → j < (i + m) * 8 → bm.bit j = true) ∨
    ∃ j, i * 8 ≤ j ∧ j < (i + m) * 8 ∧
      bm.scan (range' i m) = some (some (j / 8, j % 8)) ∧ bm.bit j = false ∧
      ∀ j', i * 8 ≤ j' → j' < j → bm.bit j' = true := by
  induction m generalizing i with
  | zero =>
    left
    refine ⟨rfl, ?_⟩
    intro j hlo hhi
    omega
  | succ m ih =>
    have hi : i < n := by omega
    rw [range'_succ]
    simp only [scan, read, dif_pos hi]
    by_cases hfull : bm ⟨i, hi⟩ = 0xFF#8
    · -- a full byte: its eight bits are set, the rest is the induction hypothesis
      rw [if_neg (not_not_intro hfull)]
      rcases ih (i + 1) (by omega) with ⟨hscan, hall⟩ | ⟨j, hlo, hhi, hscan, hclear, hlow⟩
      · left
        refine ⟨hscan, ?_⟩
        intro j hlo hhi
        by_cases hj : j < (i + 1) * 8
        · exact bit_of_full_byte hi hfull hlo hj
        · exact hall j (by omega) (by omega)
      · right
        refine ⟨j, by omega, by omega, hscan, hclear, ?_⟩
        intro j' hlo' hlt
        by_cases hj : j' < (i + 1) * 8
        · exact bit_of_full_byte hi hfull hlo' hj
        · exact hlow j' (by omega) hlt
    · -- a byte with a clear bit: the scan stops at its lowest one
      rw [if_pos hfull]
      obtain ⟨k, hk⟩ := Option.ne_none_iff_exists'.mp (scanByte_ne_none hfull)
      obtain ⟨hk8, hclear, hlow⟩ := scanByte_eq_some hk
      right
      refine ⟨i * 8 + k, by omega, by omega, ?_, ?_, ?_⟩
      · have hdiv : (i * 8 + k) / 8 = i := by omega
        have hmod : (i * 8 + k) % 8 = k := by omega
        rw [hk, hdiv, hmod]
      · rw [bit_mul_add bm hi hk8, hclear]
      · intro j' hlo' hlt
        have hj : j' = i * 8 + (j' - i * 8) := by omega
        rw [hj, bit_mul_add bm hi (by omega)]
        exact hlow _ (by omega)

/-- The scan of the first `len` bytes finds the lowest clear bit of the bitmap,
    or all `len * 8` bits are set. -/
theorem scan_range (bm : Bitmap n) (h : len ≤ n) :
    (bm.scan (range len) = some none ∧ ∀ j < len * 8, bm.bit j = true) ∨
    ∃ j < len * 8, bm.scan (range len) = some (some (j / 8, j % 8)) ∧
      bm.bit j = false ∧ ∀ j' < j, bm.bit j' = true := by
  have hspec := scan_range' bm 0 len (by omega)
  rw [← range_eq_range', Nat.zero_add] at hspec
  rcases hspec with ⟨hscan, hall⟩ | ⟨j, -, hj, hscan, hclear, hlow⟩
  · exact .inl ⟨hscan, fun j hj => hall j (Nat.zero_le j) hj⟩
  · exact .inr ⟨j, hj, hscan, hclear, fun j' hlt => hlow j' (Nat.zero_le j') hlt⟩

/-! ## A bitmap whose first bytes are full -/

/-- The first `k` bytes all ones, the others zero. -/
def fillPrefix (n k : Nat) : Bitmap n :=
  fun i => if i.val < k then 0xFF#8 else 0#8

theorem bit_fillPrefix (hk : k ≤ n) (j : Nat) : (fillPrefix n k).bit j = decide (j < k * 8) := by
  by_cases hj : j / 8 < n
  · rw [bit_eq_of_lt _ hj, fillPrefix]
    by_cases hlt : j / 8 < k
    · have hfull := (eq_allOnes_iff 0xFF#8).mp rfl (j % 8) (Nat.mod_lt _ (by decide))
      rw [if_pos hlt, hfull, decide_eq_true (by omega)]
    · rw [if_neg hlt, getLsbD_zero, decide_eq_false (by omega)]
  · rw [bit, dif_neg hj, decide_eq_false (by omega)]

end Bitmap

end OpenOS.Base
