/-
  Physical memory byte by byte: the byte at a physical address is a byte of one
  of the 512 words of its frame.  Here are the byte writes of the kernel
  (`write_bytes`, `copy_nonoverlapping`) and what they leave readable.
-/

import OpenOS.Base.Bytes
import OpenOS.Memory.PageTable

namespace OpenOS.Memory.PageTable

open Function OpenOS.Base List

namespace PhysMem

/-- The word of its frame in which the byte at `a` lies. -/
def wordIdx (a : Word) : Fin 512 := ⟨a.toNat / 8 % 512, Nat.mod_lt _ (by decide)⟩

def byteAt (mem : PhysMem) (a : Word) : Byte := getByte (mem (pageOf a) (wordIdx a)) (a.toNat % 8)

def setByte (mem : PhysMem) (a : Word) (b : Byte) : PhysMem :=
  mem.setEntry (pageOf a) (wordIdx a) (putByte (mem (pageOf a) (wordIdx a)) (a.toNat % 8) b)

/-- `copy_nonoverlapping` of these bytes to physical address `a`. -/
def setBytes (mem : PhysMem) (a : Word) : List Byte → PhysMem
  | [] => mem
  | b :: bs => (mem.setByte a b).setBytes (a + 1) bs

/-- An address is its frame, its word in the frame and its byte in the word. -/
theorem addr_ext (hframe : pageOf a = pageOf a') (hword : wordIdx a = wordIdx a')
    (hbyte : a.toNat % 8 = a'.toNat % 8) : a = a' := by
  have hframe' : a.toNat / 4096 * 4096 = a'.toNat / 4096 * 4096 := by
    rw [← toNat_pageOf, ← toNat_pageOf, hframe]
  have hword' : a.toNat / 8 % 512 = a'.toNat / 8 % 512 := congrArg Fin.val hword
  apply BitVec.eq_of_toNat_eq
  omega

theorem byteAt_setByte (mem : PhysMem) (a a' : Word) (b : Byte) :
    (mem.setByte a b).byteAt a' = if a' = a then b else mem.byteAt a' := by
  have hlt : ∀ x : Word, x.toNat % 8 < 8 := fun x => Nat.mod_lt _ (by decide)
  unfold byteAt setByte PhysMem.setEntry
  by_cases hframe : pageOf a' = pageOf a
  · rw [hframe, update_self]
    by_cases hword : wordIdx a' = wordIdx a
    · rw [hword, update_self, getByte_putByte _ _ (hlt a') (hlt a)]
      congr 1
      exact propext ⟨addr_ext hframe hword, fun h => by rw [h]⟩
    · rw [update_of_ne hword, if_neg (fun h => hword (by rw [h]))]
  · rw [update_of_ne hframe, if_neg (fun h => hframe (by rw [h]))]

theorem byteAt_setBytes (mem : PhysMem) (a a' : Word) (bs : List Byte) (hlen : bs.length ≤ 2 ^ 64) :
    (mem.setBytes a bs).byteAt a' = bs.getD (a' - a).toNat (mem.byteAt a') := by
  induction bs generalizing mem a with
  | nil => simp [setBytes]
  | cons b bs ih =>
    rw [length_cons] at hlen
    rw [setBytes, ih _ _ (by omega), byteAt_setByte]
    by_cases heq : a' = a
    · -- the rest of the copy does not come back to `a`
      subst heq
      have hwrap : (a' - (a' + 1)).toNat = 2 ^ 64 - 1 := by bv_omega
      rw [getD_eq_default _ _ (by omega), if_pos rfl, BitVec.sub_self]
      rfl
    · have hpos : (a' - a).toNat = (a' - (a + 1)).toNat + 1 := by bv_omega
      rw [hpos, getD_cons_succ, if_neg heq]

theorem byteAt_zeroTable (mem : PhysMem) (f a : Word) :
    (mem.zeroTable f).byteAt a = if pageOf a = f then 0 else mem.byteAt a := by
  unfold byteAt PhysMem.zeroTable
  by_cases hframe : pageOf a = f
  · rw [hframe, getByte]
    simp
  · rw [update_of_ne hframe, if_neg hframe]

end PhysMem

end OpenOS.Memory.PageTable
