/-
  Rights and handles (kernel/src/handle.rs).

  A handle is a 64-bit token that packs a 28-bit slot number, a 10-bit rights
  mask and a 26-bit generation, read here as arithmetic on the token.
-/

import OpenOS.Base.Word

namespace OpenOS

open Base BitVec

/-- Rights bitmask.  Every constructor of the source masks to ten bits, so the
    bound is part of the type. -/
structure Rights where
  raw : BitVec 16
  valid : raw &&& 0x3FF#16 = raw
deriving DecidableEq

namespace Rights

/-- A `Rights` value from a raw `u16`, masked to the valid range. -/
def fromRaw (raw : BitVec 16) : Rights :=
  ⟨raw &&& 0x3FF#16, by rw [BitVec.and_assoc, BitVec.and_self]⟩

/-- Whether every bit of `other` is also set in `self`. -/
def contains (self other : Rights) : Bool := self.raw &&& other.raw == other.raw

/-- The rights both sets have. -/
def intersect (self other : Rights) : Rights :=
  ⟨self.raw &&& other.raw, by rw [BitVec.and_assoc, other.valid]⟩

def all : Rights := ⟨0x3FF, by decide⟩
def read : Rights := ⟨1 <<< 0, by decide⟩
def write : Rights := ⟨1 <<< 1, by decide⟩
def duplicate : Rights := ⟨1 <<< 4, by decide⟩

theorem contains_iff {r : Rights} : r.contains s = true ↔ r.raw &&& s.raw = s.raw := by
  simp [contains]

theorem contains_refl (r : Rights) : r.contains r = true := by
  simp [contains]

theorem contains_trans {r : Rights} (hrs : r.contains s = true) (hst : s.contains t = true) :
    r.contains t = true := by
  rw [contains_iff] at *
  rw [← hst, ← BitVec.and_assoc, hrs]

theorem fromRaw_raw (r : Rights) : fromRaw r.raw = r := by
  cases r with
  | mk raw valid => simp [fromRaw, valid]

theorem raw_toNat_lt (r : Rights) : r.raw.toNat < 2 ^ 10 := by
  rw [← r.valid, toNat_and_mask _ _ 10 (by decide)]
  exact Nat.mod_lt _ (by decide)

end Rights

/-- A process-local token referencing a kernel object. -/
structure Handle where
  raw : Word
deriving DecidableEq

namespace Handle

/-- Pack slot, rights and generation, each masked to its field width. -/
def new (slotId : BitVec 32) (rights : Rights) (generation : BitVec 32) : Handle :=
  ⟨(slotId.setWidth 64 &&& 0x0FFFFFFF#64)
    ||| ((rights.raw.setWidth 64 &&& 0x3FF#64) <<< 28)
    ||| ((generation.setWidth 64 &&& 0x03FFFFFF#64) <<< 38)⟩

/-- A handle from a raw word, e.g. a syscall argument. -/
def fromRaw (raw : Word) : Handle := ⟨raw⟩

/-- Bits 0-27. -/
def slotId (h : Handle) : BitVec 32 := (h.raw &&& 0x0FFFFFFF#64).setWidth 32

/-- Bits 28-37. -/
def rights (h : Handle) : Rights := Rights.fromRaw (((h.raw >>> 28) &&& 0x3FF#64).setWidth 16)

/-- Bits 38-63. -/
def generation (h : Handle) : BitVec 32 := ((h.raw >>> 38) &&& 0x03FFFFFF#64).setWidth 32

/-- The raw word, as passed to user space. -/
def asU64 (h : Handle) : Word := h.raw

/-! ## Fields as arithmetic -/

theorem slotId_toNat (h : Handle) : h.slotId.toNat = h.raw.toNat % 2 ^ 28 := by
  have hmask := toNat_and_mask h.raw 0x0FFFFFFF#64 28 (by decide)
  rw [slotId, toNat_setWidth]
  omega

theorem rights_toNat (h : Handle) : h.rights.raw.toNat = h.raw.toNat / 2 ^ 28 % 2 ^ 10 := by
  have hmask := toNat_shiftRight_and_mask h.raw 0x3FF#64 28 10 (by decide)
  rw [rights, Rights.fromRaw, toNat_and_mask _ _ 10 (by decide), toNat_setWidth]
  omega

theorem generation_toNat (h : Handle) : h.generation.toNat = h.raw.toNat / 2 ^ 38 % 2 ^ 26 := by
  have hmask := toNat_shiftRight_and_mask h.raw 0x03FFFFFF#64 38 26 (by decide)
  rw [generation, toNat_setWidth]
  omega

section

variable (s : BitVec 32) (r : Rights) (g : BitVec 32)

/-- The packed word: the three fields do not overlap, so `|||` adds them up. -/
theorem new_toNat :
    (new s r g).raw.toNat =
      s.toNat % 2 ^ 28 + 2 ^ 28 * r.raw.toNat + 2 ^ 38 * (g.toNat % 2 ^ 26) := by
  have hr := r.raw_toNat_lt
  have hs : (s.setWidth 64 &&& 0x0FFFFFFF#64).toNat = s.toNat % 2 ^ 28 := by
    rw [toNat_and_mask _ _ 28 (by decide), toNat_setWidth]
    omega
  have hrm : (r.raw.setWidth 64 &&& 0x3FF#64).toNat = r.raw.toNat := by
    rw [toNat_and_mask _ _ 10 (by decide), toNat_setWidth]
    omega
  have hg : (g.setWidth 64 &&& 0x03FFFFFF#64).toNat = g.toNat % 2 ^ 26 := by
    rw [toNat_and_mask _ _ 26 (by decide), toNat_setWidth]
    omega
  simp only [new, toNat_or, toNat_shiftLeft, Nat.shiftLeft_eq, hs, hrm, hg]
  have hr64 : r.raw.toNat * 2 ^ 28 % 2 ^ 64 = r.raw.toNat * 2 ^ 28 := by omega
  have hg64 : g.toNat % 2 ^ 26 * 2 ^ 38 % 2 ^ 64 = g.toNat % 2 ^ 26 * 2 ^ 38 :=
    Nat.mod_eq_of_lt (by omega)
  rw [hr64, hg64, or_mul_two_pow _ 28 (Nat.mod_lt _ (by decide)), or_mul_two_pow _ 38 (by omega)]

/-! ## Round trips -/

/-- Only the low 28 bits of the slot number survive packing. -/
theorem slotId_new_toNat : (new s r g).slotId.toNat = s.toNat % 2 ^ 28 := by
  rw [slotId_toNat, new_toNat]
  omega

theorem rights_new : (new s r g).rights = r := by
  have hr := r.raw_toNat_lt
  have hraw : (new s r g).rights.raw = r.raw := by
    apply eq_of_toNat_eq
    rw [rights_toNat, new_toNat]
    omega
  rw [← Rights.fromRaw_raw (new s r g).rights, hraw, Rights.fromRaw_raw]

/-- Only the low 26 bits of the generation survive packing. -/
theorem generation_new_toNat : (new s r g).generation.toNat = g.toNat % 2 ^ 26 := by
  have hr := r.raw_toNat_lt
  rw [generation_toNat, new_toNat]
  omega

end

end Handle

end OpenOS
