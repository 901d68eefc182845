/-
  Fixed-width integers: the checked arithmetic of the two build profiles, the
  unsigned order, and masks and shifts as `%`, `/`, `*` on the unsigned value,
  which is where `omega` takes over.
-/

import Mathlib.Data.Nat.Bitwise
import Mathlib.Order.Lattice

namespace OpenOS.Base

open BitVec Option

/-- A 64-bit machine word (`u64`). -/
abbrev Word := BitVec 64

/-- Literals index the tables with 32 entries. -/
instance neZero32 : NeZero 32 := ⟨by decide⟩

/-- How a build treats an arithmetic overflow: a development build panics, a
    release build wraps. -/
inductive Profile
  | dev
  | release
deriving DecidableEq

/-- The wrapped result `v` of an operation whose exact result `fits` the type or
    not; `none` is a panic. -/
def Profile.checked {w : Nat} (p : Profile) (fits : Prop) [Decidable fits] (v : BitVec w) :
    Option (BitVec w) :=
  if fits then some v
  else match p with
    | .dev => none
    | .release => some v

section

variable (p : Profile) (a b : BitVec w)

/-- `a + b` of a fixed-width type under a build profile. -/
def Profile.add : Option (BitVec w) := p.checked (a.toNat + b.toNat < 2 ^ w) (a + b)

/-- `a - b` of a fixed-width type under a build profile. -/
def Profile.sub : Option (BitVec w) := p.checked (b.toNat ≤ a.toNat) (a - b)

/-- `a * b` of a fixed-width type under a build profile. -/
def Profile.mul : Option (BitVec w) := p.checked (a.toNat * b.toNat < 2 ^ w) (a * b)

/-- The exact result `n` of an operation of a `w`-bit type, as a number. -/
def Profile.fit (w n : Nat) : Option Nat :=
  if n < 2 ^ w then some n
  else match p with
    | .dev => none
    | .release => some (n % 2 ^ w)

/-- `a - b` of a `w`-bit type, as numbers. -/
def Profile.fitSub (w a b : Nat) : Option Nat :=
  if b ≤ a then some (a - b)
  else match p with
    | .dev => none
    | .release => some ((2 ^ w + a - b) % 2 ^ w)

end

variable {p : Profile} {b : BitVec w}

theorem Profile.fit_of_lt (p : Profile) (h : n < 2 ^ w) : p.fit w n = some n := if_pos h

theorem Profile.fitSub_of_le (p : Profile) {b : Nat} (h : b ≤ a) : p.fitSub w a b = some (a - b) :=
  if_pos h

theorem Profile.checked_of_fits (p : Profile) [Decidable fits] (v : BitVec w) (h : fits) :
    p.checked fits v = some v := by
  simp [Profile.checked, if_pos h]

theorem Profile.eq_of_checked_eq_some [Decidable fits] (h : p.checked fits v = some c) : c = v := by
  unfold Profile.checked at h
  split at h
  · exact (some.inj h).symm
  · cases p with
    | dev => cases h
    | release => exact (some.inj h).symm

theorem Profile.eq_add_of_add_eq_some (h : p.add a b = some c) : c = a + b :=
  Profile.eq_of_checked_eq_some h

theorem Profile.add_eq_some_of_lt (p : Profile) (h : a.toNat + b.toNat < 2 ^ w) :
    p.add a b = some (a + b) :=
  p.checked_of_fits _ h

theorem Profile.sub_eq_some_of_le (p : Profile) (h : b.toNat ≤ a.toNat) :
    p.sub a b = some (a - b) :=
  p.checked_of_fits _ h

theorem Profile.mul_eq_some_of_lt (p : Profile) (h : a.toNat * b.toNat < 2 ^ w) :
    p.mul a b = some (a * b) :=
  p.checked_of_fits _ h

/-- `a.checked_add(b)` -/
def checkedAdd {w : Nat} (a b : BitVec w) : Option (BitVec w) :=
  if a.toNat + b.toNat < 2 ^ w then some (a + b) else none

/-- `a.saturating_add(b)` -/
def saturatingAdd {w : Nat} (a b : BitVec w) : BitVec w :=
  if a.toNat + b.toNat < 2 ^ w then a + b else allOnes w

/-- `a.saturating_sub(b)` -/
def saturatingSub {w : Nat} (a b : BitVec w) : BitVec w :=
  if b.toNat ≤ a.toNat then a - b else 0

theorem checkedAdd_eq_some : checkedAdd a b = some c ↔ c.toNat = a.toNat + b.toNat := by
  unfold checkedAdd
  split
  · rename_i h
    rw [some.injEq, ← toNat_inj, toNat_add_of_lt h, eq_comm]
  · rename_i h
    exact ⟨(nomatch ·), fun h => by omega⟩

theorem checkedAdd_eq_none : checkedAdd a b = none ↔ 2 ^ w ≤ a.toNat + b.toNat := by
  unfold checkedAdd
  split
  · rename_i h
    exact ⟨(nomatch ·), fun h => by omega⟩
  · rename_i h
    exact ⟨fun _ => by omega, fun _ => rfl⟩

theorem toNat_saturatingSub (a b : BitVec w) : (saturatingSub a b).toNat = a.toNat - b.toNat := by
  unfold saturatingSub
  split
  · rename_i h
    exact toNat_sub_of_le h
  · rename_i h
    rw [Nat.sub_eq_zero_of_le (by omega)]
    exact toNat_zero

theorem toNat_saturatingAdd (a b : BitVec w) :
    (saturatingAdd a b).toNat = min (a.toNat + b.toNat) (2 ^ w - 1) := by
  unfold saturatingAdd
  split
  · rename_i h
    rw [toNat_add_of_lt h, Nat.min_eq_left (by omega)]
  · rename_i h
    rw [toNat_allOnes, Nat.min_eq_right (by omega)]

/-! ## The unsigned order -/

/-- Words are compared by their unsigned values. -/
instance instLinearOrderBitVec {w : Nat} : LinearOrder (BitVec w) where
  le_refl _ := BitVec.le_refl _
  le_trans _ _ _ := BitVec.le_trans
  lt_iff_le_not_ge a b := by
    rw [lt_def, le_def, le_def]
    omega
  le_antisymm _ _ := BitVec.le_antisymm
  le_total a b := by
    rw [le_def, le_def]
    omega
  toDecidableLE := inferInstance
  toDecidableEq := inferInstance

theorem toNat_max (a b : BitVec w) : (max a b).toNat = max a.toNat b.toNat := by
  rcases le_total a b with h | h
  · rw [max_eq_right h, max_eq_right (le_def.mp h)]
  · rw [max_eq_left h, max_eq_left (le_def.mp h)]

theorem toNat_min (a b : BitVec w) : (min a b).toNat = min a.toNat b.toNat := by
  rcases le_total a b with h | h
  · rw [min_eq_left h, min_eq_left (le_def.mp h)]
  · rw [min_eq_right h, min_eq_right (le_def.mp h)]

/-! ## Masks and shifts -/

theorem toNat_and_mask (x m : BitVec w) (k : Nat) (hm : m.toNat = 2 ^ k - 1) :
    (x &&& m).toNat = x.toNat % 2 ^ k := by
  rw [toNat_and, hm, Nat.and_two_pow_sub_one_eq_mod]

theorem toNat_shiftRight (x : BitVec w) (k : Nat) : (x >>> k).toNat = x.toNat / 2 ^ k := by
  rw [toNat_ushiftRight, Nat.shiftRight_eq_div_pow]

/-- A bit field of a word: shift it down, then mask it. -/
theorem toNat_shiftRight_and_mask (x m : BitVec w) (j k : Nat) (hm : m.toNat = 2 ^ k - 1) :
    ((x >>> j) &&& m).toNat = x.toNat / 2 ^ j % 2 ^ k := by
  rw [toNat_and_mask _ _ k hm, toNat_shiftRight]

/-- Two fields that do not overlap are joined by `|||` as by `+`. -/
theorem or_mul_two_pow (b k : Nat) (ha : a < 2 ^ k) : a ||| (b * 2 ^ k) = a + 2 ^ k * b := by
  rw [Nat.mul_comm b, Nat.or_comm, ← Nat.two_pow_add_eq_or_of_lt ha, Nat.add_comm]

theorem toNat_and_not_mask (x m : BitVec w) (k : Nat) (hm : m.toNat = 2 ^ k - 1) :
    (x &&& ~~~m).toNat = x.toNat / 2 ^ k * 2 ^ k := by
  have hsplit : (x &&& ~~~m) + (x &&& m) = x := by
    have hdisj : (x &&& ~~~m) &&& (x &&& m) = 0#w := by
      ext i hi
      simp only [getElem_and, getElem_not, getElem_zero]
      cases x[i] <;> cases m[i] <;> rfl
    rw [add_eq_or_of_and_eq_zero _ _ hdisj]
    ext i hi
    simp only [getElem_or, getElem_and, getElem_not]
    cases x[i] <;> cases m[i] <;> rfl
  have hmod := toNat_and_mask x m k hm
  have hsum : (x &&& ~~~m).toNat + (x &&& m).toNat = x.toNat := by
    have h := congrArg BitVec.toNat hsplit
    rw [toNat_add_of_and_eq_zero] at h
    · exact h
    · ext i hi
      simp only [getElem_and, getElem_not, getElem_zero]
      cases x[i] <;> cases m[i] <;> rfl
  have hdiv := Nat.div_add_mod' x.toNat (2 ^ k)
  omega

end OpenOS.Base
