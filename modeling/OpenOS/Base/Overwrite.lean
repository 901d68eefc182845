/-
  Elements put over a list at a position, with a gap before it filled, as a
  write to a file does; and copies into a buffer, which do not grow it.
-/

import Mathlib.Data.List.Basic

namespace OpenOS.Base

open List

variable {α : Type} {n : Nat}

/-- `resize(n, fill)` when that is longer. -/
def padTo (fill : α) (n : Nat) (data : List α) : List α := data ++ replicate (n - data.length) fill

/-- The list with `elems` put over it at `pos`. -/
def overwrite (fill : α) (data : List α) (pos : Nat) (elems : List α) : List α :=
  let padded := padTo fill (pos + elems.length) data
  padded.take pos ++ elems ++ padded.drop (pos + elems.length)

/-- A write of nothing leaves the list. -/
def put (fill : α) (data : List α) (pos : Nat) : List α → List α
  | [] => data
  | e :: es => overwrite fill data pos (e :: es)

theorem length_padTo (fill : α) (n : Nat) (data : List α) :
    (padTo fill n data).length = max n data.length := by
  rw [padTo, length_append, length_replicate]
  omega

theorem padTo_of_le (h : n ≤ data.length) : padTo fill n data = data := by
  rw [padTo, Nat.sub_eq_zero_of_le h, replicate_zero, append_nil]

section

variable (fill : α) (data : List α) (pos : Nat)

/-- What stands before and after the elements. -/
theorem overwrite_eq (elems : List α) :
    overwrite fill data pos elems =
      (padTo fill pos data).take pos ++ elems ++ data.drop (pos + elems.length) := by
  have hbefore : (padTo fill (pos + elems.length) data).take pos =
      (padTo fill pos data).take pos := by
    simp only [padTo, take_append, take_replicate]
    congr 2
    omega
  have hafter : (padTo fill (pos + elems.length) data).drop (pos + elems.length) =
      data.drop (pos + elems.length) := by
    simp only [padTo, drop_append, drop_replicate]
    have hnone : pos + elems.length - data.length - (pos + elems.length - data.length) = 0 := by
      omega
    rw [hnone, replicate_zero, append_nil]
  rw [overwrite, hbefore, hafter]

theorem length_take_padTo : ((padTo fill pos data).take pos).length = pos := by
  rw [length_take, length_padTo]
  omega

theorem length_overwrite (elems : List α) :
    (overwrite fill data pos elems).length = max (pos + elems.length) data.length := by
  rw [overwrite_eq, length_append, length_append, length_take_padTo, length_drop]
  omega

theorem overwrite_overwrite (first second : List α) :
    overwrite fill (overwrite fill data pos first) (pos + first.length) second =
      overwrite fill data pos (first ++ second) := by
  have hlen := length_overwrite fill data pos first
  have hhead : ((padTo fill pos data).take pos ++ first).length = pos + first.length := by
    rw [length_append, length_take_padTo]
  rw [overwrite_eq fill (overwrite fill data pos first), padTo_of_le (by omega),
    overwrite_eq fill data pos first, overwrite_eq fill data pos (first ++ second)]
  -- the first write stands whole before the second one
  rw [take_left' hhead, ← drop_drop, drop_left' hhead, drop_drop, length_append]
  simp only [append_assoc, Nat.add_assoc]

theorem put_put (first second : List α) :
    put fill (put fill data pos first) (pos + first.length) second =
      put fill data pos (first ++ second) := by
  cases first with
  | nil => rfl
  | cons a as =>
    cases second with
    | nil => rw [append_nil, put]
    | cons b bs => exact overwrite_overwrite fill data pos (a :: as) (b :: bs)

end

theorem put_of_ne_nil (h : elems ≠ []) (fill : α) (data : List α) (pos : Nat) :
    put fill data pos elems = overwrite fill data pos elems := by
  cases elems with
  | nil => exact absurd rfl h
  | cons e es => rfl

/-- `buf[pos..pos + elems.len()].copy_from_slice(elems)`, which panics when the range
    is not inside the buffer. -/
def copyAt (buf : List α) (pos : Nat) (elems : List α) : Option (List α) :=
  if pos + elems.length ≤ buf.length then
    some (buf.take pos ++ elems ++ buf.drop (pos + elems.length))
  else none

/-- `buf[pos..pos + n]`, for a range inside the buffer. -/
def window (buf : List α) (pos n : Nat) : List α := (buf.drop pos).take n

section CopyAt

variable {buf buf' elems tail : List α} {pos : Nat} {x : α}

theorem length_of_copyAt (h : copyAt buf pos elems = some buf') : buf'.length = buf.length := by
  rw [copyAt] at h
  split at h
  · cases h
    rw [length_append, length_append, length_take, length_drop]
    omega
  · cases h

theorem exists_copyAt (h : pos + elems.length ≤ buf.length) :
    ∃ buf', copyAt buf pos elems = some buf' :=
  ⟨_, if_pos h⟩

theorem eq_of_copyAt_nil (h : copyAt buf pos [] = some buf') : buf' = buf := by
  rw [copyAt] at h
  split at h
  · cases h
    rw [append_nil, length_nil, Nat.add_zero, take_append_drop]
  · cases h

theorem window_copyAt_self (h : copyAt buf pos elems = some buf') :
    window buf' pos elems.length = elems := by
  rw [copyAt] at h
  split at h
  · cases h
    have hlen : (buf.take pos).length = pos := by
      rw [length_take]
      omega
    rw [window, append_assoc, drop_left' hlen, take_left' rfl]
  · cases h

theorem window_copyAt_of_disjoint (h : copyAt buf pos elems = some buf')
    (hdisj : p + n ≤ pos ∨ pos + elems.length ≤ p) : window buf' p n = window buf p n := by
  rw [copyAt] at h
  split at h
  · cases h
    have hlen : (buf.take pos).length = pos := by
      rw [length_take]
      omega
    rw [window, window]
    rcases hdisj with hbefore | hafter
    · rw [append_assoc, drop_append_of_le_length (by omega),
        take_append_of_le_length (by rw [length_drop]; omega), drop_take,
        take_take, Nat.min_eq_left (by omega)]
    have hcut : (buf.take pos ++ elems).length = pos + elems.length := by
      rw [length_append, hlen]
    have hsplit : p = (buf.take pos ++ elems).length + (p - (pos + elems.length)) := by omega
    rw [hsplit, drop_length_add_append, drop_drop, hcut]
  · cases h

theorem window_add (buf : List α) (pos m n : Nat) :
    window buf pos (m + n) = window buf pos m ++ window buf (pos + m) n := by
  rw [window, window, window, take_add, drop_drop]

theorem take_window (buf : List α) (pos m n : Nat) :
    (window buf pos n).take m = window buf pos (min m n) := by
  rw [window, window, take_take]

theorem getD_of_window (h : window buf pos 1 = [x]) : buf.getD pos y = x := by
  have hhead : (buf.drop pos).head? = some x := by
    cases hd : buf.drop pos with
    | nil =>
      rw [window, hd] at h
      cases h
    | cons z zs =>
      rw [window, hd] at h
      cases h
      rfl
  rw [head?_drop] at hhead
  rw [getD_eq_getElem?_getD, hhead, Option.getD_some]

theorem window_append_left (h : pos + n ≤ buf.length) :
    window (buf ++ tail) pos n = window buf pos n := by
  rw [window, window, drop_append_of_le_length (by omega),
    take_append_of_le_length (by rw [length_drop]; omega)]

theorem window_append_of_le (h : buf.length ≤ pos) :
    window (buf ++ tail) pos n = window tail (pos - buf.length) n := by
  have hpos : pos = buf.length + (pos - buf.length) := by omega
  rw [window, hpos, drop_length_add_append, window, Nat.add_sub_cancel_left]

theorem window_append_self (buf tail : List α) : window (buf ++ tail) 0 buf.length = buf := by
  rw [window, drop_zero, take_left' rfl]

theorem window_flatMap {β : Type} {f : β → List α} (hk : ∀ b, (f b).length = k) (l : List β)
    (tail : List α) (hj : j < l.length) : window (l.flatMap f ++ tail) (j * k) k = f l[j] := by
  induction l generalizing j with
  | nil => exact absurd hj (Nat.not_lt_zero j)
  | cons b l ih =>
    rw [flatMap_cons, append_assoc]
    cases j with
    | zero =>
      rw [Nat.zero_mul, ← hk b]
      exact window_append_self _ _
    | succ j =>
      have hle : (f b).length ≤ (j + 1) * k := by
        rw [hk, Nat.add_mul]
        omega
      have hsub : (j + 1) * k - k = j * k := by
        rw [Nat.add_mul, Nat.one_mul, Nat.add_sub_cancel]
      rw [window_append_of_le hle, hk, hsub]
      exact ih (Nat.lt_of_succ_lt_succ hj)

theorem window_replicate (h : pos + n ≤ len) : window (replicate len x) pos n = replicate n x := by
  rw [window, drop_replicate, take_replicate, Nat.min_eq_left (by omega)]

end CopyAt

end OpenOS.Base
