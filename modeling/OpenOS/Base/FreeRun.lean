/-
  The search for a run of free cells.

  Cells are read one after the other; a counter holds how many free ones lie
  directly before the next.  Reading a cell may fail, and the search fails with
  it.
-/

import Mathlib.Tactic.Common

namespace OpenOS.Base.FreeRun

/-- Where `count` free cells in a row begin, searching `n` cells from `j` on after `run`
    free ones. A cell is in use (`true`), free (`false`) or not readable. -/
def scan (g : Nat → Option Bool) (count : Nat) : Nat → Nat → Nat → Option (Option Nat)
  | 0, _, _ => some none
  | n + 1, j, run =>
    match g j with
    | none => none
    | some true => scan g count n (j + 1) 0
    | some false =>
      if count ≤ run + 1 then some (some (j - run)) else scan g count n (j + 1) (run + 1)

/-- `count` free cells from `v` on. -/
def IsRun (g : Nat → Option Bool) (count v : Nat) : Prop := ∀ i < count, g (v + i) = some false

/-- The first run that ends within `n` cells; all cells up to its end are readable. -/
structure IsFirst (g : Nat → Option Bool) (count n v : Nat) : Prop where
  run : IsRun g count v
  fits : v + count ≤ n
  first : ∀ u, IsRun g count u → v ≤ u
  readable : ∀ j < v + count, g j ≠ none

/-- A cell that is not readable, and no run before it. -/
def Fails (g : Nat → Option Bool) (count n : Nat) : Prop :=
  ∃ j < n, g j = none ∧ ∀ u, IsRun g count u → j < u + count

/-- What is known before cell `j` is read, with `run` free cells before it. -/
structure Upto (g : Nat → Option Bool) (count j run : Nat) : Prop where
  le : run ≤ j
  short : run < count
  free : ∀ i, j ≤ i + run → i < j → g i = some false
  maximal : run < j → g (j - run - 1) ≠ some false
  noRun : ∀ u, IsRun g count u → j < u + count
  readable : ∀ i < j, g i ≠ none

theorem upto_zero (g : Nat → Option Bool) (hcount : 0 < count) : Upto g count 0 0 where
  le := Nat.le_refl 0
  short := hcount
  free i _ hi := absurd hi (Nat.not_lt_zero i)
  maximal h := absurd h (Nat.lt_irrefl 0)
  noRun u _ := by omega
  readable i hi := absurd hi (Nat.not_lt_zero i)

theorem Upto.used (h : Upto g count j run) (hj : g j = some true) : Upto g count (j + 1) 0 where
  le := Nat.zero_le _
  short := Nat.lt_of_le_of_lt (Nat.zero_le run) h.short
  free i hi hi' := by omega
  maximal _ := by
    show g j ≠ some false
    rw [hj]
    simp
  noRun u hu := by
    -- a run that ends here would contain the cell in use
    have hend := h.noRun u hu
    have hshort := h.short
    by_contra hlt
    have hcell := hu (j - u) (by omega)
    rw [show u + (j - u) = j by omega, hj] at hcell
    cases hcell
  readable i hi := by
    by_cases hij : i = j
    · rw [hij, hj]
      simp
    · exact h.readable i (by omega)

theorem Upto.longer (h : Upto g count j run) (hj : g j = some false) (hshort : run + 1 < count) :
    Upto g count (j + 1) (run + 1) where
  le := Nat.succ_le_succ h.le
  short := hshort
  free i hi hi' := by
    by_cases hij : i = j
    · rw [hij, hj]
    · exact h.free i (by omega) (by omega)
  maximal hlt := by
    rw [show j + 1 - (run + 1) - 1 = j - run - 1 by omega]
    exact h.maximal (by omega)
  noRun u hu := by
    -- a run that ends here would reach beyond the cells counted
    have hend := h.noRun u hu
    by_contra hlt
    have hcell := hu (j - run - 1 - u) (by omega)
    rw [show u + (j - run - 1 - u) = j - run - 1 by omega] at hcell
    exact h.maximal (by omega) hcell
  readable i hi := by
    by_cases hij : i = j
    · rw [hij, hj]
      simp
    · exact h.readable i (by omega)

theorem Upto.found (h : Upto g count j run) (hj : g j = some false) (hlong : count ≤ run + 1)
    (hn : j < n) : IsFirst g count n (j - run) := by
  have hle := h.le
  refine ⟨?_, by omega, ?_, ?_⟩
  · intro i hi
    by_cases hlast : j - run + i = j
    · rw [hlast, hj]
    · exact h.free _ (by omega) (by omega)
  · intro u hu
    have := h.noRun u hu
    omega
  · intro i hi
    by_cases hij : i = j
    · rw [hij, hj]
      simp
    · exact h.readable i (by omega)

/-- What the search finds, by induction on the cells left. -/
theorem scan_cases (n : Nat) (h : Upto g count j run) :
    (∃ v, scan g count n j run = some (some v) ∧ IsFirst g count (j + n) v) ∨
      (scan g count n j run = some none ∧ (∀ u, IsRun g count u → j + n < u + count) ∧
        ∀ i < j + n, g i ≠ none) ∨ (scan g count n j run = none ∧ Fails g count (j + n)) := by
  induction n generalizing j run with
  | zero => exact .inr (.inl ⟨rfl, h.noRun, h.readable⟩)
  | succ n ih =>
    have hnext : j + (n + 1) = j + 1 + n := by omega
    rw [hnext, scan]
    cases hj : g j with
    | none => exact .inr (.inr ⟨rfl, j, by omega, hj, h.noRun⟩)
    | some used =>
      cases used with
      | true => exact ih (h.used hj)
      | false =>
        by_cases hlong : count ≤ run + 1
        · exact .inl ⟨j - run, if_pos hlong, h.found hj hlong (by omega)⟩
        · dsimp only
          rw [if_neg hlong]
          exact ih (h.longer hj (by omega))

theorem IsFirst.not_fails (h : IsFirst g count n v) : ¬ Fails g count n := by
  rintro ⟨j, -, hnone, hbefore⟩
  exact h.readable j (hbefore v h.run) hnone

theorem IsFirst.unique (hu : IsFirst g count n u) (hv : IsFirst g count n v) : u = v :=
  Nat.le_antisymm (hu.first v hv.run) (hv.first u hu.run)

theorem scan_eq_some_iff (hcount : 0 < count) :
    scan g count n 0 0 = some (some v) ↔ IsFirst g count n v := by
  rcases scan_cases n (upto_zero g hcount) with ⟨u, hscan, hu⟩ | ⟨hscan, hno, -⟩ | ⟨hscan, hfail⟩
  · rw [Nat.zero_add] at hu
    rw [hscan, Option.some.injEq, Option.some.injEq]
    exact ⟨fun h => h ▸ hu, fun h => hu.unique h⟩
  · rw [hscan]
    refine iff_of_false (by simp) fun h => ?_
    have := hno v h.run
    have := h.fits
    omega
  · rw [hscan]
    rw [Nat.zero_add] at hfail
    exact iff_of_false (by simp) fun h => h.not_fails hfail

/-- The search fails on a cell that no run lies before. -/
theorem scan_eq_none_iff (hcount : 0 < count) : scan g count n 0 0 = none ↔ Fails g count n := by
  rcases scan_cases n (upto_zero g hcount) with ⟨u, hscan, hu⟩ | ⟨hscan, -, hread⟩ | ⟨hscan, hfail⟩
  · rw [Nat.zero_add] at hu
    rw [hscan]
    exact iff_of_false (by simp) hu.not_fails
  · rw [hscan]
    refine iff_of_false (by simp) ?_
    rintro ⟨j, hj, hnone, -⟩
    exact hread j (by omega) hnone
  · rw [Nat.zero_add] at hfail
    exact iff_of_true hscan hfail

end OpenOS.Base.FreeRun
