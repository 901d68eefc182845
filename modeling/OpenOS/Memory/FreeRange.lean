/-
  What `find_free_range` finds: the lowest range of unmapped pages in user
  space at or above the hint.  It is the search for a run of free cells of
  `FreeRun`, the cells being pages from the rounded hint to USER_SPACE_MAX; a
  cell is not readable where `translate` panics.
-/

import Mathlib.Order.Minimal
import OpenOS.Base.FreeRun
import OpenOS.Memory.PageLoop

namespace OpenOS.Memory.PageTable

open OpenOS.Base BitVec Option Bool Entry Profile
open BitVec (ofNat)

/-! ## Rounding up -/

/-- The number of pages that `size` bytes take. -/
def numPages (size : Word) : Nat := (size.toNat + 4095) / 4096

theorem alignUp_eq_some (h : x.toNat + 4096 < 2 ^ 64) (p : Profile) :
    ∃ y, alignUp p x = some y ∧ y.toNat = numPages x * 4096 := by
  have hpage : pageSize.toNat = 4096 := rfl
  have hsum : (x + pageSize).toNat = x.toNat + 4096 := by
    rw [toNat_add]
    omega
  have hone : (1 : Word).toNat = 1 := rfl
  have hlast : (x + pageSize - 1).toNat = x.toNat + 4095 := by
    have hsub := toNat_sub (x + pageSize) 1
    omega
  refine ⟨(x + pageSize - 1) &&& ~~~(pageSize - 1), ?_, ?_⟩
  · have hadd : p.add x pageSize = some (x + pageSize) :=
      p.add_eq_some_of_lt (by rw [hpage]; exact h)
    have hsub : p.sub (x + pageSize) 1 = some (x + pageSize - 1) := p.sub_eq_some_of_le (by omega)
    simp only [alignUp, hadd, hsub, bind_eq_bind, bind_some]
    rfl
  · rw [toNat_and_not_mask _ _ 12 rfl, hlast]
    rfl

theorem alignUp_dev_eq_none (h : 2 ^ 64 ≤ x.toNat + 4096) : alignUp .dev x = none := by
  have hadd : dev.add x pageSize = none := by
    rw [add, checked, if_neg]
    show ¬ x.toNat + 4096 < 2 ^ 64
    omega
  rw [alignUp, hadd]
  rfl

/-! ## The search as a run of free cells -/

/-- Page `j` of the search: in use, free, or a panic. -/
def cell (p4 : Word) (mem : PhysMem) (start : Word) (j : Nat) : Option Bool :=
  (translate p4 mem (start + ofNat 64 j * pageSize)).map Option.isSome

theorem freeRangeFrom_eq_scan (start : Word) (n : Nat) {addr : Word}
    (haddr : addr = start + ofNat 64 j * pageSize) (hrun : run ≤ j)
    (hstart : 0 < run → runStart = start + ofNat 64 (j - run) * pageSize) :
    freeRangeFrom p4 mem count n addr runStart run =
      (FreeRun.scan (cell p4 mem start) count n j run).map
        (Option.map fun i => start + ofNat 64 i * pageSize) := by
  induction n generalizing j run addr runStart with
  | zero => rfl
  | succ n ih =>
    have hnext : addr + pageSize = start + ofNat 64 (j + 1) * pageSize := by
      rw [haddr, ofNat_add, BitVec.add_mul, BitVec.add_assoc]
      rfl
    rw [freeRangeFrom, FreeRun.scan, cell, ← haddr]
    cases htr : translate p4 mem addr with
    | none => rfl
    | some o =>
      cases o with
      | some a =>
        exact ih hnext (Nat.zero_le _) fun h => absurd h (Nat.lt_irrefl 0)
      | none =>
        -- a new run starts here, or the current one goes on
        have hstart' : (if run = 0 then addr else runStart) =
            start + ofNat 64 (j - run) * pageSize := by
          by_cases h0 : run = 0
          · rw [if_pos h0, h0, Nat.sub_zero, haddr]
          · rw [if_neg h0]
            exact hstart (by omega)
        by_cases hcount : count ≤ run + 1
        · rw [if_pos hcount, if_pos hcount, hstart']
          rfl
        · rw [if_neg hcount, if_neg hcount]
          refine ih hnext (by omega) fun _ => ?_
          rw [hstart', Nat.add_sub_add_right]

/-! ## In terms of addresses -/

section Range

variable (p4 : Word) (mem : PhysMem) (hint : Word) (n : Nat)

/-- `n` unmapped pages from `v` on, in user space at or above the hint. -/
structure FreeAt (v : Word) : Prop where
  aligned : v.toNat % 4096 = 0
  above : hint.toNat ≤ v.toNat
  below : v.toNat + n * 4096 ≤ userSpaceMax
  unmapped : ∀ w ∈ pages v n, translate p4 mem w = some none

/-- The lowest such range; every page up to its end has a translation or none. -/
structure FirstFree (v : Word) : Prop extends FreeAt p4 mem hint n v where
  first : ∀ u, FreeAt p4 mem hint n u → v.toNat ≤ u.toNat
  readable : ∀ w : Word, w.toNat % 4096 = 0 → hint.toNat ≤ w.toNat →
    w.toNat < v.toNat + n * 4096 → translate p4 mem w ≠ none

/-- A page on which `translate` panics, and no such range before it. -/
def ScanFails : Prop :=
  ∃ w : Word, w.toNat % 4096 = 0 ∧ hint.toNat ≤ w.toNat ∧ w.toNat < userSpaceMax ∧
    translate p4 mem w = none ∧ ∀ u, FreeAt p4 mem hint n u → w.toNat < u.toNat + n * 4096

end Range

section Search

variable {start : Word}

variable {w : Word}

section

variable (h : w.toNat = start.toNat + j * 4096)
include h

theorem cell_eq : cell p4 mem start j = (translate p4 mem w).map isSome := by
  have hw : start + ofNat 64 j * pageSize = w := by
    apply eq_of_toNat_eq
    rw [toNat_add, toNat_mul, toNat_ofNat, show pageSize.toNat = 4096 from rfl]
    omega
  rw [cell, hw]

theorem cell_eq_free_iff : cell p4 mem start j = some false ↔ translate p4 mem w = some none := by
  rw [cell_eq h]
  cases translate p4 mem w with
  | none => simp
  | some o => cases o <;> simp

theorem cell_eq_none_iff : cell p4 mem start j = none ↔ translate p4 mem w = none := by
  rw [cell_eq h, map_eq_none_iff]

end

theorem toNat_wordAt (h : start.toNat + j * 4096 < 2 ^ 64) :
    (start + ofNat 64 j * pageSize).toNat = start.toNat + j * 4096 := by
  rw [toNat_add, toNat_mul, toNat_ofNat, show pageSize.toNat = 4096 from rfl]
  omega

theorem mem_pages (hv : v.toNat + n * 4096 ≤ 2 ^ 64) :
    w ∈ pages v n ↔ ∃ i < n, w.toNat = v.toNat + i * 4096 := by
  have hpage : ∀ i < n, (v + ofNat 64 i * pageSize).toNat = v.toNat + i * 4096 :=
    fun i hi => toNat_wordAt (by omega)
  rw [pages, List.mem_map]
  simp only [List.mem_range]
  constructor
  · rintro ⟨i, hi, rfl⟩
    exact ⟨i, hi, hpage i hi⟩
  · rintro ⟨i, hi, hw⟩
    exact ⟨i, hi, eq_of_toNat_eq ((hpage i hi).trans hw.symm)⟩

/-- The number of pages from the rounded hint to the end of user space. -/
def cellCount (start : Word) : Nat := (userSpaceMax - start.toNat + 4095) / 4096

section Rounded

variable (hstart : start.toNat = numPages hint * 4096)
include hstart

/-- The pages at or above the hint are those from the rounded hint on. -/
theorem exists_index (haligned : w.toNat % 4096 = 0) (habove : hint.toNat ≤ w.toNat) :
    ∃ j, w.toNat = start.toNat + j * 4096 := by
  refine ⟨(w.toNat - start.toNat) / 4096, ?_⟩
  rw [numPages] at hstart
  omega

theorem freeAt_iff (hv : v.toNat = start.toNat + j * 4096) (hn : 0 < n) :
    FreeAt p4 mem hint n v ↔ FreeRun.IsRun (cell p4 mem start) n j ∧ j + n ≤ cellCount start := by
  have hmax : userSpaceMax = 2 ^ 47 := rfl
  rw [numPages] at hstart
  have hfits : v.toNat + n * 4096 ≤ userSpaceMax ↔ j + n ≤ cellCount start := by
    rw [cellCount]
    omega
  constructor
  · intro h
    have hbelow := h.below
    refine ⟨fun i hi => ?_, hfits.mp hbelow⟩
    have hword : (start + ofNat 64 (j + i) * pageSize).toNat =
        start.toNat + (j + i) * 4096 := toNat_wordAt (by omega)
    rw [cell_eq_free_iff hword]
    exact h.unmapped _ ((mem_pages (by omega)).mpr ⟨i, hi, by omega⟩)
  · rintro ⟨hrun, hle⟩
    have hbelow := hfits.mpr hle
    refine ⟨by omega, by omega, hbelow, fun w hw => ?_⟩
    obtain ⟨i, hi, hwi⟩ := (mem_pages (by omega)).mp hw
    exact (cell_eq_free_iff (by omega)).mp (hrun i hi)

/-- A run of free cells that fits is a free range. -/
theorem exists_freeAt (hn : 0 < n) (hrun : FreeRun.IsRun (cell p4 mem start) n u)
    (hfits : u + n ≤ cellCount start) :
    ∃ w, w.toNat = start.toNat + u * 4096 ∧ FreeAt p4 mem hint n w := by
  have hword : (start + ofNat 64 u * pageSize).toNat = start.toNat + u * 4096 := by
    have hmax : userSpaceMax = 2 ^ 47 := rfl
    rw [cellCount] at hfits
    exact toNat_wordAt (by omega)
  exact ⟨_, hword, (freeAt_iff hstart hword hn).mpr ⟨hrun, hfits⟩⟩

theorem firstFree_iff (hn : 0 < n) : FirstFree p4 mem hint n v ↔
    ∃ j, v.toNat = start.toNat + j * 4096 ∧
      FreeRun.IsFirst (cell p4 mem start) n (cellCount start) j := by
  have hmax : userSpaceMax = 2 ^ 47 := rfl
  constructor
  · intro h
    obtain ⟨j, hj⟩ := exists_index hstart h.aligned h.above
    obtain ⟨hrun, hle⟩ := (freeAt_iff hstart hj hn).mp h.toFreeAt
    have hbelow := h.below
    refine ⟨j, hj, hrun, hle, ?_, ?_⟩
    · -- a run that does not fit begins later anyway
      intro u hu
      by_cases hfits : u + n ≤ cellCount start
      · obtain ⟨w, hw, hfree⟩ := exists_freeAt hstart hn hu hfits
        have := h.first w hfree
        omega
      · omega
    · intro i hi hnone
      rw [numPages] at hstart
      have hword : (start + ofNat 64 i * pageSize).toNat = start.toNat + i * 4096 :=
        toNat_wordAt (by omega)
      exact h.readable _ (by omega) (by omega) (by omega) ((cell_eq_none_iff hword).mp hnone)
  · rintro ⟨j, hj, hfirst⟩
    have hfree := (freeAt_iff hstart hj hn).mpr ⟨hfirst.run, hfirst.fits⟩
    refine ⟨hfree, fun u hu => ?_, fun w haligned habove hbelow hnone => ?_⟩
    · obtain ⟨i, hi⟩ := exists_index hstart hu.aligned hu.above
      have := hfirst.first i ((freeAt_iff hstart hi hn).mp hu).1
      omega
    · obtain ⟨i, hi⟩ := exists_index hstart haligned habove
      exact hfirst.readable i (by omega) ((cell_eq_none_iff hi).mpr hnone)

theorem scanFails_iff (hn : 0 < n) : ScanFails p4 mem hint n ↔
    FreeRun.Fails (cell p4 mem start) n (cellCount start) := by
  have hmax : userSpaceMax = 2 ^ 47 := rfl
  constructor
  · rintro ⟨w, haligned, habove, hbelow, hnone, hbefore⟩
    obtain ⟨j, hj⟩ := exists_index hstart haligned habove
    refine ⟨j, by rw [cellCount]; omega, (cell_eq_none_iff hj).mpr hnone, fun u hu => ?_⟩
    by_cases hfits : u + n ≤ cellCount start
    · obtain ⟨w, hw, hfree⟩ := exists_freeAt hstart hn hu hfits
      have := hbefore w hfree
      omega
    · rw [cellCount] at hfits
      omega
  · rintro ⟨j, hj, hnone, hbefore⟩
    rw [cellCount] at hj
    have hword : (start + ofNat 64 j * pageSize).toNat = start.toNat + j * 4096 :=
      toNat_wordAt (by omega)
    refine ⟨_, ?_, ?_, ?_, (cell_eq_none_iff hword).mp hnone, fun u hu => ?_⟩
    · rw [hword]
      omega
    · rw [hword, hstart, numPages]
      omega
    · rw [hword] at *
      omega
    · obtain ⟨i, hi⟩ := exists_index hstart hu.aligned hu.above
      have := hbefore i ((freeAt_iff hstart hi hn).mp hu).1
      omega

end Rounded

end Search

/-! ## find_free_range -/

section Find

variable {p : Profile} {p4 : Word} {mem : PhysMem} {hint : Word}

theorem findFreeRange_eq_scan (p : Profile) (p4 : Word) (mem : PhysMem) (n : Nat)
    (hhint : hint.toNat + 4096 < 2 ^ 64) :
    ∃ start : Word, start.toNat = numPages hint * 4096 ∧ findFreeRange p p4 mem hint n =
      (FreeRun.scan (cell p4 mem start) n (cellCount start) 0 0).map
        (Option.map fun i => start + ofNat 64 i * pageSize) := by
  obtain ⟨start, halign, hstart⟩ := alignUp_eq_some hhint p
  refine ⟨start, hstart, ?_⟩
  rw [findFreeRange, halign]
  refine freeRangeFrom_eq_scan start _ ?_ (Nat.le_refl 0) fun h => absurd h (Nat.lt_irrefl 0)
  rw [zero_mul, BitVec.add_zero]

theorem findFreeRange_eq_some_iff (hhint : hint.toNat + 4096 < 2 ^ 64) (hn : 0 < n) {v : Word} :
    findFreeRange p p4 mem hint n = some (some v) ↔ FirstFree p4 mem hint n v := by
  obtain ⟨start, hstart, hfind⟩ := findFreeRange_eq_scan p p4 mem n hhint
  have hmax : userSpaceMax = 2 ^ 47 := rfl
  rw [hfind, firstFree_iff hstart hn]
  constructor
  · intro h
    obtain ⟨o, hscan, ho⟩ := Option.map_eq_some_iff.mp h
    obtain ⟨j, rfl, rfl⟩ := Option.map_eq_some_iff.mp ho
    have hfirst := (FreeRun.scan_eq_some_iff hn).mp hscan
    have hfits := hfirst.fits
    rw [cellCount] at hfits
    exact ⟨j, toNat_wordAt (by omega), hfirst⟩
  · rintro ⟨j, hv, hfirst⟩
    have hword : start + ofNat 64 j * pageSize = v := by
      apply eq_of_toNat_eq
      rw [toNat_wordAt (by omega), hv]
    rw [(FreeRun.scan_eq_some_iff hn).mpr hfirst, Option.map_some, Option.map_some, hword]

/-- The search panics when it meets a page that cannot be translated before one. -/
theorem findFreeRange_eq_none_iff (hhint : hint.toNat + 4096 < 2 ^ 64) (hn : 0 < n) :
    findFreeRange p p4 mem hint n = none ↔ ScanFails p4 mem hint n := by
  obtain ⟨start, hstart, hfind⟩ := findFreeRange_eq_scan p p4 mem n hhint
  rw [hfind, Option.map_eq_none_iff, FreeRun.scan_eq_none_iff hn, scanFails_iff hstart hn]

/-- The root of a page table: bit 7 is reserved in its entries. -/
def IsRoot (p4 : Word) (mem : PhysMem) : Prop := ∀ i, (mem p4 i).isHuge = false

theorem translate_ne_none (hroot : IsRoot p4 mem) (virt : Word) : translate p4 mem virt ≠ none := by
  unfold translate
  dsimp only
  split_ifs with h4
  · simp
  rw [not_eq_true', not_eq_false] at h4
  rw [frame_eq_some_of_present h4 (hroot _)]
  dsimp only
  split_ifs with h3 huge3
  · simp
  · simp
  rw [not_eq_true', not_eq_false] at h3
  rw [frame_eq_some_of_present h3 (eq_false_of_not_eq_true huge3)]
  dsimp only
  split_ifs with h2 huge2
  · simp
  · simp
  rw [not_eq_true', not_eq_false] at h2
  rw [frame_eq_some_of_present h2 (eq_false_of_not_eq_true huge2)]
  dsimp only
  split_ifs <;> simp

/-- In a page table the search ends with the lowest free range, or there is none. -/
theorem findFreeRange_lowest (p : Profile) {n : Nat} (hroot : IsRoot p4 mem)
    (hhint : hint.toNat ≤ userSpaceMax) (hn : 1 ≤ n) : ∃ o, findFreeRange p p4 mem hint n = some o ∧
      (o.isSome ↔ ∃ v, FreeAt p4 mem hint n v) ∧ ∀ v, o = some v →
        FreeAt p4 mem hint n v ∧ ∀ u, FreeAt p4 mem hint n u → v.toNat ≤ u.toNat := by
  have hmax : userSpaceMax = 2 ^ 47 := rfl
  have hsome := @findFreeRange_eq_some_iff p p4 mem hint n (by omega) hn
  cases hfind : findFreeRange p p4 mem hint n with
  | none =>
    obtain ⟨w, -, -, -, hnone, -⟩ := (findFreeRange_eq_none_iff (by omega) hn).mp hfind
    exact absurd hnone (translate_ne_none hroot w)
  | some o =>
    refine ⟨o, rfl, ⟨fun ho => ?_, fun hfree => ?_⟩, ?_⟩
    · obtain ⟨v, rfl⟩ := Option.isSome_iff_exists.mp ho
      exact ⟨v, (hsome.mp hfind).toFreeAt⟩
    · -- the lowest of the free ranges is the one that is returned
      obtain ⟨v, hv, hlow⟩ := exists_minimalFor_of_wellFoundedLT _ BitVec.toNat hfree
      have hfirst : FirstFree p4 mem hint n v :=
        ⟨hv, fun u hu => (le_total v.toNat u.toNat).elim id (hlow hu), fun w _ _ _ =>
          translate_ne_none hroot w⟩
      rw [hsome.mpr hfirst] at hfind
      cases hfind
      rfl
    · rintro v rfl
      have hfirst := hsome.mp hfind
      exact ⟨hfirst.toFreeAt, hfirst.first⟩

/-- Pages at 0x401000 and 0x403000, in frames 0x5000 and 0x6000. -/
def scatteredMem : PhysMem := fun a i =>
  if a = 0x1000#64 ∧ i.val = 0 then 0x2007#64
  else if a = 0x2000#64 ∧ i.val = 0 then 0x3007#64
  else if a = 0x3000#64 ∧ i.val = 2 then 0x4007#64
  else if a = 0x4000#64 ∧ i.val = 1 then 0x5007#64
  else if a = 0x4000#64 ∧ i.val = 3 then 0x6007#64
  else 0#64

/-- The page between the two mapped ones is too short for two pages: the search goes on
    to the one after them. -/
theorem findFreeRange_lowest_scattered :
    findFreeRange .dev 0x1000#64 scatteredMem 0x400800#64 2 = some (some 0x404000#64) ∧
      FreeAt 0x1000#64 scatteredMem 0x400800#64 2 0x404000#64 ∧
      ∀ u, FreeAt 0x1000#64 scatteredMem 0x400800#64 2 u → 0x404000 ≤ u.toNat := by
  have hroot : IsRoot 0x1000#64 scatteredMem := by
    unfold IsRoot
    decide +kernel
  have hfind : findFreeRange .dev 0x1000#64 scatteredMem 0x400800#64 2 =
      some (some 0x404000#64) := by
    decide +kernel
  obtain ⟨o, ho, -, hlowest⟩ := findFreeRange_lowest (n := 2) .dev hroot
    (show (0x400800#64).toNat ≤ userSpaceMax by decide) (by decide)
  exact ⟨hfind, hlowest _ (Option.some.inj (ho.symm.trans hfind))⟩

theorem findFreeRange_dev_eq_none (hhint : 2 ^ 64 ≤ hint.toNat + 4096) :
    findFreeRange .dev p4 mem hint n = none := by
  rw [findFreeRange, alignUp_dev_eq_none hhint]
  rfl

end Find

end OpenOS.Memory.PageTable
