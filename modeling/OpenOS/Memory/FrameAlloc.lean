/-
  The bitmap frame allocator (frame_alloc.rs).

  One bit per 4 KiB frame of a contiguous physical region, 0 for free.  The
  region is the default one or, through `init_from_memory_map`, the largest
  usable region of the bootloader's map.  The statics of the file are the
  fields of `FrameAlloc`; an assertion that fires, an index out of bounds and
  an overflow of a development build are `none`.
-/

import OpenOS.Base.Bitmap
import OpenOS.Base.FirstFit
import OpenOS.Base.Word

namespace OpenOS.Memory

open OpenOS.Base BitVec Profile Bitmap
open BitVec (ofNat toNat)
open Option (bind_eq_bind bind_eq_some_iff bind_some some)

def pageSize : Word := 0x1000#64

def maxBitmapBytes : Nat := 1024

/-- The statics of the allocator. -/
structure FrameAlloc where
  frameRegionStart : Word
  frameRegionEnd : Word
  bitmap : Bitmap maxBitmapBytes
  bitmapLen : Nat
  totalFramesCount : Nat
  initialized : Bool

/-- A memory region of the bootloader: start, end and type, 1 for usable RAM. -/
abbrev MemoryRegion := Word × Word × BitVec 32

namespace FrameAlloc

/-- The initial values of the statics. -/
def boot : FrameAlloc where
  frameRegionStart := 0x02000000#64
  frameRegionEnd := 0x04000000#64
  bitmap := fun _ => 0#8
  bitmapLen := 0
  totalFramesCount := 0
  initialized := false

def totalFrames (p : Profile) (s : FrameAlloc) : Option Nat := do
  let size ← p.sub s.frameRegionEnd s.frameRegionStart
  return (size / pageSize).toNat

/-- `init`: clear the bitmap, then mark the first 32 bytes (256 frames). -/
def init (p : Profile) (s : FrameAlloc) : Option FrameAlloc := do
  let tf ← s.totalFrames p
  let bmLen := (tf + 7) / 8
  return { s with
    bitmap := fillPrefix maxBitmapBytes (min 32 bmLen)
    bitmapLen := bmLen
    totalFramesCount := tf
    initialized := true }

/-! ## init_from_memory_map -/

def minAddr : Word := 0x00100000#64

def maxAddr : Word := 0x40000000#64

/-- `best_start`, `best_end` and `best_size`. -/
structure Best where
  start : Word
  stop : Word
  size : Word

def defaultBest : Best where
  start := 0x02000000#64
  stop := 0x04000000#64
  size := 0x04000000#64 - 0x02000000#64

/-- One iteration of the scan of the memory map. -/
def pickRegion (best : Best) (r : MemoryRegion) : Best :=
  if r.2.2 ≠ 1 then best
  else
    let regionStart := max r.1 minAddr
    let regionEnd := min r.2.1 maxAddr
    if regionEnd ≤ regionStart then best
    else
      let regionSize := regionEnd - regionStart
      if best.size < regionSize then ⟨regionStart, regionEnd, regionSize⟩
      else best

def initFromMemoryMap (p : Profile) (memoryMap : List MemoryRegion) (s : FrameAlloc) :
    Option FrameAlloc :=
  if s.initialized then some s
  else do
    let best := memoryMap.foldl pickRegion defaultBest
    let roundedUp ← p.add best.start pageSize
    let lastByte ← p.sub roundedUp 1
    let alignedStart := lastByte &&& ~~~(pageSize - 1)
    let alignedEnd := best.stop &&& ~~~(pageSize - 1)
    if alignedEnd ≤ alignedStart then s.init p
    else
      let tf := ((alignedEnd - alignedStart) / pageSize).toNat
      let bmLen := (tf + 7) / 8
      let effectiveLen := min bmLen maxBitmapBytes
      -- whole bytes: the last few frames may lie past `alignedEnd`
      let effectiveFrames := effectiveLen * 8
      -- the first 256 frames are marked only when the region starts below 2 MiB
      let reservedBytes := if alignedStart < 0x00200000#64 then min 32 effectiveLen else 0
      let regionSize ← p.mul (ofNat 64 effectiveFrames) pageSize
      let regionEnd ← p.add alignedStart regionSize
      return {
        frameRegionStart := alignedStart
        frameRegionEnd := regionEnd
        bitmap := fillPrefix maxBitmapBytes reservedBytes
        bitmapLen := effectiveLen
        totalFramesCount := effectiveFrames
        initialized := true }

/-! ## alloc_frame and free_frame -/

def allocFrame (p : Profile) (s : FrameAlloc) : Option (Option Word × FrameAlloc) := do
  match ← s.bitmap.scan (List.range s.bitmapLen) with
  | none => return (none, s)
  | some (i, bit) =>
    let b ← s.bitmap.read i
    let bitmap := s.bitmap.write i (b ||| 1#8 <<< bit)
    let frameIdx := i * 8 + bit
    let offset ← p.mul (ofNat 64 frameIdx) pageSize
    let addr ← p.add s.frameRegionStart offset
    -- the assertion on the address comes after the bit has been set
    if addr < s.frameRegionEnd then return (some addr, { s with bitmap := bitmap })
    else none

def freeFrame (s : FrameAlloc) (addr : Word) : Option FrameAlloc :=
  -- an address outside the region is ignored
  if addr < s.frameRegionStart ∨ s.frameRegionEnd ≤ addr then some s
  else do
    let frameIdx := ((addr - s.frameRegionStart) / pageSize).toNat
    let byteIdx := frameIdx / 8
    let bitIdx := frameIdx % 8
    let b ← s.bitmap.read byteIdx
    -- the assertion against a double free
    if b &&& 1#8 <<< bitIdx ≠ 0 then
      return { s with bitmap := s.bitmap.write byteIdx (b &&& ~~~(1#8 <<< bitIdx)) }
    else none

/-- The client interface: `alloc_frame` and `free_frame`. -/
def clientStep (p : Profile) : StepFn FrameAlloc (FirstFit.Op Word) (FirstFit.Res Word)
  | s, .alloc => (s.allocFrame p).map fun (r, s') => (.allocated r, s')
  | s, .free addr => (s.freeFrame addr).map fun s' => (.freed, s')

/-- Every call of the module. -/
inductive Op
  | init
  | initFromMemoryMap (memoryMap : List MemoryRegion)
  | client (op : FirstFit.Op Word)

/-- The whole module; the two initialisers return nothing. -/
def step (p : Profile) : StepFn FrameAlloc Op (Option (FirstFit.Res Word))
  | s, .init => (s.init p).map fun s' => (none, s')
  | s, .initFromMemoryMap m => (s.initFromMemoryMap p m).map fun s' => (none, s')
  | s, .client op => (s.clientStep p op).map fun (r, s') => (some r, s')

/-! ## The frames of the region -/

/-- The address of frame `j` of the region. -/
def frameAddr (s : FrameAlloc) (j : Nat) : Word := s.frameRegionStart + ofNat 64 j * pageSize

/-- The region is exactly what a full bitmap covers: 8192 frames. -/
def RegionSized (s : FrameAlloc) : Prop :=
  s.frameRegionEnd.toNat = s.frameRegionStart.toNat + 8192 * 4096

/-- What every initialiser establishes and every call keeps. -/
structure WellFormed (s : FrameAlloc) : Prop where
  len : s.bitmapLen = maxBitmapBytes
  sized : s.RegionSized

variable {s : FrameAlloc} {best : Best}

theorem toNat_frameAddr (hs : s.RegionSized) (hj : j < 8192) :
    (s.frameAddr j).toNat = s.frameRegionStart.toNat + j * 4096 := by
  unfold RegionSized at hs
  rw [frameAddr, toNat_add, toNat_mul, toNat_ofNat]
  have hpage : pageSize.toNat = 4096 := rfl
  rw [hpage]
  omega

theorem frameAddr_inj (hs : s.RegionSized) (hi : i < 8192) (hj : j < 8192)
    (h : s.frameAddr i = s.frameAddr j) : i = j := by
  have heq := congrArg toNat h
  rw [toNat_frameAddr hs hi, toNat_frameAddr hs hj] at heq
  omega

/-! ## The initialisers -/

theorem totalFrames_of_sized (p : Profile) (hs : s.RegionSized) : s.totalFrames p = some 8192 := by
  unfold RegionSized at hs
  have hle : s.frameRegionStart.toNat ≤ s.frameRegionEnd.toNat := by omega
  have hsize : (s.frameRegionEnd - s.frameRegionStart).toNat = 8192 * 4096 := by
    rw [toNat_sub_of_le (le_def.mpr hle)]
    omega
  rw [totalFrames, p.sub_eq_some_of_le hle]
  show some ((s.frameRegionEnd - s.frameRegionStart) / pageSize).toNat = some 8192
  rw [toNat_udiv, hsize]
  rfl

theorem init_of_sized (p : Profile) (hs : s.RegionSized) : s.init p = some { s with
      bitmap := fillPrefix maxBitmapBytes 32
      bitmapLen := maxBitmapBytes
      totalFramesCount := 8192
      initialized := true } := by
  rw [init, totalFrames_of_sized p hs]
  rfl

/-- What the scan of the memory map keeps: the best region so far lies in the
    address window and is at least as large as the default one. -/
structure Best.Valid (best : Best) : Prop where
  stop_eq : best.stop.toNat = best.start.toNat + best.size.toNat
  size_ge : 0x02000000 ≤ best.size.toNat
  stop_le : best.stop.toNat ≤ 0x40000000

theorem defaultBest_valid : defaultBest.Valid := ⟨by decide, by decide, by decide⟩

/-- The part of a memory region inside the address window. -/
def part (r : MemoryRegion) : Nat × Nat := (max r.1.toNat 0x00100000, min r.2.1.toNat 0x40000000)

/-- One iteration: the region replaces the best one exactly when it is usable
    and its part in the window is larger. -/
theorem pickRegion_cases (best : Best) (r : MemoryRegion) :
    (pickRegion best r = best ∧ (r.2.2 = 1 → (part r).2 ≤ (part r).1 + best.size.toNat)) ∨
    (r.2.2 = 1 ∧ (pickRegion best r).start.toNat = (part r).1 ∧
      (pickRegion best r).stop.toNat = (part r).2 ∧
      (part r).2 = (part r).1 + (pickRegion best r).size.toNat ∧
      best.size.toNat < (pickRegion best r).size.toNat) := by
  have hstart : (max r.1 minAddr).toNat = (part r).1 := toNat_max _ _
  have hstop : (min r.2.1 maxAddr).toNat = (part r).2 := toNat_min _ _
  unfold pickRegion
  by_cases htype : r.2.2 = 1
  · rw [if_neg (not_not_intro htype)]
    -- nothing of the region in the window, a smaller part, or a larger one
    by_cases hempty : min r.2.1 maxAddr ≤ max r.1 minAddr
    · left
      rw [if_pos hempty]
      rw [le_def] at hempty
      exact ⟨rfl, fun _ => by omega⟩
    rw [if_neg hempty]
    rw [le_def] at hempty
    have hsize : (min r.2.1 maxAddr - max r.1 minAddr).toNat = (part r).2 - (part r).1 := by
      rw [toNat_sub_of_le (le_def.mpr (by omega)), hstart, hstop]
    by_cases hlt : best.size < min r.2.1 maxAddr - max r.1 minAddr
    · right
      rw [if_pos hlt]
      exact ⟨htype, hstart, hstop, by dsimp only; omega, by dsimp only; omega⟩
    left
    rw [if_neg hlt]
    rw [lt_def] at hlt
    exact ⟨rfl, fun _ => by omega⟩
  · left
    rw [if_pos htype]
    exact ⟨rfl, fun h => absurd h htype⟩

theorem pickRegion_valid (h : best.Valid) (r : MemoryRegion) : (pickRegion best r).Valid := by
  rcases pickRegion_cases best r with ⟨heq, -⟩ | ⟨-, hstart, hstop, hsize, hlt⟩
  · rwa [heq]
  have hge := h.size_ge
  refine ⟨by omega, by omega, ?_⟩
  rw [hstop]
  exact min_le_right _ _

/-- What the scan leaves after the whole map. -/
theorem foldl_pickRegion_valid (m : List MemoryRegion) (h : best.Valid) :
    (m.foldl pickRegion best).Valid := by
  induction m generalizing best with
  | nil => exact h
  | cons r m ih => exact ih (pickRegion_valid h r)

/-- Rounding up to a page boundary, as the source writes it. -/
theorem toNat_roundUp (hx : x.toNat ≤ 0x40000000) :
    ((x + pageSize - 1) &&& ~~~(pageSize - 1)).toNat = (x.toNat + 4095) / 4096 * 4096 := by
  have hsub : (x + pageSize - 1).toNat = x.toNat + 4095 := by
    have hadd : (x + pageSize).toNat = x.toNat + 4096 := by
      show (x.toNat + 4096) % 2 ^ 64 = x.toNat + 4096
      omega
    have hone : (1 : Word) ≤ x + pageSize := by
      rw [le_def, hadd]
      show 1 ≤ x.toNat + 4096
      omega
    rw [toNat_sub_of_le hone, hadd]
    rfl
  rw [toNat_and_not_mask _ _ 12 rfl, hsub]
  rfl

/-- A best region leaves at least 8191 whole pages after alignment. -/
theorem Best.Valid.pages (h : best.Valid) :
    ((best.start + pageSize - 1) &&& ~~~(pageSize - 1)).toNat + 8191 * 4096 ≤
      (best.stop &&& ~~~(pageSize - 1)).toNat := by
  obtain ⟨hstop, hsize, hwindow⟩ := h
  have hhi : (best.stop &&& ~~~(pageSize - 1)).toNat = best.stop.toNat / 4096 * 4096 :=
    toNat_and_not_mask _ _ 12 rfl
  rw [toNat_roundUp (by omega)]
  omega

/-- That many pages fill the bitmap. -/
theorem effectiveLen_eq (h : lo.toNat + 8191 * 4096 ≤ hi.toNat) :
    min ((((hi - lo) / pageSize).toNat + 7) / 8) maxBitmapBytes = maxBitmapBytes := by
  have hdiv : ((hi - lo) / pageSize).toNat = (hi.toNat - lo.toNat) / 4096 := by
    rw [toNat_udiv, toNat_sub_of_le (le_def.mpr (by omega))]
    rfl
  rw [min_eq_right]
  show 1024 ≤ _
  omega

theorem toNat_fullSize : (ofNat 64 (maxBitmapBytes * 8) * pageSize).toNat = 8192 * 4096 := by
  decide

/-- A map given to an uninitialised allocator: the region is the 8192 frames from the
    first page boundary of the selected region on; the first 256 are marked when it
    starts below 2 MiB. -/
theorem initFromMemoryMap_spec (p : Profile) (m : List MemoryRegion) (hs : s.initialized = false) :
    ∃ s', s.initFromMemoryMap p m = some s' ∧ s'.WellFormed ∧
      s'.frameRegionStart.toNat =
        ((m.foldl pickRegion defaultBest).start.toNat + 4095) / 4096 * 4096 ∧
      s'.bitmap = fillPrefix maxBitmapBytes
        (if s'.frameRegionStart < 0x00200000#64 then 32 else 0) := by
  have hvalid := foldl_pickRegion_valid m defaultBest_valid
  set best := m.foldl pickRegion defaultBest with hbest
  have hstart : best.start.toNat ≤ 0x40000000 := by
    have := hvalid.stop_eq
    have := hvalid.stop_le
    omega
  have hlo := toNat_roundUp hstart
  have hpages := hvalid.pages
  have hlen := effectiveLen_eq hpages
  -- none of the checked operations overflows
  have hadd : p.add best.start pageSize = some (best.start + pageSize) := by
    apply add_eq_some_of_lt
    show best.start.toNat + 4096 < 2 ^ 64
    omega
  have hsub : p.sub (best.start + pageSize) 1 = some (best.start + pageSize - 1) := by
    apply sub_eq_some_of_le
    show 1 ≤ (best.start.toNat + 4096) % 2 ^ 64
    omega
  have hmul : p.mul (ofNat 64 (maxBitmapBytes * 8)) pageSize =
      some (ofNat 64 (maxBitmapBytes * 8) * pageSize) :=
    p.mul_eq_some_of_lt (by decide)
  set lo := (best.start + pageSize - 1) &&& ~~~(pageSize - 1) with hlodef
  have hend : p.add lo (ofNat 64 (maxBitmapBytes * 8) * pageSize) =
      some (lo + ofNat 64 (maxBitmapBytes * 8) * pageSize) := by
    apply add_eq_some_of_lt
    rw [toNat_fullSize]
    omega
  have hne : ¬ best.stop &&& ~~~(pageSize - 1) ≤ lo := by
    rw [le_def]
    omega
  refine ⟨{
    frameRegionStart := lo
    frameRegionEnd := lo + ofNat 64 (maxBitmapBytes * 8) * pageSize
    bitmap := fillPrefix maxBitmapBytes
      (if lo < 0x00200000#64 then min 32 maxBitmapBytes else 0)
    bitmapLen := maxBitmapBytes
    totalFramesCount := maxBitmapBytes * 8
    initialized := true }, ?_, ⟨rfl, ?_⟩, hlo, rfl⟩
  · rw [initFromMemoryMap, if_neg (by rw [hs]; decide)]
    simp only [← hbest, hadd, hsub, bind_eq_bind, bind_some]
    rw [if_neg hne]
    rw [hlen, hmul, bind_some, hend]
    rfl
  · show (lo + ofNat 64 (maxBitmapBytes * 8) * pageSize).toNat = lo.toNat + 8192 * 4096
    rw [toNat_add, toNat_fullSize]
    omega

/-! ## alloc_frame and free_frame on a well-formed allocator -/

/-- The address arithmetic of `alloc_frame` does not overflow, and its first
    assertion holds. -/
theorem frameAddr_checked (p : Profile) (hs : s.RegionSized) (hj : j < 8192) :
    p.mul (ofNat 64 j) pageSize = some (ofNat 64 j * pageSize) ∧
      p.add s.frameRegionStart (ofNat 64 j * pageSize) = some (s.frameAddr j) ∧
      s.frameAddr j < s.frameRegionEnd := by
  have haddr := toNat_frameAddr hs hj
  unfold RegionSized at hs
  refine ⟨?_, ?_, ?_⟩
  · apply mul_eq_some_of_lt
    show j % 2 ^ 64 * 4096 < 2 ^ 64
    omega
  · apply add_eq_some_of_lt
    show s.frameRegionStart.toNat + j % 2 ^ 64 * 4096 % 2 ^ 64 < 2 ^ 64
    omega
  · rw [lt_def]
    omega

/-- `alloc_frame` returns the frame of the lowest clear bit and sets that bit
    alone, or `None` when every bit is set; it does not panic. -/
theorem allocFrame_spec (p : Profile) (hs : s.WellFormed) :
    (s.allocFrame p = some (none, s) ∧ ∀ j < 8192, s.bitmap.bit j = true) ∨
    ∃ j < 8192, s.bitmap.bit j = false ∧ (∀ i < j, s.bitmap.bit i = true) ∧
      ∃ bm : Bitmap maxBitmapBytes,
        s.allocFrame p = some (some (s.frameAddr j), { s with bitmap := bm }) ∧
        ∀ i, bm.bit i = if i = j then true else s.bitmap.bit i := by
  -- the scan covers the whole bitmap, and each of its bits is a frame
  have hscan := s.bitmap.scan_range (Nat.le_of_eq hs.len)
  rcases hscan with ⟨hscan, hall⟩ | ⟨j, hj, hscan, hclear, hlow⟩
  · left
    rw [hs.len] at hall
    exact ⟨by rw [allocFrame, hscan]; rfl, hall⟩
  right
  have hj : j < 8192 := by
    rwa [hs.len] at hj
  have hlt : j / 8 < maxBitmapBytes := by
    show j / 8 < 1024
    omega
  have hread : s.bitmap.read (j / 8) = some (s.bitmap ⟨j / 8, hlt⟩) := by
    rw [Bitmap.read, dif_pos hlt]
  have hidx : j / 8 * 8 + j % 8 = j := Nat.div_add_mod' j 8
  obtain ⟨hmul, hadd, hbelow⟩ := frameAddr_checked p hs.sized hj
  refine ⟨j, hj, hclear, hlow, _, ?_, bit_setBit hread⟩
  rw [allocFrame, hscan]
  simp only [bind_eq_bind, bind_some, hread, hidx, hmul, hadd]
  rw [if_pos hbelow]
  rfl

/-- `free_frame` of a frame whose bit is set clears that bit alone; it does not
    panic. -/
theorem freeFrame_spec (hs : s.WellFormed) (hj : j < 8192) (hset : s.bitmap.bit j = true) :
    ∃ bm : Bitmap maxBitmapBytes,
      s.freeFrame (s.frameAddr j) = some { s with bitmap := bm } ∧
      ∀ i, bm.bit i = if i = j then false else s.bitmap.bit i := by
  have haddr := toNat_frameAddr hs.sized hj
  have hsized : s.frameRegionEnd.toNat = s.frameRegionStart.toNat + 8192 * 4096 := hs.sized
  have hinside : ¬ (s.frameAddr j < s.frameRegionStart ∨ s.frameRegionEnd ≤ s.frameAddr j) := by
    rw [lt_def, le_def]
    omega
  have hidx : ((s.frameAddr j - s.frameRegionStart) / pageSize).toNat = j := by
    rw [toNat_udiv, toNat_sub_of_le (le_def.mpr (by omega)), haddr]
    show (s.frameRegionStart.toNat + j * 4096 - s.frameRegionStart.toNat) / 4096 = j
    omega
  have hlt : j / 8 < maxBitmapBytes := lt_of_bit hset
  have hread : s.bitmap.read (j / 8) = some (s.bitmap ⟨j / 8, hlt⟩) := by
    rw [Bitmap.read, dif_pos hlt]
  -- the second assertion: the bit is set
  have hbit : s.bitmap ⟨j / 8, hlt⟩ &&& 1#8 <<< (j % 8) ≠ 0 := by
    rw [bit_eq_of_lt _ hlt] at hset
    rw [Ne, and_mask_eq_zero_iff _ (Nat.mod_lt _ (by decide)), hset]
    decide
  refine ⟨_, ?_, bit_clearBit hread⟩
  rw [freeFrame, if_neg hinside, hidx]
  simp only [bind_eq_bind, hread, bind_some]
  rw [if_pos hbit]
  rfl

theorem allocFrame_eq_some (h : s.allocFrame p = some (r, s')) :
    ∃ bm : Bitmap maxBitmapBytes, s' = { s with bitmap := bm } := by
  rw [allocFrame, bind_eq_bind, bind_eq_some_iff] at h
  obtain ⟨found, -, h⟩ := h
  cases found with
  | none =>
    cases h
    exact ⟨s.bitmap, rfl⟩
  | some cell =>
    simp only [bind_eq_bind, bind_eq_some_iff] at h
    obtain ⟨b, -, offset, -, addr, -, h⟩ := h
    split at h
    · cases h
      exact ⟨_, rfl⟩
    · cases h

theorem freeFrame_eq_some (h : s.freeFrame addr = some s') :
    ∃ bm : Bitmap maxBitmapBytes, s' = { s with bitmap := bm } := by
  unfold freeFrame at h
  split at h
  · exact ⟨s.bitmap, (some.inj h).symm⟩
  rw [bind_eq_bind, bind_eq_some_iff] at h
  obtain ⟨b, -, h⟩ := h
  split at h
  · exact ⟨_, (some.inj h).symm⟩
  · cases h

/-- A client's call touches nothing but the bitmap. -/
theorem clientStep_eq_some (h : clientStep p s op = some (r, s')) :
    ∃ bm : Bitmap maxBitmapBytes, s' = { s with bitmap := bm } := by
  cases op with
  | alloc =>
    obtain ⟨⟨r₁, t⟩, halloc, heq⟩ := Option.map_eq_some_iff.mp h
    cases heq
    exact allocFrame_eq_some halloc
  | free addr =>
    obtain ⟨t, hfree, heq⟩ := Option.map_eq_some_iff.mp h
    cases heq
    exact freeFrame_eq_some hfree

theorem WellFormed.of_bitmap (hs : s.WellFormed)
    (bm : Bitmap maxBitmapBytes) : ({ s with bitmap := bm } : FrameAlloc).WellFormed :=
  ⟨hs.len, hs.sized⟩

end FrameAlloc

end OpenOS.Memory
