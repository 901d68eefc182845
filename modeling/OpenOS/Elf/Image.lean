/-
  The image that `load_elf` builds.

  The bytes of every segment are in place before the relocations, as far as the
  file has them: page index, offset in the segment and offset in the page agree
  in the page loop, also for the unaligned first page.  What the loader does
  not do is to reject a range that leaves the file, to look at the stack pages,
  which replace segment pages, and to bound the copy into an unaligned first
  page, which runs on into the physically next frame.
-/

import OpenOS.Elf.Trace
import OpenOS.Memory.Vma

namespace OpenOS.Elf

open OpenOS.Base OpenOS.Memory.PageTable List ProgramHeader PhysMem PageJob LoadState
open BitVec (le_def lt_def ofNat toNat_add_of_lt toNat_inj toNat_ofNat toNat_sub toNat_zero)

/-! ## Frames -/

/-- The answers of `alloc_frame`: frames of physical memory, lowest first. -/
structure FramesOk (frames : List Word) : Prop where
  aligned : ∀ f ∈ frames, f.toNat % 4096 = 0
  bounded : ∀ f ∈ frames, f.toNat < 2 ^ 52
  ascending : frames.Pairwise (· < ·)

/-- `map_page` leaves the frames of the loader alone. -/
def KeepsFrames (onMap : Mapping → PhysMem → PhysMem) (frames : List Word) : Prop :=
  ∀ m mem a, pageOf a ∈ frames → (onMap m mem).byteAt a = mem.byteAt a

/-! ## One page -/

/-- The byte at this offset of a page filled like this. -/
def PageFill.byte : PageFill → Nat → Byte
  | .bytes offset src, off => if offset.toNat ≤ off then src.getD (off - offset.toNat) 0 else 0
  | _, _ => 0

/-- A copy that starts inside the page and is no longer than one. -/
def PageFill.Fits : PageFill → Prop
  | .bytes offset src => offset.toNat < 4096 ∧ src.length ≤ 4096
  | _ => True

variable {jobs : List PageJob}
  {l : List (PageJob × Word)}

section Recorder

theorem byteAt_setBytes_of_fits (mem : PhysMem) (a : Word) (halign : f.toNat % 4096 = 0)
    (hbound : f.toNat < 2 ^ 52) (hoff : offset.toNat < 4096) (hlen : src.length ≤ 4096) :
    (pageOf a = f → mem.byteAt a = 0 →
      (mem.setBytes (f + offset) src).byteAt a =
        (PageFill.bytes offset src).byte (a.toNat % 4096)) ∧
    (pageOf a < f → (mem.setBytes (f + offset) src).byteAt a = mem.byteAt a) := by
  have hsum : (f + offset).toNat = f.toNat + offset.toNat := toNat_add_of_lt (by omega)
  have hpage := toNat_pageOf a
  rw [byteAt_setBytes _ _ _ _ (by omega)]
  constructor
  · intro ha hzero
    rw [ha] at hpage
    rw [PageFill.byte, hzero]
    by_cases hle : offset.toNat ≤ a.toNat % 4096
    · rw [if_pos hle, BitVec.toNat_sub_of_le (by rw [le_def]; omega), hsum]
      congr 1
      omega
    · rw [if_neg hle, getD_eq_default]
      rw [toNat_sub]
      omega
  · intro hlt
    rw [lt_def] at hlt
    rw [getD_eq_default]
    rw [toNat_sub]
    omega

variable {s : LoadState} {frames : List Word}

theorem byteAt_load (hmap : KeepsFrames onMap frames) (halign : f.toNat % 4096 = 0)
    (hbound : f.toNat < 2 ^ 52) (hfits : job.fill.Fits) (ha : pageOf a ∈ frames) :
    (pageOf a = f → (s.load onMap job f).mem.byteAt a = job.fill.byte (a.toNat % 4096)) ∧
    (pageOf a < f → (s.load onMap job f).mem.byteAt a = s.mem.byteAt a) := by
  have hzero : pageOf a = f → (s.mem.zeroTable f).byteAt a = 0 := by
    intro h
    rw [byteAt_zeroTable, if_pos h]
  have hkeep : pageOf a < f → (s.mem.zeroTable f).byteAt a = s.mem.byteAt a := by
    intro h
    rw [byteAt_zeroTable, if_neg (ne_of_lt h)]
  unfold load
  cases hfill : job.fill with
  | skip => exact ⟨hzero, hkeep⟩
  | zeros =>
    rw [hmap _ _ _ ha]
    exact ⟨hzero, hkeep⟩
  | bytes offset src =>
    rw [hfill] at hfits
    obtain ⟨hin, hbelow⟩ := byteAt_setBytes_of_fits (s.mem.zeroTable f) a halign hbound
      hfits.1 hfits.2
    rw [hmap _ _ _ ha]
    exact ⟨fun h => hin h (hzero h), fun h => (hbelow h).trans (hkeep h)⟩

theorem FramesOk.of_cons (h : FramesOk (f :: fs)) :
    f.toNat % 4096 = 0 ∧ f.toNat < 2 ^ 52 ∧ (∀ g ∈ fs, f < g) ∧ FramesOk fs := by
  obtain ⟨halign, hbound, hasc⟩ := h
  rw [forall_mem_cons] at halign hbound
  rw [pairwise_cons] at hasc
  exact ⟨halign.1, hbound.1, hasc.1, halign.2, hbound.2, hasc.2⟩

section

variable (hmap : KeepsFrames onMap frames)
  (hfits : ∀ job ∈ jobs, job.fill.Fits)
  (hframes : FramesOk s.frames)
include hmap hfits hframes

theorem byteAt_afterJobs_of_lt (ha : pageOf a ∈ frames) (hlt : ∀ f ∈ s.frames, pageOf a < f) :
    (afterJobs onMap jobs s).mem.byteAt a = s.mem.byteAt a := by
  induction jobs generalizing s with
  | nil => rfl
  | cons job jobs ih =>
    rw [afterJobs]
    cases hs : s.frames with
    | nil => rfl
    | cons f fs =>
      rw [hs] at hframes hlt
      rw [forall_mem_cons] at hlt hfits
      obtain ⟨halign, hbound, -, htail⟩ := hframes.of_cons
      rw [ih hfits.2 (by rwa [frames_load]) (by rw [frames_load]; exact hlt.2),
        (byteAt_load hmap halign hbound hfits.1 ha).2 hlt.1]

theorem byteAt_afterJobs (hsub : s.frames ⊆ frames) (hq : q ∈ jobs.zip s.frames)
    (ha : pageOf a = q.2) :
    (afterJobs onMap jobs s).mem.byteAt a = q.1.fill.byte (a.toNat % 4096) := by
  -- the first job fills the lowest frame, which the others do not reach
  induction jobs generalizing s with
  | nil => cases hq
  | cons job jobs ih =>
    rw [afterJobs]
    cases hs : s.frames with
    | nil =>
      rw [hs] at hq
      cases hq
    | cons f fs =>
      rw [hs] at hframes hsub hq
      rw [forall_mem_cons] at hfits
      rw [cons_subset] at hsub
      obtain ⟨halign, hbound, hlt, htail⟩ := hframes.of_cons
      rcases mem_cons.mp hq with rfl | hq
      · have hmem : pageOf a ∈ frames := ha ▸ hsub.1
        rw [byteAt_afterJobs_of_lt hmap hfits.2 (by rwa [frames_load]) hmem
          (by rwa [frames_load, ha])]
        exact (byteAt_load hmap halign hbound hfits.1 hmem).1 ha
      exact ih hfits.2 (by rwa [frames_load]) (by rw [frames_load]; exact hsub.2)
        (by rwa [frames_load])

end

end Recorder

/-! ## What a page receives -/

section Fill

variable (data : List Byte) (ph : ProgramHeader) (virt : Word)

/-- The offset in the segment at which the page takes its bytes. -/
def segOffset : Nat := virt.toNat - ph.pVaddr.toNat

/-- How many bytes the page takes. -/
def fillLen : Nat := min 4096 (ph.pFilesz.toNat - segOffset ph virt)

/-- Where in the page they go. -/
def fillOffset : Word := if virt = ph.startPage then ph.pVaddr &&& 0xFFF else 0

theorem toNat_fillOffset_lt : (fillOffset ph virt).toNat < 4096 := by
  unfold fillOffset
  split
  · rw [toNat_and_mask _ _ 12 rfl]
    exact Nat.mod_lt _ (by decide)
  · decide

/-- The four ways `load_elf` fills a page. -/
inductive FillCase : PageFill → Prop
  | beyond (h : ph.pFilesz.toNat ≤ segOffset ph virt) : FillCase .zeros
  | overflow (h : 2 ^ 64 ≤ ph.pOffset.toNat + segOffset ph virt + fillLen ph virt)
      (hlt : segOffset ph virt < ph.pFilesz.toNat) : FillCase .skip
  | outside (h : data.length < ph.pOffset.toNat + segOffset ph virt + fillLen ph virt)
      (hlt : segOffset ph virt < ph.pFilesz.toNat) : FillCase .zeros
  | copy (h : ph.pOffset.toNat + segOffset ph virt + fillLen ph virt ≤ data.length)
      (hlt : segOffset ph virt < ph.pFilesz.toNat) :
      FillCase (.bytes (fillOffset ph virt)
        (slice data (ph.pOffset.toNat + segOffset ph virt) (fillLen ph virt)))

theorem fillCase : FillCase data ph virt (pageFill data ph virt) := by
  have hoff : (saturatingSub virt ph.pVaddr).toNat = segOffset ph virt := toNat_saturatingSub _ _
  unfold pageFill
  by_cases hlt : saturatingSub virt ph.pVaddr < ph.pFilesz
  · rw [if_pos hlt]
    rw [lt_def, hoff] at hlt
    have hlen : (min (saturatingAdd (saturatingSub virt ph.pVaddr) 0x1000) ph.pFilesz -
        saturatingSub virt ph.pVaddr).toNat = fillLen ph virt := by
      have hmin : (min (saturatingAdd (saturatingSub virt ph.pVaddr) 0x1000) ph.pFilesz).toNat =
          min (min (segOffset ph virt + 4096) (2 ^ 64 - 1)) ph.pFilesz.toNat := by
        rw [toNat_min, toNat_saturatingAdd, hoff]
        rfl
      rw [BitVec.toNat_sub_of_le (by rw [le_def]; omega), hoff, hmin, fillLen]
      omega
    cases hadd : checkedAdd ph.pOffset (saturatingSub virt ph.pVaddr) with
    | none =>
      rw [checkedAdd_eq_none] at hadd
      exact .overflow (by omega) hlt
    | some fileStart =>
      rw [checkedAdd_eq_some, hoff] at hadd
      dsimp only
      cases hadd' : checkedAdd fileStart (min (saturatingAdd (saturatingSub virt ph.pVaddr)
          0x1000) ph.pFilesz - saturatingSub virt ph.pVaddr) with
      | none =>
        rw [checkedAdd_eq_none, hlen, hadd] at hadd'
        exact .overflow hadd' hlt
      | some fileEnd =>
        rw [checkedAdd_eq_some, hlen, hadd] at hadd'
        dsimp only
        rw [hlen, hadd, hadd']
        by_cases hle : ph.pOffset.toNat + segOffset ph virt + fillLen ph virt ≤ data.length
        · rw [if_pos hle]
          exact .copy hle hlt
        · rw [if_neg hle]
          exact .outside (not_le.mp hle) hlt
  · rw [if_neg hlt]
    rw [lt_def, hoff, not_lt] at hlt
    exact .beyond hlt

theorem pageFill_fits : (pageFill data ph virt).Fits := by
  have hcase := fillCase data ph virt
  generalize pageFill data ph virt = fill at hcase ⊢
  cases hcase with
  | beyond h => trivial
  | overflow h hlt => trivial
  | outside h hlt => trivial
  | copy h hlt =>
    refine ⟨toNat_fillOffset_lt ph virt, ?_⟩
    rw [slice, length_take]
    exact (min_le_left _ _).trans (min_le_left _ _)

end Fill

/-! ## One byte of a segment -/

theorem getElem?_of_slice (hi : i < len) (hlen : start + len ≤ data.length) :
    data[start + i]? = some ((slice data start len).getD i 0) := by
  have hlt : start + i < data.length := by omega
  rw [slice, getD_eq_getElem?_getD, getElem?_take_of_lt hi, getElem?_drop,
    getElem?_eq_getElem hlt, Option.getD_some]

section Byte

variable {ph : ProgramHeader} {endPage : Word}

/-- The address of byte `k` of a segment. -/
def segmentAddr (ph : ProgramHeader) (k : Nat) : Word := ph.pVaddr + ofNat 64 k

section

variable (hend : ph.endPage = some endPage) (hk : k < ph.pMemsz.toNat)
include hend hk

theorem toNat_segmentAddr : (segmentAddr ph k).toNat = ph.pVaddr.toNat + k := by
  obtain ⟨-, hlt⟩ := toNat_endPage hend
  have hk' : (ofNat 64 k).toNat = k := by
    rw [toNat_ofNat]
    omega
  rw [segmentAddr, toNat_add_of_lt (by omega), hk']

/-- The page it lies in. -/
theorem exists_page_of_byte : ∃ idx < ph.numPages, pageOf (segmentAddr ph k) = ph.page idx := by
  obtain ⟨hstop, hlt⟩ := toNat_endPage hend
  have hstart := ph.toNat_startPage
  have hidx : (ph.pVaddr.toNat + k) / 4096 - ph.pVaddr.toNat / 4096 < ph.numPages := by
    rw [numPages_eq hend]
    omega
  refine ⟨_, hidx, ?_⟩
  rw [← toNat_inj, toNat_pageOf, toNat_segmentAddr hend hk, (toNat_page hidx).1]
  omega

/-- Where the page loop puts byte `k`: as far behind the first byte taken as behind the
    offset at which the page is filled. -/
theorem position_of_byte (hidx : idx < ph.numPages)
    (hpage : pageOf (segmentAddr ph k) = ph.page idx) :
    (fillOffset ph (ph.page idx)).toNat ≤ (segmentAddr ph k).toNat % 4096 ∧
      segOffset ph (ph.page idx) +
        ((segmentAddr ph k).toNat % 4096 - (fillOffset ph (ph.page idx)).toNat) = k := by
  obtain ⟨hnat, -⟩ := toNat_page hidx
  have haddr := toNat_segmentAddr hend hk
  have hstart := ph.toNat_startPage
  rw [← toNat_inj, toNat_pageOf] at hpage
  rw [segOffset, fillOffset]
  by_cases hfirst : idx = 0
  · -- the first page starts at or before the segment
    have hvirt : ph.page idx = ph.startPage := by
      rw [← toNat_inj, hnat, hstart, hfirst, Nat.add_zero]
    rw [if_pos hvirt, toNat_and_mask _ _ 12 rfl]
    omega
  -- the others start inside it
  have hvirt : ph.page idx ≠ ph.startPage := by
    rw [ne_eq, ← toNat_inj]
    omega
  rw [if_neg hvirt, BitVec.ofNat_eq_ofNat, toNat_zero]
  omega

end

theorem byte_pageFill (hdata : data.length < 2 ^ 64) (hend : ph.endPage = some endPage)
    (hrange : ph.pOffset.toNat + ph.pFilesz.toNat ≤ data.length) (hk : k < ph.pMemsz.toNat)
    (hidx : idx < ph.numPages) (hpage : pageOf (segmentAddr ph k) = ph.page idx) :
    (k < ph.pFilesz.toNat → data[ph.pOffset.toNat + k]? =
      some ((pageFill data ph (ph.page idx)).byte ((segmentAddr ph k).toNat % 4096))) ∧
    (ph.pFilesz.toNat ≤ k →
      (pageFill data ph (ph.page idx)).byte ((segmentAddr ph k).toNat % 4096) = 0) := by
  obtain ⟨hle, hsum⟩ := position_of_byte hend hk hidx hpage
  have hcase := fillCase data ph (ph.page idx)
  generalize pageFill data ph (ph.page idx) = fill at hcase ⊢
  cases hcase with
  | beyond h => exact ⟨fun hlt => by omega, fun _ => rfl⟩
  | overflow h hlt =>
    unfold fillLen at h
    omega
  | outside h hlt =>
    unfold fillLen at h
    omega
  | copy h hlt =>
    rw [PageFill.byte, if_pos hle]
    constructor
    · intro hlt'
      have hindex : ph.pOffset.toNat + k = ph.pOffset.toNat + segOffset ph (ph.page idx) +
          ((segmentAddr ph k).toNat % 4096 - (fillOffset ph (ph.page idx)).toNat) := by
        omega
      rw [hindex]
      exact getElem?_of_slice (by rw [fillLen]; omega) h
    · intro hge
      refine getD_eq_default _ _ ?_
      rw [slice, length_take, fillLen]
      omega

theorem pageFill_ne_skip (hdata : data.length < 2 ^ 64)
    (hrange : ph.pOffset.toNat + ph.pFilesz.toNat ≤ data.length) (virt : Word) :
    pageFill data ph virt ≠ .skip := by
  have hcase := fillCase data ph virt
  generalize pageFill data ph virt = fill at hcase ⊢
  cases hcase with
  | beyond h => simp
  | overflow h hlt =>
    unfold fillLen at h
    omega
  | outside h hlt => simp
  | copy h hlt => simp

end Byte

/-! ## Looking a page up -/

/-- The mapping in force for a page: that of the last `map_page` call. -/
def LoadState.lookup (s : LoadState) (v : Word) : Option Mapping :=
  s.mapped.find? fun m => m.virt = v

theorem mappingOf_eq_some (hskip : job.fill ≠ .skip) (f : Word) :
    mappingOf (job, f) = some ⟨job.virt, f, job.writable, job.executable⟩ := by
  obtain ⟨virt, writable, executable, fill⟩ := job
  cases fill with
  | skip => exact absurd rfl hskip
  | zeros => rfl
  | bytes offset src => rfl

theorem virt_of_mappingOf (h : mappingOf q = some m) : m.virt = q.1.virt := by
  obtain ⟨⟨virt, writable, executable, fill⟩, f⟩ := q
  cases fill with
  | skip => cases h
  | zeros => rw [← Option.some.inj h]
  | bytes offset src => rw [← Option.some.inj h]

theorem find?_filterMap_mappingOf (hdistinct : (l.map fun q => q.1.virt).Nodup) (hq : q ∈ l)
    (hskip : q.1.fill ≠ .skip) :
    (l.filterMap mappingOf).reverse.find? (fun m => m.virt = q.1.virt) =
      some ⟨q.1.virt, q.2, q.1.writable, q.1.executable⟩ := by
  have hmap := mappingOf_eq_some hskip q.2
  have hmem : (⟨q.1.virt, q.2, q.1.writable, q.1.executable⟩ : Mapping) ∈
      (l.filterMap mappingOf).reverse := by
    rw [mem_reverse]
    exact mem_filterMap.mpr ⟨q, hq, hmap⟩
  cases hfind : (l.filterMap mappingOf).reverse.find? (fun m => m.virt = q.1.virt) with
  | none =>
    have hnot := find?_eq_none.mp hfind _ hmem
    simp at hnot
  | some m =>
    -- the job found has the same page, so it is this one
    have hvirt : m.virt = q.1.virt := by simpa using find?_some hfind
    have hm := mem_of_find?_eq_some hfind
    rw [mem_reverse] at hm
    obtain ⟨q', hq', hmap'⟩ := mem_filterMap.mp hm
    have heq : q' = q := by
      refine inj_on_of_nodup_map hdistinct hq' hq ?_
      rw [← hvirt, virt_of_mappingOf hmap']
    rw [heq] at hmap'
    rw [← hmap', ← hmap]

theorem find?_filterMap_mappingOf_eq_none (h : ∀ q ∈ l, q.1.virt ≠ v) :
    (l.filterMap mappingOf).reverse.find? (fun m => m.virt = v) = none := by
  refine find?_eq_none.mpr fun m hm => ?_
  rw [mem_reverse] at hm
  obtain ⟨q, hq, hmap⟩ := mem_filterMap.mp hm
  rw [decide_eq_true_eq, virt_of_mappingOf hmap]
  exact h q hq

section Lookup

variable
  {frames fs : List Word} {mem : PhysMem}

theorem zip_jobs (hlen : (segmentJobs data phs).length ≤ frames.length) :
    (segmentJobs data phs ++ stackJobs).zip frames =
      (segmentJobs data phs).zip (frames.take (segmentJobs data phs).length) ++
        stackJobs.zip (frames.drop (segmentJobs data phs).length) := by
  rw [← zip_append (by rw [length_take, Nat.min_eq_left hlen]), take_append_drop]

/-- The state after the segments and the stack. -/
abbrev afterLoad (onMap : Mapping → PhysMem → PhysMem) (data : List Byte)
    (phs : List ProgramHeader) (frames : List Word) (mem : PhysMem) : LoadState :=
  afterJobs onMap (segmentJobs data phs ++ stackJobs) { frames, mem }

theorem lookup_afterJobs (hlen : (segmentJobs data phs).length ≤ frames.length) (v : Word) :
    (afterLoad onMap data phs frames mem).lookup v =
      (((stackJobs.zip (frames.drop (segmentJobs data phs).length)).filterMap
          mappingOf).reverse.find? fun m => m.virt = v).or
        (((segmentJobs data phs).zip (frames.take (segmentJobs data phs).length)).filterMap
          mappingOf |>.reverse.find? fun m => m.virt = v) := by
  rw [LoadState.lookup, mapped_afterJobs, append_nil, zip_jobs hlen, filterMap_append,
    reverse_append, find?_append]

theorem map_fst_zip_virt (jobs : List PageJob) (h : jobs.length ≤ fs.length) :
    ((jobs.zip fs).map fun q => q.1.virt) = jobs.map virt := by
  have hfst := congrArg (map virt) (map_fst_zip h)
  rwa [map_map] at hfst

theorem exists_mem_zip (h : jobs.length ≤ fs.length) (hjob : job ∈ jobs) :
    ∃ f, (job, f) ∈ jobs.zip fs := by
  rw [← map_fst_zip h] at hjob
  obtain ⟨q, hq, rfl⟩ := mem_map.mp hjob
  exact ⟨q.2, hq⟩

theorem nodup_stackJobs : (stackJobs.map virt).Nodup := by
  decide

theorem lookup_stackPage (onMap : Mapping → PhysMem → PhysMem) (mem : PhysMem)
    (hlen : (segmentJobs data phs).length + stackPages ≤ frames.length) (hi : i < stackPages) :
    ∃ f, (stackJob i, f) ∈ (segmentJobs data phs ++ stackJobs).zip frames ∧
      (afterLoad onMap data phs frames mem).lookup (stackPage i) =
        some ⟨stackPage i, f, true, false⟩ := by
  have hdrop : stackJobs.length ≤ (frames.drop (segmentJobs data phs).length).length := by
    rw [length_drop, stackJobs, length_map, length_range]
    omega
  obtain ⟨f, hq⟩ := exists_mem_zip hdrop (mem_map_of_mem (mem_range.mpr hi))
  refine ⟨f, ?_, ?_⟩
  · rw [zip_jobs (by omega)]
    exact mem_append_right _ hq
  · have hdistinct : ((stackJobs.zip (frames.drop (segmentJobs data phs).length)).map
        fun q => q.1.virt).Nodup := by
      rw [map_fst_zip_virt _ hdrop]
      exact nodup_stackJobs
    have hfind := find?_filterMap_mappingOf hdistinct hq (by simp [stackJob])
    rw [lookup_afterJobs (by omega)]
    rw [show stackPage i = (stackJob i, f).1.virt from rfl, hfind]
    rfl

theorem lookup_segmentPage (hlen : (segmentJobs data phs).length + stackPages ≤ frames.length)
    (hdistinct : ((segmentJobs data phs).map virt).Nodup)
    (hph : ph ∈ phs) (hidx : idx < ph.numPages) (hskip : pageFill data ph (ph.page idx) ≠ .skip)
    (hstack : ∀ i < stackPages, ph.page idx ≠ stackPage i) :
    ∃ f, (segmentJob data ph idx, f) ∈ (segmentJobs data phs ++ stackJobs).zip frames ∧
      (afterLoad onMap data phs frames mem).lookup
        (ph.page idx) = some ⟨ph.page idx, f, ph.writable, ph.executable⟩ := by
  have htake : (segmentJobs data phs).length ≤
      (frames.take (segmentJobs data phs).length).length := by
    rw [length_take]
    omega
  have hmem : segmentJob data ph idx ∈ segmentJobs data phs :=
    mem_flatMap.mpr ⟨ph, hph, mem_map_of_mem (mem_range.mpr hidx)⟩
  obtain ⟨f, hq⟩ := exists_mem_zip htake hmem
  refine ⟨f, ?_, ?_⟩
  · rw [zip_jobs (by omega)]
    exact mem_append_left _ hq
  · rw [← map_fst_zip_virt _ htake] at hdistinct
    have hfind := find?_filterMap_mappingOf hdistinct hq hskip
    rw [lookup_afterJobs (by omega), find?_filterMap_mappingOf_eq_none]
    · exact hfind
    · intro q hq'
      obtain ⟨i, hi, hjob⟩ := mem_map.mp (of_mem_zip hq').1
      rw [← hjob]
      exact (hstack i (mem_range.mp hi)).symm

end Lookup

/-! ## The property -/

/-- `b` is byte `k` of the segment as the file describes it. -/
def IsSegmentByte (data : List Byte) (ph : ProgramHeader) (k : Nat) (b : Byte) : Prop :=
  (k < ph.pFilesz.toNat → data[ph.pOffset.toNat + k]? = some b) ∧ (ph.pFilesz.toNat ≤ k → b = 0)

/-- The segment lies inside the file, and its file part inside the segment. -/
def InFile (data : List Byte) (ph : ProgramHeader) : Prop :=
  ph.pOffset.toNat + ph.pFilesz.toNat ≤ data.length ∧ ph.pFilesz.toNat ≤ ph.pMemsz.toNat

/-- The image is the one the PT_LOAD headers describe; the memory is that before
    the relocations, which the machine only records. -/
structure BuildsImage (data : List Byte) (phs : List ProgramHeader) (s : LoadState) : Prop where
  /-- Every byte of every segment is there, with the segment's permissions. -/
  bytes : ∀ ph ∈ phs, ∀ k < ph.pMemsz.toNat, ∃ m, s.lookup (pageOf (segmentAddr ph k)) = some m ∧
    m.writable = ph.writable ∧ m.executable = ph.executable ∧
    IsSegmentByte data ph k (s.mem.byteAt (m.phys + (segmentAddr ph k &&& 0xFFF)))
  /-- Copying writes only to frames allocated by this load. -/
  frames : ∀ q ∈ s.copied, ∀ i < q.2, pageOf (q.1 + ofNat 64 i) ∈ s.taken
  /-- A file with a bad segment range is not accepted. -/
  ranges : ∀ ph ∈ phs, InFile data ph

/-! ## The condition -/

/-- The pages of the segments in the order in which they are loaded. -/
def segmentPages (phs : List ProgramHeader) : List (ProgramHeader × Nat) :=
  phs.flatMap fun ph => (range ph.numPages).map fun idx => (ph, idx)

/-- The copy into the first page runs over its end. -/
def Overruns (ph : ProgramHeader) : Prop :=
  4096 < ph.pVaddr.toNat % 4096 + min 4096 ph.pFilesz.toNat

/-- What the loader leaves to chance. -/
structure ImageSafe (data : List Byte) (frames : List Word) (phs : List ProgramHeader) : Prop where
  /-- Segment ranges are sound. -/
  ranges : ∀ ph ∈ phs, InFile data ph
  /-- Segment bytes in stack pages are zero, writable and not executable. -/
  stack : ∀ ph ∈ phs, ∀ k < ph.pMemsz.toNat,
    (∃ i < stackPages, pageOf (segmentAddr ph k) = stackPage i) →
      ph.writable = true ∧ ph.executable = false ∧ IsSegmentByte data ph k 0
  /-- Where the copy runs over the first page, the physically next frame is the
      one the allocator hands out next. -/
  overrun : ∀ j ph, (segmentPages phs)[j]? = some (ph, 0) → Overruns ph →
    frames[j + 1]? = frames[j]?.map (· + 0x1000)

theorem segmentJobs_eq_map (data : List Byte) (phs : List ProgramHeader) :
    segmentJobs data phs = (segmentPages phs).map fun q => segmentJob data q.1 q.2 := by
  rw [segmentJobs, segmentPages, map_flatMap]
  congr 1
  funext ph
  rw [map_map]
  rfl

theorem mem_segmentPages : q ∈ segmentPages phs ↔ q.1 ∈ phs ∧ q.2 < q.1.numPages := by
  obtain ⟨ph, idx⟩ := q
  rw [segmentPages, mem_flatMap]
  constructor
  · rintro ⟨ph', hph, hq⟩
    obtain ⟨idx', hidx, heq⟩ := mem_map.mp hq
    cases heq
    exact ⟨hph, mem_range.mp hidx⟩
  · rintro ⟨hph, hidx⟩
    exact ⟨ph, hph, mem_map_of_mem (mem_range.mpr hidx)⟩

/-! ## The bytes -/

section Load

variable
  {frames : List Word} {mem : PhysMem}

theorem fits_of_mem_jobs (h : job ∈ segmentJobs data phs ++ stackJobs) : job.fill.Fits := by
  rcases mem_append.mp h with h | h
  · rw [segmentJobs_eq_map] at h
    obtain ⟨q, -, rfl⟩ := mem_map.mp h
    exact pageFill_fits data q.1 _
  · obtain ⟨i, -, rfl⟩ := mem_map.mp h
    trivial

theorem byteAt_frame (hframes : FramesOk frames) (hmap : KeepsFrames onMap frames)
    (hq : q ∈ (segmentJobs data phs ++ stackJobs).zip frames) (v : Word) :
    (afterLoad onMap data phs frames mem).mem.byteAt
      (q.2 + (v &&& 0xFFF)) = q.1.fill.byte (v.toNat % 4096) := by
  have hmem := (of_mem_zip hq).2
  have halign := hframes.aligned _ hmem
  have hoff : (v &&& 0xFFF).toNat = v.toNat % 4096 := toNat_and_mask _ _ 12 rfl
  have hsum : (q.2 + (v &&& 0xFFF)).toNat = q.2.toNat + v.toNat % 4096 := by
    rw [toNat_add_of_lt (by omega), hoff]
  have hpage : pageOf (q.2 + (v &&& 0xFFF)) = q.2 := by
    rw [← toNat_inj, toNat_pageOf]
    omega
  rw [byteAt_afterJobs hmap (fun _ h => fits_of_mem_jobs h) hframes (List.Subset.refl _) hq hpage]
  congr 1
  omega

theorem stack_byte (mem : PhysMem) (hframes : FramesOk frames) (hmap : KeepsFrames onMap frames)
    (hlen : (segmentJobs data phs).length + stackPages ≤ frames.length) (hi : i < stackPages)
    (hv : pageOf v = stackPage i) :
    ∃ f, (afterLoad onMap data phs frames mem).lookup (pageOf v) =
        some ⟨stackPage i, f, true, false⟩ ∧
      (afterLoad onMap data phs frames mem).mem.byteAt (f + (v &&& 0xFFF)) = 0 := by
  obtain ⟨f, hq, hlookup⟩ := lookup_stackPage onMap mem hlen hi
  refine ⟨f, ?_, ?_⟩
  · rw [hv, hlookup]
  · exact byteAt_frame hframes hmap hq v

section

variable (hframes : FramesOk frames) (hmap : KeepsFrames onMap frames)
  (hlen : (segmentJobs data phs).length + stackPages ≤ frames.length)
include hframes hmap hlen

section

variable (hdistinct : ((segmentJobs data phs).map virt).Nodup) (hdata : data.length < 2 ^ 64)
include hdistinct hdata

theorem segment_byte (hph : ph ∈ phs) (hfile : InFile data ph) {endPage : Word}
    (hend : ph.endPage = some endPage) (hk : k < ph.pMemsz.toNat)
    (hstack : ∀ i < stackPages, pageOf (segmentAddr ph k) ≠ stackPage i) :
    ∃ m, (afterLoad onMap data phs frames mem).lookup (pageOf (segmentAddr ph k)) = some m ∧
      m.writable = ph.writable ∧ m.executable = ph.executable ∧ IsSegmentByte data ph k
        ((afterLoad onMap data phs frames mem).mem.byteAt
          (m.phys + (segmentAddr ph k &&& 0xFFF))) := by
  obtain ⟨idx, hidx, hpage⟩ := exists_page_of_byte hend hk
  rw [hpage] at hstack ⊢
  obtain ⟨f, hq, hlookup⟩ := lookup_segmentPage hlen hdistinct hph hidx
    (pageFill_ne_skip hdata hfile.1 _) hstack
  refine ⟨_, hlookup, rfl, rfl, ?_⟩
  rw [byteAt_frame hframes hmap hq]
  exact byte_pageFill hdata hend hfile.1 hk hidx hpage

/-- With sound segment ranges, the image is right exactly when the stack pages
    cover nothing that matters. -/
theorem bytes_iff (hends : ∀ ph ∈ phs, ∃ endPage, ph.endPage = some endPage)
    (hfile : ∀ ph ∈ phs, InFile data ph) :
    (∀ ph ∈ phs, ∀ k < ph.pMemsz.toNat, ∃ m,
      (afterLoad onMap data phs frames mem).lookup (pageOf (segmentAddr ph k)) = some m ∧
      m.writable = ph.writable ∧ m.executable = ph.executable ∧ IsSegmentByte data ph k
        ((afterLoad onMap data phs frames mem).mem.byteAt
          (m.phys + (segmentAddr ph k &&& 0xFFF)))) ↔
      ∀ ph ∈ phs, ∀ k < ph.pMemsz.toNat,
        (∃ i < stackPages, pageOf (segmentAddr ph k) = stackPage i) →
          ph.writable = true ∧ ph.executable = false ∧ IsSegmentByte data ph k 0 := by
  refine forall₄_congr fun ph hph k hk => ?_
  by_cases hstack : ∃ i < stackPages, pageOf (segmentAddr ph k) = stackPage i
  · obtain ⟨i, hi, hv⟩ := hstack
    obtain ⟨f, hlookup, hzero⟩ := stack_byte mem hframes hmap hlen hi hv
    constructor
    · rintro ⟨m, hm, hw, hx, hbyte⟩ -
      cases hlookup.symm.trans hm
      rw [hzero] at hbyte
      exact ⟨hw.symm, hx.symm, hbyte⟩
    · intro h
      obtain ⟨hw, hx, hbyte⟩ := h ⟨i, hi, hv⟩
      exact ⟨_, hlookup, hw.symm, hx.symm, by rw [hzero]; exact hbyte⟩
  · obtain ⟨endPage, hend⟩ := hends ph hph
    have hnot : ∀ i < stackPages, pageOf (segmentAddr ph k) ≠ stackPage i :=
      fun i hi hv => hstack ⟨i, hi, hv⟩
    exact ⟨fun _ h => absurd h hstack,
      fun _ => segment_byte hframes hmap hlen hdistinct hdata hph (hfile ph hph) hend hk hnot⟩

end

end

/-! ## The copies -/

theorem mem_zip_iff {l : List α} :
    (a, b) ∈ l.zip l' ↔ ∃ j : Nat, l[j]? = some a ∧ l'[j]? = some b := by
  rw [mem_iff_getElem?]
  simp [getElem?_zip_eq_some]

theorem mem_taken_iff : f ∈ (afterJobs onMap jobs { frames, mem }).taken ↔
      ∃ j < jobs.length, frames[j]? = some f := by
  rw [taken_afterJobs, append_nil, mem_reverse, mem_map]
  constructor
  · rintro ⟨⟨job, f'⟩, hq, rfl⟩
    obtain ⟨j, hj, hf⟩ := mem_zip_iff.mp hq
    exact ⟨j, (List.getElem?_eq_some_iff.mp hj).1, hf⟩
  · rintro ⟨j, hj, hf⟩
    exact ⟨(jobs[j], f), mem_zip_iff.mpr ⟨j, getElem?_eq_getElem hj, hf⟩, rfl⟩

/-- With a sound segment range: the copy page `idx` of the segment makes into
    frame `f`, if it makes one. -/
theorem copyOf_segmentJob (hdata : data.length < 2 ^ 64) (hfile : InFile data ph) :
    copyOf (segmentJob data ph idx, f) = some q ↔
      segOffset ph (ph.page idx) < ph.pFilesz.toNat ∧
        q = (f + fillOffset ph (ph.page idx), fillLen ph (ph.page idx)) := by
  have hcase := fillCase data ph (ph.page idx)
  unfold segmentJob
  generalize pageFill data ph (ph.page idx) = fill at hcase ⊢
  obtain ⟨hrange, -⟩ := hfile
  cases hcase with
  | beyond h =>
    constructor
    · intro h
      cases h
    · intro h'
      omega
  | overflow h hlt =>
    unfold fillLen at h
    omega
  | outside h hlt =>
    unfold fillLen at h
    omega
  | copy h hlt =>
    have hsrc : (slice data (ph.pOffset.toNat + segOffset ph (ph.page idx))
        (fillLen ph (ph.page idx))).length = fillLen ph (ph.page idx) := by
      rw [slice, length_take, length_drop]
      omega
    rw [copyOf, hsrc, Option.some.injEq]
    exact ⟨fun heq => ⟨hlt, heq.symm⟩, fun heq => heq.2.symm⟩

theorem overruns_of_le (hidx : idx < ph.numPages)
    (hi : i < fillLen ph (ph.page idx)) (hge : 4096 ≤ (fillOffset ph (ph.page idx)).toNat + i) :
    idx = 0 ∧ Overruns ph := by
  obtain ⟨hnat, -⟩ := toNat_page hidx
  have hstart := ph.toNat_startPage
  rw [fillLen] at hi
  unfold fillOffset at hge
  split at hge
  · rename_i hvirt
    rw [← toNat_inj] at hvirt
    rw [toNat_and_mask _ _ 12 rfl] at hge
    unfold Overruns
    omega
  · rw [BitVec.ofNat_eq_ofNat, toNat_zero] at hge
    omega

/-- The first page of a segment whose copy runs over. -/
theorem fill_first_page (hidx : 0 < ph.numPages) (hover : Overruns ph) :
    segOffset ph (ph.page 0) < ph.pFilesz.toNat ∧
      (fillOffset ph (ph.page 0)).toNat = ph.pVaddr.toNat % 4096 ∧
      fillLen ph (ph.page 0) = min 4096 ph.pFilesz.toNat := by
  obtain ⟨hnat, -⟩ := toNat_page hidx
  have hstart := ph.toNat_startPage
  have hvirt : ph.page 0 = ph.startPage := by
    rw [← toNat_inj, hnat, hstart, Nat.add_zero]
  have hoff : segOffset ph (ph.page 0) = 0 := by
    rw [segOffset]
    omega
  unfold Overruns at hover
  refine ⟨by omega, ?_, by rw [fillLen, hoff, Nat.sub_zero]⟩
  rw [fillOffset, if_pos hvirt, toNat_and_mask _ _ 12 rfl]
  rfl

theorem pageOf_add (halign : f.toNat % 4096 = 0) (hbound : f.toNat < 2 ^ 52)
    (hoff : offset.toNat < 4096) (hi : i < 4096) :
    pageOf (f + offset + ofNat 64 i) = if offset.toNat + i < 4096 then f else f + 0x1000 := by
  have hi' : (ofNat 64 i).toNat = i := by
    rw [toNat_ofNat]
    omega
  have hsum : (f + offset).toNat = f.toNat + offset.toNat := toNat_add_of_lt (by omega)
  have hsum' : (f + offset + ofNat 64 i).toNat = f.toNat + offset.toNat + i := by
    rw [toNat_add_of_lt (by omega), hsum, hi']
  have hnext : (f + 0x1000).toNat = f.toNat + 4096 := toNat_add_of_lt (by
    show _ + 4096 < _
    omega)
  rw [← toNat_inj, toNat_pageOf]
  split
  · omega
  · rw [hnext]
    omega

/-- In an ascending list of frames the physically next one can only come next. -/
theorem index_of_next_frame (hframes : FramesOk frames) {j' : Nat}
    (hj : frames[j]? = some f) (hj' : frames[j']? = some (f + 0x1000)) : j' = j + 1 := by
  obtain ⟨hlt, hf⟩ := List.getElem?_eq_some_iff.mp hj
  obtain ⟨hlt', hf'⟩ := List.getElem?_eq_some_iff.mp hj'
  have hmem : f ∈ frames := hf ▸ getElem_mem hlt
  have halign := hframes.aligned f hmem
  have hbound := hframes.bounded f hmem
  have hnext : (f + 0x1000).toNat = f.toNat + 4096 := toNat_add_of_lt (by
    show _ + 4096 < _
    omega)
  have hasc := pairwise_iff_getElem.mp hframes.ascending
  rcases Nat.lt_trichotomy j' (j + 1) with h | h | h
  · -- not later than `f`, so not above it
    rcases Nat.lt_or_eq_of_le (Nat.le_of_lt_succ h) with h | h
    · have hbelow := hasc j' j hlt' hlt h
      rw [hf, hf', lt_def] at hbelow
      omega
    · subst h
      have heq : f.toNat = (f + 0x1000).toNat := by rw [← hf', hf]
      omega
  · exact h
  · -- another frame would lie in between
    have hmid : j + 1 < frames.length := by omega
    have hlow := hasc j (j + 1) hlt hmid (by omega)
    have hhigh := hasc (j + 1) j' hmid hlt' h
    have halign' := hframes.aligned _ (getElem_mem hmid)
    rw [hf, lt_def] at hlow
    rw [hf', lt_def] at hhigh
    omega

/-- With sound segment ranges, copying stays in frames of this load exactly when
    each overrun hits the next frame. -/
theorem frames_iff (hframes : FramesOk frames)
    (hlen : (segmentJobs data phs).length + stackPages ≤ frames.length)
    (hdata : data.length < 2 ^ 64) (hfile : ∀ ph ∈ phs, InFile data ph) :
    (∀ q ∈ (afterLoad onMap data phs frames mem).copied, ∀ i < q.2, pageOf (q.1 + ofNat 64 i) ∈
        (afterLoad onMap data phs frames mem).taken) ↔
      ∀ j ph, (segmentPages phs)[j]? = some (ph, 0) → Overruns ph →
        frames[j + 1]? = frames[j]?.map (· + 0x1000) := by
  have hjobs : (segmentJobs data phs ++ stackJobs).length =
      (segmentJobs data phs).length + stackPages := by
    rw [length_append, stackJobs, length_map, length_range]
  have hpages : (segmentPages phs).length = (segmentJobs data phs).length := by
    rw [segmentJobs_eq_map, length_map]
  rw [copied_afterJobs, append_nil]
  simp only [mem_reverse, mem_filterMap, Prod.exists, mem_zip_iff, mem_taken_iff]
  constructor
  · intro h j ph hj hover
    obtain ⟨hph, hidx⟩ : ph ∈ phs ∧ 0 < ph.numPages := mem_segmentPages.mp (mem_of_getElem? hj)
    have hlt : j < (segmentPages phs).length := (List.getElem?_eq_some_iff.mp hj).1
    have hjob : (segmentJobs data phs ++ stackJobs)[j]? = some (segmentJob data ph 0) := by
      rw [getElem?_append_left (by omega), segmentJobs_eq_map, getElem?_map, hj]
      rfl
    have hltf : j < frames.length := by omega
    have hf := getElem?_eq_getElem hltf
    have hmem := getElem_mem hltf
    obtain ⟨hfirst, hoff, hfill⟩ := fill_first_page hidx hover
    have hcopy := (copyOf_segmentJob hdata (hfile ph hph) (f := frames[j])).mpr ⟨hfirst, rfl⟩
    -- the first byte behind the frame
    have hi : 4096 - ph.pVaddr.toNat % 4096 < fillLen ph (ph.page 0) := by
      unfold Overruns at hover
      omega
    obtain ⟨j', hj', hf'⟩ := h _ ⟨_, _, ⟨j, hjob, hf⟩, hcopy⟩ _ hi
    have hlen' : 4096 - ph.pVaddr.toNat % 4096 < 4096 := by
      omega
    rw [pageOf_add (hframes.aligned _ hmem) (hframes.bounded _ hmem)
      (by rw [hoff]; omega) hlen', if_neg (by omega)] at hf'
    rw [index_of_next_frame hframes hf hf'] at hf'
    rw [hf', hf, Option.map_some]
  · rintro h q ⟨job, f, ⟨j, hjob, hf⟩, hcopy⟩ i hi
    have hmem := mem_of_getElem? hf
    by_cases hseg : j < (segmentJobs data phs).length
    · rw [getElem?_append_left hseg, segmentJobs_eq_map, getElem?_map] at hjob
      obtain ⟨⟨ph, idx⟩, hpage, rfl⟩ := Option.map_eq_some_iff.mp hjob
      obtain ⟨hph, hidx⟩ : ph ∈ phs ∧ idx < ph.numPages :=
        mem_segmentPages.mp (mem_of_getElem? hpage)
      obtain ⟨-, rfl⟩ := (copyOf_segmentJob hdata (hfile ph hph)).mp hcopy
      have hi' : i < 4096 := lt_of_lt_of_le hi (min_le_left _ _)
      rw [pageOf_add (hframes.aligned _ hmem) (hframes.bounded _ hmem)
        (toNat_fillOffset_lt ph _) hi']
      split
      · exact ⟨j, by omega, hf⟩
      rename_i hge
      obtain ⟨rfl, hover⟩ := overruns_of_le hidx hi (not_lt.mp hge)
      refine ⟨j + 1, by unfold stackPages at hjobs; omega, ?_⟩
      rw [h j ph hpage hover, hf, Option.map_some]
    · -- the stack pages are not copied to
      rw [getElem?_append_right (by omega)] at hjob
      obtain ⟨k, -, rfl⟩ := mem_map.mp (mem_of_getElem? hjob)
      cases hcopy

end Load

/-! ## The loader -/

/-- The PT_LOAD headers of a file that passes the checks. -/
def fileSegments (p : Profile) (data : List Byte) : List ProgramHeader :=
  match plan p data with
  | .ok (_, phs) => phs
  | .error _ => []

theorem endPage_of_mem_loadHeaders (hread : Readable p data phoff is)
    (hph : ph ∈ loadHeaders p data phoff is) : ∃ endPage, ph.endPage = some endPage := by
  obtain ⟨i, hi, heq⟩ := mem_filterMap.mp hph
  obtain ⟨ph', hparse, hend⟩ := hread i hi
  rw [hparse] at heq
  dsimp only at heq
  split at heq
  · rename_i htype
    cases heq
    exact hend htype
  · cases heq

/-- For every accepted file the loader builds the image it describes exactly when the
    file and the frames are safe. (A slice has fewer than `2 ^ 64` bytes.) -/
theorem buildsImage_iff {onMap : Mapping → PhysMem → PhysMem} {p : Profile} {data : List Byte}
    {frames : List Word} {mem : PhysMem} {r : ElfLoadResult} {s : LoadState}
    (hdata : data.length < 2 ^ 64) (hframes : FramesOk frames) (hmap : KeepsFrames onMap frames)
    (hok : loadElf (recorder onMap) p data { frames, mem } = .ok r s) :
    BuildsImage data (fileSegments p data) s ↔ ImageSafe data frames (fileSegments p data) := by
  cases hplan : plan p data with
  | error e =>
    rw [loadElf_of_plan_error _ hplan] at hok
    cases hok
  | ok q =>
    obtain ⟨header, phs⟩ := q
    have hsegs : fileSegments p data = phs := by rw [fileSegments, hplan]
    obtain ⟨-, rfl, -, hread, hdistinct⟩ := plan_eq_ok hplan
    rw [loadElf_eq onMap hplan, length_append] at hok
    split at hok
    · rename_i hlen
      cases hreloc : (relocations p data header).2 with
      | error e =>
        rw [hreloc] at hok
        cases hok
      | ok dynamic =>
        rw [hreloc] at hok
        obtain ⟨-, rfl⟩ := EStateM.Result.ok.inj hok
        rw [hsegs]
        have hends : ∀ ph ∈ loadHeaders p data header.phoff (range header.phnum.toNat),
            ∃ endPage, ph.endPage = some endPage := fun ph hph =>
          endPage_of_mem_loadHeaders hread hph
        constructor
        · rintro ⟨hbytes, hcopied, hranges⟩
          exact ⟨hranges, (bytes_iff hframes hmap hlen hdistinct hdata hends hranges).mp hbytes,
            (frames_iff hframes hlen hdata hranges).mp hcopied⟩
        · rintro ⟨hranges, hstack, hoverrun⟩
          exact ⟨(bytes_iff hframes hmap hlen hdistinct hdata hends hranges).mpr hstack,
            (frames_iff hframes hlen hdata hranges).mpr hoverrun, hranges⟩
    · cases hok

/-! ## Two files of one segment -/

/-- An executable whose one segment, at `vaddr`, is the file itself. -/
def oneSegmentFile (vaddr : Word) : List Byte :=
  headerBytes vaddr 1 ++ programHeaderBytes 1 5 0 vaddr 120 120

/-- Free frames, of which the second is not physically behind the first. -/
def gapFrames : List Word := [0x100000, 0x102000, 0x103000, 0x104000, 0x105000, 0x106000]

theorem framesOk_gapFrames : FramesOk gapFrames where
  aligned := by simp [gapFrames]
  bounded := by simp [gapFrames]
  ascending := by simp [gapFrames]

def succeeds {α : Type} : EStateM.Result (Stop ElfError) LoadState α → Bool
  | .ok _ _ => true
  | .error _ _ => false

theorem exists_ok_of_succeeds (h : succeeds res = true) : ∃ r s, res = .ok r s := by
  cases res with
  | ok r s => exact ⟨r, s, rfl⟩
  | error e s => cases h

/-- The load of a file on a machine whose `map_page` does not touch memory. -/
def loadWithGap (vaddr : Word) : EStateM.Result (Stop ElfError) LoadState ElfLoadResult :=
  loadElf (recorder fun _ mem => mem) .dev (oneSegmentFile vaddr)
    { frames := gapFrames, mem := fun _ _ => 0 }

/-- With the segment 16 bytes before a page boundary, its copy also writes 104
    bytes of the frame at 0x101000, which is not one of this load. -/
theorem not_buildsImage_unaligned :
    ∃ r s, loadWithGap 0x400FF0 = .ok r s ∧
      ¬ BuildsImage (oneSegmentFile 0x400FF0) (fileSegments .dev (oneSegmentFile 0x400FF0)) s := by
  have hcopied : (0x100FF0, 120) ∈ (finalState (loadWithGap 0x400FF0)).copied := by
    decide +kernel
  have htaken : (0x101000 : Word) ∉ (finalState (loadWithGap 0x400FF0)).taken := by
    decide +kernel
  obtain ⟨r, s, hok⟩ := exists_ok_of_succeeds (show succeeds (loadWithGap 0x400FF0) = true by
    decide +kernel)
  rw [hok] at hcopied htaken
  refine ⟨r, s, hok, fun h => htaken ?_⟩
  exact h.frames _ hcopied 16 (by decide)

theorem buildsImage_iff_aligned :
    ∃ r s, loadWithGap 0x400000 = .ok r s ∧
      BuildsImage (oneSegmentFile 0x400000) (fileSegments .dev (oneSegmentFile 0x400000)) s := by
  have hsegs : fileSegments .dev (oneSegmentFile 0x400000) = [⟨1, 5, 0, 0x400000, 120, 120⟩] := by
    decide +kernel
  obtain ⟨r, s, hok⟩ := exists_ok_of_succeeds (show succeeds (loadWithGap 0x400000) = true by
    decide +kernel)
  have hlen : (oneSegmentFile 0x400000).length < 2 ^ 64 := by
    decide
  refine ⟨r, s, hok, (buildsImage_iff hlen framesOk_gapFrames (fun _ _ _ _ => rfl) hok).mpr ?_⟩
  rw [hsegs]
  refine ⟨?_, ?_, ?_⟩
  · intro ph hph
    obtain rfl := mem_singleton.mp hph
    exact ⟨by decide, by decide⟩
  · intro ph hph
    obtain rfl := mem_singleton.mp hph
    have hfar : ∀ k < 120, ¬ ∃ i < stackPages,
        pageOf (segmentAddr ⟨1, 5, 0, 0x400000, 120, 120⟩ k) = stackPage i := by
      decide +kernel
    exact fun k hk hstack => absurd hstack (hfar k hk)
  · intro j ph hj hover
    obtain ⟨hph, -⟩ := mem_segmentPages.mp (mem_of_getElem? hj)
    obtain rfl := mem_singleton.mp hph
    unfold Overruns at hover
    exact absurd hover (by decide)

end OpenOS.Elf
