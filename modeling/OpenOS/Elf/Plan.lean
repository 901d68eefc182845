/-
  What `load_elf` sets out to do with a file, as a list of page jobs: every page
  of every PT_LOAD segment in file order, then the four stack pages.

  A file that passes the overlap check has only readable program headers, and
  its segments have disjoint page ranges, so no two of its segment pages have
  the same address.
-/

import Mathlib.Data.List.Nodup
import OpenOS.Elf.Load

namespace OpenOS.Elf

open OpenOS.Base List ProgramHeader

/-! ## Pages of a segment -/

variable {endPage : Word} {ranges : List (Word × Word)}

namespace ProgramHeader

variable (ph : ProgramHeader)

theorem toNat_startPage : ph.startPage.toNat = ph.pVaddr.toNat / 4096 * 4096 :=
  toNat_and_not_mask _ _ 12 rfl

/-- How many pages the page loop visits; an empty range has none. -/
def numPages : Nat :=
  match ph.endPage with
  | none => 0
  | some endPage => (endPage.toNat - ph.startPage.toNat) / 0x1000

/-- The address of a page of the segment. -/
def page (idx : Nat) : Word := ph.startPage + BitVec.ofNat 64 (idx * 0x1000)

variable {ph}

theorem toNat_endPage (h : ph.endPage = some endPage) :
    endPage.toNat = (ph.pVaddr.toNat + ph.pMemsz.toNat + 0xFFF) / 4096 * 4096 ∧
      ph.pVaddr.toNat + ph.pMemsz.toNat + 0xFFF < 2 ^ 64 := by
  obtain ⟨stop, hstop, h⟩ := Option.bind_eq_some_iff.mp h
  obtain ⟨rounded, hrounded, h⟩ := Option.bind_eq_some_iff.mp h
  rw [checkedAdd_eq_some] at hstop hrounded
  have hround : rounded.toNat = ph.pVaddr.toNat + ph.pMemsz.toNat + 0xFFF := by
    rw [hrounded, hstop]
    rfl
  cases h
  refine ⟨?_, by omega⟩
  rw [toNat_and_not_mask _ _ 12 rfl, hround]
  rfl

theorem numPages_eq (h : ph.endPage = some endPage) :
    ph.numPages = (endPage.toNat - ph.startPage.toNat) / 0x1000 := by
  rw [numPages, h]

theorem toNat_page (h : idx < ph.numPages) :
    (ph.page idx).toNat = ph.pVaddr.toNat / 4096 * 4096 + idx * 4096 ∧
      checkedAdd ph.startPage (BitVec.ofNat 64 (idx * 0x1000)) = some (ph.page idx) := by
  have hstart := ph.toNat_startPage
  unfold numPages at h
  split at h
  · omega
  rename_i endPage hend
  obtain ⟨-, hlt⟩ := toNat_endPage hend
  have hidx : (BitVec.ofNat 64 (idx * 0x1000)).toNat = idx * 4096 := by
    rw [BitVec.toNat_ofNat]
    omega
  have hsum : (ph.page idx).toNat = ph.startPage.toNat + (BitVec.ofNat 64 (idx * 0x1000)).toNat :=
    BitVec.toNat_add_of_lt (by omega)
  refine ⟨by rw [hsum, hidx, hstart], ?_⟩
  rwa [checkedAdd_eq_some]

end ProgramHeader

/-! ## Jobs -/

/-- One page to allocate, fill and map. -/
structure PageJob where
  virt : Word
  writable : Bool
  executable : Bool
  fill : PageFill

/-- Page `idx` of a segment. -/
def segmentJob (data : List Byte) (ph : ProgramHeader) (idx : Nat) : PageJob :=
  ⟨ph.page idx, ph.writable, ph.executable, pageFill data ph (ph.page idx)⟩

def stackJob (i : Nat) : PageJob := ⟨stackPage i, true, false, .zeros⟩

def stackJobs : List PageJob := (range stackPages).map stackJob

section

variable (p : Profile) (data : List Byte) (phoff : Word) (is : List Nat)

/-- The PT_LOAD headers among those with these numbers. -/
def loadHeaders : List ProgramHeader :=
  is.filterMap fun i =>
    match parseProgramHeader p data phoff i with
    | .ok ph => if ph.pType = ptLoad then some ph else none
    | .error _ => none

/-- The pages of these segments. -/
def segmentJobs (phs : List ProgramHeader) : List PageJob :=
  phs.flatMap fun ph => (range ph.numPages).map (segmentJob data ph)

/-- The header and the PT_LOAD headers of a file that passes the checks. -/
def plan : Parse (Elf64Header × List ProgramHeader) := do
  let header ← headerOf data
  let _ ← checkSegments p data header.phoff (range header.phnum.toNat) []
  return (header, loadHeaders p data header.phoff (range header.phnum.toNat))

/-! ## The overlap check -/

/-- Two page ranges without a common page. -/
def Apart (r r' : Word × Word) : Prop := r.2 ≤ r'.1 ∨ r'.2 ≤ r.1

/-- The page range of a segment, if it has a page. -/
def pageRange (ph : ProgramHeader) : Option (Word × Word) :=
  match ph.endPage with
  | none => none
  | some endPage => if endPage ≤ ph.startPage then none else some (ph.startPage, endPage)

/-- The headers with these numbers parse, and those of PT_LOAD segments have a
    page range. -/
def Readable : Prop :=
  ∀ i ∈ is, ∃ ph, parseProgramHeader p data phoff i = .ok ph ∧
    (ph.pType = ptLoad → ∃ endPage, ph.endPage = some endPage)

end

theorem readable_cons (hparse : parseProgramHeader p data phoff i = .ok ph)
    (hend : ph.pType = ptLoad → ∃ endPage, ph.endPage = some endPage)
    (h : Readable p data phoff is) : Readable p data phoff (i :: is) :=
  forall_mem_cons.mpr ⟨⟨ph, hparse, hend⟩, h⟩

theorem loadHeaders_cons (hparse : parseProgramHeader p data phoff i = .ok ph) (is : List Nat) :
    loadHeaders p data phoff (i :: is) =
      if ph.pType = ptLoad then ph :: loadHeaders p data phoff is
      else loadHeaders p data phoff is := by
  unfold loadHeaders
  rw [filterMap_cons, hparse]
  dsimp only
  split
  · rename_i heq
    split at heq
    · cases heq
    · rename_i htype
      rw [if_neg htype]
  rename_i heq
  split at heq
  · rename_i htype
    rw [if_pos htype, Option.some.inj heq]
  · cases heq

theorem pairwise_apart_concat
    (hany : ¬ (ranges.any fun prev => start < prev.2 ∧ prev.1 < endPage) = true)
    (h : ranges.Pairwise Apart) : (ranges ++ [(start, endPage)]).Pairwise Apart := by
  refine pairwise_append.mpr ⟨h, pairwise_singleton _ _, fun r hr r' hr' => ?_⟩
  obtain rfl := mem_singleton.mp hr'
  by_contra hnot
  rw [Apart, not_or, not_le, not_le] at hnot
  exact hany (any_eq_true.mpr ⟨r, hr, decide_eq_true hnot⟩)

theorem checkSegments_eq_ok (h : checkSegments p data phoff is ranges = .ok out) :
    Readable p data phoff is ∧
      out = ranges ++ (loadHeaders p data phoff is).filterMap pageRange ∧
      (ranges.Pairwise Apart → out.Pairwise Apart) := by
  -- the loop, with the ranges collected so far
  induction is generalizing ranges with
  | nil =>
    obtain rfl := Except.ok.inj h
    exact ⟨by simp [Readable], by simp [loadHeaders], id⟩
  | cons i is ih =>
    rw [checkSegments] at h
    cases hparse : parseProgramHeader p data phoff i with
    | error e =>
      rw [hparse] at h
      cases h
    | ok ph =>
      rw [hparse] at h
      rw [loadHeaders_cons hparse]
      dsimp only [bind, Except.bind] at h
      split at h
      · rename_i htype
        obtain ⟨hread, hout, hapart⟩ := ih h
        rw [if_neg htype]
        exact ⟨readable_cons hparse (fun h => absurd h htype) hread, hout, hapart⟩
      rename_i htype
      rw [not_not] at htype
      rw [if_pos htype, filterMap_cons]
      split at h
      · cases h
      rename_i endPage hend
      have hread : Readable p data phoff is → Readable p data phoff (i :: is) :=
        readable_cons hparse fun _ => ⟨endPage, hend⟩
      split at h
      · rename_i hempty
        obtain ⟨hread', hout, hapart⟩ := ih h
        rw [pageRange, hend]
        simp only [if_pos hempty]
        exact ⟨hread hread', hout, hapart⟩
      rename_i hsome
      split at h
      · cases h
      rename_i hany
      obtain ⟨hread', hout, hapart⟩ := ih h
      rw [pageRange, hend]
      simp only [if_neg hsome]
      refine ⟨hread hread', ?_, fun hranges =>
        hapart (pairwise_apart_concat hany hranges)⟩
      rw [hout, append_assoc]
      rfl

/-! ## Distinct pages -/

theorem page_mem_pageRange (h : idx < ph.numPages) :
    ∃ r, pageRange ph = some r ∧ r.1.toNat ≤ (ph.page idx).toNat ∧
      (ph.page idx).toNat + 4096 ≤ r.2.toNat := by
  obtain ⟨hpage, -⟩ := toNat_page h
  have hstart := ph.toNat_startPage
  unfold numPages at h
  split at h
  · omega
  rename_i endPage hend
  obtain ⟨hstop, -⟩ := toNat_endPage hend
  refine ⟨(ph.startPage, endPage), ?_, ?_, ?_⟩
  · rw [pageRange, hend]
    refine if_neg fun hle => ?_
    rw [BitVec.le_def] at hle
    omega
  · show ph.startPage.toNat ≤ _
    omega
  · show _ ≤ endPage.toNat
    omega

theorem nodup_segmentJobs (data : List Byte) (h : (phs.filterMap pageRange).Pairwise Apart) :
    ((segmentJobs data phs).map PageJob.virt).Nodup := by
  rw [segmentJobs, map_flatMap]
  refine nodup_flatMap.mpr ⟨fun ph _ => ?_, ?_⟩
  · -- within a segment the pages ascend
    rw [map_map]
    refine Nodup.map_on ?_ nodup_range
    intro i hi j hj heq
    obtain ⟨hpi, -⟩ := toNat_page (mem_range.mp hi)
    obtain ⟨hpj, -⟩ := toNat_page (mem_range.mp hj)
    have heq' : (ph.page i).toNat = (ph.page j).toNat := congrArg BitVec.toNat heq
    omega
  · rw [pairwise_filterMap] at h
    refine h.imp fun {ph ph'} hapart v hv hv' => ?_
    obtain ⟨i, hi, rfl⟩ := by simpa using hv
    obtain ⟨j, hj, heq⟩ := by simpa [segmentJob] using hv'
    obtain ⟨r, hr, hlo, hhi⟩ := page_mem_pageRange hi
    obtain ⟨r', hr', hlo', hhi'⟩ := page_mem_pageRange hj
    rw [heq] at hlo' hhi'
    rcases hapart r hr r' hr' with hle | hle
    · rw [BitVec.le_def] at hle
      omega
    · rw [BitVec.le_def] at hle
      omega

/-- What a file that passes the checks looks like. -/
theorem plan_eq_ok (h : plan p data = .ok (header, phs)) :
    headerOf data = .ok header ∧
      phs = loadHeaders p data header.phoff (range header.phnum.toNat) ∧
      (∃ out, checkSegments p data header.phoff (range header.phnum.toNat) [] = .ok out) ∧
      Readable p data header.phoff (range header.phnum.toNat) ∧
      ((segmentJobs data phs).map PageJob.virt).Nodup := by
  unfold plan at h
  cases hheader : headerOf data with
  | error e =>
    rw [hheader] at h
    cases h
  | ok header' =>
    rw [hheader] at h
    dsimp only [bind, Except.bind] at h
    split at h
    · cases h
    rename_i out hcheck
    obtain ⟨rfl, rfl⟩ := Prod.mk.inj (Except.ok.inj h)
    obtain ⟨hread, hout, hapart⟩ := checkSegments_eq_ok hcheck
    refine ⟨rfl, rfl, ⟨out, hcheck⟩, hread, nodup_segmentJobs data ?_⟩
    have hpair := hapart List.Pairwise.nil
    rwa [hout] at hpair

end OpenOS.Elf
