/-
  `load_elf` (kernel/src/elf.rs), over any machine with its five actions:
  `alloc_frame`, zeroing a frame, copying bytes to a physical address, the
  caller's `map_page` and a volatile write to a virtual address.
-/

import OpenOS.Elf.Format

namespace OpenOS.Elf

open OpenOS.Base OpenOS.Base.Comp List BitVec

/-- Code of the loader over a machine state `σ`. -/
abbrev LoadM := Comp ElfError

/-- What `load_elf` uses of the machine. -/
structure Machine (σ : Type) where
  /-- `frame_alloc::alloc_frame` -/
  allocFrame : LoadM σ (Option Word)
  /-- `write_bytes(phys_to_virt(phys), 0, 4096)` -/
  zeroFrame : Word → LoadM σ Unit
  /-- `copy_nonoverlapping` to `phys_to_virt(addr)` -/
  copyTo : Word → List Byte → LoadM σ Unit
  /-- `map_page(virt, phys, writable, executable)`, given by the caller. -/
  mapPage : Word → Word → Bool → Bool → LoadM σ Unit
  /-- `write_volatile(addr as *mut u64, value)` -/
  writeVolatile : Word → Word → LoadM σ Unit

structure ElfLoadResult where
  entryPoint : Word
  stackTop : Word
  dynamic : Option DynamicInfo
  eType : BitVec 16
  guardPageVirt : Word

/-! ## The overlap check -/

/-- The first loop over the program headers: `ranges` are the page ranges of
    the PT_LOAD segments seen so far. -/
def checkSegments (p : Profile) (data : List Byte) (phoff : Word) :
    List Nat → List (Word × Word) → Parse (List (Word × Word))
  | [], ranges => .ok ranges
  | i :: is, ranges => do
    let ph ← parseProgramHeader p data phoff i
    if ph.pType ≠ ptLoad then checkSegments p data phoff is ranges
    else
      match ph.endPage with
      | none => throw (.err .invalidSegment)
      | some endPage =>
        if endPage ≤ ph.startPage then checkSegments p data phoff is ranges
        else if ranges.any fun prev => ph.startPage < prev.2 ∧ prev.1 < endPage then
          throw (.err .segmentOverlap)
        else checkSegments p data phoff is (ranges ++ [(ph.startPage, endPage)])

/-! ## Segments -/

/-- What a page receives from the file. -/
inductive PageFill
  /-- the file range overflows: `continue`, the page is not mapped -/
  | skip
  | zeros
  | bytes (offset : Word) (src : List Byte)

/-- The part of the file that page `virt` of the segment is filled with. -/
def pageFill (data : List Byte) (ph : ProgramHeader) (virt : Word) : PageFill :=
  let pageOffsetInSeg := saturatingSub virt ph.pVaddr
  if pageOffsetInSeg < ph.pFilesz then
    let copyToSeg := min (saturatingAdd pageOffsetInSeg 0x1000) ph.pFilesz
    let copyLen := copyToSeg - pageOffsetInSeg
    match checkedAdd ph.pOffset pageOffsetInSeg with
    | none => .skip
    | some fileStart =>
      match checkedAdd fileStart copyLen with
      | none => .skip
      | some fileEnd =>
        if fileEnd.toNat ≤ data.length then
          .bytes (if virt = ph.startPage then ph.pVaddr &&& 0xFFF else 0)
            (slice data fileStart.toNat copyLen.toNat)
        else .zeros
  else .zeros

section Machine

variable (M : Machine σ)

/-- A frame from the allocator, zeroed. -/
def zeroedFrame : LoadM σ Word := do
  let phys ← orErr .outOfMemory (← M.allocFrame)
  M.zeroFrame phys
  return phys

/-- Page `virt` of a segment, once its frame is there. -/
def fillAndMap (data : List Byte) (ph : ProgramHeader) (virt phys : Word) : LoadM σ Unit :=
  match pageFill data ph virt with
  | .skip => pure ()
  | .zeros => M.mapPage virt phys ph.writable ph.executable
  | .bytes offset src => do
    M.copyTo (phys + offset) src
    M.mapPage virt phys ph.writable ph.executable

/-- One round of the page loop. -/
def loadPage (data : List Byte) (ph : ProgramHeader) (pageIdx : Nat) : LoadM σ Unit := do
  let virt ← orErr .invalidSegment
    (checkedAdd ph.startPage (BitVec.ofNat 64 (pageIdx * 0x1000)))
  let phys ← zeroedFrame M
  fillAndMap M data ph virt phys

section

variable (p : Profile) (data : List Byte) (phoff : Word) (i : Nat)

/-- One round of the segment loop. -/
def loadSegment : LoadM σ Unit := do
  let ph ← lift (parseProgramHeader p data phoff i)
  if ph.pType ≠ ptLoad then return ()
  else
    let endPage ← orErr .invalidSegment ph.endPage
    if endPage ≤ ph.startPage then return ()
    else (range ((endPage - ph.startPage).toNat / 0x1000)).forM (loadPage M data ph)

/-! ## The stack -/

def stackVirtBase : Word := 0x00007FFFFFFFC000
def stackPages : Nat := 4
def stackTop : Word := stackVirtBase + BitVec.ofNat 64 (stackPages * 0x1000)

def stackPage : Word := stackVirtBase + BitVec.ofNat 64 (i * 0x1000)

def loadStackPage : LoadM σ Unit := do
  let phys ← zeroedFrame M
  M.mapPage (stackPage i) phys true false

/-! ## Relocations -/

/-- The loop over the RELA entries, of which `n` are left. -/
def applyRela (p : Profile) (data : List Byte) (fileOff : Word) : Nat → Nat → LoadM σ Unit
  | 0, _ => pure ()
  | n + 1, i => do
    match ← lift (relaEntry p data fileOff i) with
    | none => return ()
    | some r =>
      if r.relType = rX86_64Relative then
        M.writeVolatile r.rOffset r.rAddend
        applyRela p data fileOff n (i + 1)
      -- other types are only reported
      else applyRela p data fileOff n (i + 1)

/-- The relocation step of `load_elf`. -/
def relocate (header : Elf64Header) :
    Option DynamicInfo → LoadM σ Unit
  | none => pure ()
  | some info =>
    if 0 < info.relaAddr ∧ 0 < info.relaSize then do
      match ← lift (relaFileOff p data header.phoff info.relaAddr
          (range header.phnum.toNat)) with
      | none => return ()
      | some fileOff => applyRela M p data fileOff (info.relaSize.toNat / 24) 0
    else pure ()

/-! ## The loader -/

/-- `parse_header(data)?` -/
def headerOf : Parse Elf64Header :=
  match parseHeader data with
  | .ok h => .ok h
  | .error e => .error (.err e)

def loadElf : LoadM σ ElfLoadResult := do
  let header ← lift (headerOf data)
  let _ ← lift (checkSegments p data header.phoff (range header.phnum.toNat) [])
  (range header.phnum.toNat).forM (loadSegment M p data header.phoff)
  (range stackPages).forM (loadStackPage M)
  let dynamic ← lift (parseDynamicSegment p data header.phoff header.phnum)
  relocate M p data header dynamic
  return {
    entryPoint := header.entry
    stackTop := stackTop
    dynamic := dynamic
    eType := header.eType
    guardPageVirt := saturatingSub stackTop 0x1000 }

end

end Machine

end OpenOS.Elf
