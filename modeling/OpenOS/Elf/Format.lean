/-
  The ELF64 file as kernel/src/elf.rs reads it: the header, the program
  headers, the page range of a segment, the PT_DYNAMIC segment and the RELA
  entries.

  All fields come from the file.  Where the source adds them without a check,
  a development build panics and a release build wraps; a slice whose wrapped
  end lies before its start panics in both.
-/

import OpenOS.Base.Bytes
import OpenOS.Base.Comp

namespace OpenOS.Elf

open OpenOS.Base

/-! ## Constants -/

def elfMag : List Byte := [0x7f, 0x45, 0x4c, 0x46]
def elfClass64 : Byte := 2
def elfData2Lsb : Byte := 1
def emX86_64 : BitVec 16 := 62
def etExec : BitVec 16 := 2
def etDyn : BitVec 16 := 3

def ptLoad : BitVec 32 := 1
def ptDynamic : BitVec 32 := 2

def pfX : BitVec 32 := 0x1
def pfW : BitVec 32 := 0x2

def dtNull : Word := 0
def dtNeeded : Word := 1
def dtPltRelSz : Word := 2
def dtPltGot : Word := 3
def dtStrTab : Word := 5
def dtSymTab : Word := 6
def dtRela : Word := 7
def dtRelaSz : Word := 8
def dtStrSz : Word := 10
def dtSymEnt : Word := 11
def dtJmpRel : Word := 23

def rX86_64Relative : BitVec 32 := 8

inductive ElfError
  | badMagic
  | notElf64
  | notLittleEndian
  | wrongArchitecture
  | notExecutable
  | invalidSegment
  | segmentOverlap
  | outOfMemory
deriving DecidableEq

/-! ## Reading numbers -/

/-- A parse of the file; an overflow or a bad slice is a panic. -/
abbrev Parse := Except (Stop ElfError)

/-- The result of checked arithmetic. -/
def orPanic {α : Type} : Option α → Parse α
  | some a => .ok a
  | none => .error .panic

/-- `&data[start..start + len]`, for a range inside the file. -/
def slice (data : List Byte) (start len : Nat) : List Byte := (data.drop start).take len

def u16At (data : List Byte) (i : Nat) : BitVec 16 := BitVec.ofNat 16 (leNat (slice data i 2))
def u32At (data : List Byte) (i : Nat) : BitVec 32 := BitVec.ofNat 32 (leNat (slice data i 4))
def u64At (data : List Byte) (i : Nat) : Word := Word.fromLeBytes (slice data i 8)

/-- The unchecked offset arithmetic of the table reads: entry `i` of `size`
    bytes behind `base`, or `none` when it ends beyond the file. -/
def entryOffset (p : Profile) (data : List Byte) (base : Word) (i size : Nat) :
    Parse (Option Nat) := do
  let off ← orPanic (p.add base (BitVec.ofNat 64 (i * size)))
  let stop ← orPanic (p.add off (BitVec.ofNat 64 size))
  if data.length < stop.toNat then return none
  -- a wrapped end: the slice starts behind it
  else if stop < off then throw .panic
  else return some off.toNat

/-! ## Headers -/

structure Elf64Header where
  entry : Word
  phoff : Word
  phnum : BitVec 16
  eType : BitVec 16
deriving DecidableEq

structure ProgramHeader where
  pType : BitVec 32
  pFlags : BitVec 32
  pOffset : Word
  pVaddr : Word
  pFilesz : Word
  pMemsz : Word
deriving DecidableEq

def parseHeader (data : List Byte) : Except ElfError Elf64Header :=
  if data.length < 64 then .error .badMagic
  else if slice data 0 4 ≠ elfMag then .error .badMagic
  else if slice data 4 1 ≠ [elfClass64] then .error .notElf64
  else if slice data 5 1 ≠ [elfData2Lsb] then .error .notLittleEndian
  else if u16At data 18 ≠ emX86_64 then .error .wrongArchitecture
  else if u16At data 16 ≠ etExec ∧ u16At data 16 ≠ etDyn then .error .notExecutable
  else .ok
    { entry := u64At data 24
      phoff := u64At data 32
      phnum := u16At data 56
      eType := u16At data 16 }

def parseProgramHeader (p : Profile) (data : List Byte) (phoff : Word) (index : Nat) :
    Parse ProgramHeader := do
  match ← entryOffset p data phoff index 56 with
  | none => throw (.err .invalidSegment)
  | some off =>
    return {
      pType := u32At data off
      pFlags := u32At data (off + 4)
      pOffset := u64At data (off + 8)
      pVaddr := u64At data (off + 16)
      pFilesz := u64At data (off + 32)
      pMemsz := u64At data (off + 40) }

namespace ProgramHeader

def writable (ph : ProgramHeader) : Bool := ph.pFlags &&& pfW ≠ 0
def executable (ph : ProgramHeader) : Bool := ph.pFlags &&& pfX ≠ 0

def startPage (ph : ProgramHeader) : Word := ph.pVaddr &&& ~~~0xFFF#64

/-- The end of the segment rounded up to a page, with checked arithmetic. -/
def endPage (ph : ProgramHeader) : Option Word := do
  let stop ← checkedAdd ph.pVaddr ph.pMemsz
  let rounded ← checkedAdd stop 0xFFF#64
  return rounded &&& ~~~0xFFF#64

end ProgramHeader

/-! ## The dynamic segment -/

structure DynamicInfo where
  strtabAddr : Word := 0
  strtabSize : Word := 0
  symtabAddr : Word := 0
  symEntrySize : Word := 24
  needed : List Word := []
  jmprelAddr : Word := 0
  jmprelSize : Word := 0
  relaAddr : Word := 0
  relaSize : Word := 0
  pltgotAddr : Word := 0
deriving DecidableEq

/-- The match on the tag of an entry. -/
def DynamicInfo.record (info : DynamicInfo) (tag val : Word) : DynamicInfo :=
  if tag = dtNeeded then { info with needed := info.needed ++ [val] }
  else if tag = dtStrTab then { info with strtabAddr := val }
  else if tag = dtStrSz then { info with strtabSize := val }
  else if tag = dtSymTab then { info with symtabAddr := val }
  else if tag = dtSymEnt then { info with symEntrySize := val }
  else if tag = dtJmpRel then { info with jmprelAddr := val }
  else if tag = dtPltRelSz then { info with jmprelSize := val }
  else if tag = dtRela then { info with relaAddr := val }
  else if tag = dtRelaSz then { info with relaSize := val }
  else if tag = dtPltGot then { info with pltgotAddr := val }
  else info

/-- The first PT_DYNAMIC header; a header that does not parse ends the search. -/
def findDynamic (p : Profile) (data : List Byte) (phoff : Word) :
    List Nat → Parse (Option ProgramHeader)
  | [] => .ok none
  | i :: is =>
    match parseProgramHeader p data phoff i with
    | .error .panic => .error .panic
    | .error (.err _) => .ok none
    | .ok ph => if ph.pType = ptDynamic then .ok (some ph) else findDynamic p data phoff is

/-- The loop over the dynamic entries, of which `n` are left. -/
def dynamicEntries (p : Profile) (data : List Byte) (dynOffset : Word) :
    Nat → Nat → DynamicInfo → Parse DynamicInfo
  | 0, _, info => .ok info
  | n + 1, i, info => do
    match ← entryOffset p data dynOffset i 16 with
    | none => return info
    | some off =>
      if u64At data off = dtNull then return info
      else
        let info' := info.record (u64At data off) (u64At data (off + 8))
        dynamicEntries p data dynOffset n (i + 1) info'

def parseDynamicSegment (p : Profile) (data : List Byte) (phoff : Word) (phnum : BitVec 16) :
    Parse (Option DynamicInfo) := do
  match ← findDynamic p data phoff (List.range phnum.toNat) with
  | none => return none
  | some ph =>
    let info ← dynamicEntries p data ph.pOffset (ph.pFilesz.toNat / 16) 0 {}
    return some info

/-! ## Relocations -/

/-- The file offset of a virtual address, by the first PT_LOAD header that
    contains it. -/
def relaFileOff (p : Profile) (data : List Byte) (phoff relaVaddr : Word) :
    List Nat → Parse (Option Word)
  | [] => .ok none
  | i :: is =>
    match parseProgramHeader p data phoff i with
    | .error .panic => .error .panic
    | .error (.err _) => relaFileOff p data phoff relaVaddr is
    | .ok ph =>
      if ph.pType ≠ ptLoad then relaFileOff p data phoff relaVaddr is
      else if ph.pVaddr ≤ relaVaddr ∧ relaVaddr < saturatingAdd ph.pVaddr ph.pFilesz then do
        let off ← orPanic (p.add ph.pOffset (relaVaddr - ph.pVaddr))
        return some off
      else relaFileOff p data phoff relaVaddr is

structure Elf64Rela where
  rOffset : Word
  rInfo : Word
  rAddend : Word
deriving DecidableEq

def Elf64Rela.relType (r : Elf64Rela) : BitVec 32 := r.rInfo.setWidth 32

/-- Entry `i` of the RELA table, `none` beyond the end of the file. -/
def relaEntry (p : Profile) (data : List Byte) (fileOff : Word) (i : Nat) :
    Parse (Option Elf64Rela) := do
  match ← entryOffset p data fileOff i 24 with
  | none => return none
  | some off => return some ⟨u64At data off, u64At data (off + 8), u64At data (off + 16)⟩

/-! ## Writing headers -/

/-- The header of an executable whose program headers follow it. -/
def headerBytes (entry : Word) (phnum : Byte) : List Byte :=
  elfMag ++ [elfClass64, elfData2Lsb] ++ List.replicate 10 0 ++ [2, 0, 62, 0] ++
    List.replicate 4 0 ++ entry.toLeBytes ++ (64 : Word).toLeBytes ++ List.replicate 16 0 ++
    [phnum, 0] ++ List.replicate 6 0

def programHeaderBytes (type flags : Byte) (offset vaddr filesz memsz : Word) : List Byte :=
  [type, 0, 0, 0, flags, 0, 0, 0] ++ offset.toLeBytes ++ vaddr.toLeBytes ++ List.replicate 8 0 ++
    filesz.toLeBytes ++ memsz.toLeBytes ++ List.replicate 8 0

end OpenOS.Elf
