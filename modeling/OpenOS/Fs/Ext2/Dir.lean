/-
  Directories (kernel/src/fs/ext2.rs): a directory's blocks are rows of records,
  each with its length; a record with inode 0 is free.

  The loops count the bytes of the records they pass and end at the size of the
  directory.  A record of length 0 ends a block without counting the rest of it.
-/

import OpenOS.Base.Text
import OpenOS.Fs.Ext2.BlockTree

namespace OpenOS.Fs.Ext2

open Base BitVec Comp
open BitVec (ofNat)

/-! ## Records -/

/-- The fields of the record at an offset. -/
def recInode (data : List Byte) (offset : Nat) : BitVec 32 := u32At data offset
def recLen (data : List Byte) (offset : Nat) : Nat := (u16At data (offset + 4)).toNat
def recNameLen (data : List Byte) (offset : Nat) : Nat := (byteAt data (offset + 6)).toNat
def recFileType (data : List Byte) (offset : Nat) : Byte := byteAt data (offset + 7)

/-- `(8 + name_len + 3) & !3` -/
def recSize (nameLen : Nat) : Nat := (8 + nameLen + 3) / 4 * 4

/-- A record written at an offset. -/
def writeRecord (data : List Byte) (offset : Nat) (inode : BitVec 32) (len : BitVec 16)
    (name : List Byte) (fileType : Byte) : Option (List Byte) := do
  let data ← writeU32 data offset inode
  let data ← writeU16 data (offset + 4) len
  let data ← writeByte data (offset + 6) (ofNat 8 name.length)
  let data ← writeByte data (offset + 7) fileType
  copyAt data (offset + 8) name

/-- The entry of the record at an offset, if it is in use and its name is inside
    the block. -/
def entryAt (blockSize : Nat) (data : List Byte) (offset : Nat) : List DirEntryRaw :=
  if recInode data offset ≠ 0 ∧ 0 < recNameLen data offset ∧
      offset + 8 + recNameLen data offset ≤ blockSize then
    [⟨recInode data offset, recFileType data offset,
      window data (offset + 8) (recNameLen data offset)⟩]
  else []

/-- The inner loop of `read_dir_entries`: the entries of a block from an offset on and
    the bytes counted. A round moves on by at least one byte, so as many rounds as bytes
    are enough. -/
def scanEntries (p : Profile) (blockSize fileSize : Nat) (data : List Byte) :
    Nat → Nat → Nat → Option (List DirEntryRaw × Nat)
  | 0, _, bytesRead => some ([], bytesRead)
  | rounds + 1, offset, bytesRead =>
    if offset + 8 ≤ blockSize ∧ bytesRead < fileSize then
      if recLen data offset = 0 then some ([], bytesRead)
      else do
        let bytesRead ← p.fit 32 (bytesRead + recLen data offset)
        let (rest, bytesRead) ←
          scanEntries p blockSize fileSize data rounds (offset + recLen data offset) bytesRead
        return (entryAt blockSize data offset ++ rest, bytesRead)
    else some ([], bytesRead)

/-- The rounds of a loop over logical blocks. It is controlled by two `u32` counters, so
    one that has not ended by then never does. -/
def maxRounds : Nat := 2 ^ 64

namespace Ext2Fs

section

variable (p : Profile) (fs : Ext2Fs)

/-! ## Reading -/

/-- The outer loop of `read_dir_entries`.  The range `0..` draws the next number
    before the body runs. -/
def readDirFrom (inode : Inode) (fileSize : Nat) : Nat → Nat → Nat → DiskM (List DirEntryRaw)
  | 0, _, _ => throw .panic
  | rounds + 1, blockIdx, bytesRead => do
    let next ← u32 p (blockIdx + 1)
    if fileSize ≤ bytesRead then return []
    else
      let physicalBlock ← resolveBlock p fs inode blockIdx
      if physicalBlock = 0 then
        let bytesRead ← u32 p (bytesRead + fs.blockSize)
        readDirFrom inode fileSize rounds next bytesRead
      else
        let blockData ← fs.readBlock physicalBlock.toNat
        let (entries, bytesRead) ← orPanic
          (scanEntries p fs.blockSize fileSize blockData fs.blockSize 0 bytesRead)
        let rest ← readDirFrom inode fileSize rounds next bytesRead
        return entries ++ rest

def readDirEntries (inode : Inode) : DiskM (List DirEntryRaw) :=
  if !inode.isDir then fail
  else readDirFrom p fs inode (inode.size % 2 ^ 32) maxRounds 0 0

def findEntry (dirInode : Inode) (name : List Byte) : DiskM (Option Nat) := do
  match ← toOption (readDirEntries p fs dirInode) with
  | none => return none
  | some entries => return (entries.find? fun e => e.name = name).map fun e => e.inode.toNat

/-- The loop of `resolve_path`. -/
def resolveFrom : List (List Byte) → Nat → DiskM Nat
  | [], current => return current
  | component :: components, current => do
    let inode ← readInode p fs current
    if !inode.isDir then fail
    else
      match ← findEntry p fs inode component with
      | none => fail
      | some next => resolveFrom components next

/-- `path.split('/')` without empty components. -/
def componentsOf (path : String) : List (List Byte) :=
  ((path.toList.splitOn '/').filter (· ≠ [])).map fun c => utf8Bytes (String.ofList c)

def resolvePath (path : String) : DiskM Nat :=
  if path.toList.dropWhile (· = '/') = [] then return rootInode
  else resolveFrom p fs (componentsOf path) rootInode

/-! ## Adding an entry -/

/-- The new content of a block in which the record at an offset has room: behind the
    entry of a used record, or in the place of a free one. -/
def insertAt (data : List Byte) (offset : Nat) (entryInode : BitVec 32) (name : List Byte)
    (fileType : Byte) : Option (Option (List Byte)) :=
  let needed := recSize name.length
  let len := recLen data offset
  if recInode data offset ≠ 0 then
    let actual := recSize (recNameLen data offset)
    if actual + needed ≤ len then do
      -- the record is cut to its size, the rest is the new one
      let data ← writeU16 data (offset + 4) (ofNat 16 actual)
      let data ← writeRecord data (offset + actual) entryInode (ofNat 16 (len - actual))
        name fileType
      return some data
    else some none
  else if needed ≤ len then do
    let data ← writeRecord data offset entryInode (ofNat 16 len) name fileType
    return some data
  else some none

/-- The inner loop of `add_dir_entry`: the new content of the block, or the bytes
    counted when there is no room. -/
def insertFrom (data : List Byte) (entryInode : BitVec 32) (name : List Byte) (fileType : Byte) :
    Nat → Nat → Nat → Option (List Byte ⊕ Nat)
  | 0, _, bytesScanned => some (.inr bytesScanned)
  | rounds + 1, offset, bytesScanned =>
    if offset + 8 ≤ fs.blockSize then
      if recLen data offset = 0 then some (.inr bytesScanned)
      else do
        match ← insertAt data offset entryInode name fileType with
        | some data => return .inl data
        | none =>
          let bytesScanned ← p.fit 32 (bytesScanned + recLen data offset)
          insertFrom data entryInode name fileType rounds (offset + recLen data offset) bytesScanned
    else some (.inr bytesScanned)

/-- The outer loop of `add_dir_entry`: whether the entry has found a place. -/
def insertInBlocks (dirInode : Inode) (dirSize : Nat) (entryInode : BitVec 32) (name : List Byte)
    (fileType : Byte) : Nat → Nat → Nat → DiskM Bool
  | 0, _, _ => throw .panic
  | rounds + 1, logicalBlock, bytesScanned => do
    if dirSize ≤ bytesScanned then return false
    else
      let physicalBlock ← resolveBlock p fs dirInode logicalBlock
      if physicalBlock = 0 then
        let bytesScanned ← u32 p (bytesScanned + fs.blockSize)
        let next ← u32 p (logicalBlock + 1)
        insertInBlocks dirInode dirSize entryInode name fileType rounds next bytesScanned
      else
        let blockData ← fs.readBlock physicalBlock.toNat
        match ← orPanic
            (insertFrom p fs blockData entryInode name fileType fs.blockSize 0 bytesScanned) with
        | .inl blockData =>
          fs.writeBlock physicalBlock.toNat blockData
          return true
        | .inr bytesScanned =>
          let next ← u32 p (logicalBlock + 1)
          insertInBlocks dirInode dirSize entryInode name fileType rounds next bytesScanned

section

variable (dirInode : Inode) (dirNum dirSize : Nat) (entryInode : BitVec 32) (name : List Byte)
  (fileType : Byte)

/-- The directory grows by a block with one record; its length, the block size, is
    cut to 16 bits. -/
def appendBlock : DiskM Unit := do
  let newBlock ← needBlock p fs
  let blockData ← orPanic (writeRecord (zeros fs.blockSize) 0 entryInode
    (ofNat 16 fs.blockSize) name fileType)
  fs.writeBlock newBlock.toNat blockData
  -- `div_ceil`
  let quotient ← divide dirSize fs.blockSize
  let newLogicalBlock := quotient + if dirSize % fs.blockSize = 0 then 0 else 1
  let dirInode ← setBlockPointer p fs dirInode newLogicalBlock newBlock
  let count ← u32 p (newLogicalBlock + 1)
  let newSize ← u32 p (count * fs.blockSize)
  writeInode p fs dirNum
    { dirInode with
      sizeLow := ofNat 32 newSize
      blocks := ofNat 32 ((newSize + 511) / 512) }

def addDirEntry : DiskM Unit := do
  let dirSize := dirInode.size % 2 ^ 32
  let done ← insertInBlocks p fs dirInode dirSize entryInode name fileType maxRounds 0 0
  if done then return ()
  else appendBlock p fs dirInode dirNum dirSize entryInode name fileType

/-! ## Removing an entry -/

/-- The content of a block after the record at `offset` is freed, and joined to the
    one before it if that is free. -/
def removeAt (data : List Byte) (offset : Nat) (prev : Option Nat) : Option (List Byte) := do
  let freed ← writeU32 data offset 0
  match prev with
  | none => return freed
  | some prevOffset =>
    if recInode freed prevOffset = 0 then
      writeU16 freed (prevOffset + 4)
        (ofNat 16 (recLen freed prevOffset + recLen data offset))
    else return freed

/-- The inner loop of `remove_dir_entry_from_disk`: the new block and the inode of the
    entry, or the bytes counted. The name is sliced out before it is compared, wherever
    it ends. -/
def removeFrom (data : List Byte) (name : List Byte) :
    Nat → Nat → Option Nat → Nat → Option ((List Byte × BitVec 32) ⊕ Nat)
  | 0, _, _, bytesScanned => some (.inr bytesScanned)
  | rounds + 1, offset, prev, bytesScanned =>
    if offset + 8 ≤ fs.blockSize then
      if recLen data offset = 0 then some (.inr bytesScanned)
      else if data.length < offset + 8 + recNameLen data offset then none
      else if recInode data offset ≠ 0 ∧
          window data (offset + 8) (recNameLen data offset) = name then do
        let data' ← removeAt data offset prev
        return .inl (data', recInode data offset)
      else do
        let bytesScanned ← p.fit 32 (bytesScanned + recLen data offset)
        removeFrom data name rounds (offset + recLen data offset) (some offset) bytesScanned
    else some (.inr bytesScanned)

/-- The outer loop of `remove_dir_entry_from_disk`. -/
def removeInBlocks (dirInode : Inode) (dirSize : Nat) (name : List Byte) :
    Nat → Nat → Nat → DiskM (Option (BitVec 32))
  | 0, _, _ => throw .panic
  | rounds + 1, logicalBlock, bytesScanned => do
    if dirSize ≤ bytesScanned then return none
    else
      let physicalBlock ← resolveBlock p fs dirInode logicalBlock
      if physicalBlock = 0 then
        let bytesScanned ← u32 p (bytesScanned + fs.blockSize)
        let next ← u32 p (logicalBlock + 1)
        removeInBlocks dirInode dirSize name rounds next bytesScanned
      else
        let blockData ← fs.readBlock physicalBlock.toNat
        match ← orPanic (removeFrom p fs blockData name fs.blockSize 0 none bytesScanned) with
        | .inl (blockData, inode) =>
          fs.writeBlock physicalBlock.toNat blockData
          return some inode
        | .inr bytesScanned =>
          let next ← u32 p (logicalBlock + 1)
          removeInBlocks dirInode dirSize name rounds next bytesScanned

def removeDirEntryFromDisk : DiskM (Option (BitVec 32)) :=
  removeInBlocks p fs dirInode (dirInode.size % 2 ^ 32) name maxRounds 0 0

end

end

end Ext2Fs

end OpenOS.Fs.Ext2
