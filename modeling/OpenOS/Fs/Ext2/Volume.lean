/-
  A mounted volume (kernel/src/fs/ext2.rs): blocks on the device, mounting, the
  inode table and the two bitmaps.

  The device is seen through the block cache, which keeps what is written to it
  in dirty entries and refuses a sector when it has to make room and every entry
  is dirty.  The result `()` of a failed access is an error, an overflow of a
  development build, a division by zero and an index out of range are panics.
-/

import OpenOS.Base.Comp
import OpenOS.Fs.Ext2.Format

namespace OpenOS.Fs.Ext2

open Base Base.Comp List

/-! ## The device -/

/-- A sector, `[u8; 512]`. -/
abbrev Sector := {data : List Byte // data.length = sectorSize}

/-- The device behind the cache: what a sector holds, if it is cached or can be read;
    the sectors in dirty entries; and the number of entries that are not dirty. -/
structure Disk where
  sectors : Nat → Option Sector
  dirty : List Nat
  room : Nat

/-- A sector that is not in a dirty entry needs one that is not dirty. -/
def Disk.get (d : Disk) (lba : Nat) : Option Sector :=
  if lba ∈ d.dirty ∨ 0 < d.room then d.sectors lba else none

/-- Code on the device; its errors are `()`. -/
abbrev DiskM := Comp Unit Disk

/-- `read_cached(..).ok_or(())?` -/
def readCached (lba : Nat) : DiskM (List Byte) := fun d =>
  match d.get lba with
  | none => .error (.err ()) d
  | some s => .ok s.val d

/-- The sector gets into a dirty entry; the device itself is not accessed. -/
def writeCached (lba : Nat) (data : Sector) : DiskM Unit := fun d =>
  let sectors := Function.update d.sectors lba (some data)
  if lba ∈ d.dirty then .ok () { d with sectors := sectors }
  else if d.room = 0 then .error (.err ()) d
  else .ok () ⟨sectors, lba :: d.dirty, d.room - 1⟩

/-- `Err(())` -/
def fail {α : Type} : DiskM α := throw (.err ())

/-- The exact result `n` of an operation on `u32`. -/
def u32 (p : Profile) (n : Nat) : DiskM Nat := orPanic (p.fit 32 n)

/-- `n / d` -/
def divide (n d : Nat) : DiskM Nat := if d = 0 then throw .panic else return n / d

/-- The sectors `i`, .. of a block, copied to their place in the buffer. -/
def readSectors (startLba : Nat) : Nat → Nat → List Byte → DiskM (List Byte)
  | 0, _, data => return data
  | n + 1, i, data => do
    let sector ← readCached (startLba + i)
    let data ← orPanic (copyAt data (i * sectorSize) sector)
    readSectors startLba n (i + 1) data

def readBlockStatic (blockNum blockSize : Nat) : DiskM (List Byte) :=
  let sectorsPerBlock := blockSize / sectorSize
  readSectors (blockNum * sectorsPerBlock) sectorsPerBlock 0 (zeros blockSize)

theorem length_sectorWindow (h : offset + sectorSize ≤ data.length) :
    (window data offset sectorSize).length = sectorSize := by
  rw [window, length_take, length_drop]
  omega

/-- `data[offset..offset + 512]` -/
def sectorOf (data : List Byte) (offset : Nat) : Option Sector :=
  if h : offset + sectorSize ≤ data.length then
    some ⟨window data offset sectorSize, length_sectorWindow h⟩
  else none

/-- The sectors `i`, .. of a block, written one after the other. -/
def writeSectors (startLba : Nat) (data : List Byte) : Nat → Nat → DiskM Unit
  | 0, _ => return ()
  | n + 1, i => do
    let sector ← orPanic (sectorOf data (i * sectorSize))
    writeCached (startLba + i) sector
    writeSectors startLba data n (i + 1)

/-! ## Mounting -/

/-- `Ext2Fs`, without the device and the table of open files, which is only
    written. -/
structure Ext2Fs where
  superblock : Superblock
  groupDescriptors : List BlockGroupDescriptor
  blockSize : Nat
deriving DecidableEq

/-- The group descriptors `i`, .. of the table. -/
def readGroups (table : List Byte) : Nat → Nat → DiskM (List BlockGroupDescriptor)
  | 0, _ => return []
  | n + 1, i => do
    if table.length < i * 32 + 32 then fail
    else
      let rest ← readGroups table n (i + 1)
      return .fromBytes table (i * 32) :: rest

/-- `1024u32.checked_shl(log)`, which loses bits but not the shift. -/
def blockSizeOf (log : Nat) : Option Nat := if log < 32 then some (1024 * 2 ^ log % 2 ^ 32) else none

/-- `Ext2Fs::open` -/
def mount : DiskM Ext2Fs := do
  let sector0 ← readCached 2
  let sector1 ← readCached 3
  let superblock ← orErr () (Superblock.fromBytes (sector0 ++ sector1))
  let blockSize ← orErr () (blockSizeOf superblock.logBlockSize)
  let bgdtBlock := if blockSize ≤ 1024 then 2 else 1
  -- `div_ceil`
  let quotient ← divide superblock.blocksCount superblock.blocksPerGroup
  let numGroups := quotient + if superblock.blocksCount % superblock.blocksPerGroup = 0 then 0 else 1
  let table ← readBlockStatic bgdtBlock blockSize
  let groupDescriptors ← readGroups table numGroups 0
  return ⟨superblock, groupDescriptors, blockSize⟩

/-! ## Blocks and inodes -/

namespace Ext2Fs

section

variable (p : Profile) (fs : Ext2Fs)

def readBlock (blockNum : Nat) : DiskM (List Byte) := readBlockStatic blockNum fs.blockSize

def writeBlock (blockNum : Nat) (data : List Byte) : DiskM Unit :=
  let sectorsPerBlock := fs.blockSize / sectorSize
  writeSectors (blockNum * sectorsPerBlock) data sectorsPerBlock 0

/-- The block and the offset in it of an inode, as `read_inode` and `write_inode`
    both compute them. -/
def inodeSlot (inodeNum : Nat) : DiskM (Nat × Nat) := do
  if inodeNum = 0 then fail
  else
    let inoIndex := inodeNum - 1
    let group ← divide inoIndex fs.superblock.inodesPerGroup
    let indexInGroup := inoIndex % fs.superblock.inodesPerGroup
    match fs.groupDescriptors[group]? with
    | none => fail
    | some desc =>
      let inodeSize := max fs.superblock.inodeSize minInodeSize
      let offsetInTable := indexInGroup * inodeSize
      let blockInTable ← divide offsetInTable fs.blockSize
      let blockNum ← u32 p (desc.inodeTable + blockInTable % 2 ^ 32)
      return (blockNum, offsetInTable % fs.blockSize)

def readInode (inodeNum : Nat) : DiskM Inode := do
  let slot ← inodeSlot p fs inodeNum
  let blockData ← fs.readBlock slot.1
  if blockData.length < slot.2 + minInodeSize then fail
  else return .fromBytes (window blockData slot.2 128)

def writeInode (inodeNum : Nat) (inode : Inode) : DiskM Unit := do
  let slot ← inodeSlot p fs inodeNum
  let blockData ← fs.readBlock slot.1
  let blockData ← orPanic (copyAt blockData slot.2 inode.toBytes)
  fs.writeBlock slot.1 blockData

/-! ## The bitmaps -/

/-- A bit of a bitmap block. -/
def bitAt (data : List Byte) (j : Nat) : Bool := (byteAt data (j / 8)).getLsbD (j % 8)

/-- `data[byte] |= 1 << bit` -/
def setBit (data : List Byte) (j : Nat) : List Byte :=
  data.set (j / 8) (byteAt data (j / 8) ||| (1#8 <<< (j % 8)))

/-- `data[byte] &= !(1 << bit)` -/
def clearBit (data : List Byte) (j : Nat) : List Byte :=
  data.set (j / 8) (byteAt data (j / 8) &&& ~~~(1#8 <<< (j % 8)))

theorem length_clearBit (data : List Byte) (j : Nat) : (clearBit data j).length = data.length :=
  length_set ..

/-- The number of bits that the loops of `alloc_block` and `alloc_inode` look at:
    those of the first `bits_per_block / 8` bytes. -/
def bitsScanned (data : List Byte) : DiskM Nat := do
  let bitsPerBlock ← u32 p (fs.blockSize * 8)
  return 8 * min (bitsPerBlock / 8) data.length

/-- `alloc_block` from group `groupIdx` on.  Bytes that are 0xFF are passed over
    whole in the source; the first bit that is zero decides. -/
def allocBlockFrom : List BlockGroupDescriptor → Nat → DiskM (Option Nat)
  | [], _ => return none
  | desc :: descs, groupIdx => do
    if desc.freeBlocksCount = 0 then allocBlockFrom descs (groupIdx + 1)
    else
      match ← toOption (fs.readBlock desc.blockBitmap) with
      | none => return none
      | some bitmap =>
        let bits ← bitsScanned p fs bitmap
        match (range bits).find? fun j => !bitAt bitmap j with
        | none => allocBlockFrom descs (groupIdx + 1)
        | some blockInGroup =>
          if fs.superblock.blocksPerGroup ≤ blockInGroup then return none
          else
            let groupStart ← u32 p (groupIdx * fs.superblock.blocksPerGroup)
            let base ← u32 p (fs.superblock.firstDataBlock + groupStart)
            let absoluteBlock ← u32 p (base + blockInGroup)
            match ← toOption (fs.writeBlock desc.blockBitmap (setBit bitmap blockInGroup)) with
            | none => return none
            | some () => return some absoluteBlock

def allocBlock : DiskM (Option Nat) := allocBlockFrom p fs fs.groupDescriptors 0

def freeBlock (block : Nat) : DiskM Unit := do
  if block = 0 then return ()
  else
    let relative ← orPanic (p.fitSub 32 block fs.superblock.firstDataBlock)
    let groupIdx ← divide relative fs.superblock.blocksPerGroup
    let blockInGroup := relative % fs.superblock.blocksPerGroup
    match fs.groupDescriptors[groupIdx]? with
    | none => fail
    | some desc =>
      let bitmap ← fs.readBlock desc.blockBitmap
      if bitmap.length ≤ blockInGroup / 8 then fail
      else fs.writeBlock desc.blockBitmap (clearBit bitmap blockInGroup)

/-- The first free inode from bit `j` on that is not reserved, with its bit; `some none`
    when a bit past the inodes of the group is free first. -/
def freeInodeFrom (bitmap : List Byte) (groupIdx : Nat) :
    Nat → Nat → DiskM (Option (Option (Nat × Nat)))
  | 0, _ => return none
  | n + 1, j => do
    if bitAt bitmap j then freeInodeFrom bitmap groupIdx n (j + 1)
    else if fs.superblock.inodesPerGroup ≤ j then return some none
    else
      let groupStart ← u32 p (groupIdx * fs.superblock.inodesPerGroup)
      let index ← u32 p (groupStart + j)
      let inodeNum ← u32 p (index + 1)
      if inodeNum < fs.superblock.firstIno then freeInodeFrom bitmap groupIdx n (j + 1)
      else return some (some (j, inodeNum))

/-- `alloc_inode` from group `groupIdx` on. -/
def allocInodeFrom : List BlockGroupDescriptor → Nat → DiskM (Option Nat)
  | [], _ => return none
  | desc :: descs, groupIdx => do
    if desc.freeInodesCount = 0 then allocInodeFrom descs (groupIdx + 1)
    else
      match ← toOption (fs.readBlock desc.inodeBitmap) with
      | none => return none
      | some bitmap =>
        let bits ← bitsScanned p fs bitmap
        match ← freeInodeFrom p fs bitmap groupIdx bits 0 with
        | none => allocInodeFrom descs (groupIdx + 1)
        | some none => return none
        | some (some (j, inodeNum)) =>
          match ← toOption (fs.writeBlock desc.inodeBitmap (setBit bitmap j)) with
          | none => return none
          | some () => return some inodeNum

def allocInode : DiskM (Option Nat) := allocInodeFrom p fs fs.groupDescriptors 0

def freeInode (inodeNum : Nat) : DiskM Unit := do
  if inodeNum = 0 then return ()
  else
    let inoIndex := inodeNum - 1
    let groupIdx ← divide inoIndex fs.superblock.inodesPerGroup
    let inodeInGroup := inoIndex % fs.superblock.inodesPerGroup
    match fs.groupDescriptors[groupIdx]? with
    | none => fail
    | some desc =>
      let bitmap ← fs.readBlock desc.inodeBitmap
      if bitmap.length ≤ inodeInGroup / 8 then fail
      else fs.writeBlock desc.inodeBitmap (clearBit bitmap inodeInGroup)

end

end Ext2Fs

end OpenOS.Fs.Ext2
