/-
  The on-disk structures of kernel/src/fs/ext2.rs: little-endian fields, the
  superblock, block group descriptors, inodes and directory records.

  All numbers come from the disk and are taken as they are.  Of the superblock
  and the descriptors only the fields that the file system uses are kept; an
  inode is kept whole, since it is written back.
-/

import OpenOS.Base.Bytes
import OpenOS.Base.Overwrite

namespace OpenOS.Fs.Ext2

open Base List BitVec

/-! ## Constants -/

def ext2Magic : Nat := 0xEF53
/-- `BLOCK_SIZE`, which mkdir assumes. -/
def stdBlockSize : Nat := 1024
def sectorSize : Nat := 512
def sectorsPerBlock : Nat := stdBlockSize / sectorSize
/-- `INODE_SIZE` -/
def minInodeSize : Nat := 128
def rootInode : Nat := 2
def sIfDir : BitVec 16 := 0x4000
def sIfReg : BitVec 16 := 0x8000
def sIfLnk : BitVec 16 := 0xA000
def directBlocks : Nat := 12
/-- An inode has fifteen block pointers. -/
instance neZero15 : NeZero 15 := ⟨by decide⟩
def ftRegFile : Byte := 1
def ftDir : Byte := 2

/-! ## Fields -/

/-- The 16-bit field at an offset inside the data. -/
def u16At (data : List Byte) (offset : Nat) : BitVec 16 :=
  BitVec.ofNat 16 (leNat (window data offset 2))

/-- The 32-bit field at an offset inside the data. -/
def u32At (data : List Byte) (offset : Nat) : BitVec 32 :=
  BitVec.ofNat 32 (leNat (window data offset 4))

def byteAt (data : List Byte) (offset : Nat) : Byte := data.getD offset 0

/-- `vec![0u8; n]` -/
def zeros (n : Nat) : List Byte := replicate n 0

@[simp] theorem length_zeros (n : Nat) : (zeros n).length = n := length_replicate ..

section

variable (data : List Byte) (offset : Nat)

/-- `read_u32`, which panics outside the data. -/
def readU32 : Option (BitVec 32) :=
  if offset + 4 ≤ data.length then some (u32At data offset) else none

def writeU32 (value : BitVec 32) : Option (List Byte) := copyAt data offset (leBytes 4 value.toNat)

/-- `write_u16_bytes` -/
def writeU16 (value : BitVec 16) : Option (List Byte) := copyAt data offset (leBytes 2 value.toNat)

/-- `data[offset] = b` -/
def writeByte (b : Byte) : Option (List Byte) := copyAt data offset [b]

end

/-! ## The superblock and the group descriptors -/

structure Superblock where
  blocksCount : Nat
  firstDataBlock : Nat
  logBlockSize : Nat
  blocksPerGroup : Nat
  inodesPerGroup : Nat
  firstIno : Nat
  inodeSize : Nat
deriving DecidableEq

/-- `Superblock::from_bytes` of 1024 bytes. -/
def Superblock.fromBytes (data : List Byte) : Option Superblock :=
  if (u16At data 56).toNat ≠ ext2Magic then none
  else
    some {
      blocksCount := (u32At data 4).toNat
      firstDataBlock := (u32At data 20).toNat
      logBlockSize := (u32At data 24).toNat
      blocksPerGroup := (u32At data 32).toNat
      inodesPerGroup := (u32At data 40).toNat
      firstIno := (u32At data 84).toNat
      inodeSize := (u16At data 88).toNat }

structure BlockGroupDescriptor where
  blockBitmap : Nat
  inodeBitmap : Nat
  inodeTable : Nat
  freeBlocksCount : Nat
  freeInodesCount : Nat
deriving DecidableEq

/-- `BlockGroupDescriptor::from_bytes` of 32 bytes from an offset on. -/
def BlockGroupDescriptor.fromBytes (data : List Byte) (offset : Nat) : BlockGroupDescriptor where
  blockBitmap := (u32At data offset).toNat
  inodeBitmap := (u32At data (offset + 4)).toNat
  inodeTable := (u32At data (offset + 8)).toNat
  freeBlocksCount := (u16At data (offset + 12)).toNat
  freeInodesCount := (u16At data (offset + 14)).toNat

/-! ## Inodes -/

structure Inode where
  mode : BitVec 16
  uid : BitVec 16
  sizeLow : BitVec 32
  atime : BitVec 32
  ctime : BitVec 32
  mtime : BitVec 32
  dtime : BitVec 32
  gid : BitVec 16
  nlink : BitVec 16
  blocks : BitVec 32
  /-- 12 direct, one indirect, one double and one triple indirect pointer. -/
  block : Fin 15 → BitVec 32
  sizeHigh : BitVec 32

namespace Inode

/-- `Inode::from_bytes` of 128 bytes. -/
def fromBytes (data : List Byte) : Inode where
  mode := u16At data 0
  uid := u16At data 2
  sizeLow := u32At data 4
  atime := u32At data 8
  ctime := u32At data 12
  mtime := u32At data 16
  dtime := u32At data 20
  gid := u16At data 24
  nlink := u16At data 26
  blocks := u32At data 28
  block := fun i => u32At data (40 + i * 4)
  sizeHigh := u32At data 108

def isDir (inode : Inode) : Bool := (inode.mode &&& 0xF000) = sIfDir
def isReg (inode : Inode) : Bool := (inode.mode &&& 0xF000) = sIfReg
def isSymlink (inode : Inode) : Bool := (inode.mode &&& 0xF000) = sIfLnk

def size (inode : Inode) : Nat :=
  if inode.isDir then inode.sizeLow.toNat
  else inode.sizeHigh.toNat * 2 ^ 32 + inode.sizeLow.toNat

/-- `to_bytes`: the fields in the order of their offsets; the bytes from 32, from
    100 and from 112 on are not used and written as zeros. -/
def toBytes (inode : Inode) : List Byte :=
  leBytes 2 inode.mode.toNat ++ (leBytes 2 inode.uid.toNat ++ (leBytes 4 inode.sizeLow.toNat ++
    (leBytes 4 inode.atime.toNat ++ (leBytes 4 inode.ctime.toNat ++
    (leBytes 4 inode.mtime.toNat ++ (leBytes 4 inode.dtime.toNat ++
    (leBytes 2 inode.gid.toNat ++ (leBytes 2 inode.nlink.toNat ++
    (leBytes 4 inode.blocks.toNat ++ (zeros 8 ++
    ((finRange 15).flatMap (fun i => leBytes 4 (inode.block i).toNat) ++
    (zeros 8 ++ (leBytes 4 inode.sizeHigh.toNat ++ zeros 16)))))))))))))

/-- The inode with one pointer changed. -/
def setBlock (inode : Inode) (i : Fin 15) (b : BitVec 32) : Inode :=
  { inode with block := Function.update inode.block i b }

/-- A new inode; the times and owners are zero. -/
def new (mode : BitVec 16) (size : BitVec 32) (nlink : BitVec 16) (blocks : BitVec 32)
    (block : Fin 15 → BitVec 32) : Inode :=
  ⟨mode, 0, size, 0, 0, 0, 0, 0, nlink, blocks, block, 0⟩

end Inode

/-- `DirEntryRaw`, without the lengths. -/
structure DirEntryRaw where
  inode : BitVec 32
  fileType : Byte
  name : List Byte
deriving DecidableEq

/-! ## Reading back -/

theorem ofNat_leNat_leBytes (v : BitVec (8 * n)) :
    BitVec.ofNat (8 * n) (leNat (leBytes n v.toNat)) = v := by
  have hlt : v.toNat < 256 ^ n := by
    have h := v.isLt
    rwa [Nat.pow_mul] at h
  rw [leNat_leBytes, Nat.mod_eq_of_lt hlt, ofNat_toNat, setWidth_eq]

section Fields

variable {tail : List Byte}

theorem u16At_append (h : pre.length ≤ offset) :
    u16At (pre ++ tail) offset = u16At tail (offset - pre.length) := by
  rw [u16At, window_append_of_le h, u16At]

theorem u32At_append (h : pre.length ≤ offset) :
    u32At (pre ++ tail) offset = u32At tail (offset - pre.length) := by
  rw [u32At, window_append_of_le h, u32At]

@[simp] theorem u16At_leBytes (v : BitVec 16) : u16At (leBytes 2 v.toNat ++ tail) 0 = v := by
  have hwin := window_append_self (leBytes 2 v.toNat) tail
  exact ofNat_leNat_leBytes (n := 2) v

@[simp] theorem u32At_leBytes (v : BitVec 32) : u32At (leBytes 4 v.toNat ++ tail) 0 = v := by
  have hwin := window_append_self (leBytes 4 v.toNat) tail
  exact ofNat_leNat_leBytes (n := 4) v

theorem u32At_flatMap (f : Fin n → BitVec 32) (i : Fin n) :
    u32At ((finRange n).flatMap (fun i => leBytes 4 (f i).toNat) ++ tail) (i * 4) = f i := by
  have hwin := window_flatMap (f := fun i => leBytes 4 (f i).toNat)
    (fun i => length_leBytes 4 _) (finRange n) tail (j := i) (by simp)
  rw [u32At, hwin, getElem_finRange]
  exact ofNat_leNat_leBytes _

end Fields

namespace Inode

theorem length_toBytes (inode : Inode) : inode.toBytes.length = 128 := by
  simp [toBytes]

theorem fromBytes_toBytes (inode : Inode) : fromBytes inode.toBytes = inode := by
  have hblock : (fun i : Fin 15 => u32At inode.toBytes (40 + i * 4)) = inode.block := by
    funext i
    rw [toBytes]
    -- ten fields and eight zeros come before the pointers
    iterate 11 rw [u32At_append (by simp only [length_leBytes, length_zeros]; omega)]
    simp only [length_leBytes, length_zeros]
    rw [show 40 + i * 4 - 2 - 2 - 4 - 4 - 4 - 4 - 4 - 2 - 2 - 4 - 8 = i.val * 4 by omega]
    exact u32At_flatMap inode.block i
  rw [fromBytes, hblock]
  simp [toBytes, u16At_append, u32At_append]

end Inode

end OpenOS.Fs.Ext2
