/-
  The blocks of an inode (kernel/src/fs/ext2.rs): twelve direct pointers and
  the indirect, double and triple indirect trees; reading and writing data
  through them, and giving them back.

  A logical block number is a `u32`.  A number of a file offset is cut to 32
  bits; past the reach of the triple indirect tree a lookup fails, and an
  insertion indexes outside the block.
-/

import OpenOS.Fs.Ext2.Volume

namespace OpenOS.Fs.Ext2.Ext2Fs

open Base BitVec Comp

section

variable (p : Profile) (fs : Ext2Fs)

/-- `self.block_size / 4` -/
def entriesPerBlock : Nat := fs.blockSize / 4

/-! ## Looking a block up -/

/-- The entry of a pointer block, for a lookup. -/
def pointerAt (blockNum index : Nat) : DiskM (BitVec 32) := do
  let data ← fs.readBlock blockNum
  let offset ← u32 p (index * 4)
  if data.length < offset + 4 then fail
  else return u32At data offset

section

variable (blockNum : BitVec 32) (index : Nat)

def readIndirect : DiskM (BitVec 32) :=
  if blockNum = 0 then return 0 else pointerAt p fs blockNum.toNat index

def readDoubleIndirect : DiskM (BitVec 32) := do
  if blockNum = 0 then return 0
  else
    let first ← divide index fs.entriesPerBlock
    let indirectBlock ← pointerAt p fs blockNum.toNat first
    readIndirect p fs indirectBlock (index % fs.entriesPerBlock)

def readTripleIndirect : DiskM (BitVec 32) := do
  if blockNum = 0 then return 0
  else
    let square ← u32 p (fs.entriesPerBlock * fs.entriesPerBlock)
    let first ← divide index square
    let doubleBlock ← pointerAt p fs blockNum.toNat first
    readDoubleIndirect p fs doubleBlock (index % square)

/-- The first logical block of the triple indirect tree. -/
def tripleBase : DiskM Nat := do
  let square ← u32 p (fs.entriesPerBlock * fs.entriesPerBlock)
  u32 p (directBlocks + fs.entriesPerBlock + square)

def resolveBlock (inode : Inode) (logicalBlock : Nat) : DiskM (BitVec 32) :=
  if h : logicalBlock < directBlocks then
    return inode.block ⟨logicalBlock, Nat.lt_trans h (by decide)⟩
  else if logicalBlock < directBlocks + fs.entriesPerBlock then
    readIndirect p fs (inode.block 12) (logicalBlock - directBlocks)
  else do
    let base ← tripleBase p fs
    if logicalBlock < base then
      readDoubleIndirect p fs (inode.block 13) (logicalBlock - (directBlocks + fs.entriesPerBlock))
    else readTripleIndirect p fs (inode.block 14) (logicalBlock - base)

/-! ## Inserting a block -/

def writeIndirectEntry (value : BitVec 32) : DiskM Unit := do
  let data ← fs.readBlock blockNum.toNat
  let offset ← u32 p (index * 4)
  let data ← orPanic (writeU32 data offset value)
  fs.writeBlock blockNum.toNat data

/-- `alloc_block().ok_or(())?` -/
def needBlock : DiskM (BitVec 32) := do
  let block ← allocBlock p fs
  let block ← orErr () block
  return BitVec.ofNat 32 block

/-- The block behind an entry of a pointer block; a new one, filled with zeros,
    where there is none. -/
def childOf : DiskM (BitVec 32) := do
  let data ← fs.readBlock blockNum.toNat
  let offset ← u32 p (index * 4)
  let child ← orPanic (readU32 data offset)
  if child = 0 then
    let new ← needBlock p fs
    let data ← orPanic (writeU32 data offset new)
    fs.writeBlock blockNum.toNat data
    fs.writeBlock new.toNat (zeros fs.blockSize)
    return new
  else return child

def setDoubleIndirectEntry (value : BitVec 32) : DiskM Unit := do
  let first ← divide index fs.entriesPerBlock
  let indirectBlock ← childOf p fs blockNum first
  writeIndirectEntry p fs indirectBlock (index % fs.entriesPerBlock) value

def setTripleIndirectEntry (value : BitVec 32) : DiskM Unit := do
  let square ← u32 p (fs.entriesPerBlock * fs.entriesPerBlock)
  let first ← divide index square
  let doubleBlock ← childOf p fs blockNum first
  setDoubleIndirectEntry p fs doubleBlock (index % square) value

end

/-- The inode with a pointer block behind entry `i`; a new one, filled with zeros,
    where there is none. -/
def ensureRoot (inode : Inode) (i : Fin 15) : DiskM Inode := do
  if inode.block i = 0 then
    let new ← needBlock p fs
    fs.writeBlock new.toNat (zeros fs.blockSize)
    return inode.setBlock i new
  else return inode

def setBlockPointer (inode : Inode) (logicalBlock : Nat) (physicalBlock : BitVec 32) :
    DiskM Inode :=
  if h : logicalBlock < directBlocks then
    return inode.setBlock ⟨logicalBlock, Nat.lt_trans h (by decide)⟩ physicalBlock
  else if logicalBlock < directBlocks + fs.entriesPerBlock then do
    let inode ← ensureRoot p fs inode 12
    writeIndirectEntry p fs (inode.block 12) (logicalBlock - directBlocks) physicalBlock
    return inode
  else do
    let base ← tripleBase p fs
    if logicalBlock < base then
      let inode ← ensureRoot p fs inode 13
      setDoubleIndirectEntry p fs (inode.block 13)
        (logicalBlock - (directBlocks + fs.entriesPerBlock)) physicalBlock
      return inode
    else
      let inode ← ensureRoot p fs inode 14
      setTripleIndirectEntry p fs (inode.block 14) (logicalBlock - base) physicalBlock
      return inode

/-! ## Data -/

/-- The loop of `read_inode_data`, with `n` bytes still to read from `fileOffset` on. A
    round reads at least one byte, so as many rounds as bytes are enough. -/
def readDataFrom (inode : Inode) : Nat → Nat → Nat → DiskM (List Byte)
  | 0, _, _ => return []
  | rounds + 1, fileOffset, n => do
    if n = 0 then return []
    else
      let block ← divide fileOffset fs.blockSize
      let logicalBlock := block % 2 ^ 32
      let offsetInBlock := fileOffset % fs.blockSize
      let copyLen := min n (fs.blockSize - offsetInBlock)
      let physicalBlock ← resolveBlock p fs inode logicalBlock
      if physicalBlock = 0 then
        -- a hole
        let rest ← readDataFrom inode rounds (fileOffset + copyLen) (n - copyLen)
        return zeros copyLen ++ rest
      else
        let blockData ← fs.readBlock physicalBlock.toNat
        let rest ← readDataFrom inode rounds (fileOffset + copyLen) (n - copyLen)
        return window blockData offsetInBlock copyLen ++ rest

/-- `read_inode_data` into a buffer of `len` bytes: what is put into it. -/
def readInodeData (inode : Inode) (offset len : Nat) : DiskM (List Byte) :=
  if inode.size ≤ offset then return []
  else
    let toRead := min len (inode.size - offset)
    readDataFrom p fs inode toRead offset toRead

/-- The physical block for a logical one: a new one where there is none. -/
def blockFor (inode : Inode) (logicalBlock : Nat) : DiskM (Inode × BitVec 32) := do
  let physicalBlock ← resolveBlock p fs inode logicalBlock
  if physicalBlock = 0 then
    let new ← needBlock p fs
    let inode ← setBlockPointer p fs inode logicalBlock new
    return (inode, new)
  else return (inode, physicalBlock)

/-- The loop of `write_inode_data`, with `data` still to be written from `fileOffset`
    on; as many rounds as bytes are enough. (An offset wrapped at 2^64 has the same
    block number and offset.) -/
def writeDataFrom : Nat → Inode → Nat → List Byte → DiskM Inode
  | 0, inode, _, _ => return inode
  | rounds + 1, inode, fileOffset, data => do
    if data = [] then return inode
    else
      let block ← divide fileOffset fs.blockSize
      let logicalBlock := block % 2 ^ 32
      let offsetInBlock := fileOffset % fs.blockSize
      let (inode, physicalBlock) ← blockFor p fs inode logicalBlock
      let copyLen := min data.length (fs.blockSize - offsetInBlock)
      -- the block is read first unless it is written whole
      let blockData ←
        if offsetInBlock = 0 ∧ copyLen = fs.blockSize then pure (zeros fs.blockSize)
        else fs.readBlock physicalBlock.toNat
      let blockData ← orPanic (copyAt blockData offsetInBlock (data.take copyLen))
      fs.writeBlock physicalBlock.toNat blockData
      writeDataFrom rounds inode (fileOffset + copyLen) (data.drop copyLen)

/-- The inode after a write that ends at `endOffset`. -/
def grown (inode : Inode) (endOffset : Nat) : Inode :=
  let inode := if inode.size < endOffset then
      { inode with
        sizeLow := BitVec.ofNat 32 endOffset
        sizeHigh := BitVec.ofNat 32 (endOffset / 2 ^ 32) }
    else inode
  { inode with blocks := BitVec.ofNat 32 ((inode.size + 511) / 512) }

/-- `write_inode_data`: the bytes written, and the inode. -/
def writeInodeData (inode : Inode) (inodeNum offset : Nat) (data : List Byte) :
    DiskM (Inode × Nat) := do
  if data = [] then return (inode, 0)
  else
    let endOffset ← orPanic (p.fit 64 (offset + data.length))
    let inode ← writeDataFrom p fs data.length inode offset data
    let inode := grown inode endOffset
    writeInode p fs inodeNum inode
    return (inode, data.length)

/-! ## Giving the blocks back -/

/-- The pointers of a pointer block; the loops run over `entries_per_block`. -/
def pointersOf (data : List Byte) : List (BitVec 32) :=
  (List.range fs.entriesPerBlock).map fun i => u32At data (i * 4)

/-- Free what is below each pointer that is not zero. -/
def freeEach (freeOne : BitVec 32 → DiskM Unit) (pointers : List (BitVec 32)) : DiskM Unit :=
  pointers.forM fun b => if b = 0 then return () else freeOne b

/-- Free a data block (depth 0), or a pointer block with all that is below it. -/
def freeTree : Nat → BitVec 32 → DiskM Unit
  | 0, block => freeBlock p fs block.toNat
  | depth + 1, block => do
    let data ← fs.readBlock block.toNat
    freeEach (freeTree depth) (fs.pointersOf data)
    freeBlock p fs block.toNat

def freeInodeBlocks (inode : Inode) : DiskM Unit := do
  freeEach (freeTree p fs 0) ((List.finRange 12).map fun i => inode.block (i.castLE (by decide)))
  freeEach (freeTree p fs 1) [inode.block 12]
  freeEach (freeTree p fs 2) [inode.block 13]
  freeEach (freeTree p fs 3) [inode.block 14]

end

end OpenOS.Fs.Ext2.Ext2Fs
