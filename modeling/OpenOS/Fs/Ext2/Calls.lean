/-
  `impl FileSystem for Ext2Fs` (kernel/src/fs/ext2.rs).

  `open` only looks a path up: its table of open files is never read.  A call
  that fails leaves on the device what it had written by then.
-/

import OpenOS.Fs.Ext2.Dir
import OpenOS.Fs.Vfs

namespace OpenOS.Fs.Ext2.Ext2Fs

open Base Base.Comp
open BitVec (ofNat)

/-- A call of the file system. -/
abbrev CallM := Comp FsError Disk

section

variable (p : Profile) (fs : Ext2Fs)

/-- `map_err(|()| e)` -/
def orFs {α : Type} (e : FsError) (x : DiskM α) : CallM α := mapErr e x

def failWith {α : Type} (e : FsError) : CallM α := throw (.err e)

/-- `u32::try_from(ino).map_err(..)` -/
def inodeNumOf (ino : Word) : CallM Nat :=
  if ino.toNat < 2 ^ 32 then return ino.toNat else failWith .badFileDescriptor

/-! ## Files -/

/-- `open` -/
def openPath (path : String) : CallM Word := do
  let inodeNum ← orFs .notFound (resolvePath p fs path)
  return ofNat 64 inodeNum

/-- `read` into a buffer of `len` bytes. -/
def read (ino : Word) (offset : Word) (len : Nat) : CallM (List Byte) := do
  let inodeNum ← inodeNumOf ino
  let inode ← orFs .ioError (readInode p fs inodeNum)
  orFs .ioError (readInodeData p fs inode offset.toNat len)

def write (ino : Word) (offset : Word) (data : List Byte) : CallM Nat := do
  let inodeNum ← inodeNumOf ino
  let inode ← orFs .ioError (readInode p fs inodeNum)
  if !inode.isReg then failWith .notSupported
  else
    let r ← orFs .ioError (writeInodeData p fs inode inodeNum offset.toNat data)
    return r.2

def stat (ino : Word) : CallM InodeMeta := do
  let inodeNum ← inodeNumOf ino
  let inode ← orFs .notFound (readInode p fs inodeNum)
  return ⟨ino, inode.isDir, inode.isSymlink, false, ofNat 64 inode.size⟩

def readdir (dirIno : Word) : CallM (List DirEntry) := do
  let inodeNum ← inodeNumOf dirIno
  let inode ← orFs .notFound (readInode p fs inodeNum)
  if !inode.isDir then failWith .notSupported
  else
    let rawEntries ← orFs .ioError (readDirEntries p fs inode)
    return rawEntries.filterMap fun e =>
      (fromUtf8 e.name).map fun name => ⟨name, e.inode.setWidth 64, e.fileType = ftDir⟩

/-! ## New entries -/

section

variable (parentIno : Word) (name : List Byte)

/-- What `create` and `mkdir` begin with: a name, a parent directory that
    does not have it, and a new inode number. -/
def newEntry (notDir : FsError) : CallM (Nat × Inode × Nat) := do
  if name = [] ∨ 255 < name.length then failWith .invalidName
  else
    let parentNum ← inodeNumOf parentIno
    let parentInode ← orFs .notFound (readInode p fs parentNum)
    if !parentInode.isDir then failWith notDir
    else
      -- an error of the search is taken for "no such entry"
      let found ← orFs .ioError (findEntry p fs parentInode name)
      if found.isSome then failWith .alreadyExists
      else
        let inode ← orFs .ioError (allocInode p fs)
        let inode ← orErr .noSpace inode
        return (parentNum, parentInode, inode)

def create : CallM Word := do
  let (parentNum, parentInode, newNum) ← newEntry p fs parentIno name .notSupported
  orFs .ioError (writeInode p fs newNum (.new (sIfReg ||| 0o644) 0 1 0 fun _ => 0))
  orFs .ioError (addDirEntry p fs parentInode parentNum (ofNat 32 newNum) name ftRegFile)
  return ofNat 64 newNum

def fastSymlinkMax : Nat := directBlocks * 4

/-- The first block of a directory: `.` and `..`, in a block of 1024 bytes. -/
def dotBlock (self parent : BitVec 32) : Option (List Byte) := do
  let data ← writeRecord (zeros stdBlockSize) 0 self (ofNat 16 (recSize 1)) [0x2e] ftDir
  writeRecord data (recSize 1) parent (ofNat 16 (stdBlockSize - recSize 1)) [0x2e, 0x2e] ftDir

def mkdir : CallM Word := do
  let (parentNum, parentInode, newNum) ← newEntry p fs parentIno name .notADirectory
  let dirBlock ← orFs .ioError (allocBlock p fs)
  let dirBlock ← orErr .noSpace dirBlock
  let pointers : Fin 15 → BitVec 32 := fun i => if i = 0 then ofNat 32 dirBlock else 0
  orFs .ioError (writeInode p fs newNum (.new (sIfDir ||| 0o755) (ofNat 32 stdBlockSize) 2
    (ofNat 32 sectorsPerBlock) pointers))
  let blockData ← orPanic (dotBlock (ofNat 32 newNum) (ofNat 32 parentNum))
  orFs .ioError (fs.writeBlock dirBlock blockData)
  let nlink ← orPanic (p.fit 16 (parentInode.nlink.toNat + 1))
  orFs .ioError (writeInode p fs parentNum { parentInode with nlink := ofNat 16 nlink })
  let parentInode ← orFs .ioError (readInode p fs parentNum)
  orFs .ioError (addDirEntry p fs parentInode parentNum (ofNat 32 newNum) name ftDir)
  return ofNat 64 newNum

/-! ## Removing entries -/

/-- Give back the blocks of an inode and the inode. -/
def release (inodeNum : Nat) (inode : Inode) : CallM Unit := do
  orFs .ioError (freeInodeBlocks p fs inode)
  orFs .ioError (fs.freeInode inodeNum)

def unlink : CallM Unit := do
  let parentNum ← inodeNumOf parentIno
  let parentInode ← orFs .notFound (readInode p fs parentNum)
  if !parentInode.isDir then failWith .notSupported
  else
    let found ← orFs .ioError (findEntry p fs parentInode name)
    let targetNum ← orErr .notFound found
    let _ ← orFs .ioError (removeDirEntryFromDisk p fs parentInode name)
    let targetInode ← orFs .ioError (readInode p fs targetNum)
    release p fs targetNum targetInode

/-- The name is `.` or `..`. -/
def isSpecial : Bool := name = [0x2e] || name = [0x2e, 0x2e]

def rmdir : CallM Unit := do
  let parentNum ← inodeNumOf parentIno
  let parentInode ← orFs .notFound (readInode p fs parentNum)
  if !parentInode.isDir then failWith .notADirectory
  else
    let found ← orFs .ioError (findEntry p fs parentInode name)
    let targetNum ← orErr .notFound found
    let targetInode ← orFs .ioError (readInode p fs targetNum)
    if !targetInode.isDir then failWith .notADirectory
    else
      let entries ← orFs .ioError (readDirEntries p fs targetInode)
      if !entries.all fun e => isSpecial e.name then failWith .ioError
      else
        let _ ← orFs .ioError (removeDirEntryFromDisk p fs parentInode name)
        release p fs targetNum targetInode
        let parentInode ← orFs .ioError (readInode p fs parentNum)
        orFs .ioError (writeInode p fs parentNum
          { parentInode with nlink := ofNat 16 (parentInode.nlink.toNat - 1) })

end

end

end OpenOS.Fs.Ext2.Ext2Fs
