/-
  The in-memory file system (kernel/src/fs/ramfs.rs): 32 slots in a flat
  namespace, files of at most 2048 bytes, inode number slot + 1, and a root
  directory with inode 0 whose entry "." is made on first use.

  A slot in use that is not a directory is a regular file with its data as the
  contents (`hasContents`).
-/

import OpenOS.Base.Overwrite
import OpenOS.Fs.Vfs
import Mathlib.Data.List.FinRange
import Mathlib.Logic.Function.Basic

namespace OpenOS.Fs

open Base BitVec Function

/-- A slot of the table; `name` is the array without its zero padding.  The mode
    bits and the FIFO buffer, which is never set, are left out. -/
structure FileEntry where
  name : List Byte := []
  data : List Byte := []
  inUse : Bool := false
  symlinkTarget : Option String := none
  isDir : Bool := false
  isFifo : Bool := false
  children : List (List Byte × Fin 32) := []

/-- `RamFs` -/
structure Ramfs where
  files : Fin 32 → FileEntry

namespace Ramfs

/-- MAX_NAME_LEN, MAX_FILE_SIZE. -/
def maxNameLen : Nat := 64
def maxFileSize : Nat := 2048

def new : Ramfs := ⟨fun _ => {}⟩

/-- The name in a fixed array, up to the first zero byte. -/
def nameOf (bytes : List Byte) : Option String := fromUtf8 (bytes.takeWhile (· ≠ 0))

/-- The slots in order. -/
def slots : List (Fin 32) := List.finRange 32

def findFile (fs : Ramfs) (name : String) : Option (Fin 32) :=
  slots.find? fun i => (fs.files i).inUse && nameOf (fs.files i).name = some name

def findFreeSlot (fs : Ramfs) : Option (Fin 32) := slots.find? fun i => !(fs.files i).inUse

def setFile (fs : Ramfs) (i : Fin 32) (f : FileEntry) : Ramfs := ⟨update fs.files i f⟩

def clearSlot (fs : Ramfs) (i : Fin 32) : Ramfs := fs.setFile i {}

/-- `init_slot`; the copy into the name array panics when the name is too long. -/
def initSlot (fs : Ramfs) (slot : Fin 32) (name : String) : Option Ramfs :=
  if (utf8Bytes name).length ≤ maxNameLen then
    some (fs.setFile slot { name := utf8Bytes name, inUse := true })
  else none

section

variable (fs : Ramfs) (dir : Fin 32) (name : String)

def findChild : Option (Fin 32) :=
  if (fs.files dir).isDir then
    ((fs.files dir).children.find? fun c => nameOf c.1 = some name).map Prod.snd
  else none

def getRootDirIdx : Option (Fin 32) :=
  slots.find? fun i =>
    (fs.files i).inUse && (fs.files i).isDir && nameOf (fs.files i).name = some "."

/-- `ensure_root_dir`; it panics when no slot is free. -/
def ensureRootDir : Option (Fin 32 × Ramfs) :=
  match fs.getRootDirIdx with
  | some i => some (i, fs)
  | none =>
    match fs.findFreeSlot with
    | none => none
    | some slot =>
      some (slot, fs.setFile slot { name := utf8Bytes ".", inUse := true, isDir := true })

/-- ROOT_INO and the inode number of a slot. -/
def rootIno : Word := 0
def inoOf (i : Fin 32) : Word := BitVec.ofNat 64 (i.val + 1)

/-- The slot of an inode number other than ROOT_INO, if it is in use. -/
def slotOf (ino : Word) : Option (Fin 32) :=
  if h : ino.toNat - 1 < 32 then
    if (fs.files ⟨ino.toNat - 1, h⟩).inUse then some ⟨ino.toNat - 1, h⟩ else none
  else none

/-- The directory with an inode number, for `unlink`. -/
def dirOf (ino : Word) : Option (Fin 32) := (fs.slotOf ino).filter fun i => (fs.files i).isDir

/-! ## The trait -/

/-- `open` -/
def openPath (path : String) (flags : OpenFlags) : Option (Except FsError Word × Ramfs) :=
  let name := String.ofList (path.toList.dropWhile (· = '/'))
  if name = "" then fs.ensureRootDir.map fun q => (.ok rootIno, q.2)
  else
    match fs.findFile name with
    | some i =>
      some (.ok (inoOf i),
        if flags.contains OpenFlags.TRUNCATE then fs.setFile i { fs.files i with data := [] }
        else fs)
    | none =>
      if flags.contains OpenFlags.CREATE then
        match fs.findFreeSlot with
        | none => some (.error .noSpace, fs)
        | some slot =>
          match fs.initSlot slot name with
          | none => none
          | some fs' =>
            -- it is listed in the root directory, if there is one already
            match fs'.getRootDirIdx with
            | none => some (.ok (inoOf slot), fs')
            | some root =>
              let dir := fs'.files root
              some (.ok (inoOf slot), fs'.setFile root
                  { dir with children := dir.children ++ [((fs'.files slot).name, slot)] })
      else some (.error .notFound, fs)

/-- `read` -/
def readAt (ino offset : Word) (len : Nat) : Except FsError (List Byte) :=
  if ino = rootIno then .error .notSupported
  else
    match fs.slotOf ino with
    | none => .error .notFound
    | some i => .ok (((fs.files i).data.drop offset.toNat).take len)

/-- `write`.  A sum that overflows panics, in a release build when the range is
    sliced, unless the wrapped end is refused before. -/
def writeAt (p : Profile) (fs : Ramfs) (ino offset : Word) (bytes : List Byte) :
    Option (Except FsError Nat × Ramfs) :=
  if ino = rootIno then some (.error .notSupported, fs)
  else
    match fs.slotOf ino with
    | none => some (.error .notFound, fs)
    | some i =>
      match p.add offset (BitVec.ofNat 64 bytes.length) with
      | none => none
      | some stop =>
        if maxFileSize < stop.toNat then some (.error .fileTooLarge, fs)
        else if stop < offset then none
        else
          let f := fs.files i
          some (.ok bytes.length, fs.setFile i { f with data := overwrite 0 f.data offset.toNat bytes })

def stat (ino : Word) : Except FsError InodeMeta :=
  if ino = rootIno then
    let children := fs.getRootDirIdx.elim 0 fun i => (fs.files i).children.length
    .ok ⟨rootIno, true, false, false, BitVec.ofNat 64 children⟩
  else
    match fs.slotOf ino with
    | none => .error .notFound
    | some i =>
      let f := fs.files i
      let size := if f.isDir then f.children.length else f.data.length
      .ok ⟨ino, f.isDir, f.symlinkTarget.isSome, f.isFifo, BitVec.ofNat 64 size⟩

/-- The entries of a directory's children that are in use. -/
def childEntries (dir : FileEntry) : List DirEntry :=
  dir.children.filterMap fun c =>
    (nameOf c.1).bind fun name =>
      if (fs.files c.2).inUse then some ⟨name, inoOf c.2, (fs.files c.2).isDir⟩ else none

def readdir (ino : Word) : Except FsError (List DirEntry) :=
  if ino = rootIno then
    .ok (⟨".", rootIno, true⟩ :: ⟨"..", rootIno, true⟩ ::
      match fs.getRootDirIdx with
      | some root => fs.childEntries (fs.files root)
      -- without a root entry: all files that are not directories
      | none => slots.filterMap fun i =>
        if (fs.files i).inUse && !(fs.files i).isDir then
          (nameOf (fs.files i).name).map fun name => ⟨name, inoOf i, false⟩
        else none)
  else
    match fs.dirOf ino with
    | none => .error .notFound
    | some i => .ok (⟨".", ino, true⟩ :: ⟨"..", ino, true⟩ :: fs.childEntries (fs.files i))

/-- `unlink` from a directory: the child is dropped from the list and cleared. -/
def unlinkChild : Except FsError Unit × Ramfs :=
  match fs.findChild dir name with
  | none => (.error .notFound, fs)
  | some child =>
    let d := fs.files dir
    let fs' := fs.setFile dir { d with children := d.children.filter fun c => c.2 ≠ child }
    (.ok (), fs'.clearSlot child)

/-- `unlink`; without a root entry the file is looked up in the flat table. -/
def unlink (parent : Word) (name : String) : Except FsError Unit × Ramfs :=
  if parent = rootIno then
    match fs.getRootDirIdx with
    | some root => fs.unlinkChild root name
    | none =>
      match fs.findFile name with
      | none => (.error .notFound, fs)
      | some i =>
        let f := fs.files i
        (.ok (), fs.setFile i
          { f with inUse := false, data := [], name := [], symlinkTarget := none })
  else
    match fs.dirOf parent with
    | none => (.error .notFound, fs)
    | some dir => fs.unlinkChild dir name

/-- Put a new entry into a free slot and into the children of a directory;
    `finish` sets what the kind of entry needs. -/
def addEntry (finish : FileEntry → FileEntry) : Option (Except FsError Word × Ramfs) :=
  match fs.findFreeSlot with
  | none => some (.error .noSpace, fs)
  | some slot =>
    match fs.initSlot slot name with
    | none => none
    | some fs' =>
      let fs' := fs'.setFile slot (finish (fs'.files slot))
      let d := fs'.files dir
      some (.ok (inoOf slot),
        fs'.setFile dir { d with children := d.children ++ [((fs'.files slot).name, slot)] })

/-- `addEntry` unless the directory has the name. -/
def addNew (finish : FileEntry → FileEntry) : Option (Except FsError Word × Ramfs) :=
  if (fs.findChild dir name).isSome then some (.error .alreadyExists, fs)
  else fs.addEntry dir name finish

/-- The name check of `create`, `symlink` and `mkdir`. -/
def nameRefused : Bool := name = "" || maxNameLen ≤ (utf8Bytes name).length

/-- `create` and `mkdir`, which differ in the entry and in the error for a parent
    that is no directory. -/
def make (parent : Word) (name : String) (noParent : FsError) (finish : FileEntry → FileEntry) :
    Option (Except FsError Word × Ramfs) :=
  if nameRefused name then some (.error .invalidName, fs)
  else if parent = rootIno then
    match fs.ensureRootDir with
    | none => none
    | some (root, fs') => fs'.addNew root name finish
  else
    match fs.dirOf parent with
    | none => some (.error noParent, fs)
    | some dir => fs.addNew dir name finish

def create (parent : Word) (name : String) : Option (Except FsError Word × Ramfs) :=
  fs.make parent name .notFound id

def mkdir (parent : Word) (name : String) : Option (Except FsError Word × Ramfs) :=
  fs.make parent name .notADirectory fun f => { f with isDir := true }

/-- `symlink`; in the root directory the whole table is searched for the name,
    before the root entry is made. -/
def symlink (parent : Word) (name target : String) : Option (Except FsError Word × Ramfs) :=
  if nameRefused name then some (.error .invalidName, fs)
  else if parent = rootIno then
    if (fs.findFile name).isSome then some (.error .alreadyExists, fs)
    else
      match fs.ensureRootDir with
      | none => none
      | some (root, fs') =>
        fs'.addEntry root name fun f => { f with symlinkTarget := some target }
  else
    match fs.dirOf parent with
    | none => some (.error .notFound, fs)
    | some dir => fs.addNew dir name fun f => { f with symlinkTarget := some target }

/-- `rmdir` from a directory. -/
def rmdirChild : Except FsError Unit × Ramfs :=
  match fs.findChild dir name with
  | none => (.error .notFound, fs)
  | some child =>
    if !(fs.files child).isDir then (.error .notADirectory, fs)
    else if !(fs.files child).children.isEmpty then (.error .ioError, fs)
    else fs.unlinkChild dir name

def rmdir (parent : Word) (name : String) : Except FsError Unit × Ramfs :=
  if parent = rootIno then
    match fs.getRootDirIdx with
    | none => (.error .notFound, fs)
    | some root => fs.rmdirChild root name
  else
    match fs.dirOf parent with
    | none => (.error .notADirectory, fs)
    | some dir => fs.rmdirChild dir name

/-- The legacy `create_file`, which sets name, data and `in_use` only. -/
def createFile (data : List Byte) : Except FsError Unit × Ramfs :=
  if nameRefused name then (.error .invalidName, fs)
  else if maxFileSize < data.length then (.error .fileTooLarge, fs)
  else if (fs.findFile name).isSome then (.error .alreadyExists, fs)
  else
    match fs.findFreeSlot with
    | none => (.error .noSpace, fs)
    | some slot =>
      (.ok (), fs.setFile slot
        { fs.files slot with name := utf8Bytes name, data := data, inUse := true })

/-- The legacy `delete_file`, which leaves the children lists alone. -/
def deleteFile : Except FsError Unit × Ramfs :=
  match fs.findFile name with
  | none => (.error .notFound, fs)
  | some i => (.ok (), fs.setFile i { fs.files i with inUse := false, data := [], name := [] })

end

/-- `RamFsVfs`.  It keeps no state of open files and has no FIFOs. -/
def vfs (p : Profile) : FileSystem Ramfs where
  fsOpen := openPath
  fsClose := fun fs _ => fs
  fsRead := fun fs ino offset len => some (fs.readAt ino offset len)
  fsWrite := writeAt p
  fsStat := stat
  fsReaddir := readdir
  fsUnlink := unlink
  fsFifoBuffer := fun _ _ => .error .notSupported

theorem files_setFile_self (fs : Ramfs) (i : Fin 32) (f : FileEntry) :
    (fs.setFile i f).files i = f := update_self ..

variable {fs : Ramfs}

theorem files_setFile_of_ne (h : j ≠ i) :
    (fs.setFile i f).files j = fs.files j := update_of_ne h ..

theorem toNat_inoOf (i : Fin 32) : (inoOf i).toNat = i.val + 1 := by
  rw [inoOf, toNat_ofNat, Nat.mod_eq_of_lt (by omega)]

theorem inoOf_ne_rootIno (i : Fin 32) : inoOf i ≠ rootIno := by
  intro h
  have hval := congrArg BitVec.toNat h
  rw [toNat_inoOf] at hval
  cases hval

theorem slotOf_inoOf_eq (fs : Ramfs) (i : Fin 32) :
    fs.slotOf (inoOf i) = if (fs.files i).inUse then some i else none := by
  have hval : (inoOf i).toNat - 1 = i.val := by
    rw [toNat_inoOf, Nat.add_sub_cancel]
  have hlt : (inoOf i).toNat - 1 < 32 := by omega
  have hi : (⟨(inoOf i).toNat - 1, hlt⟩ : Fin 32) = i := Fin.ext hval
  rw [slotOf, dif_pos hlt, hi]

theorem slotOf_inoOf (h : (fs.files i).inUse = true) : fs.slotOf (inoOf i) = some i := by
  rw [slotOf_inoOf_eq, if_pos h]

theorem hasContents (p : Profile) (huse : (fs.files i).inUse = true)
    (hdir : (fs.files i).isDir = false) (hfifo : (fs.files i).isFifo = false)
    (hlen : (fs.files i).data.length < 2 ^ 64) :
    (vfs p).HasContents fs (inoOf i) (fs.files i).data := by
  constructor
  · let f := fs.files i
    have hstat : (vfs p).fsStat fs (inoOf i) = .ok ⟨inoOf i, f.isDir, f.symlinkTarget.isSome,
        f.isFifo, BitVec.ofNat 64 f.data.length⟩ := by
      simp only [vfs, stat, if_neg (inoOf_ne_rootIno i), slotOf_inoOf huse, hdir, f]
      rfl
    refine ⟨_, hstat, hdir, hfifo, ?_⟩
    rw [BitVec.toNat_ofNat, Nat.mod_eq_of_lt hlen]
  · intro offset len
    simp [vfs, readAt, if_neg (inoOf_ne_rootIno i), slotOf_inoOf huse]

end Ramfs

end OpenOS.Fs
