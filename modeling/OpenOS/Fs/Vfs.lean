/-
  The file system interface and the mount table (kernel/src/fs/vfs.rs).

  The trait `FileSystem` is a record of functions over the state `F` of a file
  system; its outer `none` is a panic.  The mount table finds the file system
  for a path by the longest mount point that is a textual prefix of it, and
  panics when there is none.
-/

import OpenOS.Base.Text

namespace OpenOS.Fs

open Base List

inductive FsError
  | notFound
  | alreadyExists
  | permissionDenied
  | noSpace
  | invalidName
  | fileTooLarge
  | badFileDescriptor
  | notSupported
  | ioError
  | notADirectory
  | tooManyLinks
  | invalidArgument
deriving DecidableEq

/-- Metadata of an inode, without link count and permission bits. -/
structure InodeMeta where
  ino : Word
  isDir : Bool
  isSymlink : Bool
  isFifo : Bool
  size : Word
deriving DecidableEq

/-- A directory entry, as `readdir` returns it. -/
structure DirEntry where
  name : String
  ino : Word
  isDir : Bool
deriving DecidableEq

abbrev OpenFlags := BitVec 32

namespace OpenFlags

def READ : OpenFlags := 1
def WRITE : OpenFlags := 2
def CREATE : OpenFlags := 4
def TRUNCATE : OpenFlags := 8

def contains (flags flag : OpenFlags) : Bool := flags &&& flag == flag

end OpenFlags

/-- The trait `FileSystem`, over the state of a file system.  A read gives the
    bytes it put into a buffer of the given length. -/
structure FileSystem (F : Type) where
  fsOpen : F → String → OpenFlags → Option (Except FsError Word × F)
  fsClose : F → Word → F
  fsRead : F → Word → Word → Nat → Option (Except FsError (List Byte))
  fsWrite : F → Word → Word → List Byte → Option (Except FsError Nat × F)
  fsStat : F → Word → Except FsError InodeMeta
  fsReaddir : F → Word → Except FsError (List DirEntry)
  fsUnlink : F → Word → String → Except FsError Unit × F
  /-- The pipe buffer of a FIFO, by reference. -/
  fsFifoBuffer : F → Word → Except FsError Nat

/-- The inode is a regular file with these contents: a read gives the bytes from the
    offset on that fit the buffer. -/
structure FileSystem.HasContents {F : Type} (ops : FileSystem F) (f : F) (ino : Word)
    (contents : List Byte) : Prop where
  stat : ∃ info, ops.fsStat f ino = .ok info ∧ info.isDir = false ∧ info.isFifo = false ∧
    info.size.toNat = contents.length
  read : ∀ (offset : Word) (len : Nat),
    ops.fsRead f ino offset len = some (.ok ((contents.drop offset.toNat).take len))

/-! ## Mount points -/

/-- A turn of the search of `resolve_fs`. -/
def longerMount (path : List Char) (best : Option (List Char × Nat)) (mp : String × Nat) :
    Option (List Char × Nat) :=
  if mp.1.toList.isPrefixOf path && (best.elim 0 fun b => b.1.length) < mp.1.toList.length then
    some (mp.1.toList, mp.2)
  else best

/-- `strip_prefix('/')`, or the text itself. -/
def stripSlash : List Char → List Char
  | '/' :: rest => rest
  | s => s

/-- `resolve_fs`: the file system of a path, by its number, and the path within
    it; `none` is the panic when no mount point matches. -/
def resolveFs (mounts : List (String × Nat)) (path : String) : Option (Nat × String) :=
  (mounts.foldl (longerMount path.toList) none).map fun best =>
    (best.2, String.ofList (stripSlash (path.toList.drop best.1.length)))

/-- `mount` takes absolute paths only. -/
def AbsoluteMounts (mounts : List (String × Nat)) : Prop :=
  ∀ mp ∈ mounts, mp.1.toList.head? = some '/'

/-- A path that does not start with a slash is on no mount point. -/
theorem resolveFs_of_relative (habs : AbsoluteMounts mounts) (h : path.toList.head? ≠ some '/') :
    resolveFs mounts path = none := by
  have hnone : mounts.foldl (longerMount path.toList) none = none := by
    induction mounts with
    | nil => rfl
    | cons mp rest ih =>
      have hmp : longerMount path.toList none mp = none := by
        rw [longerMount, if_neg]
        rw [Bool.and_eq_true, not_and]
        intro hpre
        obtain ⟨s, hs⟩ := isPrefixOf_iff_prefix.mp hpre
        have hhead := habs mp mem_cons_self
        cases hl : mp.1.toList with
        | nil =>
          rw [hl] at hhead
          cases hhead
        | cons c cs =>
          rw [hl] at hhead hs
          rw [← hs, ← hhead] at h
          exact absurd rfl h
      rw [foldl_cons, hmp]
      exact ih fun mp' h' => habs mp' (mem_cons_of_mem _ h')
  rw [resolveFs, hnone]
  rfl

end OpenOS.Fs
