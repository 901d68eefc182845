/-
  ext2 behind the trait `FileSystem` (kernel/src/fs/ext2.rs), and its regular files.

  `open` takes no notice of its flags: it neither creates nor truncates.  What a write
  does is known of a clean volume, where the write succeeds and ends within the largest
  size (`Clean.write_gives`).
-/

import OpenOS.Fs.Contents
import OpenOS.Fs.Ext2.ReadBack

namespace OpenOS.Fs.Ext2.Ext2Fs

open Function Base List Option Comp

/-- How a call ends; `none` is a panic. -/
def resultOf (x : CallM α) (d : Disk) : Option (Except FsError α × Disk) :=
  match x d with
  | .ok a d' => some (.ok a, d')
  | .error (.err e) d' => some (.error e, d')
  | .error .panic _ => none

/-- The value of a call that writes nothing. The trait has no panic here; on a volume with a
    sane geometry reading an inode or a directory does not panic. -/
def valueOf (x : CallM α) (d : Disk) : Except FsError α :=
  ((resultOf x d).map Prod.fst).getD (.error .ioError)

/-- `Ext2Fs`, a file system without FIFOs. -/
def vfs (p : Profile) (fs : Ext2Fs) : FileSystem Disk where
  fsOpen := fun d path _ => resultOf (openPath p fs path) d
  fsClose := fun d _ => d
  fsRead := fun d ino offset len => (resultOf (read p fs ino offset len) d).map Prod.fst
  fsWrite := fun d ino offset data => resultOf (write p fs ino offset data) d
  fsStat := fun d ino => valueOf (stat p fs ino) d
  fsReaddir := fun d ino => valueOf (readdir p fs ino) d
  fsUnlink := fun d parent name =>
    (resultOf (unlink p fs parent (utf8Bytes name)) d).getD (.error .ioError, d)
  fsFifoBuffer := fun _ _ => .error .notSupported

theorem ok_of_resultOf (h : resultOf x d = some (.ok a, d')) : x d = .ok a d' := by
  unfold resultOf at h
  split at h
  · cases h
    assumption
  · cases h
  · cases h

theorem ok_of_valueOf (h : valueOf x d = .ok a) : ∃ d', x d = .ok a d' := by
  unfold valueOf at h
  cases hx : resultOf x d with
  | none =>
    rw [hx] at h
    cases h
  | some out =>
    obtain ⟨r, d'⟩ := out
    rw [hx] at h
    obtain rfl : r = .ok a := h
    exact ⟨d', ok_of_resultOf hx⟩

variable {fs : Ext2Fs}

theorem Geometry.still_resolveFrom (h : fs.Geometry) (components : List (List Byte)) (n : Nat) :
    Still (resolveFrom p fs components n) := by
  induction components generalizing n with
  | nil => exact still_pure _
  | cons component components ih =>
    refine (still_of_reads fun d => h.readInode_reads n d).bind fun inode => ?_
    split
    · exact still_throw _
    refine (h.still_findEntry inode component).bind fun found => ?_
    cases found with
    | none => exact still_throw _
    | some next => exact ih next

theorem Geometry.still_openPath (h : fs.Geometry) (path : String) : Still (openPath p fs path) := by
  have hresolve : Still (resolvePath p fs path) := by
    unfold resolvePath
    split
    · exact still_pure _
    · exact h.still_resolveFrom _ _
  exact hresolve.mapErr.bind fun _ => still_pure _

/-- The size in the metadata of a file is that of its content. -/
theorem Clean.stat_gives (hl : fs.Layout M) (h : fs.Clean M (fs.view d))
    (hfile : fs.fileAt (fs.view d) ino.toNat = some content) :
    Gives (stat p fs ino) d fun info _ =>
      info.isFifo = false ∧ info.size.toNat = content.length := by
  obtain ⟨inode, howner, hreg, rfl⟩ := exists_owner_of_fileAt hfile
  refine gives_inodeNumOf_bind ?_
  refine (hl.readInode_reads _ d).gives_orFs_bind fun inode' hinode => .pure ⟨rfl, ?_⟩
  obtain rfl := some.inj (hinode.symm.trans (owners_eq_some.mp howner).2.1)
  have hsmall := h.small _ _ howner hreg
  rw [length_bytesUpTo, BitVec.toNat_ofNat]
  exact Nat.mod_eq_of_lt (lt_of_le_of_lt hsmall hl.maxSize_lt)

/-- The regular files of a volume. -/
def fileStore (p : Profile) (hl : fs.Layout M) : FileStore (vfs p fs) where
  Sound := fun d => fs.Clean M (fs.view d)
  contents := fun d ino => fs.fileAt (fs.view d) ino.toNat
  limit := fs.maxBlocks * fs.blockSize
  limit_lt := hl.maxSize_lt
  read := by
    intro d ino c bytes offset len h hfile hread
    obtain ⟨⟨r, d'⟩, hout, rfl⟩ := map_eq_some_iff.mp hread
    have hok := ok_of_resultOf hout
    rcases h.read_eq hl hfile with hread | ⟨-, hread⟩
    · cases hread.symm.trans hok
      rfl
    · cases hread.symm.trans hok
  stat := by
    intro d ino c info h hfile hstat
    obtain ⟨d', hok⟩ := ok_of_valueOf hstat
    exact h.stat_gives hl hfile info d' hok
  write := by
    intro d ino c n d' offset bytes h hfile _ hend hwrite
    obtain ⟨inode, howner, -⟩ := exists_owner_of_fileAt hfile
    obtain ⟨hn, hclean, hfiles⟩ := h.write_gives hl (owners_eq_some.mp howner).1 (.inr hend) n d'
      (ok_of_resultOf hwrite)
    refine ⟨hn, hclean, funext fun ino' => ?_⟩
    rw [hfiles, hfile, update_apply, update_apply, map_some]
    exact if_congr BitVec.toNat_inj rfl rfl
  open_keeps := by
    intro d path flags ino d' ino' c h hopen _ hfile
    have hsame := hl.still_openPath (p := p) path d
    rw [ok_of_resultOf hopen] at hsame
    cases hsame
    exact ⟨h, hfile⟩
  close_keeps := fun _ _ => ⟨id, rfl⟩

end OpenOS.Fs.Ext2.Ext2Fs
