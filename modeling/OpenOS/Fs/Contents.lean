/-
  The regular files of a file system behind the trait `FileSystem`: what a write that
  succeeds, opening and closing do to their contents.

  `FileStore` states it of any file system.  It says nothing of a call that fails, which
  may have written a part.  `Ramfs.fileStore` proves it of the in-memory file system,
  `Ext2Fs.fileStore` (OpenOS.Fs.Ext2.Vfs) of ext2.
-/

import OpenOS.Fs.Ramfs

namespace OpenOS.Fs

open Function Base BitVec Option List Bool

/-- The regular files of a file system and their contents, in the states that are sound.
    Writes are described up to the `limit`, a file size. -/
structure FileStore (ops : FileSystem F) where
  Sound : F → Prop
  contents : F → Word → Option (List Byte)
  limit : Nat
  limit_lt : limit < 2 ^ 64
  read : ∀ {f ino c bytes} {offset : Word} {len : Nat}, Sound f → contents f ino = some c →
    ops.fsRead f ino offset len = some (.ok bytes) → bytes = (c.drop offset.toNat).take len
  stat : ∀ {f ino c info}, Sound f → contents f ino = some c → ops.fsStat f ino = .ok info →
    info.isFifo = false ∧ info.size.toNat = c.length
  write : ∀ {f ino c n f'} {offset : Word} {bytes : List Byte}, Sound f → contents f ino = some c →
    bytes ≠ [] → offset.toNat + bytes.length ≤ limit →
    ops.fsWrite f ino offset bytes = some (.ok n, f') →
    n = bytes.length ∧ Sound f' ∧
      contents f' = update (contents f) ino (some (put 0 c offset.toNat bytes))
  open_keeps : ∀ {f path flags ino f' ino' c}, Sound f →
    ops.fsOpen f path flags = some (.ok ino, f') → flags.contains OpenFlags.TRUNCATE = false →
    contents f ino' = some c → Sound f' ∧ contents f' ino' = some c
  close_keeps : ∀ f ino, (Sound f → Sound (ops.fsClose f ino)) ∧
    contents (ops.fsClose f ino) = contents f

/-! ## The in-memory file system -/

namespace Ramfs

/-- The contents of a slot that is a regular file. -/
def slotContents (f : FileEntry) : Option (List Byte) :=
  if f.inUse && !f.isDir && !f.isFifo && decide (f.data.length < 2 ^ 64) then some f.data else none

/-- The contents of a regular file, by its inode number. -/
def contents (fs : Ramfs) (ino : Word) : Option (List Byte) :=
  if ino = rootIno then none else (fs.slotOf ino).bind fun i => slotContents (fs.files i)

/-- What the inode number of a slot denotes. -/
theorem contents_inoOf (fs : Ramfs) (i : Fin 32) :
    fs.contents (inoOf i) = slotContents (fs.files i) := by
  rw [contents, if_neg (inoOf_ne_rootIno i)]
  by_cases huse : (fs.files i).inUse = true
  · rw [slotOf_inoOf huse, bind_some]
  · have hnone : slotContents (fs.files i) = none := by
      simp [slotContents, huse]
    rw [slotOf_inoOf_eq, if_neg huse, bind_none, hnone]

variable {fs : Ramfs}

/-- Contents are those of some slot. -/
theorem exists_slot (h : fs.contents ino = some c) :
    ∃ i, ino = inoOf i ∧ slotContents (fs.files i) = some c := by
  rw [contents, ite_none_left_eq_some] at h
  obtain ⟨hroot, h⟩ := h
  obtain ⟨i, hslot, hc⟩ := bind_eq_some_iff.mp h
  refine ⟨i, ?_, hc⟩
  have hpos : ino.toNat ≠ 0 := fun hz => hroot (eq_of_toNat_eq hz)
  rw [slotOf] at hslot
  split at hslot
  · obtain ⟨-, hi⟩ := ite_none_right_eq_some.mp hslot
    cases hi
    apply eq_of_toNat_eq
    rw [toNat_inoOf]
    show ino.toNat = ino.toNat - 1 + 1
    omega
  · cases hslot

theorem slotContents_eq_some :
    slotContents f = some c ↔ f.inUse = true ∧ f.isDir = false ∧ f.isFifo = false ∧
      f.data.length < 2 ^ 64 ∧ f.data = c := by
  rw [slotContents, ite_none_right_eq_some]
  simp only [and_eq_true, not_eq_true', decide_eq_true_eq, some.injEq]
  tauto

theorem inoOf_injective : Function.Injective inoOf := by
  intro i j h
  have hval := congrArg BitVec.toNat h
  rw [toNat_inoOf, toNat_inoOf] at hval
  exact Fin.ext (by omega)

/-- A slot written to, seen by the inode numbers. -/
theorem contents_setFile (fs : Ramfs) (i : Fin 32) (f : FileEntry) :
    (fs.setFile i f).contents = update fs.contents (inoOf i) (slotContents f) := by
  funext ino
  by_cases hslot : ∃ j, ino = inoOf j
  · obtain ⟨j, rfl⟩ := hslot
    rw [contents_inoOf]
    by_cases hj : j = i
    · subst hj
      rw [files_setFile_self, update_self]
    · rw [files_setFile_of_ne hj, update_of_ne fun h => hj (inoOf_injective h), contents_inoOf]
  · have hnone : ∀ fs' : Ramfs, fs'.contents ino = none := by
      intro fs'
      cases hc : fs'.contents ino with
      | none => rfl
      | some c =>
        obtain ⟨j, hj, -⟩ := exists_slot hc
        exact absurd ⟨j, hj⟩ hslot
    rw [hnone, update_of_ne fun h => hslot ⟨i, h⟩, hnone]

theorem not_inUse_of_findFreeSlot (h : fs.findFreeSlot = some slot) :
    (fs.files slot).inUse = false := by
  have hfree := find?_some h
  simpa using hfree

/-- To write a slot that is no file keeps every file. -/
theorem keeps_setFile (hnone : slotContents (fs.files i) = none) (h : fs.contents ino = some c) :
    (fs.setFile i f).contents ino = some c := by
  rw [contents_setFile, update_of_ne, h]
  rintro rfl
  rw [contents_inoOf, hnone] at h
  cases h

/-- So does making a file in it. -/
theorem keeps_initSlot (hinit : fs.initSlot slot name = some fs')
    (hnone : slotContents (fs.files slot) = none) (h : fs.contents ino = some c) :
    fs'.contents ino = some c := by
  rw [initSlot] at hinit
  split at hinit
  · cases hinit
    exact keeps_setFile hnone h
  · cases hinit

theorem isDir_of_getRootDirIdx (h : fs.getRootDirIdx = some i) : (fs.files i).isDir = true := by
  have hfound := find?_some h
  simp only [and_eq_true] at hfound
  exact hfound.1.2

/-- Without TRUNCATE an open keeps what every file holds. -/
theorem openPath_keeps (hopen : fs.openPath path flags = some (.ok ino, fs'))
    (htrunc : flags.contains OpenFlags.TRUNCATE = false) (h : fs.contents ino' = some c) :
    fs'.contents ino' = some c := by
  -- entries are made in a free slot, and added to a directory
  have hfree : ∀ slot, fs.findFreeSlot = some slot → slotContents (fs.files slot) = none :=
    fun slot hslot => by simp [slotContents, not_inUse_of_findFreeSlot hslot]
  have hdir : ∀ (fs : Ramfs) root, fs.getRootDirIdx = some root →
      slotContents (fs.files root) = none :=
    fun fs root hroot => by simp [slotContents, isDir_of_getRootDirIdx hroot]
  revert hopen
  fun_cases openPath fs path flags <;> grind [ensureRootDir, keeps_setFile, keeps_initSlot]

/-- A write that ends within the largest file. -/
theorem writeAt_of_le (p : Profile) (h : fs.contents ino = some c) (hne : bytes ≠ [])
    (hend : offset.toNat + bytes.length ≤ maxFileSize) :
    ∃ fs', writeAt p fs ino offset bytes = some (.ok bytes.length, fs') ∧
      fs'.contents = update fs.contents ino (some (put 0 c offset.toNat bytes)) := by
  obtain ⟨i, rfl, hslot⟩ := exists_slot h
  obtain ⟨huse, hdir, hfifo, hlen, rfl⟩ := slotContents_eq_some.mp hslot
  rw [maxFileSize] at hend
  have hbytes : (BitVec.ofNat 64 bytes.length).toNat = bytes.length := by
    rw [toNat_ofNat]
    omega
  have hsum : offset.toNat + (BitVec.ofNat 64 bytes.length).toNat < 2 ^ 64 := by omega
  have hstop : (offset + BitVec.ofNat 64 bytes.length).toNat = offset.toNat + bytes.length := by
    rw [toNat_add_of_lt hsum, hbytes]
  have hfits : ¬ maxFileSize < (offset + BitVec.ofNat 64 bytes.length).toNat := by
    rw [maxFileSize]
    omega
  have hforward : ¬ offset + BitVec.ofNat 64 bytes.length < offset := by
    rw [lt_def]
    omega
  refine ⟨fs.setFile i { fs.files i with
    data := overwrite 0 (fs.files i).data offset.toNat bytes }, ?_, ?_⟩
  · rw [writeAt, if_neg (inoOf_ne_rootIno i), slotOf_inoOf huse]
    simp only [p.add_eq_some_of_lt hsum, if_neg hfits, if_neg hforward]
  · rw [contents_setFile, put_of_ne_nil hne]
    congr 1
    refine slotContents_eq_some.mpr ⟨huse, hdir, hfifo, ?_, rfl⟩
    rw [length_overwrite]
    omega

/-- The regular files of the in-memory file system. -/
def fileStore (p : Profile) : FileStore (vfs p) where
  Sound := fun _ => True
  contents := contents
  limit := maxFileSize
  limit_lt := by decide
  read := by
    intro fs ino c bytes offset len _ h hread
    obtain ⟨i, rfl, hslot⟩ := exists_slot h
    obtain ⟨huse, hdir, hfifo, hlen, rfl⟩ := slotContents_eq_some.mp hslot
    rw [(hasContents p huse hdir hfifo hlen).read] at hread
    cases hread
    rfl
  stat := by
    intro fs ino c info _ h hstat
    obtain ⟨i, rfl, hslot⟩ := exists_slot h
    obtain ⟨huse, hdir, hfifo, hlen, rfl⟩ := slotContents_eq_some.mp hslot
    obtain ⟨info', hstat', -, hfifo', hsize⟩ := (hasContents p huse hdir hfifo hlen).stat
    cases hstat.symm.trans hstat'
    exact ⟨hfifo', hsize⟩
  write := by
    intro fs ino c n fs' offset bytes _ h hne hend hwrite
    obtain ⟨fs₁, hwrite₁, hcontents⟩ := writeAt_of_le p h hne hend
    cases hwrite.symm.trans hwrite₁
    exact ⟨rfl, trivial, hcontents⟩
  open_keeps := fun _ hopen htrunc h => ⟨trivial, openPath_keeps hopen htrunc h⟩
  close_keeps := fun _ _ => ⟨id, rfl⟩

end Ramfs

end OpenOS.Fs
