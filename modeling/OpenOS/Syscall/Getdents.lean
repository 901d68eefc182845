/-
  Listing a directory with `sys_getdents64` (kernel/src/syscall/mod.rs), for any
  file systems behind the mount table.

  A call writes the records of the entries that fit.  No position is kept between
  calls, so each call starts at the first entry again: of a directory with
  entries no sequence of calls is a complete listing that ends.
-/

import OpenOS.Fs.Ramfs
import OpenOS.Syscall.File
import OpenOS.Task.Conservation

namespace OpenOS.Fs

open Base Option List FileKernel Ramfs

/-! ## Packing the records -/

/-- DIRENT_HEADER_SIZE, DIRENT_TYPE_DIR and DIRENT_TYPE_FILE. -/
def direntHeaderSize : Nat := 19
def direntTypeDir : Byte := 4
def direntTypeFile : Byte := 8

def direntType (e : DirEntry) : Byte := if e.isDir then direntTypeDir else direntTypeFile

/-- The length of the record of an entry, aligned up to 8 bytes. -/
def recordLen (e : DirEntry) : Nat := (direntHeaderSize + ((utf8Bytes e.name).length + 1) + 7) / 8 * 8

/-- `reclen`: the length cut to a `u16`. -/
def reclen (e : DirEntry) : Nat := recordLen e % 2 ^ 16

/-- `out[pos..pos + n].copy_from_slice(bytes)`, which panics out of range. -/
def copyAt (out : List Byte) (pos : Nat) (bytes : List Byte) : Option (List Byte) :=
  if pos + bytes.length ≤ out.length then
    some (out.take pos ++ bytes ++ out.drop (pos + bytes.length))
  else none

/-- The writes of one turn of the loop. -/
def putEntry (out : List Byte) (pos : Nat) (e : DirEntry) : Option (List Byte) :=
  let name := utf8Bytes e.name
  (copyAt out pos (Word.toLeBytes e.ino)).bind fun out =>
  (copyAt out (pos + 8) (leBytes 8 (pos + reclen e))).bind fun out =>
  (copyAt out (pos + 16) (leBytes 2 (reclen e))).bind fun out =>
  (copyAt out (pos + 18) [direntType e]).bind fun out =>
  (copyAt out (pos + direntHeaderSize) name).bind fun out =>
  copyAt out (pos + direntHeaderSize + name.length) [0]

/-- The loop over the entries: the buffer and the position reached. -/
def packLoop (bufLen : Nat) : List DirEntry → List Byte → Nat → Option (List Byte × Nat)
  | [], out, pos => some (out, pos)
  | e :: es, out, pos =>
    if bufLen < pos + reclen e then some (out, pos)
    else
      match putEntry out pos e with
      | none => none
      | some out' => packLoop bufLen es out' (pos + reclen e)

/-- What `sys_getdents64` does with the entries of the directory. -/
def listEntries (entries : List DirEntry) (ptr : Word) (len : Nat) : Option FileReply :=
  if entries = [] then some ⟨0, none⟩
  else
    match packLoop len entries (replicate len 0) 0 with
    | none => none
    | some (out, pos) =>
      if pos = 0 then some ⟨0, none⟩
      else
        match copyToUser ptr (out.take pos) with
        | none => some (.fail .badPointer)
        | some w => some ⟨pos, some w⟩

/-- `sys_getdents64`.  It changes nothing in the kernel. -/
def FileKernel.sysGetdents64 (ops : Nat → FileSystem F) (k : FileKernel F) (cpu : Cpu)
    (fd bufPtr bufLen : Word) : Option FileReply :=
  if fd = fdStdin ∨ fd = fdStdout then some (.fail .invalidArgument)
  else if bufPtr = 0 ∨ userSpaceMax ≤ bufPtr.toNat then some (.fail .badPointer)
  else if userSpaceMax < (saturatingAdd bufPtr bufLen).toNat then some (.fail .badPointer)
  else
    let len := min bufLen.toNat maxMsgSize
    if len < direntHeaderSize + 2 then some (.fail .invalidArgument)
    else
      match k.fdEntry cpu fd with
      | none => some (.fail .notFound)
      | some entry =>
        match resolveFs k.mounts entry.path with
        | none => none
        | some (n, _) =>
          match (ops n).fsReaddir (k.fs n) entry.ino with
          | .error _ => some (.fail .notFound)
          | .ok entries => listEntries entries bufPtr len

/-! ## Reading the records back -/

/-- What a program reads off one record. -/
structure Dirent where
  ino : Word
  type : Byte
  name : List Byte
deriving DecidableEq

def DirEntry.dirent (e : DirEntry) : Dirent := ⟨e.ino, direntType e, utf8Bytes e.name⟩

/-- The record at the start of the bytes, with the bytes after it. -/
def parseDirent (bytes : List Byte) : Option (Dirent × List Byte) :=
  let len := leNat ((bytes.drop 16).take 2)
  if len < direntHeaderSize ∨ bytes.length < len then none
  else
    some (⟨Word.fromLeBytes (bytes.take 8), (bytes.drop 18).headD 0,
      ((bytes.take len).drop direntHeaderSize).takeWhile (· ≠ 0)⟩, bytes.drop len)

/-- The records, by their lengths. -/
def parseDirents : Nat → List Byte → Option (List Dirent)
  | _, [] => some []
  | 0, _ :: _ => none
  | fuel + 1, b :: bs =>
    (parseDirent (b :: bs)).bind fun r => (parseDirents fuel r.2).map (r.1 :: ·)

/-! ## One call -/

theorem header_le_recordLen (e : DirEntry) :
    direntHeaderSize + ((utf8Bytes e.name).length + 1) ≤ recordLen e := by
  rw [recordLen]
  omega

theorem reclen_eq (h : recordLen e < 2 ^ 16) : reclen e = recordLen e := Nat.mod_eq_of_lt h

/-! ## Listing a directory -/

/-- The descriptor is of a directory with these entries. -/
def Lists (ops : Nat → FileSystem F) (k : FileKernel F) (cpu : Cpu) (fd : Word)
    (entries : List DirEntry) : Prop :=
  ∃ entry n rel, k.fdEntry cpu fd = some entry ∧ resolveFs k.mounts entry.path = some (n, rel) ∧
    (ops n).fsReaddir (k.fs n) entry.ino = .ok entries

/-- A buffer in user space with room for every record. -/
structure RoomFor (entries : List DirEntry) (ptr len : Word) : Prop where
  nonnull : ptr ≠ 0
  inUser : ptr.toNat + len.toNat ≤ userSpaceMax
  below : ptr.toNat < userSpaceMax
  room : ∀ e ∈ entries, recordLen e ≤ len.toNat

/-- The records a call returned, if it returned any. -/
def batch (reply : Option FileReply) : Option (List Dirent) :=
  reply.bind fun r =>
    if 0 < r.ret then r.write.bind fun w => parseDirents w.bytes.length w.bytes else none

/-- Calls in turn give the entries once each and in order, and then one returns 0. -/
def ListsAll (calls : Nat → Option FileReply) (entries : List DirEntry) : Prop :=
  ∃ batches : List (List Dirent),
    (∀ i < batches.length, batch (calls i) = batches[i]?) ∧
    batches.flatten = entries.map DirEntry.dirent ∧
    ∃ r, calls batches.length = some r ∧ r.ret = 0

theorem sysGetdents64_eq (hfd : fdFirstUsable ≤ fd.toNat)
    (hlists : Lists ops k cpu fd entries) (hbuf : RoomFor entries ptr len) :
    k.sysGetdents64 ops cpu fd ptr len =
      if min len.toNat maxMsgSize < direntHeaderSize + 2 then some (.fail .invalidArgument)
      else listEntries entries ptr (min len.toNat maxMsgSize) := by
  obtain ⟨entry, n, rel, hentry, hfs, hread⟩ := hlists
  have hstd : ¬ (fd = fdStdin ∨ fd = fdStdout) := by
    rintro (rfl | rfl)
    · exact absurd hfd (by decide)
    · exact absurd hfd (by decide)
  have hptr : ¬ (ptr = 0 ∨ userSpaceMax ≤ ptr.toNat) := by
    rintro (h | h)
    · exact hbuf.nonnull h
    · exact absurd hbuf.below (by omega)
  have hsum : ¬ userSpaceMax < (saturatingAdd ptr len).toNat := by
    have hle := hbuf.inUser
    rw [toNat_saturatingAdd]
    omega
  rw [sysGetdents64, if_neg hstd, if_neg hptr, if_neg hsum]
  simp [hentry, hfs, hread]

theorem le_of_packLoop (h : packLoop bufLen entries out pos = some (out', pos')) : pos ≤ pos' := by
  induction entries generalizing out pos with
  | nil =>
    cases h
    exact le_rfl
  | cons e es ih =>
    rw [packLoop] at h
    by_cases hfit : bufLen < pos + reclen e
    · rw [if_pos hfit] at h
      cases h
      exact le_rfl
    rw [if_neg hfit] at h
    cases hput : putEntry out pos e with
    | none =>
      rw [hput] at h
      cases h
    | some next =>
      rw [hput] at h
      exact le_trans (Nat.le_add_right _ _) (ih h)

theorem bind_copyAt_eq_none (h : ∀ out' : List Byte, out'.length = out.length → f out' = none) :
    (copyAt out pos bytes).bind f = none := by
  by_cases hfit : pos + bytes.length ≤ out.length
  · rw [copyAt, if_pos hfit]
    apply h
    simp only [length_append, length_take, length_drop]
    omega
  · rw [copyAt, if_neg hfit, bind_none]

/-- A name longer than the buffer is not copied: the slice panics. -/
theorem putEntry_eq_none
    (h : out.length < (utf8Bytes e.name).length) : putEntry out pos e = none := by
  apply bind_copyAt_eq_none
  intro out₁ h₁
  apply bind_copyAt_eq_none
  intro out₂ h₂
  apply bind_copyAt_eq_none
  intro out₃ h₃
  apply bind_copyAt_eq_none
  intro out₄ h₄
  have hname : ¬ pos + direntHeaderSize + (utf8Bytes e.name).length ≤ out₄.length := by omega
  rw [copyAt, if_neg hname, bind_none]

/-- With room for the first record a call does not return 0. -/
theorem listEntries_ne_zero (hroom : recordLen e ≤ len) (hsmall : recordLen e < 2 ^ 16)
    (h : listEntries (e :: es) ptr len = some r) : r.ret ≠ 0 := by
  have hle := header_le_recordLen e
  rw [listEntries] at h
  cases hpack : packLoop len (e :: es) (replicate len 0) 0 with
  | none =>
    rw [hpack] at h
    cases h
  | some packed =>
    -- the first record was written, so the position is past it
    have hpos : packed.2 ≠ 0 := by
      have hloop := hpack
      rw [packLoop, reclen_eq hsmall, if_neg (by omega)] at hloop
      cases hput : putEntry (replicate len 0) 0 e with
      | none =>
        rw [hput] at hloop
        cases hloop
      | some out =>
        rw [hput] at hloop
        have hforward := le_of_packLoop hloop
        omega
    grind [FileReply.fail, SysError.code]

/-- Without room for the first record a call returns no records. -/
theorem batch_listEntries_eq_none (hroom : len < recordLen e) (hlen : len ≤ maxMsgSize) :
    batch (listEntries (e :: es) ptr len) = none := by
  rw [maxMsgSize] at hlen
  rw [listEntries, packLoop]
  by_cases hfit : len < 0 + reclen e
  · rw [if_pos hfit]
    rfl
  -- the length was cut to 16 bits, so the name is longer than the buffer
  have hlong : (replicate len (0 : Byte)).length < (utf8Bytes e.name).length := by
    rw [length_replicate]
    rw [reclen] at hfit
    rw [recordLen, direntHeaderSize] at hfit hroom
    omega
  rw [if_neg hfit, putEntry_eq_none hlong]
  rfl

theorem batches_eq_nil {calls : Nat → Option FileReply}
    (h : ∀ i < batches.length, batch (calls i) = batches[i]?) (hfirst : batch (calls 0) = none) :
    batches = [] := by
  cases batches with
  | nil => rfl
  | cons b bs =>
    have hget := h 0 (Nat.zero_lt_succ _)
    rw [hfirst] at hget
    cases hget

theorem small_le_recordLen (e : DirEntry) : direntHeaderSize + 2 ≤ recordLen e := by
  rw [recordLen, direntHeaderSize]
  omega

/-- Successive calls list a directory that does not change exactly when it has no
    entries and the first buffer is not refused as too small. -/
theorem listsAll_iff_empty (ops : Nat → FileSystem F) (ks : Nat → FileKernel F) (cpus : Nat → Cpu)
    {fd : Word} (hfd : fdFirstUsable ≤ fd.toNat) {entries : List DirEntry}
    (hlists : ∀ i, Lists ops (ks i) (cpus i) fd entries) {ptr len : Nat → Word}
    (hbuf : ∀ i, RoomFor entries (ptr i) (len i)) :
    ListsAll (fun i => (ks i).sysGetdents64 ops (cpus i) fd (ptr i) (len i)) entries ↔
      entries = [] ∧ direntHeaderSize + 2 ≤ (len 0).toNat := by
  have hcall := fun i => sysGetdents64_eq hfd (hlists i) (hbuf i)
  have hmin : direntHeaderSize + 2 ≤ maxMsgSize := by decide
  constructor
  · rintro ⟨batches, hbatches, hflat, r, hlast, hzero⟩
    cases entries with
    | nil =>
      by_cases hsmall : min (len 0).toNat maxMsgSize < direntHeaderSize + 2
      · -- the first call is refused, which ends the listing without a 0
        have hrefused := hcall 0
        rw [if_pos hsmall] at hrefused
        have hnil := batches_eq_nil hbatches (by simp only [hrefused]; rfl)
        subst hnil
        cases hrefused.symm.trans hlast
        cases hzero
      · exact ⟨rfl, by omega⟩
    | cons e es =>
      have hroom := fun i => (hbuf i).room e mem_cons_self
      have hleast := small_le_recordLen e
      have hlist : ∀ i, (ks i).sysGetdents64 ops (cpus i) fd (ptr i) (len i) =
          listEntries (e :: es) (ptr i) (min (len i).toNat maxMsgSize) := by
        intro i
        rw [hcall i, if_neg (by have := hroom i; omega)]
      by_cases hfits : recordLen e ≤ maxMsgSize
      · -- every call starts again at the first entry, and none returns 0
        have hsmall : recordLen e < 2 ^ 16 := lt_of_le_of_lt hfits (by decide)
        have hreply := (hlist batches.length).symm.trans hlast
        exact absurd hzero (listEntries_ne_zero (le_min (hroom _) hfits) hsmall hreply)
      -- no call returns a record
      have hnil := batches_eq_nil hbatches (by
        simp only [hlist]
        exact batch_listEntries_eq_none (by omega) (Nat.min_le_right _ _))
      subst hnil
      cases hflat
  · rintro ⟨rfl, hlen⟩
    refine ⟨[], by simp, rfl, ⟨0, none⟩, ?_, rfl⟩
    refine (hcall 0).trans ?_
    rw [if_neg (by omega)]
    rfl

/-- A task with descriptor 2 open on the root directory of a `Ramfs` without
    files; opening it made the entry ".". -/
def rootOpen : FileKernel Ramfs where
  sched := { Scheduler.empty with
    currentTaskId := 2
    blocked := [{ Task.new 2 5 with
      fdTable := fun fd => if fd = 2 then some ⟨"/", 0, 0⟩ else none }] }
  mounts := [("/", 0)]
  fs := fun _ => Ramfs.new.setFile 0 { name := utf8Bytes ".", inUse := true, isDir := true }
  pipes := ⟨fun _ => .new, fun _ => 0, 0⟩

/-- What its root directory lists. -/
def rootEntries : List DirEntry := [⟨".", 0, true⟩, ⟨"..", 0, true⟩]

theorem lists_rootOpen : Lists (fun _ => vfs .dev) rootOpen bootCpu 2 rootEntries := by
  refine ⟨⟨"/", 0, 0⟩, 0, "", rfl, by decide +kernel, ?_⟩
  decide +kernel

theorem roomFor_rootEntries : RoomFor rootEntries 0x1000 64 := by
  refine ⟨by decide, by decide, by decide, ?_⟩
  decide +kernel

theorem listsAll_iff_empty_rootOpen :
    ListsAll (fun _ => rootOpen.sysGetdents64 (fun _ => vfs .dev) bootCpu 2 0x1000 64)
      rootEntries ↔ rootEntries = [] ∧ direntHeaderSize + 2 ≤ (64 : Word).toNat :=
  listsAll_iff_empty _ (fun _ => rootOpen) (fun _ => bootCpu) (by decide)
    (fun _ => lists_rootOpen) (fun _ => roomFor_rootEntries)

/-- Calls on the root directory return the same two records for ever. -/
theorem getdents_never_ends :
    Lists (fun _ => vfs .dev) rootOpen bootCpu 2 rootEntries ∧
      RoomFor rootEntries 0x1000 64 ∧
      batch (rootOpen.sysGetdents64 (fun _ => vfs .dev) bootCpu 2 0x1000 64) =
        some (rootEntries.map DirEntry.dirent) ∧
      ¬ ListsAll (fun _ =>
        rootOpen.sysGetdents64 (fun _ => vfs .dev) bootCpu 2 0x1000 64)
        rootEntries := by
  have hcall := sysGetdents64_eq (by decide) lists_rootOpen roomFor_rootEntries
  refine ⟨lists_rootOpen, roomFor_rootEntries, ?_, ?_⟩
  · rw [hcall]
    decide +kernel
  · rintro ⟨batches, -, -, r, hlast, hzero⟩
    have hreply := hcall.symm.trans hlast
    rw [if_neg (by decide)] at hreply
    exact listEntries_ne_zero (by decide +kernel) (by decide +kernel) hreply hzero

end OpenOS.Fs
