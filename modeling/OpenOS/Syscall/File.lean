/-
  The file system calls on descriptors (kernel/src/syscall/mod.rs): open, read,
  write, close, seek, dup2 and pipe, over any file systems behind the mount table.

  A descriptor of a pipe or a FIFO has a path such as "<pipe:r>" and a handle in
  place of the inode number.  Reading and writing look for these paths; closing
  and seeking do not, and panic when the path is on no mount point.
-/

import OpenOS.Fs.Vfs
import OpenOS.Ipc.Pipe
import OpenOS.Syscall.Channel

namespace OpenOS.Fs

open Function Base Option List BitVec Bool Word
open BitVec (ofNat)

/-- What the file system calls work on; `fs` holds the state of each mounted
    file system by its number. -/
structure FileKernel (F : Type) where
  sched : Scheduler
  mounts : List (String × Nat)
  fs : Nat → F
  pipes : Pipes

/-- The value returned by a system call, with the user memory it wrote. -/
structure FileReply where
  ret : Int
  write : Option UserWrite
deriving DecidableEq

/-- A call that returns an error. -/
def FileReply.fail (e : SysError) : FileReply := ⟨e.code, none⟩

/-- How a call ends; `none` is a panic. -/
abbrev Outcome (F : Type) := Option (FileReply × FileKernel F)

theorem copyToUser_of_fits (hnull : ptr ≠ 0) (hne : bytes ≠ [])
    (hlen : bytes.length ≤ maxMsgSize) (hin : ptr.toNat + bytes.length ≤ userSpaceMax) :
    copyToUser ptr bytes = some ⟨ptr, bytes⟩ := by
  have hpos := List.length_pos_iff.mpr hne
  have hok : userRangeOk ptr bytes.length = true := by
    simp only [userRangeOk, ne_eq, hnull, not_false_eq_true, decide_true, Bool.true_and,
      Bool.and_eq_true, decide_eq_true_eq]
    omega
  rw [copyToUser, if_pos hok]

theorem copyToUser_nil (ptr : Word) : copyToUser ptr [] = none := by
  simp [copyToUser, userRangeOk]

/-- `as i64` -/
def asI64 (w : Word) : Int := w.toInt

namespace FileKernel

/-- FD_STDIN, FD_STDOUT, FD_FIRST_USABLE and FD_LIMIT. -/
def fdStdin : Word := 0
def fdStdout : Word := 1
def fdFirstUsable : Nat := 2
def fdLimit : Nat := 1024

def setFs (k : FileKernel F) (n : Nat) (f : F) : FileKernel F := { k with fs := update k.fs n f }

/-- The entry of a descriptor of the current task. -/
def fdEntry (k : FileKernel F) (cpu : Cpu) (fd : Word) : Option FdEntry :=
  (k.sched.withCurrentTask cpu).bind fun task => task.fdTable fd

/-- The descriptor table of the current task with one entry changed, if it is there. -/
def updateFd (fd : Word) (f : FdEntry → FdEntry) (task : Task) : Unit × Task :=
  ((), { task with fdTable := update task.fdTable fd ((task.fdTable fd).map f) })

/-- Set the offset of a descriptor of the current task. -/
def setOffset (k : FileKernel F) (cpu : Cpu) (fd offset : Word) : FileKernel F :=
  match k.sched.withCurrentTaskMut cpu (updateFd fd fun e => { e with offset := offset }) with
  | none => k
  | some (_, s) => { k with sched := s }

/-- The search for a free descriptor, from `fd` on. -/
def freeFd (table : Word → Option FdEntry) : Nat → Nat → Option Nat
  | 0, _ => none
  | fuel + 1, fd =>
    if (table (ofNat 64 fd)).isSome then
      if fdLimit ≤ fd + 1 then none else freeFd table fuel (fd + 1)
    else some fd

/-- A path of a pipe or a FIFO. -/
def isPipePath (path : String) : Bool :=
  "<pipe:".toList.isPrefixOf path.toList || "<fifo:".toList.isPrefixOf path.toList

def resolvePath (k : FileKernel F) (cpu : Cpu) (path : String) : String :=
  if path.toList.head? = some '/' then path
  else
    let cwd := ((k.sched.withCurrentTask cpu).map Task.cwd).getD "/"
    if path = "" then cwd
    else if cwd.toList.getLast? = some '/' then cwd ++ path
    else cwd ++ "/" ++ path

theorem isPipePath_of_resolveFs {mounts : List (String × Nat)} (habs : AbsoluteMounts mounts)
    (h : resolveFs mounts path = some q) : isPipePath path = false := by
  have hslash : path.toList.head? = some '/' := by
    by_contra hne
    rw [resolveFs_of_relative habs hne] at h
    cases h
  have hno : ∀ t : List Char, t.head? = some '<' → t.isPrefixOf path.toList = false := by
    intro t ht
    by_contra hpre
    rw [not_eq_false] at hpre
    obtain ⟨s, hs⟩ := isPrefixOf_iff_prefix.mp hpre
    cases t with
    | nil => cases ht
    | cons b bs =>
      rw [← hs] at hslash
      cases ht
      cases hslash
  rw [isPipePath, hno _ rfl, hno _ rfl]
  rfl

theorem freeFd_spec (h : freeFd table fuel start = some fd) :
    table (ofNat 64 fd) = none ∧ (start ≤ fdLimit → start ≤ fd ∧ fd ≤ fdLimit) := by
  induction fuel generalizing start with
  | zero => cases h
  | succ fuel ih =>
    rw [freeFd] at h
    split at h
    · split at h
      · cases h
      · obtain ⟨hfree, hrest⟩ := ih h
        exact ⟨hfree, fun _ => by omega⟩
    · rename_i hfree
      cases h
      exact ⟨not_isSome_iff_eq_none.mp hfree, fun hstart => ⟨le_rfl, hstart⟩⟩

@[simp] theorem mounts_setOffset (k : FileKernel F) (cpu : Cpu) (fd offset : Word) :
    (k.setOffset cpu fd offset).mounts = k.mounts := by
  rw [setOffset]
  split <;> rfl

@[simp] theorem fs_setOffset (k : FileKernel F) (cpu : Cpu) (fd offset : Word) :
    (k.setOffset cpu fd offset).fs = k.fs := by
  rw [setOffset]
  split <;> rfl

theorem fdEntry_setOffset {k : FileKernel F}
    (h : k.fdEntry cpu fd = some entry) (offset : Word) :
    (k.setOffset cpu fd offset).fdEntry cpu fd = some { entry with offset := offset } := by
  obtain ⟨task, htask, hentry⟩ := bind_eq_some_iff.mp h
  obtain ⟨s, hmut, hupd⟩ := Scheduler.withCurrentTaskMut_of_current htask
    (updateFd fd fun e => { e with offset := offset }) fun _ => rfl
  have hset : k.setOffset cpu fd offset = { k with sched := s } := by
    rw [setOffset, hmut]
  rw [hset, fdEntry, hupd.after]
  simp [updateFd, hentry]

/-! ## Reading and writing -/

/-- A read from the pipe behind a handle. -/
def readPipe (k : FileKernel F) (cpu : Cpu) (handle : Handle) (bufPtr : Word) (len : Nat) :
    FileReply × FileKernel F :=
  match (k.sched.withCurrentTask cpu).bind fun task => task.handleTable.get handle with
  | some (.pipeReader pr) =>
    let (bytes, buf) := (k.pipes.bufferOf pr).read len
    let k' := { k with pipes := k.pipes.setBufferOf pr buf }
    if bytes = [] then (⟨0, none⟩, k')
    else
      -- the bytes are gone from the pipe also when the copy is refused
      match copyToUser bufPtr bytes with
      | none => (.fail .badPointer, k')
      | some w => (⟨bytes.length, some w⟩, k')
  | _ => (.fail .notFound, k)

section

variable (ops : Nat → FileSystem F) (p : Profile) (k : FileKernel F) (cpu : Cpu) (fd : Word)

def sysFsRead (bufPtr bufLen : Word) : Outcome F :=
  if fd = fdStdin ∨ fd = fdStdout then some (.fail .invalidArgument, k)
  else
    match k.fdEntry cpu fd with
    | none => some (.fail .notFound, k)
    | some entry =>
      let readLen := min bufLen.toNat maxMsgSize
      if isPipePath entry.path then
        some (k.readPipe cpu (Handle.fromRaw entry.ino) bufPtr readLen)
      else
        match resolveFs k.mounts entry.path with
        | none => none
        | some (n, _) =>
          match (ops n).fsRead (k.fs n) entry.ino entry.offset readLen with
          | none => none
          | some (.error _) => some (.fail .notFound, k)
          | some (.ok bytes) =>
            match copyToUser bufPtr bytes with
            | none => some (.fail .badPointer, k)
            | some w =>
              match p.add entry.offset (ofNat 64 bytes.length) with
              | none => none
              | some offset => some (⟨bytes.length, some w⟩, k.setOffset cpu fd offset)

/-- A write to the pipe behind a handle. -/
def writePipe (handle : Handle) (data : List Byte) : FileReply × FileKernel F :=
  match (k.sched.withCurrentTask cpu).bind fun task => task.handleTable.get handle with
  | some (.pipeWriter pw) =>
    match (k.pipes.bufferOf pw).write data with
    | (.error epipe, _) => (⟨epipe, none⟩, k)
    | (.ok n, buf) => (⟨n, none⟩, { k with pipes := k.pipes.setBufferOf pw buf })
  | _ => (.fail .notFound, k)

/-- `sys_fs_write`; what goes to the console is left out. -/
def sysFsWrite (mem : UserMem) (fd dataPtr dataLen : Word) : Outcome F :=
  if fd = fdStdout then
    match copyFromUser mem dataPtr dataLen with
    | none => some (.fail .badPointer, k)
    | some _ => some (⟨if dataLen.toNat < 2 ^ 63 then dataLen.toNat else -1, none⟩, k)
  else if fd = fdStdin then some (.fail .invalidArgument, k)
  else
    match copyFromUser mem dataPtr dataLen with
    | none => some (.fail .badPointer, k)
    | some data =>
      match k.fdEntry cpu fd with
      | none => some (.fail .notFound, k)
      | some entry =>
        if isPipePath entry.path then
          some (k.writePipe cpu (Handle.fromRaw entry.ino) data)
        else
          match resolveFs k.mounts entry.path with
          | none => none
          | some (n, _) =>
            match (ops n).fsWrite (k.fs n) entry.ino entry.offset data with
            | none => none
            | some (.error _, f) => some (.fail .invalidArgument, k.setFs n f)
            | some (.ok written, f) =>
              match p.add entry.offset (ofNat 64 written) with
              | none => none
              | some offset => some (⟨written, none⟩, (k.setFs n f).setOffset cpu fd offset)

/-! ## Closing and seeking -/

/-- The removal of a descriptor. -/
def removeFd (task : Task) : Option FdEntry × Task :=
  (task.fdTable fd, { task with fdTable := update task.fdTable fd none })

/-- `sys_fs_close`; the handle of a pipe or FIFO stays in the table. -/
def sysFsClose : Outcome F :=
  if fd.toNat < fdFirstUsable then some (.fail .invalidArgument, k)
  else
    match k.sched.withCurrentTaskMut cpu (removeFd fd) with
    | none => some (.fail .notFound, k)
    | some (none, s) => some (.fail .notFound, { k with sched := s })
    | some (some entry, s) =>
      match resolveFs k.mounts entry.path with
      | none => none
      | some (n, _) =>
        some (⟨0, none⟩, { k with sched := s }.setFs n ((ops n).fsClose (k.fs n) entry.ino))

/-- `(-offset) as usize` of a negative offset; its negation may overflow. -/
def absOffset : Profile → Word → Option Word
  | .dev, offset => if offset = intMin 64 then none else some (-offset)
  | .release, offset => some (-offset)

/-- The new offset of a seek, or the error: SEEK_SET is 0, SEEK_CUR 1, SEEK_END 2. -/
def seekTarget (current fileLen offset whence : Word) : Option (Except SysError Word) :=
  if whence = 0 then
    some (if asI64 offset < 0 then .error .invalidArgument else .ok offset)
  else if whence = 1 then
    if 0 ≤ asI64 offset then some (.ok (saturatingAdd current offset))
    else (absOffset p offset).map fun abs => .ok (saturatingSub current abs)
  else if whence = 2 then
    if 0 ≤ asI64 offset then some (.ok fileLen)
    else (absOffset p offset).map fun abs => .ok (saturatingSub fileLen abs)
  else some (.error .invalidArgument)

def sysFsSeek (offset whence : Word) : Outcome F :=
  if fd = fdStdin ∨ fd = fdStdout then some (.fail .invalidArgument, k)
  else
    match k.fdEntry cpu fd with
    | none => some (.fail .notFound, k)
    | some entry =>
      match resolveFs k.mounts entry.path with
      | none => none
      | some (n, _) =>
        match (ops n).fsStat (k.fs n) entry.ino with
        | .error _ => some (.fail .notFound, k)
        | .ok info =>
          match seekTarget p entry.offset info.size offset whence with
          | none => none
          | some (.error e) => some (.fail e, k)
          | some (.ok target) => some (⟨asI64 target, none⟩, k.setOffset cpu fd target)

/-! ## Opening -/

/-- The task with a descriptor added. -/
def putFd (task : Task) (fd : Nat) (entry : FdEntry) : Task :=
  { task with fdTable := update task.fdTable (ofNat 64 fd) (some entry) }

/-- The first free descriptor of a task. -/
def firstFreeFd (task : Task) : Option Nat := freeFd task.fdTable fdLimit fdFirstUsable

/-- The descriptor of a regular file or a directory: its number, or `none` when
    there is no free one. -/
def openFile (path : String) (ino : Word) (task : Task) : Option Nat × Task :=
  match firstFreeFd task with
  | none => (none, task)
  | some fd => (some fd, putFd task fd ⟨path, ino, 0⟩)

/-- The descriptor of a FIFO, with handles on new ends `pr` and `pw` of its buffer: one
    for the reader, and none for the writer beside it. The outer `none` is a panic. -/
def openFifo (path : String) (flags : OpenFlags) (pr pw : Ref) (task : Task) :
    Option (Option Nat) × Task :=
  match firstFreeFd task with
  | none => (some none, task)
  | some fd =>
    let fifoPath := "<fifo:" ++ path ++ ">"
    if flags.contains OpenFlags.READ then
      match task.handleTable.insert p (.pipeReader pr) Rights.read with
      | none => (none, task)
      | some (reader, table) =>
        let entry : FdEntry := ⟨fifoPath, reader.asU64, 0⟩
        if flags.contains OpenFlags.WRITE then
          match table.insert p (.pipeWriter pw) Rights.write with
          | none => (none, task)
          | some (_, table') => (some (some fd), putFd { task with handleTable := table' } fd entry)
        else (some (some fd), putFd { task with handleTable := table } fd entry)
    else if flags.contains OpenFlags.WRITE then
      match task.handleTable.insert p (.pipeWriter pw) Rights.write with
      | none => (none, task)
      | some (writer, table) =>
        (some (some fd), putFd { task with handleTable := table } fd ⟨fifoPath, writer.asU64, 0⟩)
    else (some none, task)

/-- The answer of `sys_fs_open` for a descriptor. -/
def fdReply : Option Nat → FileReply
  | none => .fail .outOfMemory
  | some fd => ⟨fd, none⟩

/-- The flags `sys_fs_open` passes on: READ, or READ | WRITE | CREATE. -/
def openFlags (flags : Word) : OpenFlags := if flags = 0 then OpenFlags.READ else 0x7

/-- `sys_fs_open` on an inode that is a FIFO. -/
def openFifoAt (path : String) (n : Nat) (ino : Word) (flags : OpenFlags) : Outcome F :=
  let k := k.setFs n ((ops n).fsClose (k.fs n) ino)
  match (ops n).fsFifoBuffer (k.fs n) ino with
  | .error _ => some (.fail .notSupported, k)
  | .ok buf =>
    -- the numbers of the ends; one that is not made is referred to nowhere
    let (pr, pipes) := k.pipes.newEnd buf
    let (pw, pipes) := pipes.newEnd buf
    match k.sched.withCurrentTaskMut cpu (openFifo p path flags pr pw) with
    | none => some (.fail .notFound, k)
    | some (none, _) => none
    | some (some none, s) => some (fdReply none, { k with sched := s })
    | some (some (some fd), s) => some (fdReply (some fd), { k with sched := s, pipes := pipes })

/-- `sys_fs_open` on a path in kernel memory. -/
def openPath (filename : String) (flags : Word) : Outcome F :=
  let path := k.resolvePath cpu filename
  match resolveFs k.mounts path with
  | none => none
  | some (n, rel) =>
    match (ops n).fsOpen (k.fs n) rel (openFlags flags) with
    | none => none
    | some (.error _, f) => some (.fail .notFound, k.setFs n f)
    | some (.ok ino, f) =>
      let k := k.setFs n f
      match (ops n).fsStat f ino with
      | .ok ⟨_, _, _, true, _⟩ => openFifoAt ops p k cpu path n ino (openFlags flags)
      | _ =>
        match k.sched.withCurrentTaskMut cpu (openFile path ino) with
        | none => some (.fail .notFound, k)
        | some (fd, s) => some (fdReply fd, { k with sched := s })

def sysFsOpen (mem : UserMem) (namePtr nameLen flags : Word) : Outcome F :=
  if 1 < flags.toNat then some (.fail .invalidArgument, k)
  else
    match copyFromUser mem namePtr nameLen with
    | none => some (.fail .badPointer, k)
    | some bytes =>
      match fromUtf8 bytes with
      | none => some (.fail .invalidArgument, k)
      | some filename => k.openPath ops p cpu filename flags

/-! ## Pipes and copies of descriptors -/

/-- The handles and descriptors of a new pipe with the ends `pr` and `pw`. The handles,
    made first, and the first descriptor stay when none is free. The outer `none` is a
    panic. -/
def openPipe (pr pw : Ref) (task : Task) : Option (Option (Nat × Nat)) × Task :=
  match task.handleTable.insert p (.pipeReader pr) Rights.read with
  | none => (none, task)
  | some (reader, table) =>
    match table.insert p (.pipeWriter pw) Rights.write with
    | none => (none, task)
    | some (writer, table') =>
      let task := { task with handleTable := table' }
      match firstFreeFd task with
      | none => (some none, task)
      | some readFd =>
        let task := putFd task readFd ⟨"<pipe:r>", reader.asU64, 0⟩
        match freeFd task.fdTable fdLimit (readFd + 1) with
        | none => (some none, task)
        | some writeFd =>
          (some (some (readFd, writeFd)), putFd task writeFd ⟨"<pipe:w>", writer.asU64, 0⟩)

def sysPipe (fdsPtr : Word) : Outcome F :=
  if fdsPtr = 0 ∨ userSpaceMax ≤ fdsPtr.toNat then some (.fail .badPointer, k)
  else if userSpaceMax < min (fdsPtr.toNat + 16) (2 ^ 64 - 1) then some (.fail .badPointer, k)
  else
    let (buf, pipes) := k.pipes.newBuffer
    let (pr, pipes) := pipes.newEnd buf
    let (pw, pipes) := pipes.newEnd buf
    match k.sched.withCurrentTaskMut cpu (openPipe p pr pw) with
    | none => some (.fail .notFound, k)
    | some (none, _) => none
    | some (some none, s) => some (.fail .outOfMemory, { k with sched := s, pipes := pipes })
    | some (some (some (readFd, writeFd)), s) =>
      let k' := { k with sched := s, pipes := pipes }
      match copyToUser fdsPtr
          (Word.toLeBytes (ofNat 64 readFd) ++ Word.toLeBytes (ofNat 64 writeFd)) with
      | none => some (.fail .badPointer, k')
      | some w => some (⟨0, some w⟩, k')

/-- The copy of a descriptor; what the new one was is not closed. -/
def copyFd (oldFd newFd : Word) (task : Task) : Option Word × Task :=
  match task.fdTable oldFd with
  | none => (none, task)
  | some entry =>
    (some newFd, { task with fdTable := update task.fdTable newFd (some entry) })

def sysDup2 (oldFd newFd : Word) : FileReply × FileKernel F :=
  if oldFd = newFd then
    if oldFd.toNat < fdFirstUsable then (.fail .invalidArgument, k)
    else if (k.fdEntry cpu oldFd).isSome then (⟨asI64 newFd, none⟩, k)
    else (.fail .notFound, k)
  else if oldFd.toNat < fdFirstUsable ∨ newFd.toNat < fdFirstUsable then
    (.fail .invalidArgument, k)
  else if fdLimit ≤ oldFd.toNat ∨ fdLimit ≤ newFd.toNat then (.fail .invalidArgument, k)
  else
    match k.sched.withCurrentTaskMut cpu (copyFd oldFd newFd) with
    | some (some fd, s) => (⟨asI64 fd, none⟩, { k with sched := s })
    | some (none, s) => (.fail .notFound, { k with sched := s })
    | none => (.fail .notFound, k)

/-! ## Gathered writes -/

/-- MAX_IOV_COUNT and IOVEC_SIZE. -/
def maxIovCount : Nat := 1024
def iovecSize : Nat := 16

/-- The word in user memory at an address. -/
def wordAt (mem : UserMem) (ptr : Word) : Word :=
  Word.fromLeBytes ((List.range 8).map fun i => mem (ptr + ofNat 64 i))

/-- The vector of buffers in user memory: base and length of each. -/
def iovecs (mem : UserMem) (iovPtr : Word) (count : Nat) : List (Word × Word) :=
  (range count).map fun i =>
    (wordAt mem (iovPtr + ofNat 64 (i * iovecSize)),
      wordAt mem (iovPtr + ofNat 64 (i * iovecSize + 8)))

/-- How a gathered write ends: an error when nothing was written before. -/
def stopAt (total : Nat) (e : SysError) : Int := if total = 0 then e.code else total

/-- The loop of `sys_writev` over the buffers, for the console. -/
def writevConsole (mem : UserMem) : Nat → List (Word × Word) → Int
  | total, [] => total
  | total, (base, len) :: rest =>
    if len = 0 then writevConsole mem total rest
    else
      match copyFromUser mem base len with
      | none => stopAt total .badPointer
      | some data => writevConsole mem (total + data.length) rest

/-- The loop of `sys_writev` over the buffers, for a pipe. -/
def writevPipe (cpu : Cpu) (mem : UserMem) (handle : Handle) :
    FileKernel F → Nat → List (Word × Word) → Int × FileKernel F
  | k, total, [] => (total, k)
  | k, total, (base, len) :: rest =>
    if len = 0 then writevPipe cpu mem handle k total rest
    else
      match copyFromUser mem base len with
      | none => (stopAt total .badPointer, k)
      | some data =>
        match (k.sched.withCurrentTask cpu).bind fun task => task.handleTable.get handle with
        | some (.pipeWriter pw) =>
          match (k.pipes.bufferOf pw).write data with
          | (.error _, _) => (stopAt total .channelClosed, k)
          | (.ok n, buf) =>
            let k' := { k with pipes := k.pipes.setBufferOf pw buf }
            if n < data.length then ((total + n : Nat), k')
            else writevPipe cpu mem handle k' (total + n) rest
        | _ => (SysError.notFound.code, k)

/-- The loop of `sys_writev` over the buffers, for a file: the file system after
    it, with the offset and the number of bytes, or the error returned before the
    offset is stored. -/
def writevFile (ops : FileSystem F) (p : Profile) (mem : UserMem) (ino : Word) :
    F → Word → Nat → List (Word × Word) → Option (Except SysError (Word × Nat) × F)
  | f, offset, total, [] => some (.ok (offset, total), f)
  | f, offset, total, (base, len) :: rest =>
    if len = 0 then writevFile ops p mem ino f offset total rest
    else
      match copyFromUser mem base len with
      | none => some (if total = 0 then .error .badPointer else .ok (offset, total), f)
      | some data =>
        match ops.fsWrite f ino offset data with
        | none => none
        | some (.error _, f') =>
          some (if total = 0 then .error .invalidArgument else .ok (offset, total), f')
        | some (.ok n, f') =>
          match p.add offset (ofNat 64 n) with
          | none => none
          | some offset' =>
            if n < data.length then some (.ok (offset', total + n), f')
            else writevFile ops p mem ino f' offset' (total + n) rest

def sysWritev (mem : UserMem) (fd iovPtr iovCount : Word) : Outcome F :=
  if fd = fdStdin then some (.fail .invalidArgument, k)
  else if iovCount = 0 then some (⟨0, none⟩, k)
  else if maxIovCount < iovCount.toNat then some (.fail .invalidArgument, k)
  else if iovPtr = 0 ∨ userSpaceMax ≤ iovPtr.toNat then some (.fail .badPointer, k)
  else if userSpaceMax < (saturatingAdd iovPtr (iovCount * ofNat 64 iovecSize)).toNat then
    some (.fail .badPointer, k)
  else
    let iovs := iovecs mem iovPtr iovCount.toNat
    if fd = fdStdout then some (⟨writevConsole mem 0 iovs, none⟩, k)
    else
      match k.fdEntry cpu fd with
      | none => some (.fail .notFound, k)
      | some entry =>
        if isPipePath entry.path then
          let (ret, k') := writevPipe cpu mem (Handle.fromRaw entry.ino) k 0 iovs
          some (⟨ret, none⟩, k')
        else
          match resolveFs k.mounts entry.path with
          | none => none
          | some (n, _) =>
            match writevFile (ops n) p mem entry.ino (k.fs n) entry.offset 0 iovs with
            | none => none
            | some (.error e, f) => some (.fail e, k.setFs n f)
            | some (.ok (offset, total), f) =>
              some (⟨total, none⟩, (k.setFs n f).setOffset cpu fd offset)

end

end FileKernel

end OpenOS.Fs
