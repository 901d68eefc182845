/-
  What the calls through a descriptor do to the file, and whether that is what the mode it
  was opened with allows: read-only for flags 0, from an empty file for flags 1.

  The descriptor does not record the mode, so a write through it, or through a copy that
  dup2 made, always reaches the file system; and flags 1 opens without TRUNCATE, so the
  old contents stand behind what is written.
-/

import OpenOS.Fs.Contents
import OpenOS.Syscall.File
import OpenOS.Task.Conservation

namespace OpenOS.Fs.OpenMode

open Base FileKernel List Option Scheduler Function
open BitVec (ofNat toNat_ofNat)

/-- A call of the current task. -/
inductive FileOp
  | fsOpen (mem : UserMem) (namePtr nameLen flags : Word)
  | fsRead (fd bufPtr bufLen : Word)
  | fsWrite (mem : UserMem) (fd dataPtr dataLen : Word)
  | writev (mem : UserMem) (fd iovPtr iovCount : Word)
  | fsSeek (fd offset whence : Word)
  | dup2 (oldFd newFd : Word)
  | fsClose (fd : Word)

/-- The system call; one that panics is no step of a run. -/
def fileStep (ops : Nat → FileSystem F) (p : Profile) (cpu : Cpu) :
    StepFn (FileKernel F) FileOp FileReply := fun k op =>
  match op with
  | .fsOpen mem namePtr nameLen flags => k.sysFsOpen ops p cpu mem namePtr nameLen flags
  | .fsRead fd bufPtr bufLen => k.sysFsRead ops p cpu fd bufPtr bufLen
  | .fsWrite mem fd dataPtr dataLen => k.sysFsWrite ops p cpu mem fd dataPtr dataLen
  | .writev mem fd iovPtr iovCount => k.sysWritev ops p cpu mem fd iovPtr iovCount
  | .fsSeek fd offset whence => k.sysFsSeek ops p cpu fd offset whence
  | .dup2 oldFd newFd => some (k.sysDup2 cpu oldFd newFd)
  | .fsClose fd => k.sysFsClose ops cpu fd

/-- A call of a run. -/
abbrev FileCall (F : Type) := Transition (FileKernel F) FileOp FileReply

/-- The descriptor a call is made through. -/
def FileOp.fd : FileOp → Option Word
  | .fsOpen .. => none
  | .fsRead fd .. | .fsWrite _ fd .. | .writev _ fd .. | .fsSeek fd .. | .dup2 fd _ | .fsClose fd =>
    some fd

/-- The call writes. -/
def FileOp.Writes : FileOp → Prop
  | .fsWrite .. | .writev .. => True
  | _ => False

/-! ## The data of a call -/

/-- The buffers of a vector, up to the first that cannot be copied. -/
def copied (mem : UserMem) : List (Word × Word) → List Byte
  | [] => []
  | (base, len) :: rest =>
    if len = 0 then copied mem rest
    else
      match copyFromUser mem base len with
      | none => []
      | some data => data ++ copied mem rest

/-- `sys_writev` does not look at the buffers: there are none, or the vector is refused. -/
def NoVector (iovPtr iovCount : Word) : Prop :=
  iovCount = 0 ∨ maxIovCount < iovCount.toNat ∨ (iovPtr = 0 ∨ userSpaceMax ≤ iovPtr.toNat) ∨
    userSpaceMax < (saturatingAdd iovPtr (iovCount * ofNat 64 iovecSize)).toNat
deriving Decidable

/-- The data a call hands over. -/
def FileOp.data : FileOp → List Byte
  | .fsWrite mem _ dataPtr dataLen => (copyFromUser mem dataPtr dataLen).getD []
  | .writev mem _ iovPtr iovCount =>
    if NoVector iovPtr iovCount then [] else copied mem (iovecs mem iovPtr iovCount.toNat)
  | _ => []

theorem toNat_add_ofNat {offset : Word} (h : offset.toNat + n < 2 ^ 64) :
    (offset + ofNat 64 n).toNat = offset.toNat + n := by
  have hn : (ofNat 64 n).toNat = n := by
    rw [toNat_ofNat]
    omega
  rw [BitVec.toNat_add_of_lt (by omega), hn]

section Puts

variable {ops : FileSystem F} (S : FileStore ops) (ino : Word)

/-- The data stands at the offset of the file, and nothing else has changed. -/
def Puts (f : F) (c : List Byte) (offset : Word) (data : List Byte) (f' : F) : Prop :=
  S.Sound f' ∧ S.contents f' = update (S.contents f) ino (some (put 0 c offset.toNat data))

variable {S ino}

theorem Puts.nil (hs : S.Sound f) (hc : S.contents f ino = some c) (offset : Word) :
    Puts S ino f c offset [] f :=
  ⟨hs, (update_eq_self_iff.mpr hc.symm).symm⟩

theorem Puts.append (h : Puts S ino f c offset first f₁)
    (hlt : offset.toNat + first.length < 2 ^ 64)
    (h' : Puts S ino f₁ (put 0 c offset.toNat first) (offset + ofNat 64 first.length) second f₂) :
    Puts S ino f c offset (first ++ second) f₂ := by
  refine ⟨h'.1, ?_⟩
  rw [h'.2, h.2, update_idem, toNat_add_ofNat hlt, put_put]

end Puts

/-! ## A descriptor of a file -/

section Step

variable {ops : Nat → FileSystem F} (S : ∀ n, FileStore (ops n)) (cpu : Cpu) (fd : Word) (n : Nat)
  (ino : Word)

/-- The descriptor is of the file `ino` of file system `n`, and is at this offset. -/
structure Refers (k : FileKernel F) (offset : Word) : Prop where
  usable : fdFirstUsable ≤ fd.toNat
  entry : ∃ path rel, k.fdEntry cpu fd = some ⟨path, ino, offset⟩ ∧
    isPipePath path = false ∧ resolveFs k.mounts path = some (n, rel)

/-- The descriptor is of a regular file, which has these contents. -/
structure Held (k : FileKernel F) (c : List Byte) (offset : Word) : Prop
    extends Refers cpu fd n ino k offset where
  sound : (S n).Sound (k.fs n)
  contents : (S n).contents (k.fs n) ino = some c

variable {S cpu fd n ino} {k : FileKernel F}

section

variable (h : Held S cpu fd n ino k c offset)
include h

theorem Held.not_std : fd ≠ fdStdin ∧ fd ≠ fdStdout := by
  have hfd := h.usable
  constructor
  · rintro rfl
    exact absurd hfd (by decide)
  · rintro rfl
    exact absurd hfd (by decide)

end

/-! ## A call without data -/

section

variable (k : FileKernel F)

end

/-- The descriptors that came from an opening with flags 0, or are copies of such: what a
    call makes of them. -/
def track (readOnly : Word → Bool) (e : FileCall F) : Word → Bool :=
  if e.res.ret < 0 then readOnly
  else
    match e.op with
    | .fsOpen _ _ _ flags => update readOnly (BitVec.ofInt 64 e.res.ret) (flags = 0)
    | .dup2 oldFd newFd => update readOnly newFd (readOnly oldFd)
    | .fsClose fd => update readOnly fd false
    | _ => readOnly

variable (S) in
/-- No file is changed by the call. -/
def Unchanged (e : FileCall F) : Prop :=
  ∀ m i c, (S m).contents (e.pre.fs m) i = some c → (S m).contents (e.post.fs m) i = some c

end Step

/-! ## A file of three bytes -/

def ramfsOps : Nat → FileSystem Ramfs := fun _ => Ramfs.vfs .dev

def ramfsStore (n : Nat) : FileStore (ramfsOps n) := Ramfs.fileStore .dev

/-- The descriptor is of the file "a", which has these contents, and is at its start. -/
def AtStart (k : FileKernel Ramfs) (fd : Word) (c : List Byte) : Prop :=
  k.fdEntry bootCpu fd = some ⟨"/a", 1, 0⟩ ∧ k.mounts = [("/", 0)] ∧ (k.fs 0).contents 1 = some c
deriving Decidable

theorem AtStart.held (h : AtStart k fd c) (hfd : fdFirstUsable ≤ fd.toNat) :
    Held ramfsStore bootCpu fd 0 1 k c 0 := by
  obtain ⟨hentry, hmounts, hc⟩ := h
  refine ⟨⟨hfd, "/a", "a", hentry, by decide +kernel, ?_⟩, trivial, hc⟩
  rw [hmounts]
  decide +kernel

end OpenOS.Fs.OpenMode
