/-
  Reading and seeking on one descriptor of a regular file, against the law of a
  file cursor: a read gives the bytes at the position and moves it past them, a
  seek goes to base + offset, and fails without moving when that is no position.
-/

import OpenOS.Fs.Ramfs
import OpenOS.Syscall.File
import OpenOS.Task.Conservation

namespace OpenOS.Fs.Cursor

open Base FileKernel List Ramfs
open BitVec (intMin ofNat toNat_ofNat)

variable {F : Type}

/-- SEEK_SET, SEEK_CUR and SEEK_END. -/
inductive Whence
  | set
  | cur
  | fromEnd
deriving DecidableEq

/-- `number::SEEK_SET`, `number::SEEK_CUR` and `number::SEEK_END`. -/
def Whence.number : Whence → Word
  | set => 0
  | cur => 1
  | fromEnd => 2

/-- A call on the descriptor. -/
inductive CursorOp
  | read (bufPtr bufLen : Word)
  | seek (offset : Word) (whence : Whence)
deriving DecidableEq

/-- The system call. -/
def call (ops : Nat → FileSystem F) (p : Profile) (cpu : Cpu) (fd : Word) (k : FileKernel F) :
    CursorOp → Outcome F
  | .read bufPtr bufLen => k.sysFsRead ops p cpu fd bufPtr bufLen
  | .seek offset whence => k.sysFsSeek ops p cpu fd offset whence.number

/-- A call as a step of a run; a panic is recorded and leaves the state. -/
def cursorStep (ops : Nat → FileSystem F) (p : Profile) (cpu : Cpu) (fd : Word) :
    StepFn (FileKernel F) CursorOp (Option FileReply) := fun k op =>
  match call ops p cpu fd k op with
  | none => some (none, k)
  | some (r, k') => some (some r, k')

/-- The descriptor is open on a regular file with these contents. -/
structure Opened (ops : Nat → FileSystem F) (cpu : Cpu) (fd : Word) (contents : List Byte)
    (k : FileKernel F) (entry : FdEntry) : Prop where
  usable : fdFirstUsable ≤ fd.toNat
  fdEntry : k.fdEntry cpu fd = some entry
  notPipe : isPipePath entry.path = false
  file : ∃ n rel, resolveFs k.mounts entry.path = some (n, rel) ∧
    (ops n).HasContents (k.fs n) entry.ino contents

/-- A buffer in user space, of at least one byte. -/
def CursorOp.Valid : CursorOp → Prop
  | .read bufPtr bufLen =>
    bufPtr ≠ 0 ∧ 0 < bufLen.toNat ∧ bufPtr.toNat + bufLen.toNat ≤ userSpaceMax
  | .seek _ _ => True

/-! ## The law -/

/-- Where the descriptor is. -/
def position (cpu : Cpu) (fd : Word) (k : FileKernel F) : Nat :=
  (k.fdEntry cpu fd).elim 0 fun e => e.offset.toNat

/-- `c[p .. p + n]` with `n = min(length, 4096, |c| - p)`. -/
def expected (contents : List Byte) (pos : Nat) (bufLen : Word) : List Byte :=
  (contents.drop pos).take (min bufLen.toNat maxMsgSize)

/-- `base + offset` -/
def target (contents : List Byte) (pos : Nat) (offset : Word) : Whence → Int
  | .set => offset.toInt
  | .cur => pos + offset.toInt
  | .fromEnd => contents.length + offset.toInt

/-- A position a seek can return. -/
def IsPosition (x : Int) : Prop := 0 ≤ x ∧ x < 2 ^ 63
deriving Decidable

/-- What a call returns and where it leaves the position `after`. -/
def Conforms (contents : List Byte) (pos : Nat) (op : CursorOp) (res : Option FileReply)
    (after : Nat) : Prop :=
  match op with
  | .read bufPtr bufLen =>
    let bytes := expected contents pos bufLen
    res = some ⟨bytes.length, if bytes = [] then none else some ⟨bufPtr, bytes⟩⟩ ∧
      after = pos + bytes.length
  | .seek offset whence =>
    if IsPosition (target contents pos offset whence) then
      res = some ⟨target contents pos offset whence, none⟩ ∧
        (after : Int) = target contents pos offset whence
    else ∃ r, res = some r ∧ r.ret < 0 ∧ after = pos

/-- The condition on a call and the position before it. No seek can return a position
    from 2^63 on; one that leaves such a position returns a negative value, as a failure
    does. -/
def Fine (p : Profile) (contents : List Byte) (pos : Nat) : CursorOp → Prop
  | .read _ _ => pos < contents.length
  | .seek _ .set => True
  | .seek offset .cur =>
    (IsPosition (pos + offset.toInt) ∧ ¬ (p = .dev ∧ offset = intMin 64)) ∨
      (2 ^ 63 ≤ pos ∧ 0 ≤ offset.toInt ∧ (offset.toInt = 0 ∨ pos = 2 ^ 64 - 1))
  | .seek offset .fromEnd =>
    (offset.toInt ≤ 0 ∧ IsPosition (contents.length + offset.toInt) ∧
      ¬ (p = .dev ∧ offset = intMin 64)) ∨
      (2 ^ 63 ≤ pos ∧ (pos : Int) = contents.length + min offset.toInt 0)

/-! ## One call -/

theorem toInt_cases (w : Word) :
    (w.toNat < 2 ^ 63 ∧ w.toInt = w.toNat) ∨ (2 ^ 63 ≤ w.toNat ∧ w.toInt = w.toNat - 2 ^ 64) := by
  rw [BitVec.toInt_eq_toNat_cond]
  split
  · left
    exact ⟨by omega, rfl⟩
  · right
    exact ⟨by omega, rfl⟩

variable {p : Profile} {offset len : Word}

theorem absOffset_eq_some
    (hmin : ¬ (p = .dev ∧ offset = intMin 64)) : absOffset p offset = some (-offset) := by
  cases p with
  | dev => rw [absOffset, if_neg fun h => hmin ⟨rfl, h⟩]
  | release => rfl

theorem toNat_saturatingSub_neg (hneg : offset.toInt < 0) :
    (saturatingSub base (-offset)).toNat = ((base.toNat : Int) + offset.toInt).toNat := by
  rcases toInt_cases offset with ⟨hpos, heq⟩ | ⟨hhigh, heq⟩
  · omega
  · rw [toNat_saturatingSub, BitVec.toNat_neg]
    omega

/-- The new offset of a seek from a base other than the start. -/
theorem seekTarget_relative (current len : Word) (hmin : ¬ (p = .dev ∧ offset = intMin 64)) :
    (∃ t, seekTarget p current len offset Whence.cur.number = some (.ok t) ∧
      t.toNat = if 0 ≤ offset.toInt then min (current.toNat + offset.toNat) (2 ^ 64 - 1)
        else ((current.toNat : Int) + offset.toInt).toNat) ∧
    ∃ t, seekTarget p current len offset Whence.fromEnd.number = some (.ok t) ∧
      t.toNat = if 0 ≤ offset.toInt then len.toNat
        else ((len.toNat : Int) + offset.toInt).toNat := by
  constructor
  · rw [seekTarget, if_neg (by decide), if_pos (by decide), asI64, absOffset_eq_some hmin]
    split_ifs with h
    · exact ⟨_, rfl, toNat_saturatingAdd _ _⟩
    · exact ⟨_, rfl, toNat_saturatingSub_neg (not_le.mp h)⟩
  · rw [seekTarget, if_neg (by decide), if_neg (by decide), if_pos (by decide), asI64,
      absOffset_eq_some hmin]
    split_ifs with h
    · exact ⟨_, rfl, rfl⟩
    · exact ⟨_, rfl, toNat_saturatingSub_neg (not_le.mp h)⟩

section Call

variable {ops : Nat → FileSystem F} {cpu : Cpu} {fd : Word} {contents : List Byte}
  {k : FileKernel F} {entry : FdEntry}

section

variable (h : Opened ops cpu fd contents k entry)
include h

theorem Opened.not_std : ¬ (fd = fdStdin ∨ fd = fdStdout) := by
  have hfd := h.usable
  rintro (rfl | rfl)
  · exact absurd hfd (by decide)
  · exact absurd hfd (by decide)

theorem Opened.position_eq : position cpu fd k = entry.offset.toNat := by
  rw [position, h.fdEntry, Option.elim_some]

theorem Opened.setOffset (offset : Word) :
    Opened ops cpu fd contents (k.setOffset cpu fd offset) { entry with offset := offset } where
  usable := h.usable
  fdEntry := fdEntry_setOffset h.fdEntry offset
  notPipe := h.notPipe
  file := by
    rw [mounts_setOffset, fs_setOffset]
    exact h.file

end

theorem length_expected_le (contents : List Byte) (pos : Nat) (bufLen : Word) :
    (expected contents pos bufLen).length ≤ min (min bufLen.toNat maxMsgSize)
      (contents.length - pos) := by
  rw [expected, length_take, length_drop]

variable {bufLen bufPtr t : Word} {whence : Whence} {res : Option FileReply} {k' : FileKernel F}
  {pos : Nat}

theorem expected_eq_nil_iff (contents : List Byte) (pos : Nat) (h : 0 < bufLen.toNat) :
    expected contents pos bufLen = [] ↔ contents.length ≤ pos := by
  have hmax : 0 < maxMsgSize := by decide
  rw [expected, ← length_eq_zero_iff, length_take, length_drop]
  omega

/-- A read: at the end of the file the copy of no bytes is refused. -/
theorem sysFsRead_eq (h : Opened ops cpu fd contents k entry)
    (hvalid : (CursorOp.read bufPtr bufLen).Valid) : k.sysFsRead ops p cpu fd bufPtr bufLen =
      if expected contents entry.offset.toNat bufLen = [] then some (.fail .badPointer, k)
      else
        some (⟨(expected contents entry.offset.toNat bufLen).length,
            some ⟨bufPtr, expected contents entry.offset.toNat bufLen⟩⟩,
          k.setOffset cpu fd (entry.offset +
            ofNat 64 (expected contents entry.offset.toNat bufLen).length)) := by
  obtain ⟨hnull, hpos, hin⟩ := hvalid
  obtain ⟨n, rel, hfs, hfile⟩ := h.file
  obtain ⟨info, -, -, -, hsize⟩ := hfile.stat
  have hread := hfile.read entry.offset (min bufLen.toNat maxMsgSize)
  have hle := length_expected_le contents entry.offset.toNat bufLen
  rw [← expected] at hread
  rw [sysFsRead, if_neg h.not_std]
  simp only [h.fdEntry, h.notPipe, hfs, hread, Bool.false_eq_true, if_false]
  by_cases hnil : expected contents entry.offset.toNat bufLen = []
  · rw [if_pos hnil, hnil, copyToUser_nil]
  -- the offset stays within the file, so the sum is no overflow
  have hsum : entry.offset.toNat +
      (ofNat 64 (expected contents entry.offset.toNat bufLen).length).toNat < 2 ^ 64 := by
    rw [toNat_ofNat]
    omega
  rw [if_neg hnil, copyToUser_of_fits hnull hnil (by omega) (by omega)]
  simp [p.add_eq_some_of_lt hsum]

theorem sysFsSeek_eq (h : Opened ops cpu fd contents k entry) (offset whence : Word) :
    ∃ len : Word, len.toNat = contents.length ∧
      k.sysFsSeek ops p cpu fd offset whence =
        match seekTarget p entry.offset len offset whence with
        | none => none
        | some (.error e) => some (.fail e, k)
        | some (.ok t) => some (⟨t.toInt, none⟩, k.setOffset cpu fd t) := by
  obtain ⟨n, rel, hfs, hfile⟩ := h.file
  obtain ⟨info, hstat, -, -, hsize⟩ := hfile.stat
  refine ⟨info.size, hsize, ?_⟩
  rw [sysFsSeek, if_neg h.not_std]
  simp only [h.fdEntry, hfs, hstat]
  rfl

/-- Going to an offset conforms when it is the target, or when it stays at a
    position no seek can return. -/
theorem conforms_goTo_iff :
    Conforms contents pos (.seek offset whence) (some ⟨t.toInt, none⟩) t.toNat ↔
      (IsPosition (target contents pos offset whence) ∧
        (t.toNat : Int) = target contents pos offset whence) ∨
      (¬ IsPosition (target contents pos offset whence) ∧ 2 ^ 63 ≤ t.toNat ∧ t.toNat = pos) := by
  have ht := toInt_cases t
  by_cases hpos : IsPosition (target contents pos offset whence)
  · have hbounds := hpos
    rw [IsPosition] at hbounds
    simp only [Conforms, hpos, if_true, Option.some.injEq, FileReply.mk.injEq, and_true,
      true_and, not_true_eq_false, false_and, or_false]
    omega
  · simp only [Conforms, hpos, if_false, Option.some.injEq, false_and, not_false_eq_true,
      true_and, false_or, exists_eq_left']
    omega

theorem not_conforms_panic {after : Nat} : ¬ Conforms contents pos op none after := by
  cases op with
  | read bufPtr bufLen =>
    rintro ⟨h, -⟩
    cases h
  | seek offset whence =>
    rw [Conforms]
    split
    · rintro ⟨h, -⟩
      cases h
    · rintro ⟨r, h, -⟩
      cases h

/-- A step from an open file: the file stays open, and the step conforms exactly
    under the condition. -/
structure Decided (p : Profile) (ops : Nat → FileSystem F) (cpu : Cpu) (fd : Word)
    (contents : List Byte) (pos : Nat) (op : CursorOp) (res : Option FileReply)
    (k' : FileKernel F) : Prop where
  opened : ∃ entry, Opened ops cpu fd contents k' entry
  conforms : Conforms contents pos op res (position cpu fd k') ↔ Fine p contents pos op

section

variable (h : Opened ops cpu fd contents k entry)
include h

theorem decided_read (hvalid : (CursorOp.read bufPtr bufLen).Valid)
    (hstep : cursorStep ops p cpu fd k (.read bufPtr bufLen) = some (res, k')) :
    Decided p ops cpu fd contents entry.offset.toNat (.read bufPtr bufLen) res k' := by
  have hnil := expected_eq_nil_iff contents entry.offset.toNat hvalid.2.1
  have hle := length_expected_le contents entry.offset.toNat bufLen
  obtain ⟨n, rel, -, hfile⟩ := h.file
  obtain ⟨info, -, -, -, hsize⟩ := hfile.stat
  rw [cursorStep, call, sysFsRead_eq h hvalid] at hstep
  by_cases hend : expected contents entry.offset.toNat bufLen = []
  · -- at the end a read is refused, where the law has it return 0
    rw [if_pos hend] at hstep
    cases hstep
    refine ⟨⟨entry, h⟩, ?_⟩
    have hbeyond := hnil.mp hend
    constructor
    · rintro ⟨hret, -⟩
      cases hret
    · intro hfine
      exact absurd hfine (Nat.not_lt.mpr hbeyond)
  · rw [if_neg hend] at hstep
    cases hstep
    refine ⟨⟨_, h.setOffset _⟩, ?_⟩
    have hbefore : entry.offset.toNat < contents.length := by
      rwa [← Nat.not_le, ← hnil]
    constructor
    · intro _
      exact hbefore
    · intro _
      refine ⟨by rw [if_neg hend], ?_⟩
      have hofNat : (ofNat 64
          (expected contents entry.offset.toNat bufLen).length).toNat =
          (expected contents entry.offset.toNat bufLen).length := by
        rw [toNat_ofNat]
        omega
      rw [(h.setOffset _).position_eq, BitVec.toNat_add_of_lt (by omega), hofNat]

theorem decided_goTo (hseek : k.sysFsSeek ops p cpu fd offset whence.number =
      match seekTarget p entry.offset len offset whence.number with
      | none => none
      | some (.error e) => some (.fail e, k)
      | some (.ok t) => some (⟨t.toInt, none⟩, k.setOffset cpu fd t))
    (ht : seekTarget p entry.offset len offset whence.number = some (.ok t))
    (hiff : ((IsPosition (target contents entry.offset.toNat offset whence) ∧
        (t.toNat : Int) = target contents entry.offset.toNat offset whence) ∨
      (¬ IsPosition (target contents entry.offset.toNat offset whence) ∧ 2 ^ 63 ≤ t.toNat ∧
        t.toNat = entry.offset.toNat)) ↔ Fine p contents entry.offset.toNat (.seek offset whence))
    (hstep : cursorStep ops p cpu fd k (.seek offset whence) = some (res, k')) :
    Decided p ops cpu fd contents entry.offset.toNat (.seek offset whence) res k' := by
  rw [cursorStep, call, hseek, ht] at hstep
  cases hstep
  refine ⟨⟨_, h.setOffset _⟩, ?_⟩
  rw [(h.setOffset _).position_eq, ← hiff]
  exact conforms_goTo_iff

theorem decided_panic (hseek : k.sysFsSeek ops p cpu fd offset whence.number = none)
    (hfine : ¬ Fine p contents entry.offset.toNat (.seek offset whence))
    (hstep : cursorStep ops p cpu fd k (.seek offset whence) = some (res, k')) :
    Decided p ops cpu fd contents entry.offset.toNat (.seek offset whence) res k' := by
  rw [cursorStep, call, hseek] at hstep
  cases hstep
  exact ⟨⟨entry, h⟩, iff_of_false not_conforms_panic hfine⟩

theorem decided_seek (hstep : cursorStep ops p cpu fd k (.seek offset whence) = some (res, k')) :
    Decided p ops cpu fd contents entry.offset.toNat (.seek offset whence) res k' := by
  obtain ⟨len, hlen, hseek⟩ := sysFsSeek_eq (p := p) h offset whence.number
  have hoff := toInt_cases offset
  have hminInt : (intMin 64).toInt = -2 ^ 63 := by decide
  cases whence with
  | set =>
    by_cases hneg : offset.toInt < 0
    · have ht : seekTarget p entry.offset len offset Whence.set.number =
          some (.error .invalidArgument) := by
        rw [seekTarget, if_pos (by decide), asI64, if_pos hneg]
      rw [cursorStep, call, hseek, ht] at hstep
      cases hstep
      have hnot : ¬ IsPosition (target contents entry.offset.toNat offset .set) :=
        fun hp => absurd hp.1 (not_le.mpr hneg)
      refine ⟨⟨entry, h⟩, iff_of_true ?_ trivial⟩
      rw [h.position_eq, Conforms, if_neg hnot]
      exact ⟨_, rfl, by decide, rfl⟩
    · have ht : seekTarget p entry.offset len offset Whence.set.number = some (.ok offset) := by
        rw [seekTarget, if_pos (by decide), asI64, if_neg hneg]
      refine decided_goTo h hseek ht ?_ hstep
      simp only [Fine, target, IsPosition, iff_true]
      omega
  | cur =>
    by_cases hpanic : p = .dev ∧ offset = intMin 64
    · obtain ⟨rfl, rfl⟩ := hpanic
      refine decided_panic h hseek ?_ hstep
      simp only [Fine, and_self, not_true_eq_false, and_false, false_or]
      omega
    obtain ⟨⟨t, ht, hval⟩, -⟩ := seekTarget_relative entry.offset len hpanic
    refine decided_goTo h hseek ht ?_ hstep
    simp only [Fine, target, IsPosition, hpanic, not_false_eq_true, and_true]
    split at hval <;> omega
  | fromEnd =>
    by_cases hpanic : p = .dev ∧ offset = intMin 64
    · obtain ⟨rfl, rfl⟩ := hpanic
      refine decided_panic h hseek ?_ hstep
      simp only [Fine, and_self, not_true_eq_false, and_false, false_or]
      omega
    obtain ⟨-, t, ht, hval⟩ := seekTarget_relative entry.offset len hpanic
    refine decided_goTo h hseek ht ?_ hstep
    simp only [Fine, target, IsPosition, hpanic, not_false_eq_true, and_true]
    split at hval <;> omega

end

end Call

/-! ## Runs -/

theorem decided_of_run {contents : List Byte}
    (hopen : Opened ops cpu fd contents k₀ entry) (hrun : Run (cursorStep ops p cpu fd) k₀ tr k) :
    (∀ e ∈ tr, e.op.Valid) → (∃ entry', Opened ops cpu fd contents k entry') ∧
      ∀ e ∈ tr, Decided p ops cpu fd contents (position cpu fd e.pre) e.op e.res e.post := by
  apply hrun.invariant
  · intro _
    exact ⟨⟨entry, hopen⟩, fun e he => absurd he not_mem_nil⟩
  · intro tr k op r k' ih hstep hvalid
    obtain ⟨⟨entry', hopened⟩, hdone⟩ := ih fun e he => hvalid e (mem_append_left _ he)
    have hdecided : Decided p ops cpu fd contents (position cpu fd k) op r k' := by
      rw [hopened.position_eq]
      cases op with
      | read bufPtr bufLen =>
        have hbuf := hvalid ⟨k, .read bufPtr bufLen, r, k'⟩ (by simp)
        exact decided_read hopened hbuf hstep
      | seek offset whence => exact decided_seek hopened hstep
    refine ⟨hdecided.opened, ?_⟩
    intro e he
    rcases mem_append.mp he with hold | hnew
    · exact hdone e hold
    · cases mem_singleton.mp hnew
      exact hdecided

/-- A sequence of reads and seeks follows the law of a cursor exactly when each of
    its calls meets the condition. -/
theorem cursorLaw_iff_fine {ops : Nat → FileSystem F} {p : Profile} {cpu : Cpu} {fd : Word}
    {contents : List Byte} {k₀ k : FileKernel F} {entry : FdEntry}
    {tr : List (Transition (FileKernel F) CursorOp (Option FileReply))}
    (hopen : Opened ops cpu fd contents k₀ entry)
    (hrun : Run (cursorStep ops p cpu fd) k₀ tr k) (hvalid : ∀ e ∈ tr, e.op.Valid) :
    (∀ e ∈ tr, Conforms contents (position cpu fd e.pre) e.op e.res (position cpu fd e.post)) ↔
      ∀ e ∈ tr, Fine p contents (position cpu fd e.pre) e.op := by
  have hdecided := (decided_of_run hopen hrun hvalid).2
  constructor
  · intro h e he
    exact (hdecided e he).conforms.mp (h e he)
  · intro h e he
    exact (hdecided e he).conforms.mpr (h e he)

/-- A task with descriptor 2 at the start of a file of two bytes. -/
def fileOpen : FileKernel Ramfs where
  sched := { Scheduler.empty with
    currentTaskId := 2
    blocked := [{ Task.new 2 5 with
      fdTable := fun fd => if fd = 2 then some ⟨"/a", 1, 0⟩ else none }] }
  mounts := [("/", 0)]
  fs := fun _ => Ramfs.new.setFile 0 { name := utf8Bytes "a", data := [1, 2], inUse := true }
  pipes := ⟨fun _ => .new, fun _ => 0, 0⟩

theorem opened_fileOpen :
    Opened (fun _ => vfs .dev) bootCpu 2 [1, 2] fileOpen ⟨"/a", 1, 0⟩ where
  usable := by decide
  fdEntry := rfl
  notPipe := by decide +kernel
  file := ⟨0, "a", by decide +kernel, hasContents .dev (i := 0) rfl rfl rfl (by decide)⟩

/-- A read of both bytes and one more at the end. -/
def readTwice : List CursorOp := [.read 0x1000 4, .read 0x1000 4]

theorem cursorLaw_iff_fine_readTwice :
    ∃ tr k, Run (cursorStep (fun _ => vfs .dev) .dev bootCpu 2) fileOpen tr k ∧
      tr.map Transition.op = readTwice ∧
      ((∀ e ∈ tr, Conforms [1, 2] (position bootCpu 2 e.pre) e.op e.res (position bootCpu 2 e.post)) ↔
        ∀ e ∈ tr, Fine .dev [1, 2] (position bootCpu 2 e.pre) e.op) := by
  have hrun := exec_run (cursorStep (fun _ => vfs .dev) .dev bootCpu 2) fileOpen readTwice rfl
  refine ⟨_, _, hrun, rfl, cursorLaw_iff_fine opened_fileOpen hrun ?_⟩
  have hops : ∀ op ∈ readTwice, op.Valid := by
    intro op hop
    simp only [readTwice, mem_cons, not_mem_nil, or_false, or_self] at hop
    subst hop
    exact ⟨by decide, by decide, by decide⟩
  intro e he
  exact hops e.op (mem_map_of_mem he)

/-- The second read is at the end of the file: it returns BadPointer in place of 0. -/
theorem read_at_end_refused :
    ∃ k, fileOpen.sysFsRead (fun _ => vfs .dev) .dev bootCpu 2 0x1000 4 =
        some (⟨2, some ⟨0x1000, [1, 2]⟩⟩, k) ∧
      position bootCpu 2 k = 2 ∧
      k.sysFsRead (fun _ => vfs .dev) .dev bootCpu 2 0x1000 4 =
        some (.fail .badPointer, k) ∧
      ¬ Conforms [1, 2] 2 (.read 0x1000 4) (some (.fail .badPointer)) 2 := by
  have hvalid : (CursorOp.read 0x1000 4).Valid := ⟨by decide, by decide, by decide⟩
  have hmoved := opened_fileOpen.setOffset 2
  refine ⟨fileOpen.setOffset bootCpu 2 2, ?_, hmoved.position_eq, ?_, ?_⟩
  · exact (sysFsRead_eq opened_fileOpen hvalid).trans rfl
  · exact (sysFsRead_eq hmoved hvalid).trans rfl
  · rintro ⟨h, -⟩
    cases h

end OpenOS.Fs.Cursor
