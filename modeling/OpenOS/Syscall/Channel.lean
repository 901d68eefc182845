/-
  The channel and handle system calls (kernel/src/syscall/mod.rs) over the
  scheduler and the channels.

  A system call runs as one step on the CPU that made it, up to its
  `block_and_switch`.  The two calls that wait in a loop inside the handler
  leave a `Spin` record on their CPU, and each turn of the loop is a step of
  its own (`poll`).  User memory enters a call as the bytes it reads and
  leaves it as the bytes it writes.
-/

import OpenOS.Task.Lifecycle

namespace OpenOS

open Base List Handle
open Function (update)

/-! ## Errors and user memory -/

/-- Syscall error codes. -/
inductive SysError
  | invalidArgument
  | notFound
  | permissionDenied
  | outOfMemory
  | busy
  | channelClosed
  | wouldBlock
  | timeout
  | badPointer
  | unknownSyscall
  | notSupported
  | alreadyExists
deriving DecidableEq

/-- `error as i64`. -/
def SysError.code : SysError → Int
  | invalidArgument => -1
  | notFound => -2
  | permissionDenied => -3
  | outOfMemory => -4
  | busy => -5
  | channelClosed => -6
  | wouldBlock => -7
  | timeout => -8
  | badPointer => -9
  | unknownSyscall => -10
  | notSupported => -11
  | alreadyExists => -12

theorem SysError.code_lt_zero (e : SysError) : e.code < 0 := by
  cases e <;> decide

/-- User memory as a call reads it. -/
abbrev UserMem := Word → BitVec 8

/-- Bytes written to user memory. -/
structure UserWrite where
  dst : Word
  bytes : Message
deriving DecidableEq

/-- The range check of both copies: not null, not empty, at most MAX_MSG_SIZE
    bytes, and inside user space (with a saturating end). -/
def userRangeOk (addr : Word) (len : Nat) : Bool :=
  addr ≠ 0 && len ≠ 0 && len ≤ maxMsgSize && addr.toNat < userSpaceMax &&
    min (addr.toNat + len) (2 ^ 64 - 1) ≤ userSpaceMax

/-- Copy bytes from user space. -/
def copyFromUser (mem : UserMem) (src len : Word) : Option Message :=
  if userRangeOk src len.toNat then
    some ((range len.toNat).map fun i => mem (src + BitVec.ofNat 64 i))
  else none

theorem length_of_copyFromUser (h : copyFromUser mem src len = some msg) :
    0 < msg.length ∧ msg.length ≤ maxMsgSize := by
  rw [copyFromUser] at h
  split at h
  · rename_i hok
    cases h
    rw [length_map, length_range]
    simp only [userRangeOk, Bool.and_eq_true, decide_eq_true_eq] at hok
    omega
  · cases h

/-- Copy bytes to user space. -/
def copyToUser (dst : Word) (bytes : Message) : Option UserWrite :=
  if userRangeOk dst bytes.length then some ⟨dst, bytes⟩ else none

/-! ## The kernel state -/

/-- A handler waiting in its loop, with the locals the loop uses. -/
inductive Spin
  | receive (ch : Ref) (on : EndId) (taskId : TaskId) (bufPtr : Word)
  | call (ch : Ref) (fromEnd : EndId) (replyPtr : Word)
deriving DecidableEq

/-- The scheduler, the channels on the heap, and what each CPU waits in. -/
structure Kernel where
  sched : Scheduler
  channels : Ref → Channel
  spin : Cpu → Option Spin

/-- An operation on a channel, with its result. -/
structure ChannelEvent where
  ch : Ref
  op : Channel.Op
  res : Channel.Res
deriving DecidableEq

/-- What a step shows: the value returned (`none` while the handler still
    waits), the channel operation it made, and the user memory it wrote. -/
structure Outcome where
  ret : Option Int
  event : Option ChannelEvent
  write : Option UserWrite
deriving DecidableEq

/-- Return an error without touching a channel. -/
def Outcome.fail (e : SysError) : Outcome := ⟨some e.code, none, none⟩

/-- Hand a message to the user: its length, or BadPointer. -/
def Outcome.deliver (ev : ChannelEvent) (bufPtr : Word) (msg : Message) : Outcome :=
  match copyToUser bufPtr msg with
  | some w => ⟨some (if msg.length < 2 ^ 63 then (msg.length : Int) else -1), some ev, some w⟩
  | none => ⟨some SysError.badPointer.code, some ev, none⟩

namespace Kernel

/-- Look up a channel handle in the current task's table.  Only the object is
    read, not the rights of the entry or of the token. -/
def lookupChannel (k : Kernel) (cpu : Cpu) (handleRaw : Word) : Option (Ref × EndId) :=
  match k.sched.withCurrentTask cpu with
  | none => none
  | some task =>
    match task.handleTable.get (fromRaw handleRaw) with
    | some (.channelEndA ch) => some (ch, .a)
    | some (.channelEndB ch) => some (ch, .b)
    | _ => none

/-- Store a channel back. -/
def setChannel (k : Kernel) (c : Ref) (ch : Channel) : Kernel :=
  { k with channels := update k.channels c ch }

/-! ## Channel system calls -/

section

variable (k : Kernel) (cpu : Cpu) (mem : UserMem) (handleRaw msgPtr msgLen : Word)

def sysChannelSend : Outcome × Kernel :=
  match copyFromUser mem msgPtr msgLen with
  | none => (.fail .badPointer, k)
  | some msg =>
    match k.lookupChannel cpu handleRaw with
    | none => (.fail .notFound, k)
    | some (c, e) =>
      let taskId := k.sched.currentTaskId
      let r := (k.channels c).send e msg taskId
      let k' := k.setChannel c r.2
      let ev : ChannelEvent := ⟨c, .send e msg taskId, .send r.1⟩
      match r.1 with
      | .delivered receiverId =>
        (⟨some 0, some ev, none⟩, { k' with sched := k'.sched.wakeTaskById cpu receiverId })
      | .pending => (⟨some 0, some ev, none⟩, k')
      | .closed => (⟨some SysError.channelClosed.code, some ev, none⟩, k')

def sysChannelReceive (ctx : SavedContext) (handleRaw bufPtr : Word) : Outcome × Kernel :=
  match k.lookupChannel cpu handleRaw with
  | none => (.fail .notFound, k)
  | some (c, e) =>
    let taskId := k.sched.currentTaskId
    let r := (k.channels c).receive e taskId
    let k' := k.setChannel c r.2
    let ev : ChannelEvent := ⟨c, .receive e taskId, .receive r.1⟩
    match r.1 with
    | .gotMessage msg _ => (.deliver ev bufPtr msg, k')
    | .closed => (⟨some SysError.channelClosed.code, some ev, none⟩, k')
    | .blocked =>
      let switched := k.sched.blockAndSwitch cpu ctx
      if switched.1 then (⟨some 0, some ev, none⟩, { k' with sched := switched.2 })
      else
        -- no other task: undo the blocking and wait in the handler
        (⟨none, some ev, none⟩,
          { k' with
            sched := switched.2.unblockCurrent cpu
            spin := update k'.spin cpu (some (.receive c e taskId bufPtr)) })

def sysChannelCall (replyPtr : Word) : Outcome × Kernel :=
  match copyFromUser mem msgPtr msgLen with
  | none => (.fail .badPointer, k)
  | some msg =>
    match k.lookupChannel cpu handleRaw with
    | none => (.fail .notFound, k)
    | some (c, e) =>
      let taskId := k.sched.currentTaskId
      let r := (k.channels c).call e msg taskId
      let k' := k.setChannel c r.2
      let ev : ChannelEvent := ⟨c, .call e msg taskId, .call r.1⟩
      match r.1 with
      | .gotReply reply => (.deliver ev replyPtr reply, k')
      | .closed => (⟨some SysError.channelClosed.code, some ev, none⟩, k')
      | .blocked _ =>
        -- the receiver taken out of the channel is not woken
        (⟨none, some ev, none⟩,
          { k' with spin := update k'.spin cpu (some (.call c e replyPtr)) })

def sysChannelReply : Outcome × Kernel :=
  match copyFromUser mem msgPtr msgLen with
  | none => (.fail .badPointer, k)
  | some msg =>
    match k.lookupChannel cpu handleRaw with
    | none => (.fail .notFound, k)
    | some (c, e) =>
      let r := (k.channels c).reply e msg
      let k' := k.setChannel c r.2
      let ev : ChannelEvent := ⟨c, .reply e msg, .reply r.1⟩
      match r.1 with
      | .unblocked callerId =>
        (⟨some 0, some ev, none⟩, { k' with sched := k'.sched.wakeTaskById cpu callerId })
      | .stored => (⟨some 0, some ev, none⟩, k')

/-- One turn of the loop a handler waits in. -/
def pollSpin : Spin → Outcome × Kernel
  | .receive c e taskId bufPtr =>
    let r := (k.channels c).receive e taskId
    let k' := k.setChannel c r.2
    let ev : ChannelEvent := ⟨c, .receive e taskId, .receive r.1⟩
    match r.1 with
    | .gotMessage msg _ =>
      (.deliver ev bufPtr msg, { k' with spin := update k'.spin cpu none })
    | .closed =>
      (⟨some SysError.channelClosed.code, some ev, none⟩,
        { k' with spin := update k'.spin cpu none })
    | .blocked => (⟨none, some ev, none⟩, k')
  | .call c e replyPtr =>
    let r := (k.channels c).checkReply e
    let k' := k.setChannel c r.2
    let ev : ChannelEvent := ⟨c, .checkReply e, .call r.1⟩
    match r.1 with
    | .gotReply reply =>
      (.deliver ev replyPtr reply, { k' with spin := update k'.spin cpu none })
    | .closed =>
      (⟨some SysError.channelClosed.code, some ev, none⟩,
        { k' with spin := update k'.spin cpu none })
    | .blocked _ => (⟨none, some ev, none⟩, k')

/-! ## Handle system calls -/

/-- Close a handle in a task's table. -/
def closeIn (handle : Handle) (task : Task) : Bool × Task :=
  ((task.handleTable.close handle).1,
    { task with handleTable := (task.handleTable.close handle).2 })

def sysHandleClose : Outcome × Kernel :=
  match k.sched.withCurrentTaskMut cpu (closeIn (fromRaw handleRaw)) with
  | some (true, s) => (⟨some 0, none, none⟩, { k with sched := s })
  | some (false, s) => (.fail .notFound, { k with sched := s })
  | none => (.fail .notFound, k)

/-- Duplicate a handle; `none` is the overflow panic of the slot counter. -/
def sysHandleDuplicate (p : Profile) (k : Kernel) (cpu : Cpu) (handleRaw newRights : Word) :
    Option (Outcome × Kernel) :=
  match k.sched.withCurrentTask cpu with
  | none => some (.fail .notFound, k)
  | some task =>
    match task.handleTable.duplicate p (fromRaw handleRaw)
        (Rights.fromRaw (newRights.setWidth 16)) with
    | none => none
    | some (newHandle, table) =>
      match k.sched.withCurrentTaskMut cpu fun t => ((), { t with handleTable := table }) with
      | none => some (.fail .notFound, k)
      | some (_, s) =>
        match newHandle with
        | some h => some (⟨some h.asU64.toInt, none, none⟩, { k with sched := s })
        | none => some (.fail .permissionDenied, { k with sched := s })

def sysHandleTransfer (channelRaw : Word) : Outcome × Kernel :=
  match k.lookupChannel cpu channelRaw with
  | none => (.fail .notFound, k)
  | some (c, _) =>
    match k.sched.withCurrentTaskMut cpu (closeIn (fromRaw handleRaw)) with
    | none => (.fail .notFound, k)
    | some (false, s) => (.fail .notFound, { k with sched := s })
    | some (true, s) =>
      -- the handle is gone from the table before the push can fail
      let r := (k.channels c).pushHandle handleRaw
      let k' := { k with sched := s }.setChannel c r.2
      let ev : ChannelEvent := ⟨c, .pushHandle handleRaw, .pushHandle r.1⟩
      if r.1 then (⟨some 0, some ev, none⟩, k')
      else (⟨some SysError.channelClosed.code, some ev, none⟩, k')

end

/-! ## Steps -/

/-- The system calls, with their arguments and the memory or context they
    read.  Arguments the handlers ignore are left out. -/
inductive Syscall
  | channelSend (mem : UserMem) (handleRaw msgPtr msgLen : Word)
  | channelReceive (ctx : SavedContext) (handleRaw bufPtr : Word)
  | channelCall (mem : UserMem) (handleRaw msgPtr msgLen replyPtr : Word)
  | channelReply (mem : UserMem) (handleRaw msgPtr msgLen : Word)
  | handleClose (handleRaw : Word)
  | handleDuplicate (handleRaw newRights : Word)
  | handleTransfer (handleRaw channelRaw : Word)

/-- What can happen on a CPU: a system call, a turn of a waiting handler, or
    the scheduler calls other parts of the kernel make. -/
inductive Op
  | syscall (cpu : Cpu) (call : Syscall)
  | poll (cpu : Cpu)
  | reschedule (cpu : Cpu) (ctx : SavedContext)
  | wake (cpu : Cpu) (id : TaskId)
  | setCurrent (cpu : Cpu) (id : TaskId)

/-- Run one system call. -/
def syscall (p : Profile) (k : Kernel) (cpu : Cpu) : Syscall → Option (Outcome × Kernel)
  | .channelSend mem h ptr len => some (k.sysChannelSend cpu mem h ptr len)
  | .channelReceive ctx h buf => some (k.sysChannelReceive cpu ctx h buf)
  | .channelCall mem h ptr len reply => some (k.sysChannelCall cpu mem h ptr len reply)
  | .channelReply mem h ptr len => some (k.sysChannelReply cpu mem h ptr len)
  | .handleClose h => some (k.sysHandleClose cpu h)
  | .handleDuplicate h r => k.sysHandleDuplicate p cpu h r
  | .handleTransfer h c => some (k.sysHandleTransfer cpu h c)

/-- A scheduler call returns nothing to a task. -/
def schedOutcome : Outcome := ⟨none, none, none⟩

/-- One step.  A CPU whose handler waits can only poll; the other steps are
    not enabled there (`none`, as for a panic). -/
def step (p : Profile) : StepFn Kernel Op Outcome
  | k, .syscall cpu call => if (k.spin cpu).isSome then none else k.syscall p cpu call
  | k, .poll cpu => (k.spin cpu).map (k.pollSpin cpu)
  | k, .reschedule cpu ctx =>
    if (k.spin cpu).isSome then none
    else some (schedOutcome, { k with sched := (k.sched.blockAndSwitch cpu ctx).2 })
  | k, .wake cpu id =>
    if (k.spin cpu).isSome then none
    else some (schedOutcome, { k with sched := k.sched.wakeTaskById cpu id })
  | k, .setCurrent cpu id =>
    if (k.spin cpu).isSome then none
    else some (schedOutcome, { k with sched := k.sched.setCurrentTask cpu id })

/-- A task without a page table. -/
def bootTask (id : TaskId) (state : TaskState) (table : HandleTable)
    (context : Option SavedContext) : Task :=
  { id := id, state := state, handleTable := table, context := context, pageTable := none }

/-- A kernel with these tasks on the boot CPU, the first one running, and fresh
    channels. -/
def boot (tasks : List Task) : Kernel where
  sched :=
    { cpus := fun cpu => if cpu = bootCpu then ⟨tasks, tasks.head?.map Task.id⟩ else ⟨[], none⟩
      blocked := []
      blockedCpuMap := fun _ => none
      currentTaskId := (tasks.head?.map Task.id).getD 0
      switchContext := none }
  channels := fun _ => Channel.new
  spin := fun _ => none

/-- A table with one handle, in slot 0. -/
def oneHandle (r : Rights) (obj : KernelObject) : HandleTable :=
  { slots := fun slot => if slot = 0 then some ⟨Handle.new 0 r 0, obj⟩ else none
    nextSlot := 1
    generation := 1 }

/-- A saved context with all registers zero. -/
def zeroContext : SavedContext := ⟨0, 0, 0, 0, 0, 0, 0, 0, 0, 0, 0, 0, 0, 0, 0, 0, 0⟩

/-- A one-byte send of the running task through its handle in slot 0. -/
def sendOneByte (r : Rights) : Op :=
  .syscall bootCpu (.channelSend (fun _ => 7) (Handle.new 0 r 0).asU64 0x1000#64 1#64)

/-- A receive of the running task through its handle in slot 0. -/
def receiveOp : Op :=
  .syscall bootCpu (.channelReceive zeroContext (Handle.new 0 .all 0).asU64 0x1000#64)

/-- A step of the kernel, as it appears in a run. -/
abbrev KernelStep := Transition Kernel Op Outcome

end Kernel

end OpenOS
