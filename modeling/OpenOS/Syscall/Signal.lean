/-
  The signal system calls (kernel/src/syscall/mod.rs) over the scheduler:
  sys_kill, sys_tgkill, sys_signal, sys_rt_sigaction, sys_sigprocmask and
  sys_sigreturn.  The first five change the signal state of at most one task, in
  one of four ways (`SignalChange`).
-/

import OpenOS.Base.Bytes
import OpenOS.Syscall.Channel
import OpenOS.Task.Lifecycle

namespace OpenOS

open Base

/-! ## The system calls -/

/-- `u8::try_from` and the range check 1..=31 that every signal call makes. -/
def checkSig (sig : Word) : Option (Fin 32) :=
  if h : 0 < sig.toNat ∧ sig.toNat < 32 then some ⟨sig.toNat, h.2⟩ else none

/-- The `u8` of a checked signal number. -/
def sigNum (n : Fin 32) : Signum := BitVec.ofNat 8 n.val

/-- SIGKILL as an index of the handler table. -/
def killIdx : Fin 32 := 9

/-- `sigprocmask` operations. -/
def sigBlock : Word := 0#64
def sigUnblock : Word := 1#64
def sigSetmask : Word := 2#64

/-- The size of a `sigaction` struct. -/
def sigactionSize : Word := 32#64

namespace SignalState

/-- `handlers[n] = handler` -/
def setHandler (ss : SignalState) (n : Fin 32) (handler : Word) : SignalState :=
  { ss with handlers := Function.update ss.handlers n handler }

/-- The new blocked mask; `none` for an operation that does not exist. -/
def applyMask (ss : SignalState) (how mask : Word) : Option SignalState :=
  if how = sigBlock then some { ss with blocked := ss.blocked ||| mask }
  else if how = sigUnblock then some { ss with blocked := ss.blocked &&& ~~~mask }
  else if how = sigSetmask then some { ss with blocked := mask }
  else none

end SignalState

/-- The `sigaction` pointer check. -/
def sigactionRangeOk (ptr : Word) : Bool :=
  ptr.toNat < userSpaceMax && min (ptr.toNat + sigactionSize.toNat) (2 ^ 64 - 1) ≤ userSpaceMax

/-- What a call returns and the user memory it wrote. -/
structure SignalOutcome where
  ret : Int
  writes : List UserWrite
deriving DecidableEq

def SignalOutcome.fail (e : SysError) : SignalOutcome := ⟨e.code, []⟩

namespace Scheduler

/-- Send a checked signal to a task and report `r`. -/
def sendTo {R : Type} (n : Fin 32) (r : R) (t : Task) : R × Task :=
  (r, { t with signalState := t.signalState.sendSignal (sigNum n) })

section

variable (s : Scheduler) (cpu : Cpu) (pid sig : Word)

def sysKill : SignalOutcome × Scheduler :=
  match checkSig sig with
  | none => (.fail .invalidArgument, s)
  | some n =>
    match s.withTaskMut cpu pid (sendTo n ()) with
    | some ((), s') => (⟨0, []⟩, s'.wakeTaskById cpu pid)
    | none => (.fail .notFound, s)

/-- The group test of `sys_tgkill`: no group given, the task's own id, or that
    of its parent. -/
def inGroup (tgid : Word) (t : Task) : Bool := tgid = 0 || t.id = tgid || t.parentId = some tgid

def sysTgkill (tgid tid sig : Word) : SignalOutcome × Scheduler :=
  match checkSig sig with
  | none => (.fail .invalidArgument, s)
  | some n =>
    match s.withTaskMut cpu tid fun t => if inGroup tgid t then sendTo n true t else (false, t) with
    | some (true, s') => (⟨0, []⟩, s'.wakeTaskById cpu tid)
    | some (false, s') => (.fail .permissionDenied, s')
    | none => (.fail .notFound, s)

/-- Install a handler and return the old one. -/
def installHandler (n : Fin 32) (handler : Word) (t : Task) : Word × Task :=
  (t.signalState.handlers n, { t with signalState := t.signalState.setHandler n handler })

def sysSignal (handler : Word) : SignalOutcome × Scheduler :=
  match checkSig sig with
  | none => (.fail .invalidArgument, s)
  | some n =>
    if n = killIdx then (.fail .permissionDenied, s)
    else
      match s.withCurrentTaskMut cpu (installHandler n handler) with
      | none => (.fail .notFound, s)
      | some (old, s') => (⟨old.toInt, []⟩, s')

/-- The old `sigaction` as it is written to user memory: the handler and zeros. -/
def oldAction (n : Fin 32) : List Byte :=
  let handler := ((s.withCurrentTask cpu).map fun t =>
    t.signalState.getHandler (sigNum n)).getD sigDfl
  handler.toLeBytes ++ List.replicate 24 0#8

/-- The second half of `sys_rt_sigaction`: install the new action if one is given. -/
def installAction (mem : UserMem) (n : Fin 32) (actPtr : Word) (writes : List UserWrite) :
    SignalOutcome × Scheduler :=
  if actPtr = 0 then (⟨0, writes⟩, s)
  else if !sigactionRangeOk actPtr then (⟨SysError.badPointer.code, writes⟩, s)
  else
    match copyFromUser mem actPtr sigactionSize with
    | none => (⟨SysError.badPointer.code, writes⟩, s)
    | some actBytes =>
      let handler := Word.fromLeBytes (actBytes.take 8)
      match s.withCurrentTaskMut cpu (installHandler n handler) with
      | none => (⟨0, writes⟩, s)
      | some (_, s') => (⟨0, writes⟩, s')

def sysRtSigaction (mem : UserMem) (sig actPtr oactPtr : Word) : SignalOutcome × Scheduler :=
  match checkSig sig with
  | none => (.fail .invalidArgument, s)
  | some n =>
    if n = killIdx then (.fail .permissionDenied, s)
    else if oactPtr = 0 then s.installAction cpu mem n actPtr []
    else if !sigactionRangeOk oactPtr then (.fail .badPointer, s)
    else
      match copyToUser oactPtr (s.oldAction cpu n) with
      | none => (.fail .badPointer, s)
      | some w => s.installAction cpu mem n actPtr [w]

/-- Change the mask of a task as asked and return the old one. -/
def changeMask (how : Word) (newMask : Option Word) (t : Task) : Except SysError Word × Task :=
  match newMask with
  | none => (.ok t.signalState.blocked, t)
  | some mask =>
    match t.signalState.applyMask how mask with
    | none => (.error .invalidArgument, t)
    | some ss => (.ok t.signalState.blocked, { t with signalState := ss })

/-- The mask that `sys_sigprocmask` reads from user memory. -/
def readMask (mem : UserMem) (setPtr : Word) : Option Word :=
  if setPtr = 0 then none
  else some (Word.fromLeBytes ((List.range 8).map fun i => mem (setPtr + BitVec.ofNat 64 i)))

def sysSigprocmask (mem : UserMem) (how setPtr oldsetPtr : Word) : SignalOutcome × Scheduler :=
  if setPtr ≠ 0 ∧ userSpaceMax ≤ setPtr.toNat then (.fail .badPointer, s)
  else
    match s.withCurrentTaskMut cpu (changeMask how (readMask mem setPtr)) with
    | none => (.fail .notFound, s)
    | some (.error e, s') => (.fail e, s')
    | some (.ok old, s') =>
      if oldsetPtr ≠ 0 ∧ oldsetPtr.toNat < userSpaceMax then
        (⟨0, [⟨oldsetPtr, old.toLeBytes⟩]⟩, s')
      else (⟨0, []⟩, s')

end

/-- The `u64` at a user address. -/
def userWord (mem : UserMem) (a : Word) : Word :=
  Word.fromLeBytes ((List.range 8).map fun i => mem (a + BitVec.ofNat 64 i))

structure SignalFrame where
  (retAddr sigNum savedRdi savedRsp savedRcx savedR11 : Word)

/-- The frame that `sys_sigreturn` copies from the user stack. -/
def readFrame (mem : UserMem) (framePtr : Word) : SignalFrame where
  retAddr := userWord mem framePtr
  sigNum := userWord mem (framePtr + 8)
  savedRdi := userWord mem (framePtr + 16)
  savedRsp := userWord mem (framePtr + 24)
  savedRcx := userWord mem (framePtr + 32)
  savedR11 := userWord mem (framePtr + 40)

/-- The saved registers put back into a context. -/
def SignalFrame.restore (frame : SignalFrame) (ctx : SavedContext) : SavedContext :=
  { ctx with
    rsp := frame.savedRsp
    rcx := frame.savedRcx
    r11 := frame.savedR11
    rdi := frame.savedRdi }

namespace SignalFrame

variable (frame : SignalFrame) (ctx : SavedContext)

@[simp] theorem isKernel_restore : (frame.restore ctx).isKernel = ctx.isKernel := rfl

end SignalFrame

/-- Restore the context of a task, if it has one. -/
def restoreContext (frame : SignalFrame) (t : Task) : Unit × Task :=
  ((), { t with context := t.context.map frame.restore })

/-- `sys_sigreturn`; only the address of the frame is checked. -/
def sysSigreturn (s : Scheduler) (cpu : Cpu) (mem : UserMem) (framePtr : Word) :
    SignalOutcome × Scheduler :=
  if framePtr = 0 ∨ userSpaceMax ≤ framePtr.toNat then (.fail .badPointer, s)
  else
    match s.withCurrentTaskMut cpu (restoreContext (readFrame mem framePtr)) with
    | none => (⟨0, []⟩, s)
    | some ((), s') => (⟨0, []⟩, s')

/-! ## The calls as a component -/

/-- The signal calls; the kernel taking a task's next signal; and the scheduler
    making another task current, so that any task may be the caller. -/
inductive SignalOp
  | kill (cpu : Cpu) (pid sig : Word)
  | tgkill (cpu : Cpu) (tgid tid sig : Word)
  | signal (cpu : Cpu) (sig handler : Word)
  | rtSigaction (cpu : Cpu) (mem : UserMem) (sig actPtr oactPtr : Word)
  | sigprocmask (cpu : Cpu) (mem : UserMem) (how setPtr oldsetPtr : Word)
  | nextPending (cpu : Cpu) (id : TaskId)
  | setCurrent (cpu : Cpu) (id : TaskId)

inductive SignalRes
  | returned (o : SignalOutcome)
  | next (sig : Option Signum)
  | done

/-- `next_pending` on the signal state of a task. -/
def takeNext (t : Task) : Option Signum × Task :=
  (t.signalState.nextPending.1, { t with signalState := t.signalState.nextPending.2 })

def signalStep : StepFn Scheduler SignalOp SignalRes
  | s, .kill cpu pid sig =>
    let q := s.sysKill cpu pid sig
    some (.returned q.1, q.2)
  | s, .tgkill cpu tgid tid sig =>
    let q := s.sysTgkill cpu tgid tid sig
    some (.returned q.1, q.2)
  | s, .signal cpu sig handler =>
    let q := s.sysSignal cpu sig handler
    some (.returned q.1, q.2)
  | s, .rtSigaction cpu mem sig actPtr oactPtr =>
    let q := s.sysRtSigaction cpu mem sig actPtr oactPtr
    some (.returned q.1, q.2)
  | s, .sigprocmask cpu mem how setPtr oldsetPtr =>
    let q := s.sysSigprocmask cpu mem how setPtr oldsetPtr
    some (.returned q.1, q.2)
  | s, .nextPending cpu id =>
    match s.withTaskMut cpu id takeNext with
    | none => some (.next none, s)
    | some (r, s') => some (.next r, s')
  | s, .setCurrent cpu id => some (.done, s.setCurrentTask cpu id)

abbrev SignalEvent := Transition Scheduler SignalOp SignalRes

end Scheduler

end OpenOS
