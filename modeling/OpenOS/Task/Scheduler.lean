/-
  Per-CPU run queues, the global blocked queue and the functions that move
  tasks between them (kernel/src/task/scheduler.rs).

  A running task stays in its CPU's ready queue; `current` names it.  There is
  one CURRENT_TASK_ID for all CPUs, which the lookups of the current task use,
  while blocking uses the `current` field of the CPU's own queue.
-/

import OpenOS.Handle.Table
import OpenOS.Ipc.Channel
import OpenOS.Memory.Vma
import OpenOS.Task.Signal
import Mathlib.Algebra.BigOperators.Fin
import Mathlib.Algebra.Order.Group.Multiset

namespace OpenOS

open Function Base List

/-- A CPU index below MAX_CPUS. -/
abbrev Cpu := Fin 8

/-- The CPU the kernel starts on. -/
def bootCpu : Cpu := 0

/-- Execution state of a task. -/
inductive TaskState
  | ready
  | running
  | blocked
  | terminated
deriving DecidableEq

/-- Saved register state, in the order of the syscall entry stub. -/
structure SavedContext where
  (r9 r8 rdx rsi rdi rax r15 r14 r13 r12 rbx rbp r11 rcx rsp isKernel cr3 : Word)
deriving DecidableEq

/-- A shared memory attachment of a task. -/
structure ShmAttachment where
  shmid : BitVec 32
  virtAddr : Word
  size : Word
deriving DecidableEq

/-- A file descriptor: full path with the mount point, inode and offset. -/
structure FdEntry where
  path : String
  ino : Word
  offset : Word
deriving DecidableEq

def defaultEnv : List (String × String) :=
  [("HOME", "/"), ("PATH", "/bin:/usr/bin"), ("SHELL", "/bin/sh"), ("USER", "root")]

/-- A task, with the fields the scheduler and the system calls modelled here
    use; the defaults are those of `Task::new`. -/
structure Task where
  id : TaskId
  state : TaskState
  handleTable : HandleTable
  context : Option SavedContext
  pageTable : Option Word
  priority : BitVec 8 := 0
  parentId : Option TaskId := none
  exitStatus : Option Word := none
  vmaList : Memory.VmaList := []
  signalState : SignalState := .new
  shmAttachments : List ShmAttachment := []
  name : String := ""
  fdTable : Word → Option FdEntry := fun _ => none
  /-- The environment, in the order of its keys. -/
  env : List (String × String) := defaultEnv
  cwd : String := "/"
  /-- The program break, 0 before the first sys_brk. -/
  brk : Word := 0

/-- Per-CPU run queue. -/
structure CpuQueue where
  ready : List Task
  current : Option TaskId

/-- The global scheduler state. -/
structure Scheduler where
  cpus : Cpu → CpuQueue
  /-- BLOCKED_QUEUE. -/
  blocked : List Task
  /-- BLOCKED_CPU_MAP. -/
  blockedCpuMap : TaskId → Option Cpu
  /-- CURRENT_TASK_ID, shared by all CPUs. -/
  currentTaskId : TaskId
  /-- SWITCH_CONTEXT, with the context it points to. -/
  switchContext : Option SavedContext
  /-- MIGRATION_QUEUE. -/
  migration : List Task := []

/-! ## Queues -/

/-- Find the first task with this id and remove it. -/
def takeById (id : TaskId) : List Task → Option (Task × List Task)
  | [] => none
  | t :: ts =>
    if t.id = id then some (t, ts)
    else (takeById id ts).map fun q => (q.1, t :: q.2)

/-- Run `f` on the first task with this id. -/
def modifyById {R : Type} (id : TaskId) (f : Task → R × Task) :
    List Task → Option (R × List Task)
  | [] => none
  | t :: ts =>
    if t.id = id then some ((f t).1, (f t).2 :: ts)
    else (modifyById id f ts).map fun q => (q.1, t :: q.2)

/-- Push a task to the back of a CPU's ready queue. -/
def pushReady (cpus : Cpu → CpuQueue) (cpu : Cpu) (task : Task) : Cpu → CpuQueue :=
  update cpus cpu { cpus cpu with ready := (cpus cpu).ready ++ [task] }

namespace Scheduler

/-! ## The current task -/

section

variable (s : Scheduler) (cpu : Cpu) (id : TaskId)

/-- Set the current task of a CPU. -/
def setCurrentTask : Scheduler :=
  { s with
    currentTaskId := id
    cpus := update s.cpus cpu { s.cpus cpu with current := some id } }

/-- The current task as the lookups see it: in this CPU's queue, else blocked. -/
def withCurrentTask : Option Task :=
  ((s.cpus cpu).ready.find? fun t => t.id = s.currentTaskId).or
    (s.blocked.find? fun t => t.id = s.currentTaskId)

/-- Run `f` on the current task. -/
def withCurrentTaskMut {R : Type} (s : Scheduler) (cpu : Cpu) (f : Task → R × Task) :
    Option (R × Scheduler) :=
  match modifyById s.currentTaskId f (s.cpus cpu).ready with
  | some (r, ready) =>
    some (r, { s with cpus := update s.cpus cpu { s.cpus cpu with ready := ready } })
  | none =>
    match modifyById s.currentTaskId f s.blocked with
    | some (r, blocked) => some (r, { s with blocked := blocked })
    | none => none

/-! ## Blocking and waking -/

/-- Wake a blocked task, on the CPU it was blocked on; a no-op when the task is
    not in the blocked queue. -/
def wakeTaskById : Scheduler :=
  match takeById id s.blocked with
  | none => s
  | some (task, blocked) =>
    { s with
      blocked := blocked
      blockedCpuMap := update s.blockedCpuMap id none
      -- without a record of the CPU it goes to the one that wakes it
      cpus := pushReady s.cpus ((s.blockedCpuMap id).getD cpu) { task with state := .ready } }

/-- Move the current task from the blocked queue back to the ready queue. -/
def unblockCurrent : Scheduler :=
  match (s.cpus cpu).current with
  | none => s
  | some id =>
    match takeById id s.blocked with
    | none => s
    | some (task, blocked) =>
      { s with blocked := blocked, cpus := pushReady s.cpus cpu { task with state := .ready } }

/-- First half of `block_and_switch`: save the context of the CPU's current
    task and move it to the blocked queue, if it is in the ready queue. -/
def parkCurrent (ctx : SavedContext) : Scheduler :=
  match takeById id (s.cpus cpu).ready with
  | none => s
  | some (task, ready) =>
    { s with
      cpus := update s.cpus cpu { s.cpus cpu with ready := ready }
      blockedCpuMap := update s.blockedCpuMap id (some cpu)
      blocked := s.blocked ++ [{ task with state := .blocked, context := some ctx }] }

/-- Second half: make the front of the ready queue the current task. -/
def pickNext : Bool × Scheduler :=
  match (s.cpus cpu).ready with
  | [] => (false, s)
  | task :: rest =>
    -- the task stays in the ready queue, at its back, while it runs
    let next := { task with state := .running }
    let s' := { s with
      cpus := update s.cpus cpu ⟨rest ++ [next], some next.id⟩
      currentTaskId := next.id }
    match next.context with
    | some ctx =>
      (true, { s' with switchContext := some { ctx with cr3 := next.pageTable.getD 0 } })
    -- no context: `current` has moved on although no switch is reported
    | none => (false, s')

/-- Block the current task and switch to the next ready task; whether a
    context switch happened. -/
def blockAndSwitch (ctx : SavedContext) : Bool × Scheduler :=
  match (s.cpus cpu).current with
  | none => (false, s)
  | some id => (s.parkCurrent cpu id ctx).pickNext cpu

end

/-! ## Updating the current task -/

variable {id : TaskId}

/-- Running `f` on the first task with an id replaces that task in place. -/
theorem modifyById_eq_some (h : modifyById id f q = some (r, q')) :
    ∃ q₁ t q₂, q = q₁ ++ t :: q₂ ∧ q' = q₁ ++ (f t).2 :: q₂ ∧ r = (f t).1 ∧
      q.find? (fun t => t.id = id) = some t ∧
      ((f t).2.id = t.id → q'.find? (fun t => t.id = id) = some (f t).2) := by
  -- the first task with the id is the one `find?` finds, before and after
  induction q generalizing q' with
  | nil => cases h
  | cons x xs ih =>
    simp only [modifyById] at h
    split at h
    · rename_i hid
      cases h
      refine ⟨[], x, xs, rfl, rfl, rfl, ?_, ?_⟩
      · rw [find?_cons_of_pos]
        exact decide_eq_true hid
      · intro hsame
        rw [find?_cons_of_pos]
        exact decide_eq_true (hsame.trans hid)
    · rename_i hid
      rw [Option.map_eq_some_iff] at h
      obtain ⟨⟨r', rest⟩, hrest, heq⟩ := h
      cases heq
      obtain ⟨q₁, t, q₂, rfl, rfl, hr, hfind, hfind'⟩ := ih hrest
      refine ⟨x :: q₁, t, q₂, rfl, rfl, hr, ?_, fun hsame => ?_⟩
      · rw [find?_cons_of_neg (by simpa using hid), hfind]
      · rw [find?_cons_of_neg (by simpa using hid), hfind' hsame]

theorem modifyById_eq_none (h : modifyById id f q = none) :
    q.find? (fun t => t.id = id) = none := by
  induction q with
  | nil => rfl
  | cons x xs ih =>
    simp only [modifyById] at h
    split at h
    · cases h
    · rename_i hid
      rw [Option.map_eq_none_iff] at h
      rw [find?_cons_of_neg (by simpa using hid), ih h]

end Scheduler

end OpenOS
