/-
  Exit statuses: `get_exit_status` (kernel/src/task/scheduler.rs) and the system
  call `sys_process_wait` that polls it (kernel/src/syscall/mod.rs).

  `terminate_current` writes the status into the task it has just taken off the
  ready queue and then drops that task.  The status is looked up in the queues
  only, where no task ever has one: over every run, `get_exit_status` answers
  `None` in every state, and a wait without a timeout never returns.
-/

import OpenOS.Task.Conservation
import OpenOS.Syscall.Channel

namespace OpenOS.Scheduler

open Base Multiset

/-! ## The system call -/

/-- `get_exit_status`: of the first task with this id in the ready queues of all
    CPUs, else among the blocked tasks. -/
def getExitStatus (s : Scheduler) (id : TaskId) : Option Word :=
  match (List.finRange 8).findSome? fun c => (s.cpus c).ready.find? fun t => t.id = id with
  | some task => task.exitStatus
  | none => (s.blocked.find? fun t => t.id = id).bind Task.exitStatus

/-- `i64::try_from(status).unwrap_or(0)` -/
def waitStatus (status : Word) : Int :=
  if status.toNat < 2 ^ 63 then status.toNat else 0

/-- How a turn of the loop of `sys_process_wait` ends. -/
inductive WaitTurn
  | returned (r : Int)
  /-- `hlt`, and another turn. -/
  | halted
  | panicked
deriving DecidableEq

/-- u64::MAX, the timeout that waits forever. -/
def waitForever : Word := BitVec.allOnes 64

/-- One turn of the loop, with the tick counter it reads. -/
def waitTurn (p : Profile) (s : Scheduler) (child : TaskId) (timeout start now : Word) :
    WaitTurn :=
  match s.getExitStatus child with
  | some status => .returned (waitStatus status)
  | none =>
    if timeout = 0 then .returned SysError.wouldBlock.code
    else if timeout = waitForever then .halted
    else
      match p.sub now start with
      | none => .panicked
      | some elapsed =>
        if timeout ≤ elapsed then .returned SysError.wouldBlock.code else .halted

/-- `sys_process_wait`, by the scheduler and the tick counter that each turn of
    its loop finds; `halted` when these do not end the wait. -/
def sysProcessWait (p : Profile) (child : TaskId) (timeout start : Word) :
    List (Scheduler × Word) → WaitTurn
  | [] => .halted
  | (s, now) :: looks =>
    match waitTurn p s child timeout start now with
    | .halted => sysProcessWait p child timeout start looks
    | r => r

/-! ## Runs with waiting tasks -/

inductive WaitOp
  | sched (op : Op)
  /-- A turn of a `sys_process_wait` of some task for this child. -/
  | look (p : Profile) (child : TaskId) (timeout start now : Word)

inductive WaitRes
  | sched (r : Res)
  | looked (r : WaitTurn)

def waitStep : StepFn Scheduler WaitOp WaitRes
  | s, .sched op => (step s op).map fun (r, s') => (.sched r, s')
  | s, .look p child timeout start now =>
    some (.looked (waitTurn p s child timeout start now), s)

/-- The task that exits in a step, with its status. -/
def exitedBy (e : Transition Scheduler WaitOp WaitRes) : Option (TaskId × Word) :=
  match e.op with
  | .sched (.terminateCurrent cpu status) => (e.pre.runningTask cpu).map fun t => (t.id, status)
  | _ => none

/-- A wait for this child has returned its status. -/
def Collects (c : TaskId) (status : Word) (e : Transition Scheduler WaitOp WaitRes) : Prop :=
  (∃ p timeout start now, e.op = .look p c timeout start now) ∧
    e.res = .looked (.returned (waitStatus status))

/-- `s₁` is a state of the run `tr`, reached after task `c` has exited with this
    status and before the status has been collected; `before` are the steps up
    to the exit. -/
def Uncollected (s₀ : Scheduler) (tr before : List (Transition Scheduler WaitOp WaitRes))
    (c : TaskId) (status : Word) (s₁ : Scheduler) : Prop :=
  ∃ e after, before ++ e :: after <+: tr ∧ Run waitStep s₀ (before ++ e :: after) s₁ ∧
    exitedBy e = some (c, status) ∧ ∀ e' ∈ after, ¬ Collects c status e'

/-- Every exit status can be read until it is collected, and a wait for it
    without a timeout returns it, whether it began before or after the exit. -/
structure StatusReachesWaiter (s₀ : Scheduler)
    (tr : List (Transition Scheduler WaitOp WaitRes)) : Prop where
  kept : ∀ before c status s₁, Uncollected s₀ tr before c status s₁ →
    s₁.getExitStatus c = some status
  returned : ∀ before c status s₁, Uncollected s₀ tr before c status s₁ →
    status.toNat < 2 ^ 63 → ∀ p start now looks,
      (∀ look ∈ looks, ∃ tr₁, tr₁ <+: before ∧ Run waitStep s₀ tr₁ look.1) →
      sysProcessWait p c waitForever start (looks ++ [(s₁, now)]) = .returned status.toNat

/-! ## No queued task has an exit status -/

/-- The tasks in the queues have not exited. -/
def NoStatus (s : Scheduler) : Prop := ∀ t ∈ s.tasks, t.exitStatus = none

variable {tr : List (Transition Scheduler WaitOp WaitRes)}

theorem noStatus_iff : NoStatus s ↔ ∀ st ∈ s.tasks.map Task.exitStatus, st = none := by
  simp [NoStatus]

theorem Move.noStatus (h : Move s s') (hs : NoStatus s) : NoStatus s' := by
  rw [noStatus_iff, h.map_tasks (fun _ _ => rfl) (fun _ _ => rfl)]
  exact noStatus_iff.mp hs

/-- A step takes no task with a status into the queues: the only one it makes is
    the one `terminate_current` drops. -/
theorem noStatus_of_effect (heff : Effect e)
    (hspawn : ∀ t, e.op.newTask = some t → t.exitStatus = none) (hs : NoStatus e.pre) :
    NoStatus e.post := by
  cases heff with
  | spawn t hop _ _ hready hblocked hmigration =>
    intro t' ht'
    rw [tasks, hready, hblocked, hmigration, cons_add, cons_add, mem_cons] at ht'
    rcases ht' with rfl | hold
    · exact hspawn t' hop
    · exact hs t' hold
  | moves s₁ _ _ h₁ h₂ => exact h₂.noStatus (h₁.noStatus hs)
  | terminate t s₁ _ _ hready hblocked hmigration hmove =>
    apply hmove.noStatus
    intro t' ht'
    apply hs t'
    rw [tasks, hblocked, hmigration] at ht'
    rw [tasks, hready]
    exact mem_cons_of_mem ht'

/-- The tasks a step spawns are new ones: they have no exit status. -/
def SpawnsRunning (e : Transition Scheduler WaitOp WaitRes) : Prop :=
  ∀ op t, e.op = .sched op → op.newTask = some t → t.exitStatus = none

theorem noStatus_of_run (hstart : NoStatus s₀) (hrun : Run waitStep s₀ tr s)
    (hspawn : ∀ e ∈ tr, SpawnsRunning e) : NoStatus s := by
  refine Run.invariant_of_guard (I := fun _ s => NoStatus s)
    hstart ?_ hrun (Run.guard_of_forall_mem hspawn)
  intro tr s a r s' hI hstep hG
  cases a with
  | sched op =>
    obtain ⟨⟨r₁, s₁⟩, hs, heq⟩ := Option.map_eq_some_iff.mp hstep
    cases heq
    have hpost := noStatus_of_effect (step_effect hs) (fun t => hG op t rfl) hI
    exact hpost
  | look p child timeout start now =>
    cases hstep
    exact hI

/-- So there is no status to find. -/
theorem getExitStatus_of_noStatus (hs : NoStatus s) (c : TaskId) : s.getExitStatus c = none := by
  unfold getExitStatus
  split
  · rename_i task hfind
    obtain ⟨cpu, -, hcpu⟩ := List.exists_of_findSome?_eq_some hfind
    exact hs task (mem_tasks.mpr (.inl (mem_readyTasks.mpr ⟨cpu, List.mem_of_find?_eq_some hcpu⟩)))
  · rw [Option.bind_eq_none_iff]
    intro t ht
    exact hs t (mem_tasks.mpr (.inr (.inl (List.mem_of_find?_eq_some ht))))

/-! ## The exit status of a run -/

/-- An exit is seen by its waiter in no run: the statuses of a run reach their
    waiters exactly when no task exits in it. -/
theorem statusReachesWaiter_iff {s₀ s : Scheduler}
    {tr : List (Transition Scheduler WaitOp WaitRes)} (hstart : NoStatus s₀)
    (hrun : Run waitStep s₀ tr s) (hspawn : ∀ e ∈ tr, SpawnsRunning e) :
    StatusReachesWaiter s₀ tr ↔ ∀ e ∈ tr, exitedBy e = none := by
  constructor
  · -- in the state right after an exit there is no status to read
    intro h e he
    rw [Option.eq_none_iff_forall_ne_some]
    rintro ⟨c, status⟩ hexit
    obtain ⟨before, hpre, hrun₁, hs⟩ := hrun.of_mem he
    have hpost : Run waitStep s₀ (before ++ [e]) e.post := Run.snoc hrun₁ hs
    have hkept := h.kept before c status e.post ⟨e, [], hpre, hpost, hexit, by simp⟩
    have hnone : NoStatus e.post :=
      noStatus_of_run hstart hpost fun e' he' => hspawn e' (hpre.subset he')
    rw [getExitStatus_of_noStatus hnone] at hkept
    cases hkept
  · intro hnone
    have hnever : ∀ before c status s₁, ¬ Uncollected s₀ tr before c status s₁ := by
      rintro before c status s₁ ⟨e, after, hpre, -, hexit, -⟩
      rw [hnone e (hpre.subset (by simp))] at hexit
      cases hexit
    exact ⟨fun before c status s₁ h => absurd h (hnever before c status s₁),
      fun before c status s₁ h => absurd h (hnever before c status s₁)⟩

theorem noStatus_of_atStart (h : AtStart s) : NoStatus s := by
  intro t ht
  cases h with
  | empty =>
    rw [mem_tasks, mem_readyTasks] at ht
    simp [empty] at ht
  | init idleId ctx =>
    rw [tasks, readyTasks, init, sum_update_split] at ht
    simp only [othersReady, empty, List.nil_append, coe_nil, Finset.sum_const_zero,
      add_zero, coe_singleton, mem_singleton] at ht
    rw [ht]
    rfl

/-- Task 2, a child of task 1, runs and exits with status 7. -/
def childExits : List WaitOp :=
  [.sched (.spawnTaskOnCurrent bootCpu { Task.new 2 5 with parentId := some 1 }),
    .sched (.scheduleNextLocal bootCpu), .sched (.terminateCurrent bootCpu 7)]

theorem spawnsRunning_childExits
    (h : tr.map Transition.op = childExits) : ∀ e ∈ tr, SpawnsRunning e := by
  intro e he op t hop hnew
  have hmem : e.op ∈ childExits := h ▸ List.mem_map_of_mem he
  rw [hop] at hmem
  simp only [childExits, List.mem_cons, WaitOp.sched.injEq, List.not_mem_nil, or_false] at hmem
  rcases hmem with rfl | rfl | rfl
  · cases hnew
    rfl
  · cases hnew
  · cases hnew

theorem statusReachesWaiter_iff_childExits :
    ∃ tr s, Run waitStep (empty.init 1 idleContext) tr s ∧
      tr.map Transition.op = childExits ∧
      ¬ StatusReachesWaiter (empty.init 1 idleContext) tr := by
  have hrun := exec_run waitStep (empty.init 1 idleContext) childExits rfl
  refine ⟨_, _, hrun, rfl, fun h => ?_⟩
  have hnone := (statusReachesWaiter_iff (noStatus_of_atStart (.init 1 idleContext)) hrun
    (spawnsRunning_childExits rfl)).mp h
  have hexit := hnone _ (List.mem_cons_of_mem _ (List.mem_cons_of_mem _ List.mem_cons_self))
  cases hexit

/-- The exit status 7 of task 2 is nowhere to be read right after the exit, and
    its parent waits forever. -/
theorem exit_status_lost :
    ∃ tr s, Run waitStep (empty.init 1 idleContext) tr s ∧ tr.map Transition.op = childExits ∧
      tr.getLast?.bind exitedBy = some (2, 7) ∧ s.getExitStatus 2 = none ∧
      ∀ p start now, sysProcessWait p 2 waitForever start [(s, now)] = .halted := by
  have hrun := exec_run waitStep (empty.init 1 idleContext) childExits rfl
  refine ⟨_, _, hrun, rfl, by decide, by decide, ?_⟩
  intro p start now
  rfl

end OpenOS.Scheduler
