/-
  Giving up the CPU: the two yielding system calls, the preemption at system
  call entry, `sleep_until_tick` and the waiting turn of `sys_poll`
  (kernel/src/syscall/mod.rs), with the timer interrupt
  (kernel/src/arch/x86_64/interrupts.rs).

  All five go through `block_and_switch`, which moves the task to the blocked
  queue.  From there only a wake-up by id, the exit of a child or
  `unblock_current` takes it back: the timer interrupt touches no queue.
-/

import OpenOS.Task.Conservation

namespace OpenOS

open Base Multiset Option BitVec

/-- The scheduler with TICKS and NEED_RESCHEDULE. -/
structure Clocked where
  sched : Scheduler
  ticks : Word
  needReschedule : Bool

namespace Clocked

/-! ## The timer -/

/-- PREEMPT_INTERVAL -/
def preemptInterval : Nat := 18

/-- `timer_interrupt_handler`: the counter wraps, the sum it is compared by is
    checked. -/
def timerInterruptHandler (p : Profile) (m : Clocked) : Option Clocked :=
  (p.add m.ticks 1).map fun ticks =>
    { m with
      ticks := m.ticks + 1
      needReschedule := m.needReschedule || ticks.toNat % preemptInterval = 0 }

/-! ## Ways to give up the CPU -/

section

variable (m : Clocked) (cpu : Cpu) (ctx : SavedContext)

/-- `block_and_switch` with the captured context. -/
def blockCurrent : Clocked := { m with sched := (m.sched.blockAndSwitch cpu ctx).2 }

/-- `sys_thread_yield`; it returns 0 whether a switch happened or not. -/
def sysThreadYield : Clocked := m.blockCurrent cpu ctx

def sysSchedYield : Clocked := m.blockCurrent cpu ctx

/-- The preemption check at the entry of `handle_syscall_raw`. -/
def preempt : Clocked :=
  if m.needReschedule then { m with needReschedule := false }.blockCurrent cpu ctx else m

/-- A turn of the loop of `sleep_until_tick`: `none` when it returns. -/
def sleepTurn (target : Word) : Option Clocked :=
  if target ≤ m.ticks then none else some (m.blockCurrent cpu ctx)

end

/-- The timeout of `sys_poll` in ticks of ten milliseconds. -/
def pollTicks (timeoutMs : Word) : Word :=
  if timeoutMs = 0 then 0
  else if timeoutMs = allOnes 64 then allOnes 64
  else BitVec.ofNat 64 ((timeoutMs.toNat + 9) / 10)

/-- How a turn of the loop of `sys_poll` ends. -/
inductive PollTurn
  | returned (ready : Word)
  | panicked
  | waits (m : Clocked)

/-- A turn of the loop of `sys_poll`, given the number of ready descriptors its
    scan has counted. -/
def pollTurn (p : Profile) (m : Clocked) (cpu : Cpu) (ctx : SavedContext)
    (timeoutMs start ready : Word) : PollTurn :=
  if 0 < ready ∨ timeoutMs = 0 then .returned ready
  else if pollTicks timeoutMs = allOnes 64 then .waits (m.blockCurrent cpu ctx)
  else
    match p.sub m.ticks start with
    | none => .panicked
    | some elapsed =>
      if pollTicks timeoutMs ≤ elapsed then .returned 0 else .waits (m.blockCurrent cpu ctx)

/-- The task running on `cpu` gives up the CPU in state `m`; `deadline` is the
    tick count at which it wants to run again, `none` for at once. -/
inductive GivesUp (m : Clocked) (cpu : Cpu) (ctx : SavedContext) : Option Nat → Clocked → Prop
  | threadYield : GivesUp m cpu ctx none (m.sysThreadYield cpu ctx)
  | schedYield : GivesUp m cpu ctx none (m.sysSchedYield cpu ctx)
  | preempted (hneed : m.needReschedule = true) : GivesUp m cpu ctx none (m.preempt cpu ctx)
  | sleep {target : Word} {m' : Clocked} (h : m.sleepTurn cpu ctx target = some m') :
      GivesUp m cpu ctx (some target.toNat) m'
  | poll {p : Profile} {timeoutMs start ready : Word} {m' : Clocked}
      (hfinite : timeoutMs ≠ allOnes 64)
      (h : pollTurn p m cpu ctx timeoutMs start ready = .waits m') :
      GivesUp m cpu ctx (some (start.toNat + (pollTicks timeoutMs).toNat)) m'

theorem GivesUp.sched_eq (h : GivesUp m cpu ctx deadline m') :
    m'.sched = (m.sched.blockAndSwitch cpu ctx).2 := by
  cases h with
  | threadYield => rfl
  | schedYield => rfl
  | preempted hneed =>
    rw [preempt, if_pos hneed]
    rfl
  | sleep h => grind [sleepTurn, blockCurrent]
  | poll _ h => grind [pollTurn, blockCurrent]

/-! ## The runs of the other tasks -/

inductive ClockOp
  | tick (p : Profile)
  | sched (op : Scheduler.Op)

/-- The timer and the scheduler's functions, on any CPUs. -/
def clockStep : StepFn Clocked ClockOp Unit
  | m, .tick p => (m.timerInterruptHandler p).map fun m' => ((), m')
  | m, .sched op => (Scheduler.step m.sched op).map fun (_, s) => ((), { m with sched := s })

end Clocked

namespace Scheduler

/-! ## What takes a task out of the blocked queue -/

/-- The operation wakes this task. -/
def Wakes (id : TaskId) (s : Scheduler) : Op → Prop
  | .wakeTaskById _ id' => id' = id
  | .unblockCurrent cpu => (s.cpus cpu).current = some id
  | .terminateCurrent cpu _ => ∃ t, s.runningTask cpu = some t ∧ t.parentId = some id
  | _ => False

/-- The task is in a ready queue. -/
def InReady (id : TaskId) (s : Scheduler) : Prop := ∃ t ∈ s.readyTasks, t.id = id

variable {id : TaskId} {s : Scheduler}

theorem mem_rest_of_takeById (h : takeById id q = some (t, rest)) (hi : i ∈ q.map Task.id)
    (hne : i ≠ id) : i ∈ rest.map Task.id := by
  obtain ⟨hid, hq⟩ := coe_of_takeById h
  have hmem : i ∈ (q : Multiset Task).map Task.id := hi
  rw [hq, map_cons, mem_cons] at hmem
  rcases hmem with heq | hrest
  · exact absurd (heq.trans hid) hne
  · exact hrest

section BlockedSteps

variable (cpu : Cpu)

theorem blockedIds_wakeTaskById_of_ne (h : id ∈ s.blockedIds) (hne : id ≠ id') :
    id ∈ (s.wakeTaskById cpu id').blockedIds := by
  unfold wakeTaskById
  split
  · exact h
  · rename_i task blocked htake
    exact mem_rest_of_takeById htake h hne

theorem blockedIds_unblockCurrent_of_ne (h : id ∈ s.blockedIds)
    (hne : (s.cpus cpu).current ≠ some id) : id ∈ (s.unblockCurrent cpu).blockedIds := by
  unfold unblockCurrent
  split
  · exact h
  rename_i id' hcur
  split
  · exact h
  rename_i task blocked htake
  refine mem_rest_of_takeById htake h ?_
  rintro rfl
  exact hne hcur

theorem blockedIds_blockAndSwitch (ctx : SavedContext) (h : id ∈ s.blockedIds) :
    id ∈ (s.blockAndSwitch cpu ctx).2.blockedIds := by
  unfold blockAndSwitch
  split
  · exact h
  rw [blockedIds_pickNext]
  unfold parkCurrent
  split
  · exact h
  · exact List.map_subset _ (List.subset_append_left _ _) h

theorem blockedIds_terminateCurrent (status : Word) (h : id ∈ s.blockedIds)
    (hne : ∀ t, s.runningTask cpu = some t → t.parentId ≠ some id) :
    id ∈ (s.terminateCurrent cpu status).2.blockedIds := by
  unfold terminateCurrent
  split
  · exact h
  rename_i id' hcur
  split
  · exact h
  rename_i t s' htake
  obtain ⟨-, -, hblocked, -⟩ := s.takeReady_eq_some cpu htake
  have hold : id ∈ s'.blockedIds := by
    rwa [blockedIds, hblocked]
  split
  · exact hold
  rename_i parent hparent
  refine blockedIds_wakeTaskById_of_ne cpu hold ?_
  rintro rfl
  exact hne t (s.runningTask_of_takeReady cpu hcur htake) hparent

theorem inReady_wakeTaskById (h : id ∈ s.blockedIds) : InReady id (s.wakeTaskById cpu id) := by
  unfold wakeTaskById
  split
  · rename_i htake
    exact absurd h (takeById_eq_none htake)
  rename_i task blocked htake
  refine ⟨{ task with state := .ready }, ?_, (coe_of_takeById htake).1⟩
  rw [readyTasks, sum_pushReady_tasks]
  exact mem_cons_self _ _

theorem inReady_unblockCurrent (h : id ∈ s.blockedIds) (hcur : (s.cpus cpu).current = some id) :
    InReady id (s.unblockCurrent cpu) := by
  unfold unblockCurrent
  rw [hcur]
  dsimp only
  split
  · rename_i htake
    exact absurd h (takeById_eq_none htake)
  rename_i task blocked htake
  refine ⟨{ task with state := .ready }, ?_, (coe_of_takeById htake).1⟩
  rw [readyTasks, sum_pushReady_tasks]
  exact mem_cons_self _ _

theorem inReady_terminateCurrent (status : Word) (h : id ∈ s.blockedIds)
    (hrunning : s.runningTask cpu = some t) (hparent : t.parentId = some id) :
    InReady id (s.terminateCurrent cpu status).2 := by
  obtain ⟨hcur, s', htake⟩ := s.takeReady_of_runningTask cpu hrunning
  obtain ⟨-, -, hblocked, -⟩ := s.takeReady_eq_some cpu htake
  simp only [terminateCurrent, hcur, htake, hparent]
  apply inReady_wakeTaskById
  rwa [blockedIds, hblocked]

end BlockedSteps

/-- A step that does not wake a blocked task leaves it blocked. -/
theorem blockedIds_step (hstep : step s op = some (r, s'))
    (h : id ∈ s.blockedIds) (hwakes : ¬ Wakes id s op) : id ∈ s'.blockedIds := by
  have hspawn : ∀ cpu t, id ∈ (s.spawnOn cpu t).2.blockedIds := by
    intro cpu t
    unfold spawnOn
    split
    · exact h
    · exact h
  cases op with
  | spawnTask id priority =>
    cases hstep
    exact hspawn _ _
  | spawnTaskFrom task =>
    cases hstep
    exact hspawn _ _
  | spawnTaskOnCurrent cpu task =>
    cases hstep
    exact hspawn _ _
  | scheduleNextLocal cpu =>
    obtain ⟨⟨r', s''⟩, hsched, heq⟩ := map_eq_some_iff.mp hstep
    cases heq
    revert hsched
    fun_cases scheduleNextLocal s cpu <;> grind [blockedIds]
  | blockAndSwitch cpu ctx =>
    cases hstep
    exact blockedIds_blockAndSwitch cpu ctx h
  | unblockCurrent cpu =>
    cases hstep
    exact blockedIds_unblockCurrent_of_ne cpu h hwakes
  | wakeTaskById cpu id' =>
    cases hstep
    exact blockedIds_wakeTaskById_of_ne cpu h fun heq => hwakes heq.symm
  | migrateTask id' fromCpu toCpu =>
    cases hstep
    unfold migrateTask
    split
    · split
      · exact h
      rename_i t s' htake
      obtain ⟨-, -, hblocked, -⟩ := s.takeReady_eq_some _ htake
      rwa [hblocked]
    · exact h
  | pushMigration cpu id' =>
    simp only [step] at hstep
    split at hstep
    · cases hstep
      exact h
    rename_i t s' htake
    obtain ⟨-, -, hblocked, -⟩ := s.takeReady_eq_some cpu htake
    cases hstep
    show id ∈ s'.blocked.map Task.id
    rwa [hblocked]
  | stealFromMigration cpu =>
    cases hstep
    unfold stealFromMigration
    split
    · exact h
    · exact h
  | terminateCurrent cpu status =>
    cases hstep
    exact blockedIds_terminateCurrent cpu status h fun t ht hparent => hwakes ⟨t, ht, hparent⟩

theorem inReady_step (hstep : step s op = some (r, s'))
    (h : id ∈ s.blockedIds) (hwakes : Wakes id s op) : InReady id s' := by
  cases op with
  | wakeTaskById cpu id' =>
    cases hstep
    obtain rfl : id' = id := hwakes
    exact inReady_wakeTaskById cpu h
  | unblockCurrent cpu =>
    cases hstep
    exact inReady_unblockCurrent cpu h hwakes
  | terminateCurrent cpu status =>
    cases hstep
    obtain ⟨t, hrunning, hparent⟩ := hwakes
    exact inReady_terminateCurrent cpu status h hrunning hparent
  | _ => exact hwakes.elim

theorem nodup_ids_of_effect (heff : Effect e)
    (hfresh : ∀ t, e.op.newTask = some t → t.id ∉ e.pre.ids) (hnd : e.pre.ids.Nodup) :
    e.post.ids.Nodup := by
  cases heff with
  | spawn t hop _ _ hready hblocked hmigration =>
    have hnew : e.post.ids = t.id ::ₘ e.pre.ids := by
      rw [ids, tasks, hready, hblocked, hmigration, ids, tasks]
      simp
    rw [hnew]
    exact nodup_cons.mpr ⟨hfresh t hop, hnd⟩
  | moves s₁ _ _ h₁ h₂ =>
    rwa [h₂.ids_eq, h₁.ids_eq]
  | terminate t s₁ _ _ hready hblocked hmigration hmove =>
    have hold : e.pre.ids = t.id ::ₘ s₁.ids := by
      rw [ids, tasks, hready, ids, tasks, hblocked, hmigration]
      simp
    rw [hold, nodup_cons] at hnd
    rw [hmove.ids_eq]
    exact hnd.2

theorem not_inReady_of_blocked (hnd : s.ids.Nodup) (h : id ∈ s.blockedIds) : ¬ InReady id s := by
  rintro ⟨t, ht, rfl⟩
  rw [ids, tasks, map_add, map_add] at hnd
  have hdisj := (nodup_add.mp (nodup_add.mp hnd).1).2.2
  exact disjoint_left.mp hdisj (mem_map_of_mem Task.id ht) h

theorem mem_blockedIds_of_running (h : s.runningTask cpu = some t) (ctx : SavedContext) :
    t.id ∈ (s.blockAndSwitch cpu ctx).2.blockedIds := by
  obtain ⟨hcur, s', htake⟩ := s.takeReady_of_runningTask cpu h
  obtain ⟨⟨t', ready⟩, htake, heq⟩ := map_eq_some_iff.mp htake
  obtain ⟨rfl, -⟩ := Prod.mk.inj heq
  simp only [blockAndSwitch, hcur]
  rw [blockedIds_pickNext]
  simp [parkCurrent, htake, blockedIds]

theorem nodup_ids_blockAndSwitch (hnd : s.ids.Nodup) (cpu : Cpu)
    (ctx : SavedContext) : (s.blockAndSwitch cpu ctx).2.ids.Nodup := by
  have heff : Effect ⟨s, .blockAndSwitch cpu ctx, .flag (s.blockAndSwitch cpu ctx).1,
    (s.blockAndSwitch cpu ctx).2⟩ := step_effect rfl
  have hpost := nodup_ids_of_effect heff (fun t ht => nomatch ht) hnd
  exact hpost

end Scheduler

namespace Clocked

open Scheduler

/-! ## When the task is ready again -/

/-- The task is at the back of a ready queue: behind it there is at most the
    running task, which stays in the queue. -/
def ReadyAtBack (id : TaskId) (s : Scheduler) : Prop :=
  ∃ cpu before t after, (s.cpus cpu).ready = before ++ t :: after ∧ t.id = id ∧
    ∀ t' ∈ after, (s.cpus cpu).current = some t'.id

/-- The task has been in a ready queue in some state of the run. -/
def BackBy (id : TaskId) (m : Clocked) (tr : List (Transition Clocked ClockOp Unit)) : Prop :=
  ∃ tr₁ s₁, tr₁ <+: tr ∧ Run clockStep m tr₁ s₁ ∧ InReady id s₁.sched

section

variable (deadline : Option Nat) (id : TaskId) (m : Clocked)
  (tr : List (Transition Clocked ClockOp Unit))

/-- After yielding in `m` the task is ready at once, at the back of a queue;
    with a deadline, it is ready again by the time the tick counter reaches it. -/
def Resumes : Prop :=
  match deadline with
  | none => ReadyAtBack id m.sched ∧ id ∉ m.sched.blockedIds
  | some d => ∀ tr₁ s₁, tr₁ <+: tr → Run clockStep m tr₁ s₁ → d ≤ s₁.ticks.toNat →
      BackBy id m tr₁

/-- The step wakes the task. -/
def WokenBy (e : Transition Clocked ClockOp Unit) : Prop :=
  ∃ op, e.op = .sched op ∧ Wakes id e.pre.sched op

/-- There is a deadline, and a step of the run wakes the task before it. -/
def WokenInTime : Prop :=
  match deadline with
  | none => False
  | some d => ∀ tr₁ s₁, tr₁ <+: tr → Run clockStep m tr₁ s₁ → d ≤ s₁.ticks.toNat →
      ∃ e ∈ tr₁, WokenBy id e

/-- The tasks spawned have ids that are not in use. -/
def SpawnsUnused (e : Transition Clocked ClockOp Unit) : Prop :=
  ∀ op t, e.op = .sched op → op.newTask = some t → t.id ∉ e.pre.sched.ids

/-- What a step keeps: the ids are distinct and the task is blocked. -/
def Parked : Prop := m.sched.ids.Nodup ∧ id ∈ m.sched.blockedIds

end

variable {id : TaskId}

/-- A step keeps a blocked task blocked, or wakes it. -/
theorem parked_step (hstep : clockStep m op = some (r, m')) (hfresh : SpawnsUnused ⟨m, op, r, m'⟩)
    (h : Parked id m) :
    (¬ WokenBy id ⟨m, op, r, m'⟩ → Parked id m') ∧
      (WokenBy id ⟨m, op, r, m'⟩ → InReady id m'.sched) := by
  obtain ⟨hnd, hblocked⟩ := h
  cases op with
  | tick p =>
    -- the timer leaves the queues alone
    obtain ⟨m₁, htick, heq⟩ := map_eq_some_iff.mp hstep
    cases heq
    obtain ⟨ticks, -, rfl⟩ := map_eq_some_iff.mp htick
    refine ⟨fun _ => ⟨hnd, hblocked⟩, ?_⟩
    rintro ⟨op, hop, -⟩
    cases hop
  | sched op =>
    obtain ⟨⟨r₁, s₁⟩, hs, heq⟩ := map_eq_some_iff.mp hstep
    cases heq
    constructor
    · intro hnot
      have hnd' := nodup_ids_of_effect (step_effect hs) (fun t ht => hfresh op t rfl ht) hnd
      exact ⟨hnd', blockedIds_step hs hblocked fun hw => hnot ⟨op, rfl, hw⟩⟩
    · rintro ⟨op', hop, hw⟩
      cases hop
      exact inReady_step hs hblocked hw

section

variable (hstart : Parked id m) (hrun : Run clockStep m tr s) (hfresh : ∀ e ∈ tr, SpawnsUnused e)
include hstart hrun hfresh

theorem parked_of_run (hnone : ∀ e ∈ tr, ¬ WokenBy id e) : Parked id s := by
  refine Run.invariant_of_guard (I := fun _ s => Parked id s)
    (G := fun _ e => SpawnsUnused e ∧ ¬ WokenBy id e) hstart ?_ hrun
    (Run.guard_of_forall_mem fun e he => ⟨hfresh e he, hnone e he⟩)
  intro tr m₁ op r m₂ hI hstep hG
  exact (parked_step hstep hG.1 hI).1 hG.2

/-- A parked task is ready again at some time of a run exactly when a step of
    the run wakes it. -/
theorem backBy_iff : BackBy id m tr ↔ ∃ e ∈ tr, WokenBy id e := by
  constructor
  · rintro ⟨tr₁, s₁, hpre, hrun₁, hready⟩
    by_contra hnone
    push Not at hnone
    have hparked := parked_of_run hstart hrun₁ (fun e he => hfresh e (hpre.subset he))
      fun e he => hnone e (hpre.subset he)
    exact not_inReady_of_blocked hparked.1 hparked.2 hready
  · -- the last step of the run wakes the task, or an earlier one has
    refine Run.invariant_of_guard
      (I := fun tr s => (∃ e ∈ tr, WokenBy id e) → BackBy id m tr)
      (G := fun tr e => (∀ e' ∈ tr, SpawnsUnused e') ∧ SpawnsUnused e ∧ Run clockStep m tr e.pre)
      ?_ ?_ hrun ?_
    · rintro ⟨e, he, -⟩
      cases he
    · rintro tr m₁ op r m₂ hI hstep ⟨hold, hnew, hrun₁⟩ ⟨e, he, hwoken⟩
      by_cases hbefore : ∃ e ∈ tr, WokenBy id e
      · obtain ⟨tr₁, s₁, hpre, hready⟩ := hI hbefore
        exact ⟨tr₁, s₁, hpre.trans (List.prefix_append _ _), hready⟩
      push Not at hbefore
      rcases List.mem_append.mp he with he | he
      · exact absurd hwoken (hbefore e he)
      obtain rfl := List.mem_singleton.mp he
      have hparked := parked_of_run hstart hrun₁ hold hbefore
      exact ⟨_, _, List.prefix_refl _, Run.snoc hrun₁ hstep,
        (parked_step hstep hnew hparked).2 hwoken⟩
    · intro tr₁ e hpre
      refine ⟨fun e' he' => hfresh e' (hpre.subset (by simp [he'])),
        hfresh e (hpre.subset (by simp)), ?_⟩
      obtain ⟨s₁, hrun₁⟩ := hrun.of_isPrefix hpre
      exact hrun₁.of_concat.1

end

/-- The state in which a task has just given up the CPU. -/
theorem parked_of_givesUp (hrunning : m.sched.runningTask cpu = some t) (hids : m.sched.ids.Nodup)
    (h : GivesUp m cpu ctx deadline m') : Parked t.id m' := by
  rw [Parked, h.sched_eq]
  exact ⟨nodup_ids_blockAndSwitch hids cpu ctx, mem_blockedIds_of_running hrunning ctx⟩

/-- A task that gives up the CPU is ready at once, or again by its deadline, exactly in
    the runs in which it has a deadline and another task wakes it before: never after a
    yield or a preemption. -/
theorem resumes_iff_wokenInTime {m m' : Clocked} {cpu : Cpu} {ctx : SavedContext}
    {deadline : Option Nat} {t : Task} {tr : List (Transition Clocked ClockOp Unit)}
    (hrunning : m.sched.runningTask cpu = some t) (hids : m.sched.ids.Nodup)
    (hgives : GivesUp m cpu ctx deadline m') (hfresh : ∀ e ∈ tr, SpawnsUnused e) :
    Resumes deadline t.id m' tr ↔ WokenInTime deadline t.id m' tr := by
  have hparked := parked_of_givesUp hrunning hids hgives
  cases deadline with
  | none =>
    refine ⟨fun h => ?_, fun h => h.elim⟩
    exact absurd hparked.2 h.2
  | some d =>
    have hback : ∀ tr₁ s₁, tr₁ <+: tr → Run clockStep m' tr₁ s₁ →
        (BackBy t.id m' tr₁ ↔ ∃ e ∈ tr₁, WokenBy t.id e) := by
      intro tr₁ s₁ hpre hrun₁
      exact backBy_iff hparked hrun₁ fun e he => hfresh e (hpre.subset he)
    constructor
    · intro h tr₁ s₁ hpre hrun₁ hd
      exact (hback tr₁ s₁ hpre hrun₁).mp (h tr₁ s₁ hpre hrun₁ hd)
    · intro h tr₁ s₁ hpre hrun₁ hd
      exact (hback tr₁ s₁ hpre hrun₁).mpr (h tr₁ s₁ hpre hrun₁ hd)

/-- The idle task 1 and task 2, which runs, on CPU 0. -/
def twoTasks : Clocked where
  sched := { empty.init 1 idleContext with
    cpus := Function.update empty.cpus bootCpu
      ⟨[{ Task.new 1 0 with context := some idleContext },
        { Task.new 2 5 with state := .running }], some 2⟩
    currentTaskId := 2 }
  ticks := 0
  needReschedule := true

theorem nodup_ids_twoTasks : twoTasks.sched.ids.Nodup := by
  decide

/-- One tick of the timer, up to the deadline. -/
def oneTick : List ClockOp := [.tick .dev]

/-- Task 2 sleeps until tick 1, and is woken before it. -/
theorem resumes_iff_wokenInTime_twoTasks :
    ∃ m' tr s, GivesUp twoTasks bootCpu idleContext (some 1) m' ∧ Run clockStep m' tr s ∧
      tr.map Transition.op = .sched (.wakeTaskById bootCpu 2) :: oneTick ∧ s.ticks = 1 ∧
      Resumes (some 1) 2 m' tr := by
  have hgives : GivesUp twoTasks bootCpu idleContext (some (1 : Word).toNat)
      (twoTasks.blockCurrent bootCpu idleContext) := .sleep rfl
  have hrun := exec_run clockStep (twoTasks.blockCurrent bootCpu idleContext)
    (.sched (.wakeTaskById bootCpu 2) :: oneTick) rfl
  refine ⟨_, _, _, hgives, hrun, rfl, rfl, (resumes_iff_wokenInTime
    (t := { Task.new 2 5 with state := .running }) rfl nodup_ids_twoTasks hgives ?_).mpr ?_⟩
  · simp only [List.forall_mem_cons]
    refine ⟨?_, ?_, List.forall_mem_nil _⟩
    · rintro _ t ⟨⟩ hnew
      cases hnew
    · rintro _ t ⟨⟩
  · intro tr₁ s₁ hpre hrun₁ hd
    cases tr₁ with
    | nil =>
      rw [hrun₁.of_nil] at hd
      exact absurd hd (by decide)
    | cons e tr₁ =>
      obtain ⟨rfl, -⟩ := List.cons_prefix_cons.mp hpre
      exact ⟨_, List.mem_cons_self, _, rfl, rfl⟩

/-- Task 2 yields, or is preempted, with the idle task ready, and is blocked;
    it sleeps until tick 1, tick 1 comes, and it is still blocked. -/
theorem yield_blocks :
    (∃ t ∈ (twoTasks.sched.cpus bootCpu).ready, t.id ≠ 2) ∧
      2 ∈ (twoTasks.sysThreadYield bootCpu idleContext).sched.blockedIds ∧
      2 ∈ (twoTasks.sysSchedYield bootCpu idleContext).sched.blockedIds ∧
      2 ∈ (twoTasks.preempt bootCpu idleContext).sched.blockedIds ∧
      ∃ m' tr s, twoTasks.sleepTurn bootCpu idleContext 1 = some m' ∧ Run clockStep m' tr s ∧
        tr.map Transition.op = oneTick ∧ s.ticks = 1 ∧ 2 ∈ s.sched.blockedIds ∧
        ¬ BackBy 2 m' tr := by
  refine ⟨⟨_, List.mem_cons_self, by decide⟩, by decide, by decide, by decide, ?_⟩
  have hrun := exec_run clockStep (twoTasks.blockCurrent bootCpu idleContext) oneTick rfl
  refine ⟨_, _, _, rfl, hrun, rfl, rfl, by decide, ?_⟩
  have hparked : Parked 2 (twoTasks.blockCurrent bootCpu idleContext) :=
    ⟨nodup_ids_blockAndSwitch nodup_ids_twoTasks bootCpu idleContext, by decide⟩
  rw [backBy_iff hparked hrun]
  · rintro ⟨e, he, op, hop, -⟩
    obtain rfl := List.mem_singleton.mp he
    cases hop
  · intro e he op t hop
    obtain rfl := List.mem_singleton.mp he
    cases hop

end Clocked

end OpenOS
