/-
  The scheduler functions that create, move and end tasks
  (kernel/src/task/scheduler.rs): the three ways to spawn, priority scheduling,
  migration between CPUs, and `terminate_current`.

  They are followed on three multisets of tasks: ready, blocked and migrating.
  Apart from a task that is spawned or terminated, a call makes at most two
  `Move`s on these, and that is all later proofs use.
-/

import OpenOS.Task.Scheduler

namespace OpenOS

open Function Base List Multiset Prod
open Option (map_eq_some_iff none_or some_or)

/-- `Task::new`, with the id that TaskId::new hands out. -/
def Task.new (id : TaskId) (priority : BitVec 8) : Task :=
  { id := id, state := .ready, handleTable := .new, context := none, pageTable := none,
    priority := priority }

/-- MAX_TASKS. -/
def maxTasks : Nat := 256

def CpuQueue.taskCount (q : CpuQueue) : Nat := q.ready.length + if q.current.isSome then 1 else 0

namespace Scheduler

/-! ## Task lookup -/

/-- The CPUs in the order the lookups by id search them: the caller's first. -/
def searchOrder (cpu : Cpu) : List Cpu := cpu :: (finRange 8).filter (· ≠ cpu)

section

variable (s : Scheduler) (cpu : Cpu) (id : TaskId)

/-- `with_task`: in the ready queues, then among the blocked tasks. -/
def withTask : Option Task :=
  ((searchOrder cpu).findSome? fun c => (s.cpus c).ready.find? fun t => t.id = id).or
    (s.blocked.find? fun t => t.id = id)

/-- Run `f` on the task in the first of these CPUs' queues that has it. -/
def modifyReady {R : Type} (s : Scheduler) (id : TaskId) (f : Task → R × Task) :
    List Cpu → Option (R × Scheduler)
  | [] => none
  | c :: cs =>
    match modifyById id f (s.cpus c).ready with
    | some (r, ready) =>
      some (r, { s with cpus := update s.cpus c { s.cpus c with ready := ready } })
    | none => s.modifyReady id f cs

def withTaskMut {R : Type} (s : Scheduler) (cpu : Cpu) (id : TaskId) (f : Task → R × Task) :
    Option (R × Scheduler) :=
  match s.modifyReady id f (searchOrder cpu) with
  | some q => some q
  | none => (modifyById id f s.blocked).map fun (r, blocked) => (r, { s with blocked := blocked })

/-! ## Spawning -/

def totalTaskCount : Nat :=
  ((finRange 8).map fun cpu => (s.cpus cpu).taskCount).sum +
    s.blocked.length + s.migration.length

/-- One turn of the loop of `least_loaded_cpu`. -/
def lessLoaded (best : Cpu × Nat) (cpu : Cpu) : Cpu × Nat :=
  if (s.cpus cpu).taskCount < best.2 then (cpu, (s.cpus cpu).taskCount) else best

/-- `least_loaded_cpu`, with usize::MAX as the first count to beat. -/
def leastLoadedCpu : Cpu := ((finRange 8).foldl s.lessLoaded (bootCpu, 2 ^ 64 - 1)).1

/-- The common end of the spawning functions: push the task to this CPU, unless
    there are MAX_TASKS tasks. -/
def spawnOn (task : Task) : Except String TaskId × Scheduler :=
  if maxTasks ≤ s.totalTaskCount then (.error "maximum number of tasks reached", s)
  else (.ok task.id, { s with cpus := pushReady s.cpus cpu task })

def spawnTaskFrom (task : Task) : Except String TaskId × Scheduler :=
  s.spawnOn s.leastLoadedCpu task

def spawnTask (priority : BitVec 8) : Except String TaskId × Scheduler :=
  s.spawnTaskFrom (Task.new id priority)

def spawnTaskOnCurrent (task : Task) : Except String TaskId × Scheduler := s.spawnOn cpu task

/-! ## Scheduling by priority -/

/-- One turn of `max_by_key`, which keeps the last of equal maxima. -/
def higherPriority (best : Option (Nat × BitVec 8)) (x : Task × Nat) : Option (Nat × BitVec 8) :=
  match best with
  | none => some (x.2, x.1.priority)
  | some (i, priority) =>
    if priority ≤ x.1.priority then some (x.2, x.1.priority) else some (i, priority)

/-- The index of the task to run next. -/
def bestIdx (ready : List Task) : Option Nat := (ready.zipIdx.foldl higherPriority none).map fst

def scheduleNextLocal : Option (Option TaskId × Scheduler) :=
  match bestIdx (s.cpus cpu).ready with
  | none => some (none, s)
  | some i =>
    match (s.cpus cpu).ready[i]? with
    | none => none
    | some task =>
      -- the task goes to the back of the queue while it runs
      let ready := (s.cpus cpu).ready.eraseIdx i ++ [{ task with state := .running }]
      some (some task.id, { s with
        cpus := update s.cpus cpu ⟨ready, some task.id⟩
        currentTaskId := task.id })

/-! ## Migration -/

/-- Take a task off a CPU's ready queue. -/
def takeReady : Option (Task × Scheduler) :=
  (takeById id (s.cpus cpu).ready).map fun (task, ready) =>
    (task, { s with cpus := update s.cpus cpu { s.cpus cpu with ready := ready } })

/-- `migrate_task`; CPU numbers of MAX_CPUS or more are refused. -/
def migrateTask (fromCpu toCpu : Nat) : Bool × Scheduler :=
  if h : fromCpu < 8 ∧ toCpu < 8 then
    match s.takeReady ⟨fromCpu, h.1⟩ id with
    | none => (false, s)
    | some (task, s') => (true, { s' with cpus := pushReady s'.cpus ⟨toCpu, h.2⟩ task })
  else (false, s)

def pushMigration (task : Task) : Scheduler := { s with migration := s.migration ++ [task] }

def stealFromMigration : Bool × Scheduler :=
  match s.migration with
  | [] => (false, s)
  | task :: rest =>
    (true, { s with migration := rest, cpus := pushReady s.cpus cpu task })

/-! ## Termination -/

/-- What `terminate_current` makes of the task it removes, up to the release of
    its page table. -/
def terminated (task : Task) (status : Word) : Task :=
  { task with
    state := .terminated, exitStatus := some status, handleTable := task.handleTable.closeAll }

/-- The queue operations of `terminate_current`: the task removed, if the CPU's current
    task is in its ready queue, and the scheduler after the parent was woken. Its page
    table is the caller's to free. -/
def terminateCurrent (status : Word) : Option Task × Scheduler :=
  match (s.cpus cpu).current with
  | none => (none, s)
  | some id =>
    match s.takeReady cpu id with
    | none => (none, s)
    | some (task, s') =>
      (some (terminated task status),
        match task.parentId with
        | none => s'
        | some parent => s'.wakeTaskById cpu parent)

/-- The current task of a CPU, when it is in that CPU's ready queue: the one
    `terminate_current` ends. -/
def runningTask : Option Task :=
  (s.cpus cpu).current.bind fun id => (s.cpus cpu).ready.find? fun t => t.id = id

/-! ## The tasks of the scheduler -/

/-- The tasks in the ready queues of all CPUs. -/
def readyTasks : Multiset Task := ∑ cpu, ((s.cpus cpu).ready : Multiset Task)

/-- All tasks: ready, blocked or waiting for migration. -/
def tasks : Multiset Task :=
  s.readyTasks + (s.blocked : Multiset Task) + (s.migration : Multiset Task)

end

variable {s : Scheduler} {rest : List Task}

theorem mem_readyTasks : t ∈ s.readyTasks ↔ ∃ cpu, t ∈ (s.cpus cpu).ready := by
  simp [readyTasks]

theorem mem_tasks : t ∈ s.tasks ↔ t ∈ s.readyTasks ∨ t ∈ s.blocked ∨ t ∈ s.migration := by
  simp only [tasks, mem_add, mem_coe, or_assoc]

theorem coe_concat (q : List Task) (t : Task) :
    ((q ++ [t] : List Task) : Multiset Task) = t ::ₘ (q : Multiset Task) := by
  rw [← coe_add, add_comm]
  rfl

/-- The tasks in the ready queues of the other CPUs. -/
def othersReady (cpus : Cpu → CpuQueue) (cpu : Cpu) : Multiset Task :=
  ∑ c ∈ Finset.univ.erase cpu, ((cpus c).ready : Multiset Task)

section

variable (cpus : Cpu → CpuQueue) (cpu : Cpu)
include cpus cpu

theorem sum_ready_split :
    ∑ c, ((cpus c).ready : Multiset Task) =
      ((cpus cpu).ready : Multiset Task) + othersReady cpus cpu :=
  (Finset.add_sum_erase Finset.univ (fun c => ((cpus c).ready : Multiset Task))
    (Finset.mem_univ cpu)).symm

theorem sum_update_split (q : CpuQueue) :
    ∑ c, ((update cpus cpu q c).ready : Multiset Task) =
      (q.ready : Multiset Task) + othersReady cpus cpu := by
  rw [sum_ready_split _ cpu, update_self]
  congr 1
  refine Finset.sum_congr rfl fun c hc => ?_
  rw [update_of_ne (Finset.ne_of_mem_erase hc)]

theorem sum_pushReady_tasks (t : Task) :
    ∑ c, ((pushReady cpus cpu t c).ready : Multiset Task) =
      t ::ₘ ∑ c, ((cpus c).ready : Multiset Task) := by
  rw [pushReady, sum_update_split, sum_ready_split cpus cpu, coe_concat, cons_add]

end

variable {id : TaskId} {s' : Scheduler}

theorem coe_of_takeById (h : takeById id q = some (t, rest)) :
    t.id = id ∧ (q : Multiset Task) = t ::ₘ (rest : Multiset Task) := by
  induction q generalizing rest with
  | nil => cases h
  | cons x xs ih =>
    simp only [takeById] at h
    split at h
    · rename_i hid
      cases h
      exact ⟨hid, rfl⟩
    obtain ⟨⟨t', rest'⟩, hrest, heq⟩ := map_eq_some_iff.mp h
    cases heq
    obtain ⟨hid, hq⟩ := ih hrest
    refine ⟨hid, ?_⟩
    rw [← cons_coe, hq, cons_swap]
    rfl

theorem takeById_eq (id : TaskId) (q : List Task) :
    takeById id q = (q.find? fun t => t.id = id).map fun t => (t, q.eraseP fun t => t.id = id) := by
  induction q with
  | nil => rfl
  | cons x xs ih =>
    rw [takeById]
    split
    · rename_i hid
      rw [find?_cons_of_pos (by simpa using hid), eraseP_cons_of_pos (by simpa using hid)]
      rfl
    · rename_i hid
      rw [ih, find?_cons_of_neg (by simpa using hid), eraseP_cons_of_neg (by simpa using hid),
        Option.map_map]
      rfl

theorem map_fst_takeById (id : TaskId) (q : List Task) :
    (takeById id q).map fst = q.find? fun t => t.id = id := by
  rw [takeById_eq, Option.map_map]
  exact Option.map_id'

/-! ## Replacing one task -/

/-- One task is replaced by another, in place. -/
def Replaces (s : Scheduler) (t t' : Task) (s' : Scheduler) : Prop :=
  ∃ rest, s.tasks = t ::ₘ rest ∧ s'.tasks = t' ::ₘ rest

theorem tasks_eq_ready_add (s : Scheduler) (cpu : Cpu) :
    s.tasks = ((s.cpus cpu).ready : Multiset Task) +
      (othersReady s.cpus cpu + (s.blocked : Multiset Task) + (s.migration : Multiset Task)) := by
  rw [tasks, readyTasks, sum_ready_split s.cpus cpu]
  simp [add_assoc]

theorem tasks_setCurrentTask (s : Scheduler) (cpu : Cpu) (id : TaskId) :
    (s.setCurrentTask cpu id).tasks = s.tasks := by
  rw [tasks, readyTasks, setCurrentTask, sum_update_split, tasks_eq_ready_add s cpu]
  simp only [add_assoc]

theorem Replaces.mem (h : s.Replaces t t' s') : t ∈ s.tasks := by
  obtain ⟨rest, hs, -⟩ := h
  rw [hs]
  exact mem_cons_self t rest

theorem Replaces.tasks_self (h : s.Replaces t t s') : s'.tasks = s.tasks := by
  obtain ⟨rest, hs, hs'⟩ := h
  rw [hs, hs']

/-- One of the ready and blocked tasks is replaced by another. -/
def Swaps (s : Scheduler) (t t' : Task) (s' : Scheduler) : Prop :=
  s'.migration = s.migration ∧ ∃ rest, s.readyTasks + (s.blocked : Multiset Task) = t ::ₘ rest ∧
    s'.readyTasks + (s'.blocked : Multiset Task) = t' ::ₘ rest

theorem Swaps.replaces (h : s.Swaps t t' s') : s.Replaces t t' s' := by
  obtain ⟨hmigration, rest, hs, hs'⟩ := h
  refine ⟨rest + s.migration, ?_, ?_⟩
  · rw [tasks, hs, cons_add]
  · rw [tasks, hs', hmigration, cons_add]

theorem coe_middle (q₁ q₂ : List Task) (t : Task) :
    ((q₁ ++ t :: q₂ : List Task) : Multiset Task) = t ::ₘ ((q₁ ++ q₂ : List Task) : Multiset Task) :=
  coe_eq_coe.mpr perm_middle

theorem swaps_of_ready (h : modifyById id f (s.cpus cpu).ready = some (r, ready)) :
    ∃ t, (s.cpus cpu).ready.find? (fun t => t.id = id) = some t ∧ r = (f t).1 ∧ s.Swaps t (f t).2
        { s with cpus := update s.cpus cpu { s.cpus cpu with ready := ready } } ∧
      ((f t).2.id = t.id → ready.find? (fun t => t.id = id) = some (f t).2) := by
  obtain ⟨q₁, t, q₂, hq, rfl, hr, hfind, hfind'⟩ := modifyById_eq_some h
  refine ⟨t, hfind, hr,
    ⟨rfl, (q₁ ++ q₂ : List Task) + othersReady s.cpus cpu + s.blocked, ?_, ?_⟩, hfind'⟩
  · rw [readyTasks, sum_ready_split s.cpus cpu, hq, coe_middle, cons_add, cons_add]
  · rw [readyTasks, sum_update_split, coe_middle, cons_add, cons_add]

theorem swaps_of_blocked {blocked : List Task} (h : modifyById id f s.blocked = some (r, blocked)) :
    ∃ t, s.blocked.find? (fun t => t.id = id) = some t ∧ r = (f t).1 ∧
      s.Swaps t (f t).2 { s with blocked := blocked } ∧
      ((f t).2.id = t.id → blocked.find? (fun t => t.id = id) = some (f t).2 ∧
        blocked.map Task.id = s.blocked.map Task.id) := by
  obtain ⟨q₁, t, q₂, hq, rfl, hr, hfind, hfind'⟩ := modifyById_eq_some h
  refine ⟨t, hfind, hr, ⟨rfl, s.readyTasks + (q₁ ++ q₂ : List Task), ?_, ?_⟩,
    fun hid => ⟨hfind' hid, ?_⟩⟩
  · rw [hq, coe_middle, add_cons]
  · show s.readyTasks + _ = _
    rw [coe_middle, add_cons]
  · simp [hq, hid]

/-- The lookups by id find a task in the ready queues as `modifyReady` does. -/
theorem modifyReady_eq_some (h : s.modifyReady id f cs = some (r, s')) :
    ∃ t, (cs.findSome? fun c => (s.cpus c).ready.find? fun t => t.id = id) = some t ∧
      r = (f t).1 ∧ s.Replaces t (f t).2 s' := by
  induction cs with
  | nil => cases h
  | cons c cs ih =>
    simp only [modifyReady] at h
    split at h
    · rename_i r' ready hmod
      cases h
      obtain ⟨t, hfind, hr, hswap, -⟩ := swaps_of_ready hmod
      exact ⟨t, by rw [findSome?_cons, hfind], hr, hswap.replaces⟩
    rename_i hmod
    obtain ⟨t, hfind, hr, hrep⟩ := ih h
    refine ⟨t, ?_, hr, hrep⟩
    rwa [findSome?_cons, modifyById_eq_none hmod]

theorem modifyReady_eq_none (h : s.modifyReady id f cs = none) :
    (cs.findSome? fun c => (s.cpus c).ready.find? fun t => t.id = id) = none := by
  induction cs with
  | nil => rfl
  | cons c cs ih =>
    simp only [modifyReady] at h
    split at h
    · cases h
    · rename_i hmod
      rw [findSome?_cons, modifyById_eq_none hmod]
      exact ih h

theorem withTaskMut_eq_some (h : s.withTaskMut cpu id f = some (r, s')) :
    ∃ t, s.withTask cpu id = some t ∧ r = (f t).1 ∧ s.Replaces t (f t).2 s' := by
  unfold withTaskMut at h
  split at h
  · rename_i q hready
    cases h
    obtain ⟨t, hfind, hr, hrep⟩ := modifyReady_eq_some hready
    exact ⟨t, by rw [withTask, hfind, some_or], hr, hrep⟩
  rename_i hready
  obtain ⟨⟨r', blocked⟩, hmod, heq⟩ := map_eq_some_iff.mp h
  cases heq
  obtain ⟨t, hfind, hr, hswap, -⟩ := swaps_of_blocked hmod
  refine ⟨t, ?_, hr, hswap.replaces⟩
  rw [withTask, modifyReady_eq_none hready, hfind, none_or]

theorem withTaskMut_eq_none (h : s.withTaskMut cpu id f = none) : s.withTask cpu id = none := by
  unfold withTaskMut at h
  split at h
  · cases h
  · rename_i hready
    rw [Option.map_eq_none_iff] at h
    rw [withTask, modifyReady_eq_none hready, modifyById_eq_none h, none_or]

theorem mem_of_withTask (h : s.withTask cpu id = some t) :
    t.id = id ∧ (t ∈ s.readyTasks ∨ t ∈ s.blocked) := by
  rcases Option.or_eq_some_iff.mp h with hready | ⟨-, hblocked⟩
  · obtain ⟨c, -, hfind⟩ := exists_of_findSome?_eq_some hready
    exact ⟨by simpa using find?_some hfind,
      .inl (mem_readyTasks.mpr ⟨c, mem_of_find?_eq_some hfind⟩)⟩
  · exact ⟨by simpa using find?_some hblocked, .inr (mem_of_find?_eq_some hblocked)⟩

theorem mem_tasks_of_withTask (h : s.withTask cpu id = some t) : t.id = id ∧ t ∈ s.tasks := by
  obtain ⟨hid, hready | hblocked⟩ := mem_of_withTask h
  · exact ⟨hid, mem_tasks.mpr (.inl hready)⟩
  · exact ⟨hid, mem_tasks.mpr (.inr (.inl hblocked))⟩

theorem mem_tasks_of_withCurrentTask (h : s.withCurrentTask cpu = some t) :
    t.id = s.currentTaskId ∧ t ∈ s.tasks := by
  rcases Option.or_eq_some_iff.mp h with hready | ⟨-, hblocked⟩
  · exact ⟨by simpa using find?_some hready,
      mem_tasks.mpr (.inl (mem_readyTasks.mpr ⟨cpu, mem_of_find?_eq_some hready⟩))⟩
  · exact ⟨by simpa using find?_some hblocked,
      mem_tasks.mpr (.inr (.inl (mem_of_find?_eq_some hblocked)))⟩

/-! ## Moves -/

/-- One movement of a task between the three multisets. -/
inductive Move (s s' : Scheduler) : Prop
  | stay (hready : s'.readyTasks = s.readyTasks) (hblocked : s'.blocked = s.blocked)
      (hmigration : s'.migration = s.migration)
  | run (t : Task) (rest : Multiset Task) (hbefore : s.readyTasks = t ::ₘ rest)
      (hready : s'.readyTasks = { t with state := .running } ::ₘ rest)
      (hblocked : s'.blocked = s.blocked) (hmigration : s'.migration = s.migration)
  | block (t : Task) (ctx : SavedContext) (hready : s.readyTasks = t ::ₘ s'.readyTasks)
      (hblocked : s'.blocked = s.blocked ++ [{ t with state := .blocked, context := some ctx }])
      (hmigration : s'.migration = s.migration)
  | wake (t : Task) (hblocked : (s.blocked : Multiset Task) = t ::ₘ (s'.blocked : Multiset Task))
      (hready : s'.readyTasks = { t with state := .ready } ::ₘ s.readyTasks)
      (hmigration : s'.migration = s.migration)
  | give (t : Task) (hready : s.readyTasks = t ::ₘ s'.readyTasks)
      (hblocked : s'.blocked = s.blocked) (hmigration : s'.migration = s.migration ++ [t])
  | steal (t : Task) (hmigration : s.migration = t :: s'.migration)
      (hready : s'.readyTasks = t ::ₘ s.readyTasks) (hblocked : s'.blocked = s.blocked)

/-- What a move keeps of every task: all but the state and the context. -/
theorem Move.map_tasks (h : Move s s') (hstate : ∀ t st, g { t with state := st } = g t)
    (hctx : ∀ t ctx, g { t with state := .blocked, context := some ctx } = g t) :
    s'.tasks.map g = s.tasks.map g := by
  cases h with
  | stay hready hblocked hmigration => rw [tasks, hready, hblocked, hmigration, tasks]
  | run t rest hbefore hready hblocked hmigration =>
    rw [tasks, hready, hblocked, hmigration, tasks, hbefore]
    simp only [Multiset.map_add, Multiset.map_cons, hstate]
  | block t ctx hready hblocked hmigration =>
    rw [tasks, hblocked, hmigration, tasks, hready, coe_concat]
    simp only [Multiset.map_cons, add_cons, cons_add, hctx]
  | wake t hblocked hready hmigration =>
    rw [tasks, hready, hmigration, tasks, hblocked]
    simp only [Multiset.map_cons, add_cons, cons_add, hstate]
  | give t hready hblocked hmigration =>
    rw [tasks, hblocked, hmigration, tasks, hready, coe_concat]
    simp only [add_cons, cons_add]
  | steal t hmigration hready hblocked =>
    rw [tasks, hready, hblocked, tasks, hmigration, ← cons_coe]
    simp only [add_cons, cons_add]

section Moves

variable (s : Scheduler) (cpu : Cpu)

theorem move_wakeTaskById (id : TaskId) : Move s (s.wakeTaskById cpu id) := by
  unfold wakeTaskById
  split
  · exact .stay rfl rfl rfl
  · rename_i task blocked htake
    exact .wake task (coe_of_takeById htake).2 (sum_pushReady_tasks _ _ _) rfl

theorem move_unblockCurrent : Move s (s.unblockCurrent cpu) := by
  unfold unblockCurrent
  split
  · exact .stay rfl rfl rfl
  split
  · exact .stay rfl rfl rfl
  · rename_i task blocked htake
    exact .wake task (coe_of_takeById htake).2 (sum_pushReady_tasks _ _ _) rfl

variable {s' : Scheduler}

/-- Taking the ready tasks of a CPU apart. -/
theorem readyTasks_of_take
    (h : takeById id (s.cpus cpu).ready = some (t, ready)) (hq : q.ready = ready) :
    s.readyTasks = t ::ₘ ∑ c, ((update s.cpus cpu q c).ready : Multiset Task) := by
  rw [readyTasks, sum_ready_split s.cpus cpu, (coe_of_takeById h).2, sum_update_split, hq, cons_add]

theorem move_parkCurrent (id : TaskId) (ctx : SavedContext) :
    Move s (s.parkCurrent cpu id ctx) := by
  unfold parkCurrent
  split
  · exact .stay rfl rfl rfl
  · rename_i task ready htake
    exact .block task ctx (s.readyTasks_of_take cpu htake rfl) rfl rfl

/-- Making a task the running one, at the back of its queue. -/
theorem readyTasks_of_run (cur : Option TaskId)
    (h : ((s.cpus cpu).ready : Multiset Task) = t ::ₘ (rest : Multiset Task)) :
    s.readyTasks = t ::ₘ ((rest : Multiset Task) + othersReady s.cpus cpu) ∧
      ∑ c, ((update s.cpus cpu ⟨rest ++ [{ t with state := .running }], cur⟩ c).ready :
        Multiset Task) =
        { t with state := .running } ::ₘ ((rest : Multiset Task) + othersReady s.cpus cpu) := by
  constructor
  · rw [readyTasks, sum_ready_split s.cpus cpu, h, cons_add]
  · rw [sum_update_split, coe_concat, cons_add]

theorem move_pickNext : Move s (s.pickNext cpu).2 := by
  unfold pickNext
  split
  · exact .stay rfl rfl rfl
  rename_i task rest hready
  have hfront : ((s.cpus cpu).ready : Multiset Task) = task ::ₘ (rest : Multiset Task) := by
    rw [hready]
    rfl
  have hrun := s.readyTasks_of_run cpu (some task.id) hfront
  dsimp only
  split
  · exact .run task _ hrun.1 hrun.2 rfl rfl
  · exact .run task _ hrun.1 hrun.2 rfl rfl

theorem move_spawnOn (t : Task) :
    ((s.spawnOn cpu t).1 = .ok t.id ∧ (s.spawnOn cpu t).2.readyTasks = t ::ₘ s.readyTasks ∧
      (s.spawnOn cpu t).2.blocked = s.blocked ∧ (s.spawnOn cpu t).2.migration = s.migration) ∨
    ((∃ msg, (s.spawnOn cpu t).1 = .error msg) ∧ (s.spawnOn cpu t).2 = s) := by
  unfold spawnOn
  split
  · exact .inr ⟨⟨_, rfl⟩, rfl⟩
  · exact .inl ⟨rfl, sum_pushReady_tasks _ _ _, rfl, rfl⟩

theorem move_scheduleNextLocal (h : s.scheduleNextLocal cpu = some (r, s')) : Move s s' := by
  unfold scheduleNextLocal at h
  split at h
  · cases h
    exact .stay rfl rfl rfl
  split at h
  · cases h
  rename_i i _ _ task htask
  obtain ⟨hi, htask⟩ := List.getElem?_eq_some_iff.mp htask
  cases h
  have hperm : ((s.cpus cpu).ready : Multiset Task) =
      task ::ₘ ((s.cpus cpu).ready.eraseIdx i : Multiset Task) := by
    rw [← htask]
    exact (coe_eq_coe.mpr (getElem_cons_eraseIdx_perm hi)).symm
  have hrun := s.readyTasks_of_run cpu (some task.id) hperm
  exact .run task _ hrun.1 hrun.2 rfl rfl

theorem takeReady_eq_some (h : s.takeReady cpu id = some (t, s')) :
    t.id = id ∧ s.readyTasks = t ::ₘ s'.readyTasks ∧ s'.blocked = s.blocked ∧
      s'.migration = s.migration := by
  obtain ⟨⟨task, ready⟩, htake, heq⟩ := map_eq_some_iff.mp h
  cases heq
  exact ⟨(coe_of_takeById htake).1, s.readyTasks_of_take cpu htake rfl, rfl, rfl⟩

theorem takeReady_of_runningTask (h : s.runningTask cpu = some t) :
    (s.cpus cpu).current = some t.id ∧ ∃ s', s.takeReady cpu t.id = some (t, s') := by
  obtain ⟨id, hcur, hfind⟩ := Option.bind_eq_some_iff.mp h
  obtain rfl : t.id = id := by simpa using find?_some hfind
  rw [← map_fst_takeById] at hfind
  obtain ⟨⟨t', ready⟩, htake, rfl⟩ := map_eq_some_iff.mp hfind
  exact ⟨hcur, _, by rw [takeReady, htake]; rfl⟩

theorem runningTask_of_takeReady
    (hcur : (s.cpus cpu).current = some id) (h : s.takeReady cpu id = some (t, s')) :
    s.runningTask cpu = some t := by
  obtain ⟨⟨t', ready⟩, htake, heq⟩ := map_eq_some_iff.mp h
  cases heq
  rw [runningTask, hcur, Option.bind_some, ← map_fst_takeById, htake]
  rfl

theorem move_migrateTask (id : TaskId) (fromCpu toCpu : Nat) :
    Move s (s.migrateTask id fromCpu toCpu).2 := by
  unfold migrateTask
  split
  · split
    · exact .stay rfl rfl rfl
    rename_i task s' htake
    obtain ⟨-, hready, hblocked, hmigration⟩ := s.takeReady_eq_some _ htake
    refine .stay ?_ hblocked hmigration
    rw [hready]
    exact sum_pushReady_tasks _ _ _
  · exact .stay rfl rfl rfl

theorem move_pushMigration
    (h : s.takeReady cpu id = some (t, s')) : Move s (s'.pushMigration t) := by
  obtain ⟨-, hready, hblocked, hmigration⟩ := s.takeReady_eq_some cpu h
  refine .give t hready hblocked ?_
  show s'.migration ++ [t] = s.migration ++ [t]
  rw [hmigration]

theorem move_stealFromMigration : Move s (s.stealFromMigration cpu).2 := by
  unfold stealFromMigration
  split
  · exact .stay rfl rfl rfl
  · rename_i task rest hmigration
    exact .steal task hmigration (sum_pushReady_tasks _ _ _) rfl

/-- `terminate_current` takes the CPU's current task off its ready queue and at
    most wakes another one, or does nothing. -/
theorem terminateCurrent_cases (status : Word) :
    ((s.terminateCurrent cpu status) = (none, s) ∧
      ∀ id, (s.cpus cpu).current = some id → s.takeReady cpu id = none) ∨
    ∃ id t s₁, (s.cpus cpu).current = some id ∧ s.takeReady cpu id = some (t, s₁) ∧
      (s.terminateCurrent cpu status).1 = some (terminated t status) ∧
      Move s₁ (s.terminateCurrent cpu status).2 := by
  unfold terminateCurrent
  split
  · rename_i hcur
    exact .inl ⟨rfl, fun id h => by rw [hcur] at h; cases h⟩
  rename_i id hcur
  split
  · rename_i htake
    refine .inl ⟨rfl, fun id' h => ?_⟩
    cases hcur.symm.trans h
    exact htake
  rename_i t s₁ htake
  refine .inr ⟨id, t, s₁, hcur, htake, rfl, ?_⟩
  split
  · exact .stay rfl rfl rfl
  · exact s₁.move_wakeTaskById cpu _

end Moves

/-! ## The owners of the handle tables -/

/-- A task's id with its handle table. -/
def owner (t : Task) : TaskId × HandleTable := (t.id, t.handleTable)

/-- The tasks of a queue, as id and handle table. -/
def queueOwners (q : List Task) : Multiset (TaskId × HandleTable) := (q.map owner : List _)

/-- All tasks of the scheduler, ready or blocked, as id and handle table. -/
def owners (s : Scheduler) : Multiset (TaskId × HandleTable) :=
  (∑ cpu, queueOwners (s.cpus cpu).ready) + queueOwners s.blocked

/-- No two tasks share an id. -/
def UniqueIds (s : Scheduler) : Prop := (s.owners.map fst).Nodup

theorem mem_owners :
    q ∈ s.owners ↔ (∃ cpu, ∃ t ∈ (s.cpus cpu).ready, owner t = q) ∨
      ∃ t ∈ s.blocked, owner t = q := by
  simp [owners, queueOwners]

theorem owners_eq (s : Scheduler) :
    s.owners = (s.readyTasks + (s.blocked : Multiset Task)).map owner := by
  rw [map_add, readyTasks, ← coe_mapAddMonoidHom, map_sum]
  rfl

theorem Swaps.owners (h : s.Swaps t t' s') :
    ∃ rest, s.owners = owner t ::ₘ rest ∧ s'.owners = owner t' ::ₘ rest := by
  obtain ⟨-, rest, hs, hs'⟩ := h
  exact ⟨rest.map owner, by rw [owners_eq, hs, Multiset.map_cons],
    by rw [owners_eq, hs', Multiset.map_cons]⟩

theorem owners_congr (h : s'.tasks.map owner = s.tasks.map owner)
    (hmigration : s'.migration = s.migration) : s'.owners = s.owners := by
  rw [tasks, tasks, hmigration, map_add, map_add owner _ s.migration] at h
  rw [owners_eq, owners_eq, add_right_cancel h]

theorem Move.owners (h : Move s s') (hmigration : s'.migration = s.migration) :
    s'.owners = s.owners :=
  owners_congr (h.map_tasks (fun _ _ => rfl) fun _ _ => rfl) hmigration

section Owners

variable (s : Scheduler) (cpu : Cpu)

theorem owners_wakeTaskById (id : TaskId) : (s.wakeTaskById cpu id).owners = s.owners := by
  refine (s.move_wakeTaskById cpu id).owners ?_
  unfold wakeTaskById
  split <;> rfl

theorem owners_unblockCurrent : (s.unblockCurrent cpu).owners = s.owners := by
  refine (s.move_unblockCurrent cpu).owners ?_
  unfold unblockCurrent
  split
  · rfl
  · split <;> rfl

theorem owners_blockAndSwitch (ctx : SavedContext) :
    (s.blockAndSwitch cpu ctx).2.owners = s.owners := by
  unfold blockAndSwitch
  split
  · rfl
  rename_i id hcur
  refine ((move_pickNext _ cpu).owners ?_).trans ((s.move_parkCurrent cpu id ctx).owners ?_)
  · unfold pickNext
    split
    · rfl
    · dsimp only
      split <;> rfl
  · unfold parkCurrent
    split <;> rfl

theorem owners_setCurrentTask (id : TaskId) : (s.setCurrentTask cpu id).owners = s.owners :=
  owners_congr (congrArg (Multiset.map owner) (s.tasks_setCurrentTask cpu id)) rfl

end Owners

/-! ## The blocked queue -/

/-- The ids of the blocked tasks. -/
def blockedIds (s : Scheduler) : List TaskId := s.blocked.map Task.id

theorem takeById_eq_none (h : takeById id q = none) : id ∉ q.map Task.id := by
  rw [takeById_eq, Option.map_eq_none_iff, find?_eq_none] at h
  intro hmem
  obtain ⟨t, ht, hid⟩ := mem_map.mp hmem
  exact h t ht (decide_eq_true hid)

theorem map_fst_queueOwners (q : List Task) :
    (queueOwners q).map fst = ((q.map Task.id : List TaskId) : Multiset TaskId) := by
  rw [queueOwners, map_coe, List.map_map]
  rfl

/-- A task id taken out of a queue of distinct ids is not left in it. -/
theorem mem_of_takeById (h : takeById id q = some (t, rest)) :
    (i ∈ rest.map Task.id → i ∈ q.map Task.id) ∧
      ((q.map Task.id).Nodup → i ∈ rest.map Task.id → i ≠ id) := by
  obtain ⟨rfl, hq⟩ := coe_of_takeById h
  have hperm : (q.map Task.id).Perm (t.id :: rest.map Task.id) := (coe_eq_coe.mp hq).map Task.id
  refine ⟨fun hi => hperm.mem_iff.mpr (mem_cons_of_mem _ hi), ?_⟩
  intro hnd hi heq
  have hnd' := hperm.nodup_iff.mp hnd
  exact (nodup_cons.mp hnd').1 (heq ▸ hi)

theorem UniqueIds.blocked (hu : s.UniqueIds) : s.blockedIds.Nodup := by
  rw [UniqueIds, owners, map_add, map_fst_queueOwners] at hu
  exact coe_nodup.mp (nodup_of_le (le_add_left _ _) hu)

/-- After a wake-up the woken task is not blocked, and no other one is new. -/
theorem mem_blockedIds_wakeTaskById (hu : s.UniqueIds)
    (h : i ∈ (s.wakeTaskById cpu id).blockedIds) : i ∈ s.blockedIds ∧ i ≠ id := by
  unfold wakeTaskById at h
  split at h
  · rename_i htake
    refine ⟨h, ?_⟩
    rintro rfl
    exact takeById_eq_none htake h
  · rename_i task blocked htake
    exact ⟨(mem_of_takeById htake).1 h, (mem_of_takeById htake).2 hu.blocked h⟩

theorem mem_blockedIds_unblockCurrent (h : i ∈ (s.unblockCurrent cpu).blockedIds) :
    i ∈ s.blockedIds := by
  unfold unblockCurrent at h
  split at h
  · exact h
  split at h
  · exact h
  · rename_i task blocked htake
    exact (mem_of_takeById htake).1 h

theorem blockedIds_pickNext : (s.pickNext cpu).2.blockedIds = s.blockedIds := by
  unfold pickNext
  split
  · rfl
  · dsimp only
    split <;> rfl

theorem mem_blockedIds_blockAndSwitch (h : i ∈ (s.blockAndSwitch cpu ctx).2.blockedIds) :
    i ∈ s.blockedIds ∨ (s.cpus cpu).current = some i := by
  unfold blockAndSwitch at h
  split at h
  · exact .inl h
  rename_i id hcur
  rw [blockedIds_pickNext] at h
  unfold parkCurrent at h
  split at h
  · exact .inl h
  rename_i task ready htake
  simp only [blockedIds, map_append, List.map_cons, map_nil, mem_append, List.mem_singleton] at h
  rcases h with hold | rfl
  · exact .inl hold
  · rw [hcur, (coe_of_takeById htake).1]
    exact .inr rfl

/-! ## Updating the current task -/

/-- An update of the current task replaces that task, and leaves the other tasks, the
    blocked ids and everything about CPUs alone. -/
structure UpdatesCurrent (s : Scheduler) (cpu : Cpu) (t t' : Task) (s' : Scheduler) :
    Prop where
  before : s.withCurrentTask cpu = some t
  after : s'.withCurrentTask cpu = some t'
  owners : ∃ rest, s.owners = owner t ::ₘ rest ∧ s'.owners = owner t' ::ₘ rest
  blockedIds : s'.blockedIds = s.blockedIds
  current : ∀ c, (s'.cpus c).current = (s.cpus c).current
  currentTaskId : s'.currentTaskId = s.currentTaskId

variable {r : R}

theorem updates_of_withCurrentTaskMut (h : s.withCurrentTaskMut cpu f = some (r, s')) :
    ∃ t, r = (f t).1 ∧ s.withCurrentTask cpu = some t ∧ s.Swaps t (f t).2 s' ∧
      ((f t).2.id = t.id → UpdatesCurrent s cpu t (f t).2 s') := by
  unfold withCurrentTaskMut at h
  -- the task is in this CPU's queue, or else among the blocked ones
  split at h
  · rename_i r' ready hmod
    cases h
    obtain ⟨t, hfind, hr, hswap, hfind'⟩ := swaps_of_ready hmod
    have hcur : s.withCurrentTask cpu = some t := by rw [withCurrentTask, hfind, some_or]
    refine ⟨t, hr, hcur, hswap, fun hid => ⟨hcur, ?_, hswap.owners, rfl, fun c => ?_, rfl⟩⟩
    · simp [withCurrentTask, hfind' hid]
    · by_cases hc : c = cpu
      · subst hc
        simp
      · simp [update_of_ne hc]
  rename_i hready
  split at h
  · rename_i r' blocked hmod
    cases h
    obtain ⟨t, hfind, hr, hswap, hsame⟩ := swaps_of_blocked hmod
    have hcur : s.withCurrentTask cpu = some t := by
      rw [withCurrentTask, modifyById_eq_none hready, hfind, none_or]
    refine ⟨t, hr, hcur, hswap, fun hid =>
      ⟨hcur, ?_, hswap.owners, (hsame hid).2, fun _ => rfl, rfl⟩⟩
    simp [withCurrentTask, modifyById_eq_none hready, (hsame hid).1]
  · cases h

theorem withCurrentTaskMut_eq_some (hid : ∀ t, (f t).2.id = t.id)
    (h : s.withCurrentTaskMut cpu f = some (r, s')) :
    ∃ t, r = (f t).1 ∧ UpdatesCurrent s cpu t (f t).2 s' := by
  obtain ⟨t, hr, -, -, hupd⟩ := updates_of_withCurrentTaskMut h
  exact ⟨t, hr, hupd (hid t)⟩

theorem replaces_of_withCurrentTaskMut (h : s.withCurrentTaskMut cpu f = some (r, s')) :
    ∃ t, s.withCurrentTask cpu = some t ∧ r = (f t).1 ∧ s.Replaces t (f t).2 s' := by
  obtain ⟨t, hr, hcur, hswap, -⟩ := updates_of_withCurrentTaskMut h
  exact ⟨t, hcur, hr, hswap.replaces⟩

theorem withCurrentTaskMut_eq_none
    (h : s.withCurrentTaskMut cpu f = none) : s.withCurrentTask cpu = none := by
  unfold withCurrentTaskMut at h
  split at h
  · cases h
  rename_i hready
  split at h
  · cases h
  · rename_i hblocked
    rw [withCurrentTask, modifyById_eq_none hready, modifyById_eq_none hblocked, none_or]

/-- The update runs on the task that the lookup finds. -/
theorem withCurrentTaskMut_of_current
    (h : s.withCurrentTask cpu = some t) (f : Task → R × Task) (hid : ∀ t, (f t).2.id = t.id) :
    ∃ s', s.withCurrentTaskMut cpu f = some ((f t).1, s') ∧ UpdatesCurrent s cpu t (f t).2 s' := by
  cases hmut : s.withCurrentTaskMut cpu f with
  | none =>
    rw [withCurrentTaskMut_eq_none hmut] at h
    cases h
  | some q =>
    obtain ⟨r, s'⟩ := q
    obtain ⟨t', rfl, hupd⟩ := withCurrentTaskMut_eq_some hid hmut
    cases hupd.before.symm.trans h
    exact ⟨s', rfl, hupd⟩

theorem withCurrentTaskMut_of_none
    (h : s.withCurrentTask cpu = none) (f : Task → R × Task) (hid : ∀ t, (f t).2.id = t.id) :
    s.withCurrentTaskMut cpu f = none := by
  cases hmut : s.withCurrentTaskMut cpu f with
  | none => rfl
  | some q =>
    obtain ⟨r, s'⟩ := q
    obtain ⟨t, -, hupd⟩ := withCurrentTaskMut_eq_some hid hmut
    rw [hupd.before] at h
    cases h

end Scheduler

end OpenOS
