/-
  The current task as several CPUs see it (kernel/src/task/scheduler.rs).

  Each CPU records its task in its own queue, but `current_task_id` reads one cell
  for all of them, which every scheduling decision of every CPU overwrites.
  `set_current_task` writes the cell before it takes the lock of the queue, so other
  CPUs may step in between; the other functions write both under the lock.
-/

import OpenOS.Task.Lifecycle

namespace OpenOS.Scheduler

open Function Base Option

/-! ## Interleavings -/

/-- The scheduler between the steps of the CPUs; `storing` is what `set_current_task` of
    a CPU has put into CURRENT_TASK_ID and not yet into its queue. -/
structure Machine where
  sched : Scheduler
  storing : Cpu → Option TaskId

inductive CpuOp
  | scheduleNextLocal
  | blockAndSwitch (ctx : SavedContext)
  /-- `set_current_task` up to the lock of the queue. -/
  | storeCurrent (id : TaskId)
  /-- The rest of `set_current_task`. -/
  | recordCurrent

/-- A step of one CPU. -/
def cpuStep : StepFn Machine (Cpu × CpuOp) Unit
  | m, (cpu, .scheduleNextLocal) =>
    if m.storing cpu = none then
      (m.sched.scheduleNextLocal cpu).map fun q => ((), { m with sched := q.2 })
    else none
  | m, (cpu, .blockAndSwitch ctx) =>
    if m.storing cpu = none then
      some ((), { m with sched := (m.sched.blockAndSwitch cpu ctx).2 })
    else none
  | m, (cpu, .storeCurrent id) =>
    if m.storing cpu = none then
      some ((), ⟨{ m.sched with currentTaskId := id }, update m.storing cpu (some id)⟩)
    else none
  | m, (cpu, .recordCurrent) =>
    (m.storing cpu).map fun id =>
      let queue := { m.sched.cpus cpu with current := some id }
      ((), ⟨{ m.sched with cpus := update m.sched.cpus cpu queue }, update m.storing cpu none⟩)

/-- A CPU that records a current task reads that one in CURRENT_TASK_ID, and the lookup
    of the current task gives none that runs on another CPU. -/
def KnowsOwn (m : Machine) : Prop :=
  ∀ c id, m.storing c = none → (m.sched.cpus c).current = some id →
    m.sched.currentTaskId = id ∧ ∀ t, m.sched.withCurrentTask c = some t →
      ∀ c', c' ≠ c → (m.sched.cpus c').current ≠ some t.id

/-- The CPU has no current task and is not about to set one. -/
def Idle (m : Machine) (c : Cpu) : Prop := (m.sched.cpus c).current = none ∧ m.storing c = none

/-- The operation stores to CURRENT_TASK_ID, or may do so. -/
def Stores (m : Machine) (cpu : Cpu) : CpuOp → Prop
  | .scheduleNextLocal => (m.sched.cpus cpu).ready ≠ []
  | .blockAndSwitch _ => (m.sched.cpus cpu).current ≠ none
  | .storeCurrent _ => True
  | .recordCurrent => False

/-- A step that stores is taken while all other CPUs are idle. -/
def OthersIdle (e : Transition Machine (Cpu × CpuOp) Unit) : Prop :=
  Stores e.pre e.op.1 e.op.2 → ∀ c, c ≠ e.op.1 → Idle e.pre c

/-- What `init` leaves, with any tasks: only the boot CPU has a current task. -/
structure Booted (m : Machine) : Prop where
  current : (m.sched.cpus bootCpu).current = some m.sched.currentTaskId
  storing : m.storing bootCpu = none
  others : ∀ c, c ≠ bootCpu → Idle m c

variable {s : Scheduler}

/-- A scheduling decision changes the queue of its CPU only, and the cell together with
    the current task recorded there. -/
structure Decides (s : Scheduler) (cpu : Cpu) (s' : Scheduler) : Prop where
  others : ∀ c, c ≠ cpu → s'.cpus c = s.cpus c
  own : (s'.cpus cpu).current = some s'.currentTaskId ∨
    ((s'.cpus cpu).current = (s.cpus cpu).current ∧ s'.currentTaskId = s.currentTaskId)

theorem decides_refl (s : Scheduler) (cpu : Cpu) : Decides s cpu s :=
  ⟨fun _ _ => rfl, .inr ⟨rfl, rfl⟩⟩

theorem decides_scheduleNextLocal (h : s.scheduleNextLocal cpu = some (next, s')) :
    Decides s cpu s' := by
  unfold scheduleNextLocal at h
  split at h
  · cases h
    exact decides_refl s cpu
  split at h
  · cases h
  · cases h
    refine ⟨fun c hc => update_of_ne hc _ _, .inl ?_⟩
    simp

theorem decides_pickNext (s : Scheduler) (cpu : Cpu) : Decides s cpu (s.pickNext cpu).2 := by
  unfold pickNext
  split
  · exact decides_refl s cpu
  dsimp only
  split
  all_goals
    refine ⟨fun c hc => update_of_ne hc _ _, .inl ?_⟩
    simp

theorem decides_blockAndSwitch (s : Scheduler) (cpu : Cpu) (ctx : SavedContext) :
    Decides s cpu (s.blockAndSwitch cpu ctx).2 := by
  unfold blockAndSwitch
  split
  · exact decides_refl s cpu
  rename_i id _
  have hpark : (∀ c, c ≠ cpu → (s.parkCurrent cpu id ctx).cpus c = s.cpus c) ∧
      ((s.parkCurrent cpu id ctx).cpus cpu).current = (s.cpus cpu).current ∧
      (s.parkCurrent cpu id ctx).currentTaskId = s.currentTaskId := by
    unfold parkCurrent
    split
    · exact ⟨fun _ _ => rfl, rfl, rfl⟩
    · exact ⟨fun c hc => update_of_ne hc _ _, by simp only [update_self], rfl⟩
  obtain ⟨hothers, hown⟩ := decides_pickNext (s.parkCurrent cpu id ctx) cpu
  refine ⟨fun c hc => (hothers c hc).trans (hpark.1 c hc), ?_⟩
  rwa [hpark.2.1, hpark.2.2] at hown

/-! ## One CPU at a time -/

/-- The cell holds what the CPU records, or is about to record. -/
structure OwnAt (m : Machine) (c : Cpu) : Prop where
  recorded : ∀ id, m.storing c = none → (m.sched.cpus c).current = some id →
    m.sched.currentTaskId = id
  stored : ∀ id, m.storing c = some id → m.sched.currentTaskId = id

/-- All CPUs but one are idle, and the cell is that one's. -/
def OneActive (m : Machine) : Prop := ∃ c₀, OwnAt m c₀ ∧ ∀ c, c ≠ c₀ → Idle m c

theorem Idle.ownAt (h : Idle m c) : OwnAt m c :=
  ⟨fun _ _ hcur => (by cases h.1.symm.trans hcur), fun _ hs => (by cases h.2.symm.trans hs)⟩

theorem OneActive.ownAt (h : OneActive m) (c : Cpu) : OwnAt m c := by
  obtain ⟨c₀, hown, hidle⟩ := h
  by_cases hc : c = c₀
  · rwa [hc]
  · exact (hidle c hc).ownAt

theorem OwnAt.decides (h : OwnAt m cpu) (hnone : m.storing cpu = none)
    (hdec : Decides m.sched cpu s') : OwnAt { m with sched := s' } cpu := by
  refine ⟨fun id hs hid => ?_, fun id hs => (by cases hnone.symm.trans hs)⟩
  rcases hdec.own with hnew | ⟨hcur, hcell⟩
  · exact some.inj (hnew.symm.trans hid)
  · exact hcell.trans (h.recorded id hs (hcur.symm.trans hid))

theorem ownAt_step (h : OwnAt m cpu) (hstep : cpuStep m (cpu, op) = some (r, m')) :
    OwnAt m' cpu := by
  cases op with
  | scheduleNextLocal =>
    obtain ⟨hnone, hstep⟩ := ite_none_right_eq_some.mp hstep
    obtain ⟨q, hnext, heq⟩ := map_eq_some_iff.mp hstep
    cases heq
    exact h.decides hnone (decides_scheduleNextLocal hnext)
  | blockAndSwitch ctx =>
    obtain ⟨hnone, hstep⟩ := ite_none_right_eq_some.mp hstep
    cases hstep
    exact h.decides hnone (decides_blockAndSwitch m.sched cpu ctx)
  | storeCurrent id =>
    obtain ⟨hnone, hstep⟩ := ite_none_right_eq_some.mp hstep
    cases hstep
    have hstored : update m.storing cpu (some id) cpu = some id := update_self ..
    exact ⟨fun id' hs => (by cases hstored.symm.trans hs),
      fun id' hs => some.inj (hstored.symm.trans hs)⟩
  | recordCurrent =>
    obtain ⟨id, hstored, heq⟩ := map_eq_some_iff.mp hstep
    cases heq
    have hnone : update m.storing cpu none cpu = none := update_self ..
    refine ⟨fun id' _ hid => ?_, fun id' hs => (by cases hnone.symm.trans hs)⟩
    simp only [update_self] at hid
    exact (h.stored id hstored).trans (some.inj hid)

theorem idle_step (hne : c ≠ cpu) (h : Idle m c) (hstep : cpuStep m (cpu, op) = some (r, m')) :
    Idle m' c := by
  cases op with
  | scheduleNextLocal =>
    obtain ⟨-, hstep⟩ := ite_none_right_eq_some.mp hstep
    obtain ⟨q, hnext, heq⟩ := map_eq_some_iff.mp hstep
    cases heq
    exact ⟨by rw [(decides_scheduleNextLocal hnext).others c hne]; exact h.1, h.2⟩
  | blockAndSwitch ctx =>
    obtain ⟨-, hstep⟩ := ite_none_right_eq_some.mp hstep
    cases hstep
    exact ⟨by rw [(decides_blockAndSwitch m.sched cpu ctx).others c hne]; exact h.1, h.2⟩
  | storeCurrent id =>
    obtain ⟨-, hstep⟩ := ite_none_right_eq_some.mp hstep
    cases hstep
    exact ⟨h.1, (update_of_ne hne _ _).trans h.2⟩
  | recordCurrent =>
    obtain ⟨id, -, heq⟩ := map_eq_some_iff.mp hstep
    cases heq
    exact ⟨by simp only [update_of_ne hne]; exact h.1, (update_of_ne hne _ _).trans h.2⟩

/-- A step that does not store changes nothing, or is the second half of one that did. -/
theorem eq_or_storing (hstep : cpuStep m (cpu, op) = some (r, m')) (hnot : ¬ Stores m cpu op) :
    m' = m ∨ m.storing cpu ≠ none := by
  cases op with
  | scheduleNextLocal =>
    obtain ⟨-, hstep⟩ := ite_none_right_eq_some.mp hstep
    rw [Scheduler.scheduleNextLocal, not_not.mp hnot] at hstep
    cases hstep
    exact .inl rfl
  | blockAndSwitch ctx =>
    obtain ⟨-, hstep⟩ := ite_none_right_eq_some.mp hstep
    rw [Scheduler.blockAndSwitch, not_not.mp hnot] at hstep
    cases hstep
    exact .inl rfl
  | storeCurrent id => exact absurd trivial hnot
  | recordCurrent =>
    obtain ⟨id, hstored, -⟩ := map_eq_some_iff.mp hstep
    exact .inr (hstored ▸ some_ne_none id)

theorem OneActive.step (h : OneActive m) (hstep : cpuStep m (cpu, op) = some (r, m'))
    (hidle : Stores m cpu op → ∀ c, c ≠ cpu → Idle m c) : OneActive m' := by
  have hactive : (∀ c, c ≠ cpu → Idle m c) → OneActive m' := fun hidle =>
    ⟨cpu, ownAt_step (h.ownAt cpu) hstep, fun c hc => idle_step hc (hidle c hc) hstep⟩
  by_cases hstores : Stores m cpu op
  · exact hactive (hidle hstores)
  rcases eq_or_storing hstep hstores with rfl | hstoring
  · exact h
  · -- the CPU is not idle, so it is the active one
    obtain ⟨c₀, -, hothers⟩ := h
    obtain rfl : cpu = c₀ := by
      by_contra hne
      exact hstoring (hothers cpu hne).2
    exact hactive hothers

theorem OneActive.knowsOwn (h : OneActive m) : KnowsOwn m := by
  intro c id hs hid
  refine ⟨(h.ownAt c).recorded id hs hid, fun t _ c' hne hcur => ?_⟩
  obtain ⟨c₀, -, hidle⟩ := h
  -- of two CPUs one is idle
  by_cases hc : c = c₀
  · cases (hidle c' (hc ▸ hne)).1.symm.trans hcur
  · cases (hidle c hc).1.symm.trans hid

/-- In every run in which the other CPUs are idle at each store, every CPU knows its own
    task.  No step takes the current task of the boot CPU away, so the stores of such a run
    are all its own; what other CPUs do finds no task. -/
theorem knowsOwn_of_run {m₀ m : Machine} {tr : List (Transition Machine (Cpu × CpuOp) Unit)}
    (hboot : Booted m₀) (hrun : Run cpuStep m₀ tr m) (hidle : ∀ e ∈ tr, OthersIdle e) :
    KnowsOwn m := by
  have hone : OneActive m := by
    refine Run.invariant_of_guard (I := fun _ m => OneActive m)
      ?_ ?_ hrun (Run.guard_of_forall_mem hidle)
    · refine ⟨bootCpu, ⟨fun id _ hid => ?_, fun id hs => ?_⟩, hboot.others⟩
      · exact some.inj (hboot.current.symm.trans hid)
      · cases hboot.storing.symm.trans hs
    · exact fun _ _ _ _ _ h hstep hidle => h.step hstep hidle
  exact hone.knowsOwn

/-- CPUs with a task each, but for the third; the boot CPU has a current one. -/
def twoCpus : Machine where
  sched :=
    { cpus := fun c => if c = bootCpu then ⟨[Task.new 2 5], some 2⟩
        else if c.val = 1 then ⟨[Task.new 3 5], none⟩ else ⟨[], none⟩
      blocked := [], blockedCpuMap := fun _ => none, currentTaskId := 2, switchContext := none }
  storing := fun _ => none

theorem booted_twoCpus : Booted twoCpus := by
  refine ⟨rfl, rfl, fun c hc => ⟨?_, rfl⟩⟩
  simp only [twoCpus, if_neg hc]
  split <;> rfl

/-- The boot CPU schedules, and then one without tasks. -/
theorem knowsOwn_bootCpu : ∃ tr m, Run cpuStep twoCpus tr m ∧
    tr.map Transition.op = [(bootCpu, .scheduleNextLocal), (2, .scheduleNextLocal)] ∧
    KnowsOwn m := by
  have hrun : Run cpuStep twoCpus _ _ := .snoc (.snoc .nil
    (a := (bootCpu, .scheduleNextLocal)) rfl) (a := (2, .scheduleNextLocal)) rfl
  refine ⟨_, _, hrun, rfl, knowsOwn_of_run booted_twoCpus hrun ?_⟩
  simp only [List.nil_append, List.cons_append, List.forall_mem_cons]
  refine ⟨fun _ => booted_twoCpus.others, fun hstores => absurd rfl hstores,
    List.forall_mem_nil _⟩

/-- The second CPU schedules: then the boot CPU takes its task 2 for task 3, and does not
    find it. -/
theorem cell_overwritten : ∃ tr m, Run cpuStep twoCpus tr m ∧
    tr.map Transition.op = [(1, .scheduleNextLocal)] ∧ m.storing bootCpu = none ∧
    (m.sched.cpus bootCpu).current = some 2 ∧ m.sched.currentTaskId = 3 ∧
    m.sched.withCurrentTask bootCpu = none :=
  ⟨_, _, .snoc .nil rfl, rfl, rfl, rfl, rfl, rfl⟩

end OpenOS.Scheduler
