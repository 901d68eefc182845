/-
  The decisions of the scheduler (kernel/src/task/scheduler.rs): which task
  `schedule_next_local` and `block_and_switch` choose, and what is left behind when
  no switch happens.

  `max_by_key` gives the last of equal maxima, and the task chosen goes to the back
  of the queue, where it is the last again: one task of highest priority runs for
  ever.  `block_and_switch` takes the front of the queue, whatever its priority, and
  has moved the current task before it knows whether there is a successor.
-/

import OpenOS.Task.Lifecycle

namespace OpenOS.Scheduler

open Function Base List OpenOS.Task

/-! ## A refused switch -/

/-- Ids and states of the tasks of a queue, the current one of the CPU apart. -/
def othersIn (s : Scheduler) (cpu : Cpu) (q : List Task) : List (TaskId × TaskState) :=
  (q.filter fun t => some t.id ≠ (s.cpus cpu).current).map fun t => (t.id, t.state)

/-- The current task of the CPU runs on, and no other task has changed. -/
structure StaysRunning (s : Scheduler) (cpu : Cpu) (s' : Scheduler) : Prop where
  current : (s'.cpus cpu).current = (s.cpus cpu).current
  ready : ∀ id, (s.cpus cpu).current = some id → id ∈ (s'.cpus cpu).ready.map Task.id
  notBlocked : ∀ id, (s.cpus cpu).current = some id → id ∉ s'.blocked.map Task.id
  others : ∀ c, s.othersIn cpu (s'.cpus c).ready = s.othersIn cpu (s.cpus c).ready
  othersBlocked : s.othersIn cpu s'.blocked = s.othersIn cpu s.blocked

/-- The context stored for the switch is that of the new current task, with the page
    table of that task. -/
def SwitchesTo (s' : Scheduler) (cpu : Cpu) : Prop :=
  ∃ t ∈ (s'.cpus cpu).ready, ∃ ctx, (s'.cpus cpu).current = some t.id ∧ t.context = some ctx ∧
    s'.switchContext = some { ctx with cr3 := t.pageTable.getD 0 }

/-- `block_and_switch` as it is documented. -/
structure SwitchLaw (s : Scheduler) (cpu : Cpu) (r : Bool × Scheduler) : Prop where
  refused : r.1 = false → StaysRunning s cpu r.2
  switched : r.1 = true → SwitchesTo r.2 cpu

/-- The ready tasks of a CPU without the one with this id. -/
def readyWithout (s : Scheduler) (cpu : Cpu) (id : TaskId) : List Task :=
  (s.cpus cpu).ready.eraseP fun t => t.id = id

/-- Nothing is to be blocked, or the front of the other ready tasks has a context. -/
def CanSwitch (s : Scheduler) (cpu : Cpu) : Prop :=
  ∀ id, (s.cpus cpu).current = some id →
    ∃ t, (s.readyWithout cpu id).head? = some t ∧ t.context.isSome

variable {s : Scheduler} {id : TaskId}

/-- The current task is out of the ready queue, and blocked if it was there. -/
theorem parkCurrent_spec (s : Scheduler) (cpu : Cpu) (id : TaskId) (ctx : SavedContext) :
    ((s.parkCurrent cpu id ctx).cpus cpu).ready = s.readyWithout cpu id ∧
      (id ∈ (s.cpus cpu).ready.map Task.id →
        id ∈ (s.parkCurrent cpu id ctx).blocked.map Task.id) := by
  rw [parkCurrent, takeById_eq, readyWithout]
  cases hfind : (s.cpus cpu).ready.find? fun t => t.id = id with
  | none =>
    rw [find?_eq_none] at hfind
    refine ⟨(eraseP_of_forall_not hfind).symm, fun hmem => ?_⟩
    obtain ⟨t, ht, hid⟩ := mem_map.mp hmem
    exact absurd (decide_eq_true hid) (hfind t ht)
  | some t =>
    have hid : t.id = id := by simpa using find?_some hfind
    simp only [Option.map_some, update_self, map_append]
    refine ⟨trivial, fun _ => ?_⟩
    exact mem_append_right _ (mem_singleton.mpr hid.symm)

/-- The front of the ready queue has a context, and the switch is to it. -/
theorem pickNext_of_context (hhead : (s.cpus cpu).ready.head? = some t)
    (hctx : t.context.isSome) : (s.pickNext cpu).1 = true ∧ SwitchesTo (s.pickNext cpu).2 cpu := by
  obtain ⟨rest, hready⟩ := head?_eq_some_iff.mp hhead
  unfold pickNext
  rw [hready]
  dsimp only
  split
  · rename_i ctx hctx
    refine ⟨rfl, { t with state := .running }, ?_, ctx, ?_, hctx, rfl⟩
    · simp
    · simp
  · rename_i hnone
    rw [hnone] at hctx
    cases hctx

/-- There is no such front: no switch, and no task has left or joined a queue. -/
theorem pickNext_of_no_context
    (hnone : ∀ t, (s.cpus cpu).ready.head? = some t → ¬ t.context.isSome) :
    (s.pickNext cpu).1 = false ∧ (s.pickNext cpu).2.blocked = s.blocked ∧
      ∀ id ∈ ((s.pickNext cpu).2.cpus cpu).ready.map Task.id,
        id ∈ (s.cpus cpu).ready.map Task.id := by
  cases hready : (s.cpus cpu).ready with
  | nil => simp [pickNext, hready]
  | cons t rest =>
    have hctx : t.context = none := by
      rw [← Option.not_isSome_iff_eq_none]
      exact hnone t (by rw [hready, head?_cons])
    simp only [pickNext, hready, hctx, update_self, map_append, map_cons, map_nil]
    refine ⟨trivial, trivial, fun id hid => ?_⟩
    rw [mem_append, mem_singleton] at hid
    exact mem_cons.mpr hid.symm

/-- `block_and_switch` keeps its law exactly when there is nothing to block, or a
    successor with a context: without one it has already moved the current task. -/
theorem switchLaw_iff_canSwitch (s : Scheduler) (cpu : Cpu) (ctx : SavedContext) :
    SwitchLaw s cpu (s.blockAndSwitch cpu ctx) ↔ CanSwitch s cpu := by
  cases hcur : (s.cpus cpu).current with
  | none =>
    rw [blockAndSwitch, hcur]
    refine iff_of_true ⟨fun _ => ?_, nofun⟩ fun id hid => ?_
    · constructor <;> simp [hcur]
    · cases hcur.symm.trans hid
  | some id =>
    obtain ⟨hready, hblocked⟩ := parkCurrent_spec s cpu id ctx
    rw [blockAndSwitch, hcur]
    constructor
    · intro h id' hid'
      cases hcur.symm.trans hid'
      by_contra hno
      have hnone : ∀ t, ((s.parkCurrent cpu id ctx).cpus cpu).ready.head? = some t →
          ¬ t.context.isSome := by
        intro t ht hctx
        exact hno ⟨t, by rwa [← hready], hctx⟩
      obtain ⟨hfalse, hsame, hids⟩ := pickNext_of_no_context hnone
      have hstays := h.refused hfalse
      -- a task still in the ready queue was there before, and so is blocked now
      have hmem := hids id (hstays.ready id hcur)
      rw [hready] at hmem
      refine hstays.notBlocked id hcur ?_
      rw [hsame]
      exact hblocked ((eraseP_sublist.map _).subset hmem)
    · intro h
      obtain ⟨t, hhead, hctx⟩ := h id hcur
      obtain ⟨htrue, hswitch⟩ := pickNext_of_context (by rwa [hready]) hctx
      exact ⟨fun hfalse => absurd (htrue.symm.trans hfalse) nofun, fun _ => hswitch⟩

/-- A CPU with these ready tasks, the first of which is its current one. -/
def runsFirst (t : Task) (q : List Task) : Scheduler where
  cpus := fun _ => ⟨t :: q, some t.id⟩
  blocked := []
  blockedCpuMap := fun _ => none
  currentTaskId := t.id
  switchContext := none

/-- A task made by `spawn_task` has no context.  When it is the only other one, or there
    is none, no switch is reported, and the current task is blocked nevertheless. -/
theorem refused_switch_blocks :
    (∀ ctx, ((runsFirst (new 2 5) []).blockAndSwitch bootCpu ctx).1 = false ∧
      ((runsFirst (new 2 5) []).blockAndSwitch bootCpu ctx).2.blocked.map Task.id = [2]) ∧
    ∀ ctx, ((runsFirst (new 2 5) [new 3 5]).blockAndSwitch bootCpu ctx).1 = false ∧
      ((runsFirst (new 2 5) [new 3 5]).blockAndSwitch bootCpu ctx).2.blocked.map
        Task.id = [2] :=
  ⟨fun _ => ⟨rfl, rfl⟩, fun _ => ⟨rfl, rfl⟩⟩

/-! ## Priorities -/

/-- The tasks of highest priority in a queue. -/
def highest (q : List Task) : List Task := q.filter fun t => q.all fun u => u.priority ≤ t.priority

/-- The task at this index has the highest priority in the queue, and of those that have
    it it is the one that waits longest: tasks join at the back. -/
def LongestOfHighest (q : List Task) (i : Nat) : Prop :=
  ∃ q₁ t q₂, q = q₁ ++ t :: q₂ ∧ q₁.length = i ∧
    (∀ u ∈ q₁, u.priority < t.priority) ∧ ∀ u ∈ q₂, u.priority ≤ t.priority

/-- The scheduler after `k` decisions on a CPU. -/
def afterDecisions (s : Scheduler) (cpu : Cpu) : Nat → Scheduler
  | 0 => s
  | k + 1 =>
    match (s.afterDecisions cpu k).scheduleNextLocal cpu with
    | none => s.afterDecisions cpu k
    | some (_, s') => s'

/-- The task that decision `k` selects. -/
def selected (s : Scheduler) (cpu : Cpu) (k : Nat) : Option TaskId :=
  ((s.afterDecisions cpu k).scheduleNextLocal cpu).bind Prod.fst

/-- Scheduling by priority, and in turn among equals. -/
structure PriorityLaw (s : Scheduler) (cpu : Cpu) (ctx : SavedContext) : Prop where
  /-- The index tells which of the ready tasks the id selected stands for. -/
  next : ∀ id s', s.scheduleNextLocal cpu = some (some id, s') → ∃ i,
    bestIdx (s.cpus cpu).ready = some i ∧ (s.cpus cpu).ready[i]?.map Task.id = some id ∧
      LongestOfHighest (s.cpus cpu).ready i
  /-- The task that runs after `block_and_switch` is one of those left without the blocked
      one; it runs from the back of the queue. -/
  successor : ∀ id, (s.cpus cpu).current = some id → s.readyWithout cpu id ≠ [] → ∃ i t,
    LongestOfHighest (s.readyWithout cpu id) i ∧ (s.readyWithout cpu id)[i]? = some t ∧
      ((s.blockAndSwitch cpu ctx).2.cpus cpu).current = some t.id ∧
      ((s.blockAndSwitch cpu ctx).2.cpus cpu).ready.getLast? = some { t with state := .running }
  /-- As many decisions as there are tasks of highest priority select each once. -/
  rounds : ∀ k, ((range (highest (s.cpus cpu).ready).length).map fun j =>
    s.selected cpu (k + j)).Perm ((highest (s.cpus cpu).ready).map fun t => some t.id)

/-- Not more than one task has the highest priority. -/
def OneHighest (q : List Task) : Prop := (highest q).length ≤ 1

/-- No task in the queue has a higher priority than the front. -/
def FrontHighest (q : List Task) : Prop := ∀ t, q.head? = some t → ∀ u ∈ q, u.priority ≤ t.priority

/-- A queue split at its last task of highest priority. -/
structure LastHighest (q₁ : List Task) (t : Task) (q₂ : List Task) : Prop where
  before : ∀ u ∈ q₁, u.priority ≤ t.priority
  after : ∀ u ∈ q₂, u.priority < t.priority

theorem exists_lastHighest (hne : q ≠ []) : ∃ q₁ t q₂, q = q₁ ++ t :: q₂ ∧ LastHighest q₁ t q₂ := by
  induction q with
  | nil => exact absurd rfl hne
  | cons x xs ih =>
    by_cases hxs : xs = []
    · exact ⟨[], x, [], by rw [hxs]; rfl, by simp, by simp⟩
    obtain ⟨q₁, t, q₂, rfl, h⟩ := ih hxs
    by_cases hx : x.priority ≤ t.priority
    · exact ⟨x :: q₁, t, q₂, rfl, forall_mem_cons.mpr ⟨hx, h.before⟩, h.after⟩
    · -- everything behind `x` is lower
      have hlt := not_le.mp hx
      refine ⟨[], x, q₁ ++ t :: q₂, rfl, by simp, fun u hu => ?_⟩
      rcases mem_append.mp hu with hu | hu
      · exact lt_of_le_of_lt (h.before u hu) hlt
      · rcases mem_cons.mp hu with rfl | hu
        · exact hlt
        · exact lt_trans (h.after u hu) hlt

/-- The fold keeps to priorities up to a bound. -/
theorem foldl_higherPriority_le {q : List (Task × Nat)} (hq : ∀ x ∈ q, x.1.priority ≤ m)
    (hbest : ∀ b ∈ best, b.2 ≤ m) : ∀ b ∈ q.foldl higherPriority best, b.2 ≤ m := by
  induction q generalizing best with
  | nil => exact hbest
  | cons x xs ih =>
    rw [forall_mem_cons] at hq
    refine ih hq.2 fun b hb => ?_
    unfold higherPriority at hb
    split at hb
    · cases hb
      exact hq.1
    · split at hb
      · cases hb
        exact hq.1
      · cases hb
        exact hbest _ rfl

/-- Lower priorities do not change the best one. -/
theorem foldl_higherPriority_of_lt {q : List (Task × Nat)} (hq : ∀ x ∈ q, x.1.priority < m) :
    q.foldl higherPriority (some (i, m)) = some (i, m) := by
  induction q with
  | nil => rfl
  | cons x xs ih =>
    rw [forall_mem_cons] at hq
    rw [foldl_cons, higherPriority, if_neg (not_le.mpr hq.1), ih hq.2]

theorem LastHighest.bestIdx_eq (h : LastHighest q₁ t q₂) :
    bestIdx (q₁ ++ t :: q₂) = some q₁.length := by
  have hbefore : ∀ b ∈ (q₁.zipIdx).foldl higherPriority none, b.2 ≤ t.priority :=
    foldl_higherPriority_le (fun x hx => h.before _ (fst_mem_of_mem_zipIdx hx)) nofun
  have hat : higherPriority ((q₁.zipIdx).foldl higherPriority none) (t, q₁.length) =
      some (q₁.length, t.priority) := by
    unfold higherPriority
    split
    · rfl
    · rename_i i m hbest
      rw [if_pos (hbefore (i, m) hbest)]
  rw [bestIdx, zipIdx_append, zipIdx_cons, foldl_append, foldl_cons, Nat.zero_add, hat,
    foldl_higherPriority_of_lt fun x hx => h.after _ (fst_mem_of_mem_zipIdx hx)]
  rfl

/-- The tasks of highest priority are the last one and its equals before it. -/
theorem LastHighest.highest_eq (h : LastHighest q₁ t q₂) :
    highest (q₁ ++ t :: q₂) = (q₁.filter fun u => t.priority ≤ u.priority) ++ [t] := by
  have hall : ∀ u : Task, ((q₁ ++ t :: q₂).all fun v => v.priority ≤ u.priority) =
      decide (t.priority ≤ u.priority) := by
    intro u
    rw [Bool.eq_iff_iff, all_eq_true, decide_eq_true_eq]
    refine ⟨fun hu => by simpa using hu t (by simp), fun hu v hv => ?_⟩
    rw [decide_eq_true_eq]
    rcases mem_append.mp hv with hv | hv
    · exact (h.before v hv).trans hu
    · rcases mem_cons.mp hv with rfl | hv
      · exact hu
      · exact (h.after v hv).le.trans hu
  have hafter : q₂.filter (fun u => t.priority ≤ u.priority) = [] := by
    rw [filter_eq_nil_iff]
    intro u hu
    simpa using h.after u hu
  rw [highest]
  simp only [hall]
  rw [filter_append, filter_cons_of_pos (by simp), hafter]

theorem LastHighest.oneHighest_iff (h : LastHighest q₁ t q₂) :
    OneHighest (q₁ ++ t :: q₂) ↔ ∀ u ∈ q₁, u.priority < t.priority := by
  rw [OneHighest, h.highest_eq]
  simp

/-- The task with this id has a higher priority than all others in the queue. -/
def Leads (q : List Task) (id : TaskId) : Prop :=
  ∃ q₁ t q₂, q = q₁ ++ t :: q₂ ∧ t.id = id ∧ ∀ u ∈ q₁ ++ q₂, u.priority < t.priority

/-- The leading task is selected, and leads the queue that results. -/
theorem Leads.scheduleNextLocal (h : Leads (s.cpus cpu).ready id) :
    ∃ s', s.scheduleNextLocal cpu = some (some id, s') ∧ Leads (s'.cpus cpu).ready id := by
  obtain ⟨q₁, t, q₂, hready, rfl, hlow⟩ := h
  have hlast : LastHighest q₁ t q₂ :=
    ⟨fun u hu => (hlow u (mem_append_left _ hu)).le, fun u hu => hlow u (mem_append_right _ hu)⟩
  have hat : (q₁ ++ t :: q₂)[q₁.length]? = some t := by simp
  have herase : (q₁ ++ t :: q₂).eraseIdx q₁.length = q₁ ++ q₂ := by
    rw [eraseIdx_append_of_length_le (Nat.le_refl _), Nat.sub_self, eraseIdx_cons_zero]
  rw [Scheduler.scheduleNextLocal, hready, hlast.bestIdx_eq]
  simp only [hat, herase]
  refine ⟨_, rfl, q₁ ++ q₂, { t with state := .running }, [], ?_, rfl, ?_⟩
  · simp
  · rwa [append_nil]

theorem Leads.selected (h : Leads (s.cpus cpu).ready id) (k : Nat) :
    s.selected cpu k = some id := by
  have hafter : Leads ((s.afterDecisions cpu k).cpus cpu).ready id := by
    induction k with
    | zero => exact h
    | succ k ih =>
      obtain ⟨s', hnext, hleads⟩ := ih.scheduleNextLocal
      rwa [afterDecisions, hnext]
  obtain ⟨s', hnext, -⟩ := hafter.scheduleNextLocal
  rw [Scheduler.selected, hnext]
  rfl

/-- The front of a queue without higher priorities waits longest of the highest. -/
theorem FrontHighest.longest (h : FrontHighest (x :: xs)) : LongestOfHighest (x :: xs) 0 :=
  ⟨[], x, xs, rfl, rfl, forall_mem_nil _, fun u hu => h x rfl u (mem_cons_of_mem _ hu)⟩

/-- A task as high as the front is not the longest waiting of highest priority, unless
    the front is it. -/
theorem LongestOfHighest.frontHighest (h : LongestOfHighest (x :: xs) i)
    (ht : (x :: xs)[i]? = some t) (hpriority : t.priority = x.priority) :
    FrontHighest (x :: xs) := by
  obtain ⟨q₁, t', q₂, heq, rfl, hlow, hle⟩ := h
  rw [heq, getElem?_append_right (le_refl _), Nat.sub_self, getElem?_cons_zero] at ht
  cases ht
  cases q₁ with
  | nil =>
    cases heq
    rintro _ ⟨⟩ u hu
    rcases mem_cons.mp hu with rfl | hu
    · exact le_rfl
    · exact hle u hu
  | cons y ys =>
    cases heq
    have hlt := hlow x mem_cons_self
    rw [hpriority] at hlt
    exact absurd hlt (lt_irrefl _)

/-- What `pick_next` leaves: the front runs, from the back of the queue. -/
theorem pickNext_cpus (hready : (s.cpus cpu).ready = x :: xs) :
    ((s.pickNext cpu).2.cpus cpu).current = some x.id ∧
      ((s.pickNext cpu).2.cpus cpu).ready.getLast? = some { x with state := .running } := by
  unfold pickNext
  rw [hready]
  dsimp only
  split <;> simp

/-- The successor keeps to priorities exactly when the front has the highest one. -/
theorem successor_iff (s : Scheduler) (cpu : Cpu) (ctx : SavedContext)
    (hcur : (s.cpus cpu).current = some id) :
    (s.readyWithout cpu id ≠ [] → ∃ i t, LongestOfHighest (s.readyWithout cpu id) i ∧
      (s.readyWithout cpu id)[i]? = some t ∧
      ((s.blockAndSwitch cpu ctx).2.cpus cpu).current = some t.id ∧
      ((s.blockAndSwitch cpu ctx).2.cpus cpu).ready.getLast? =
        some { t with state := .running }) ↔ FrontHighest (s.readyWithout cpu id) := by
  have hswitch : s.blockAndSwitch cpu ctx = (s.parkCurrent cpu id ctx).pickNext cpu := by
    rw [blockAndSwitch, hcur]
  have hready := (parkCurrent_spec s cpu id ctx).1
  rw [hswitch]
  cases hleft : s.readyWithout cpu id with
  | nil => exact iff_of_true (absurd rfl) fun t ht => (by cases ht)
  | cons x xs =>
    obtain ⟨hnext, hback⟩ := pickNext_cpus (hready.trans hleft)
    constructor
    · intro h
      obtain ⟨i, t, hlongest, ht, -, hlast⟩ := h (cons_ne_nil x xs)
      have hsame := Option.some.inj (hback.symm.trans hlast)
      exact hlongest.frontHighest ht (congrArg Task.priority hsame).symm
    · exact fun h _ => ⟨0, x, h.longest, rfl, hnext, hback⟩

/-- The last task of highest priority is taken, which waits longest only if it is alone. -/
theorem next_iff (s : Scheduler) (cpu : Cpu) :
    (∀ id s', s.scheduleNextLocal cpu = some (some id, s') → ∃ i,
      bestIdx (s.cpus cpu).ready = some i ∧ (s.cpus cpu).ready[i]?.map Task.id = some id ∧
        LongestOfHighest (s.cpus cpu).ready i) ↔ OneHighest (s.cpus cpu).ready := by
  unfold scheduleNextLocal
  by_cases hnil : (s.cpus cpu).ready = []
  · rw [hnil]
    exact iff_of_true nofun (Nat.zero_le 1)
  obtain ⟨q₁, t, q₂, hready, h⟩ := exists_lastHighest hnil
  have hat : (q₁ ++ t :: q₂)[q₁.length]? = some t := by simp
  rw [hready, h.bestIdx_eq, h.oneHighest_iff]
  simp only [hat]
  constructor
  · intro hnext
    obtain ⟨i, hi, -, p₁, u, p₂, heq, hlen, hlow, -⟩ := hnext t.id _ rfl
    cases hi
    obtain ⟨rfl, htail⟩ := append_inj heq hlen.symm
    cases htail
    exact hlow
  · rintro hlow id s' hnext
    cases hnext
    exact ⟨_, rfl, by rw [hat]; rfl, q₁, t, q₂, rfl, rfl, hlow, fun u hu => (h.after u hu).le⟩

theorem rounds_of_oneHighest (hone : OneHighest (s.cpus cpu).ready) (k : Nat) :
    ((range (highest (s.cpus cpu).ready).length).map fun j => s.selected cpu (k + j)).Perm
      ((highest (s.cpus cpu).ready).map fun t => some t.id) := by
  by_cases hnil : (s.cpus cpu).ready = []
  · rw [hnil]
    exact Perm.nil
  obtain ⟨q₁, t, q₂, hready, hlast⟩ := exists_lastHighest hnil
  rw [hready] at hone
  have hlow := hlast.oneHighest_iff.mp hone
  have hhighest : highest (s.cpus cpu).ready = [t] := by
    have hnone : q₁.filter (fun u => t.priority ≤ u.priority) = [] := by
      rw [filter_eq_nil_iff]
      intro u hu
      simpa using hlow u hu
    rw [hready, hlast.highest_eq, hnone, nil_append]
  have hleads : Leads (s.cpus cpu).ready t.id :=
    ⟨q₁, t, q₂, hready, rfl, fun u hu => (mem_append.mp hu).elim (hlow u) (hlast.after u)⟩
  rw [hhighest, length_singleton, range_one, map_singleton, map_singleton, hleads.selected]

/-- The decisions keep to priorities and take turns exactly when not more than one ready
    task has the highest priority, and the front of the queue has it when the current
    task is blocked. -/
theorem priorityLaw_iff (s : Scheduler) (cpu : Cpu) (ctx : SavedContext) :
    PriorityLaw s cpu ctx ↔ OneHighest (s.cpus cpu).ready ∧
      ∀ id, (s.cpus cpu).current = some id → FrontHighest (s.readyWithout cpu id) := by
  constructor
  · intro h
    exact ⟨(next_iff s cpu).mp h.next,
      fun id hid => (successor_iff s cpu ctx hid).mp (h.successor id hid)⟩
  · rintro ⟨hone, hfront⟩
    exact ⟨(next_iff s cpu).mpr hone,
      fun id hid => (successor_iff s cpu ctx hid).mpr (hfront id hid), rounds_of_oneHighest hone⟩

/-- Of two tasks with one priority the same runs every time, and a blocked task is
    followed by the front of the queue, of whatever priority. -/
theorem equal_priority_starves :
    (runsFirst (new 2 5) [new 3 5]).selected bootCpu 0 = some 3 ∧
    (runsFirst (new 2 5) [new 3 5]).selected bootCpu 1 = some 3 ∧
    ∀ ctx, (((runsFirst (new 2 5) [new 3 1, new 4 9]).blockAndSwitch
      bootCpu ctx).2.cpus bootCpu).current = some 3 :=
  ⟨rfl, rfl, fun _ => rfl⟩

end OpenOS.Scheduler
