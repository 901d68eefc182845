/-
  No scheduler call loses or duplicates a task: over every run on any CPUs, the
  ids of the tasks in all queues, together with those terminated, are those
  present at the start and those spawned.
-/

import OpenOS.Task.Lifecycle

namespace OpenOS.Scheduler

open Base Multiset Option List Finset Move

/-! ## The scheduler as a component -/

/-- The statics before `init`. -/
def empty : Scheduler where
  cpus := fun _ => ⟨[], none⟩
  blocked := []
  blockedCpuMap := fun _ => none
  currentTaskId := 0
  switchContext := none

/-- `init`: the idle task, with its kernel-mode context, on CPU 0. -/
def init (s : Scheduler) (idleId : TaskId) (ctx : SavedContext) : Scheduler :=
  let idle := { Task.new idleId 0 with context := some ctx }
  { s with
    currentTaskId := idleId
    cpus := Function.update s.cpus bootCpu
      ⟨(s.cpus bootCpu).ready ++ [idle], some idleId⟩ }

/-- A scheduler in which no call of a run has been made yet. -/
inductive AtStart : Scheduler → Prop
  | empty : AtStart empty
  | init (idleId : TaskId) (ctx : SavedContext) : AtStart (Scheduler.empty.init idleId ctx)

inductive Op
  | spawnTask (id : TaskId) (priority : BitVec 8)
  | spawnTaskFrom (task : Task)
  | spawnTaskOnCurrent (cpu : Cpu) (task : Task)
  | scheduleNextLocal (cpu : Cpu)
  | blockAndSwitch (cpu : Cpu) (ctx : SavedContext)
  | unblockCurrent (cpu : Cpu)
  | wakeTaskById (cpu : Cpu) (id : TaskId)
  | migrateTask (id : TaskId) (fromCpu toCpu : Nat)
  /-- Take a task off a ready queue and pass it to `push_migration`. -/
  | pushMigration (cpu : Cpu) (id : TaskId)
  | stealFromMigration (cpu : Cpu)
  | terminateCurrent (cpu : Cpu) (status : Word)

inductive Res
  | spawned (r : Except String TaskId)
  | scheduled (id : Option TaskId)
  | flag (b : Bool)
  | done

def step : StepFn Scheduler Op Res
  | s, .spawnTask id priority =>
    let q := s.spawnTask id priority
    some (.spawned q.1, q.2)
  | s, .spawnTaskFrom task =>
    let q := s.spawnTaskFrom task
    some (.spawned q.1, q.2)
  | s, .spawnTaskOnCurrent cpu task =>
    let q := s.spawnTaskOnCurrent cpu task
    some (.spawned q.1, q.2)
  | s, .scheduleNextLocal cpu =>
    (s.scheduleNextLocal cpu).map fun (r, s') => (.scheduled r, s')
  | s, .blockAndSwitch cpu ctx =>
    let q := s.blockAndSwitch cpu ctx
    some (.flag q.1, q.2)
  | s, .unblockCurrent cpu => some (.done, s.unblockCurrent cpu)
  | s, .wakeTaskById cpu id => some (.done, s.wakeTaskById cpu id)
  | s, .migrateTask id fromCpu toCpu =>
    let q := s.migrateTask id fromCpu toCpu
    some (.flag q.1, q.2)
  | s, .pushMigration cpu id =>
    match s.takeReady cpu id with
    | none => some (.done, s)
    | some (task, s') => some (.done, s'.pushMigration task)
  | s, .stealFromMigration cpu =>
    let q := s.stealFromMigration cpu
    some (.flag q.1, q.2)
  | s, .terminateCurrent cpu status => some (.done, (s.terminateCurrent cpu status).2)

/-! ## What a step does to the tasks -/

/-- The task an operation asks to spawn. -/
def Op.newTask : Op → Option Task
  | .spawnTask id priority => some (Task.new id priority)
  | .spawnTaskFrom task => some task
  | .spawnTaskOnCurrent _ task => some task
  | _ => none

/-- The id of the task a step spawned. -/
def spawnedBy (e : Transition Scheduler Op Res) : Option TaskId :=
  match e.res with
  | .spawned (.ok id) => some id
  | _ => none

/-- The id of the task a step terminated. -/
def terminatedBy (e : Transition Scheduler Op Res) : Option TaskId :=
  match e.op with
  | .terminateCurrent cpu status => (e.pre.terminateCurrent cpu status).1.map Task.id
  | _ => none

/-- The three things a step can do. -/
inductive Effect (e : Transition Scheduler Op Res) : Prop
  | spawn (t : Task) (hop : e.op.newTask = some t) (hspawned : spawnedBy e = some t.id)
      (hterm : terminatedBy e = none) (hready : e.post.readyTasks = t ::ₘ e.pre.readyTasks)
      (hblocked : e.post.blocked = e.pre.blocked)
      (hmigration : e.post.migration = e.pre.migration)
  | moves (s₁ : Scheduler) (hspawned : spawnedBy e = none) (hterm : terminatedBy e = none)
      (h₁ : Move e.pre s₁) (h₂ : Move s₁ e.post)
  | terminate (t : Task) (s₁ : Scheduler) (hspawned : spawnedBy e = none)
      (hterm : terminatedBy e = some t.id) (hready : e.pre.readyTasks = t ::ₘ s₁.readyTasks)
      (hblocked : s₁.blocked = e.pre.blocked) (hmigration : s₁.migration = e.pre.migration)
      (hmove : Move s₁ e.post)

theorem refl (s : Scheduler) : Move s s := .stay rfl rfl rfl

variable {s : Scheduler}

theorem effect_spawnOn (hop : e.op.newTask = some t) (hterm : terminatedBy e = none)
    (hres : e.res = .spawned (e.pre.spawnOn cpu t).1) (hpost : e.post = (e.pre.spawnOn cpu t).2) :
    Effect e := by
  rcases e.pre.move_spawnOn cpu t with ⟨hok, hready, hblocked, hmigration⟩ | ⟨⟨msg, herr⟩, hsame⟩
  · rw [← hpost] at hready hblocked hmigration
    refine .spawn t hop ?_ hterm hready hblocked hmigration
    rw [spawnedBy, hres, hok]
  refine .moves e.pre ?_ hterm (refl _) ?_
  · rw [spawnedBy, hres, herr]
  · rw [hpost, hsame]
    exact refl _

theorem step_effect (h : step s op = some (r, s')) : Effect ⟨s, op, r, s'⟩ := by
  cases op with
  | spawnTask id priority =>
    cases h
    exact effect_spawnOn rfl rfl rfl rfl
  | spawnTaskFrom task =>
    cases h
    exact effect_spawnOn rfl rfl rfl rfl
  | spawnTaskOnCurrent cpu task =>
    cases h
    exact effect_spawnOn rfl rfl rfl rfl
  | scheduleNextLocal cpu =>
    obtain ⟨⟨r', s''⟩, hsched, heq⟩ := map_eq_some_iff.mp h
    cases heq
    exact .moves s rfl rfl (refl s) (s.move_scheduleNextLocal cpu hsched)
  | blockAndSwitch cpu ctx =>
    cases h
    -- the current task is parked, then the next one runs
    cases hcur : (s.cpus cpu).current with
    | none =>
      refine .moves s rfl rfl (refl s) ?_
      simp only [blockAndSwitch, hcur]
      exact refl s
    | some id =>
      refine .moves (s.parkCurrent cpu id ctx) rfl rfl (s.move_parkCurrent cpu id ctx) ?_
      simp only [blockAndSwitch, hcur]
      exact move_pickNext _ cpu
  | unblockCurrent cpu =>
    cases h
    exact .moves s rfl rfl (refl s) (s.move_unblockCurrent cpu)
  | wakeTaskById cpu id =>
    cases h
    exact .moves s rfl rfl (refl s) (s.move_wakeTaskById cpu id)
  | migrateTask id fromCpu toCpu =>
    cases h
    exact .moves s rfl rfl (refl s) (s.move_migrateTask id fromCpu toCpu)
  | pushMigration cpu id =>
    simp only [step] at h
    split at h
    · cases h
      exact .moves s rfl rfl (refl s) (refl s)
    · rename_i task s₁ htake
      cases h
      exact .moves s rfl rfl (refl s) (s.move_pushMigration cpu htake)
  | stealFromMigration cpu =>
    cases h
    exact .moves s rfl rfl (refl s) (s.move_stealFromMigration cpu)
  | terminateCurrent cpu status =>
    cases h
    rcases s.terminateCurrent_cases cpu status with ⟨heq, -⟩ | ⟨id, t, s₁, -, htake, hres, hmove⟩
    · refine .moves s rfl ?_ (refl s) ?_
      · simp [terminatedBy, heq]
      · simp only [heq]
        exact refl s
    · obtain ⟨-, hready, hblocked, hmigration⟩ := s.takeReady_eq_some cpu htake
      refine .terminate t s₁ rfl ?_ hready hblocked hmigration hmove
      simp [terminatedBy, hres, terminated]

/-! ## The invariant -/

/-- The ids of all tasks. -/
def ids (s : Scheduler) : Multiset TaskId := s.tasks.map Task.id

/-- The `Blocked` state is that of the blocked queue. -/
structure StatesMatch (s : Scheduler) : Prop where
  ready : ∀ t ∈ s.readyTasks, t.state ≠ .blocked
  blocked : ∀ t ∈ s.blocked, t.state = .blocked
  migration : ∀ t ∈ s.migration, t.state ≠ .blocked

theorem Move.ids_eq (h : Move s s') : s'.ids = s.ids :=
  h.map_tasks (fun _ _ => rfl) (fun _ _ => rfl)

theorem Move.statesMatch (h : Move s s') (hs : StatesMatch s) : StatesMatch s' := by
  obtain ⟨hr, hb, hm⟩ := hs
  cases h with
  | stay hready hblocked hmigration => exact ⟨hready ▸ hr, hblocked ▸ hb, hmigration ▸ hm⟩
  | run t rest hbefore hready hblocked hmigration =>
    rw [hbefore, Multiset.forall_mem_cons] at hr
    refine ⟨?_, hblocked ▸ hb, hmigration ▸ hm⟩
    rw [hready, Multiset.forall_mem_cons]
    exact ⟨by simp, hr.2⟩
  | block t ctx hready hblocked hmigration =>
    rw [hready, Multiset.forall_mem_cons] at hr
    refine ⟨hr.2, ?_, hmigration ▸ hm⟩
    rw [hblocked]
    intro t' ht'
    rcases mem_append.mp ht' with hold | hnew
    · exact hb t' hold
    · rw [List.mem_singleton.mp hnew]
  | wake t hblocked hready hmigration =>
    have hb' : ∀ t' ∈ (s.blocked : Multiset Task), t'.state = .blocked := hb
    rw [hblocked, Multiset.forall_mem_cons] at hb'
    refine ⟨?_, hb'.2, hmigration ▸ hm⟩
    rw [hready, Multiset.forall_mem_cons]
    exact ⟨by simp, hr⟩
  | give t hready hblocked hmigration =>
    rw [hready, Multiset.forall_mem_cons] at hr
    refine ⟨hr.2, hblocked ▸ hb, ?_⟩
    rw [hmigration]
    intro t' ht'
    rcases mem_append.mp ht' with hold | hnew
    · exact hm t' hold
    · rw [List.mem_singleton.mp hnew]
      exact hr.1
  | steal t hmigration hready hblocked =>
    rw [hmigration, List.forall_mem_cons] at hm
    refine ⟨?_, hblocked ▸ hb, hm.2⟩
    rw [hready, Multiset.forall_mem_cons]
    exact ⟨hm.1, hr⟩

/-- The ids spawned, or terminated, along a history. -/
def spawned (tr : List (Transition Scheduler Op Res)) : List TaskId := tr.filterMap spawnedBy

def terminatedIds (tr : List (Transition Scheduler Op Res)) : List TaskId :=
  tr.filterMap terminatedBy

/-- A spawned task is in the Ready state and has an id that no task had before. -/
def SpawnsFresh (s₀ : Scheduler) (tr : List (Transition Scheduler Op Res))
    (e : Transition Scheduler Op Res) : Prop :=
  ∀ t, e.op.newTask = some t → t.state = .ready ∧ t.id ∉ s₀.ids ∧ t.id ∉ spawned tr

/-- Tasks in the queues and tasks terminated are the tasks of the start and the
    tasks spawned, all with different ids. -/
structure Conserved (s₀ : Scheduler) (tr : List (Transition Scheduler Op Res)) (s : Scheduler) :
    Prop where
  ids : s.ids + (terminatedIds tr : Multiset TaskId) = s₀.ids + (spawned tr : Multiset TaskId)
  distinct : (s₀.ids + (spawned tr : Multiset TaskId)).Nodup
  states : StatesMatch s

section

variable (tr : List (Transition Scheduler Op Res)) (e : Transition Scheduler Op Res)
include tr e

theorem spawned_concat :
    (spawned (tr ++ [e]) : Multiset TaskId) =
      (spawned tr : Multiset TaskId) + ((spawnedBy e).toList : Multiset TaskId) := by
  rw [spawned, spawned, coe_add]
  cases h : spawnedBy e with
  | none => simp [h]
  | some id => simp [h]

theorem terminatedIds_concat :
    (terminatedIds (tr ++ [e]) : Multiset TaskId) =
      (terminatedIds tr : Multiset TaskId) + ((terminatedBy e).toList : Multiset TaskId) := by
  rw [terminatedIds, terminatedIds, coe_add]
  cases h : terminatedBy e with
  | none => simp [h]
  | some id => simp [h]

end

theorem tasks_of_atStart (h : AtStart s) : s.blocked = [] ∧ s.migration = [] ∧
      (s.readyTasks = 0 ∨ ∃ t, s.readyTasks = {t} ∧ t.state = .ready) := by
  cases h with
  | empty => exact ⟨rfl, rfl, .inl (by simp [readyTasks, empty])⟩
  | init idleId ctx =>
    refine ⟨rfl, rfl, .inr ⟨{ Task.new idleId 0 with context := some ctx }, ?_, rfl⟩⟩
    rw [readyTasks, init, sum_update_split]
    simp [othersReady, empty]

theorem statesMatch_of_atStart (h : AtStart s) : StatesMatch s := by
  obtain ⟨hblocked, hmigration, hready⟩ := tasks_of_atStart h
  refine ⟨?_, by simp [hblocked], by simp [hmigration]⟩
  intro t ht
  rcases hready with hnone | ⟨t', hone, hstate⟩
  · rw [hnone] at ht
    cases ht
  · rw [hone, Multiset.mem_singleton] at ht
    rw [ht, hstate]
    decide

theorem nodup_ids_of_atStart (h : AtStart s) : s.ids.Nodup := by
  obtain ⟨hblocked, hmigration, hready⟩ := tasks_of_atStart h
  rw [ids, tasks, hblocked, hmigration]
  rcases hready with hnone | ⟨t, hone, -⟩
  · simp [hnone]
  · simp [hone]

theorem conserved_step (h : Conserved s₀ tr e.pre) (heff : Effect e)
    (hfresh : SpawnsFresh s₀ tr e) : Conserved s₀ (tr ++ [e]) e.post := by
  obtain ⟨hids, hdistinct, hstates⟩ := h
  cases heff with
  | spawn t hop hspawned hterm hready hblocked hmigration =>
    obtain ⟨hstate, hstart, hbefore⟩ := hfresh t hop
    have hnew : e.post.ids = t.id ::ₘ e.pre.ids := by
      rw [ids, tasks, hready, hblocked, hmigration, ids, tasks]
      simp
    refine ⟨?_, ?_, ?_⟩
    · rw [spawned_concat, terminatedIds_concat, hspawned, hterm, hnew, ← add_assoc s₀.ids, ← hids]
      simp [add_comm]
    · rw [spawned_concat, hspawned, ← add_assoc]
      refine nodup_add.mpr ⟨hdistinct, by simp, ?_⟩
      simp [hstart, hbefore]
    · refine ⟨?_, hblocked ▸ hstates.blocked, hmigration ▸ hstates.migration⟩
      rw [hready, Multiset.forall_mem_cons]
      exact ⟨by rw [hstate]; decide, hstates.ready⟩
  | moves s₁ hspawned hterm h₁ h₂ =>
    refine ⟨?_, ?_, h₂.statesMatch (h₁.statesMatch hstates)⟩
    · rw [spawned_concat, terminatedIds_concat, hspawned, hterm, h₂.ids_eq, h₁.ids_eq]
      simpa using hids
    · rw [spawned_concat, hspawned]
      simpa using hdistinct
  | terminate t s₁ hspawned hterm hready hblocked hmigration hmove =>
    have hold : e.pre.ids = t.id ::ₘ s₁.ids := by
      rw [ids, tasks, hready, ids, tasks, hblocked, hmigration]
      simp
    have hready' := hstates.ready
    rw [hready, Multiset.forall_mem_cons] at hready'
    refine ⟨?_, ?_, hmove.statesMatch ⟨hready'.2, hblocked ▸ hstates.blocked,
      hmigration ▸ hstates.migration⟩⟩
    · rw [spawned_concat, terminatedIds_concat, hspawned, hterm, hmove.ids_eq]
      rw [hold] at hids
      simp only [Option.toList_none, coe_nil, add_zero]
      rw [← hids, ← add_assoc, add_comm]
      rfl
    · rw [spawned_concat, hspawned]
      simpa using hdistinct

theorem conserved_of_run (hstart : AtStart s₀) (hrun : Run step s₀ tr s)
    (hfresh : ∀ tr₁ e, tr₁ ++ [e] <+: tr → SpawnsFresh s₀ tr₁ e) : Conserved s₀ tr s := by
  refine Run.invariant_of_guard ?_ ?_ hrun hfresh
  · exact ⟨by simp [terminatedIds, spawned], by simpa [spawned] using nodup_ids_of_atStart hstart,
      statesMatch_of_atStart hstart⟩
  · intro tr s a r s' hI hstep hG
    exact conserved_step hI (step_effect hstep) hG

/-! ## Exactly one place -/

/-- The queues a task can be in. -/
inductive Place
  | ready (cpu : Cpu)
  | blocked
  | migration
deriving DecidableEq

def queueAt (s : Scheduler) : Place → List Task
  | .ready cpu => (s.cpus cpu).ready
  | .blocked => s.blocked
  | .migration => s.migration

/-- The task with this id is `t`, once, in this queue and in no other, and it is
    in the Blocked state exactly when this is the blocked queue. -/
structure PlacedOnce (s : Scheduler) (id : TaskId) (place : Place) (t : Task) : Prop where
  once : (s.queueAt place).filter (fun t => t.id = id) = [t]
  only : ∀ place', place' ≠ place → ∀ t' ∈ s.queueAt place', t'.id ≠ id
  state : t.state = .blocked ↔ place = .blocked

/-- The tasks are those of one queue and those of the others. -/
theorem tasks_split (s : Scheduler) (place : Place) :
    ∃ rest : Multiset Task, s.tasks = (s.queueAt place : Multiset Task) + rest ∧
      ∀ place', place' ≠ place → ∀ t ∈ s.queueAt place', t ∈ rest := by
  cases place with
  | ready cpu =>
    refine ⟨othersReady s.cpus cpu + s.blocked + s.migration, ?_, ?_⟩
    · rw [tasks, readyTasks, sum_ready_split s.cpus cpu, queueAt]
      simp [add_assoc]
    · intro place' hne t ht
      cases place' with
      | ready cpu' =>
        have hother : cpu' ∈ univ.erase cpu := mem_erase.mpr ⟨fun h => hne (by rw [h]), mem_univ _⟩
        have hmem : t ∈ othersReady s.cpus cpu := mem_sum.mpr ⟨cpu', hother, ht⟩
        simp [hmem]
      | blocked => simp [show t ∈ s.blocked from ht]
      | migration => simp [show t ∈ s.migration from ht]
  | blocked =>
    refine ⟨s.readyTasks + s.migration, ?_, ?_⟩
    · rw [tasks, add_comm s.readyTasks, add_assoc]
      rfl
    · intro place' hne t ht
      cases place' with
      | ready cpu' => simp [mem_readyTasks.mpr ⟨cpu', ht⟩]
      | blocked => exact absurd rfl hne
      | migration => simp [show t ∈ s.migration from ht]
  | migration =>
    refine ⟨s.readyTasks + s.blocked, ?_, ?_⟩
    · rw [add_comm]
      rfl
    · intro place' hne t ht
      cases place' with
      | ready cpu' => simp [mem_readyTasks.mpr ⟨cpu', ht⟩]
      | blocked => simp [show t ∈ s.blocked from ht]
      | migration => exact absurd rfl hne

theorem mem_tasks_iff_queueAt : t ∈ s.tasks ↔ ∃ place, t ∈ s.queueAt place := by
  rw [mem_tasks, mem_readyTasks]
  constructor
  · rintro (⟨cpu, h⟩ | h | h)
    · exact ⟨.ready cpu, h⟩
    · exact ⟨.blocked, h⟩
    · exact ⟨.migration, h⟩
  · rintro ⟨place, h⟩
    cases place with
    | ready cpu => exact .inl ⟨cpu, h⟩
    | blocked => exact .inr (.inl h)
    | migration => exact .inr (.inr h)

theorem filter_id_eq_singleton {q : List Task} (hnd : (q.map Task.id).Nodup)
    (ht : t ∈ q) : q.filter (fun t' => t'.id = t.id) = [t] := by
  induction q with
  | nil => cases ht
  | cons x xs ih =>
    rw [List.map_cons, List.nodup_cons] at hnd
    rcases mem_cons.mp ht with rfl | hxs
    · have hrest : xs.filter (fun t' => t'.id = t.id) = [] := by
        rw [filter_eq_nil_iff]
        intro t' ht' heq
        exact hnd.1 (mem_map.mpr ⟨t', ht', of_decide_eq_true heq⟩)
      rw [List.filter_cons_of_pos (by simp), hrest]
    · have hne : x.id ≠ t.id := fun h => hnd.1 (mem_map.mpr ⟨t, hxs, h.symm⟩)
      rw [List.filter_cons_of_neg (by simpa using hne)]
      exact ih hnd.2 hxs

theorem eq_of_id_eq (hnd : s.ids.Nodup) (ht : t ∈ s.tasks) (ht' : t' ∈ s.tasks) (h : t.id = t'.id) :
    t = t' :=
  inj_on_of_nodup_map hnd t ht t' ht' h

/-- With distinct ids the lookup finds every task but the migrating ones. -/
theorem withTask_of_mem (hnd : s.ids.Nodup) (cpu : Cpu)
    (ht : t ∈ s.readyTasks ∨ t ∈ s.blocked) : s.withTask cpu t.id = some t := by
  have hmem : t ∈ s.tasks := by
    rcases ht with ht | ht
    · exact mem_tasks.mpr (.inl ht)
    · exact mem_tasks.mpr (.inr (.inl ht))
  cases hfind : s.withTask cpu t.id with
  | some t' =>
    obtain ⟨hid, ht'⟩ := mem_tasks_of_withTask hfind
    rw [eq_of_id_eq hnd ht' hmem hid]
  | none =>
    obtain ⟨hready, hblocked⟩ := or_eq_none_iff.mp hfind
    rcases ht with ht | ht
    · obtain ⟨c, hc⟩ := mem_readyTasks.mp ht
      have hcpu : c ∈ searchOrder cpu := by
        rcases eq_or_ne c cpu with rfl | hne
        · exact mem_cons_self
        · exact mem_cons_of_mem _
            (mem_filter.mpr ⟨mem_finRange c, by simpa using hne⟩)
      have hnone := find?_eq_none.mp (findSome?_eq_none_iff.mp hready c hcpu) t hc
      simp at hnone
    · have hnone := find?_eq_none.mp hblocked t ht
      simp at hnone

/-- The lookup does not search the migration queue. -/
theorem withTask_of_migrating (hnd : s.ids.Nodup) (cpu : Cpu)
    (ht : t ∈ s.migration) : s.withTask cpu t.id = none := by
  rw [Option.eq_none_iff_forall_ne_some]
  intro t' hfind
  obtain ⟨hid, hplace⟩ := mem_of_withTask hfind
  rw [ids, tasks, Multiset.map_add] at hnd
  have hdisj := (nodup_add.mp hnd).2.2
  refine Multiset.disjoint_left.mp hdisj (Multiset.mem_map.mpr ⟨t', ?_, hid⟩)
    (Multiset.mem_map.mpr ⟨t, ht, rfl⟩)
  rcases hplace with hready | hblocked
  · exact mem_add.mpr (.inl hready)
  · exact mem_add.mpr (.inr hblocked)

theorem placedOnce_of_mem (hnd : s.ids.Nodup) (hstates : StatesMatch s)
    {place : Place} (ht : t ∈ s.queueAt place) : PlacedOnce s t.id place t := by
  obtain ⟨rest, hsplit, hothers⟩ := s.tasks_split place
  rw [ids, hsplit, map_add, nodup_add] at hnd
  obtain ⟨hqueue, -, hdisj⟩ := hnd
  refine ⟨filter_id_eq_singleton (coe_nodup.mp hqueue) ht, ?_, ?_⟩
  · intro place' hne t' ht' heq
    refine disjoint_left.mp hdisj ?_ (mem_map.mpr ⟨t', hothers _ hne t' ht', heq⟩)
    exact Multiset.mem_map.mpr ⟨t, ht, rfl⟩
  · cases place with
    | ready cpu =>
      have hne := hstates.ready t (mem_readyTasks.mpr ⟨cpu, ht⟩)
      exact ⟨fun h => absurd h hne, fun h => by cases h⟩
    | blocked => exact ⟨fun _ => rfl, fun _ => hstates.blocked t ht⟩
    | migration =>
      have hne := hstates.migration t ht
      exact ⟨fun h => absurd h hne, fun h => by cases h⟩

/-- Task conservation: in every run in which spawned tasks are fresh, every task spawned
    and not terminated is in exactly one queue, once, and is Blocked exactly when that
    is the blocked queue. -/
theorem spawned_task_placed_once {s₀ s : Scheduler} {tr : List (Transition Scheduler Op Res)}
    (hstart : AtStart s₀) (hrun : Run step s₀ tr s)
    (hfresh : ∀ tr₁ e, tr₁ ++ [e] <+: tr → SpawnsFresh s₀ tr₁ e)
    {id : TaskId} (hspawned : id ∈ spawned tr) (hlive : id ∉ terminatedIds tr) :
    ∃ place t, PlacedOnce s id place t := by
  obtain ⟨hids, hdistinct, hstates⟩ := conserved_of_run hstart hrun hfresh
  have hmem : id ∈ s.ids := by
    have h : id ∈ s.ids + (terminatedIds tr : Multiset TaskId) := by
      rw [hids]
      exact mem_add.mpr (.inr hspawned)
    rcases mem_add.mp h with h | h
    · exact h
    · exact absurd h hlive
  have hnd : s.ids.Nodup := by
    rw [← hids] at hdistinct
    exact nodup_of_le (le_add_right _ _) hdistinct
  obtain ⟨t, ht, rfl⟩ := Multiset.mem_map.mp hmem
  obtain ⟨place, ht⟩ := mem_tasks_iff_queueAt.mp ht
  exact ⟨place, t, placedOnce_of_mem hnd hstates ht⟩

/-- A saved context with all registers zero. -/
def idleContext : SavedContext := ⟨0, 0, 0, 0, 0, 0, 0, 0, 0, 0, 0, 0, 0, 0, 0, 0, 0⟩

/-- Task 1 is spawned next to the idle task, scheduled and blocked. -/
def spawnAndBlock : List Op :=
  [.spawnTaskOnCurrent bootCpu (Task.new 1 5), .scheduleNextLocal bootCpu,
    .blockAndSwitch bootCpu idleContext]

theorem spawned_task_placed_once_blocked :
    ∃ tr s, Run step (empty.init 0 idleContext) tr s ∧ tr.map Transition.op = spawnAndBlock ∧
      ∃ place t, PlacedOnce s 1 place t := by
  have hrun := exec_run step (empty.init 0 idleContext) spawnAndBlock rfl
  refine ⟨_, _, hrun, rfl, spawned_task_placed_once (.init 0 idleContext) hrun ?_ ?_ ?_⟩
  · have hids : (empty.init 0 idleContext).ids = {0} := by
      rw [ids, tasks, readyTasks, init, sum_update_split]
      simp [othersReady, empty, Task.new]
    simp only [forall_concat_isPrefix_cons, forall_concat_isPrefix_nil, and_true]
    refine ⟨fun t ht => ?_, fun _ h => (by cases h), fun _ h => (by cases h)⟩
    cases ht
    refine ⟨rfl, ?_, not_mem_nil⟩
    decide
  · exact List.mem_singleton.mpr rfl
  · exact not_mem_nil

end OpenOS.Scheduler
