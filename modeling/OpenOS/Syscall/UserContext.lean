/-
  Where saved user-mode contexts point to.

  A user-mode context is resumed by SYSRET at `rcx` with the stack `rsp`.  It
  is written by sys_process_start, from the entry point of the ELF header, by
  sys_thread_create, from its arguments, and by sys_sigreturn, from a frame in
  user memory.  Each call adds to the saved contexts at most those it writes
  (`given`); only sys_thread_create checks them.
-/

import OpenOS.Syscall.Process
import OpenOS.Syscall.Kill

namespace OpenOS

open Base Base.Comp Option List Scheduler Multiset Set Elf

/-! ## Contexts -/

/-- A user-mode context is resumed in user space. -/
def SavedContext.InUserSpace (ctx : SavedContext) : Prop :=
  ctx.isKernel = 0 → ctx.rcx.toNat < userSpaceMax ∧ ctx.rsp.toNat ≤ userSpaceMax

namespace Scheduler

/-- The saved contexts. -/
def contexts (s : Scheduler) : Set SavedContext := { c | ∃ t ∈ s.tasks, t.context = some c }

/-- Every task with a user-mode context is resumed in user space. -/
def Confined (s : Scheduler) : Prop := ∀ t ∈ s.tasks, ∀ ctx, t.context = some ctx → ctx.InUserSpace

variable {s : Scheduler}

theorem confined_iff : s.Confined ↔ ∀ c ∈ s.contexts, c.InUserSpace := by
  constructor
  · rintro h c ⟨t, ht, hc⟩
    exact h t ht c hc
  · intro h t ht c hc
    exact h c ⟨t, ht, hc⟩

/-- Replacing a task adds at most its new context. -/
theorem contexts_of_replaces (h : s.Replaces t t' s') :
    s'.contexts ⊆ s.contexts ∪ { c | t'.context = some c } := by
  obtain ⟨rest, hs, hs'⟩ := h
  rintro c ⟨a, ha, hc⟩
  rw [hs', Multiset.mem_cons] at ha
  rcases ha with rfl | ha
  · exact .inr hc
  · exact .inl ⟨a, by rw [hs]; exact Multiset.mem_cons_of_mem ha, hc⟩

theorem contexts_of_replaces_same (h : s.Replaces t t' s') (hctx : t'.context = t.context) :
    s'.contexts ⊆ s.contexts := by
  intro c hc
  rcases contexts_of_replaces h hc with hold | hnew
  · exact hold
  · exact ⟨t, h.mem, hctx ▸ hnew⟩

theorem contexts_setCurrentTask (s : Scheduler) (cpu : Cpu) (id : TaskId) :
    (s.setCurrentTask cpu id).contexts = s.contexts := by
  unfold contexts
  rw [tasks_setCurrentTask]

/-! ## The signal calls -/

theorem contexts_of_installsAtMost (h : InstallsAtMost s cpu s') : s'.contexts ⊆ s.contexts := by
  rcases h with rfl | ⟨n, handler, old, -, hmut⟩
  · exact subset_rfl
  · obtain ⟨t, -, -, hrep⟩ := replaces_of_withCurrentTaskMut hmut
    exact contexts_of_replaces_same hrep rfl

/-- The context that `sys_sigreturn` leaves in the current task. -/
def restored (s : Scheduler) (cpu : Cpu) (mem : UserMem) (framePtr : Word) : Set SavedContext :=
  { c | framePtr ≠ 0 ∧ framePtr.toNat < userSpaceMax ∧ ∃ t ctx,
    s.withCurrentTask cpu = some t ∧ t.context = some ctx ∧
    c = (readFrame mem framePtr).restore ctx }

theorem contexts_sysSigreturn (s : Scheduler) (cpu : Cpu) (mem : UserMem) (framePtr : Word) :
    (s.sysSigreturn cpu mem framePtr).2.contexts ⊆ s.contexts ∪ s.restored cpu mem framePtr := by
  unfold sysSigreturn
  split
  · exact subset_union_left
  rename_i hptr
  rw [not_or, Nat.not_le] at hptr
  split
  · exact subset_union_left
  rename_i h
  obtain ⟨t, hcur, -, hrep⟩ := replaces_of_withCurrentTaskMut h
  intro c hc
  rcases contexts_of_replaces hrep hc with hold | hnew
  · exact .inl hold
  · obtain ⟨ctx, hctx, rfl⟩ := map_eq_some_iff.mp hnew
    exact .inr ⟨hptr.1, hptr.2, t, ctx, hcur, hctx, rfl⟩

end Scheduler

/-! ## Starting a process -/

/-- What `load_elf` returns are the entry point of the header, as it stands in
    the file, and the top of the stack. -/
theorem loadElf_result (h : loadElf M p data s = .ok r s') :
    ∃ header, parseHeader data = .ok header ∧ r.entryPoint = header.entry ∧
      r.stackTop = stackTop := by
  obtain ⟨header, s₁, hheader, h⟩ := bind_eq_ok h
  obtain ⟨_, s₂, -, h⟩ := bind_eq_ok h
  obtain ⟨_, s₃, -, h⟩ := bind_eq_ok h
  obtain ⟨_, s₄, -, h⟩ := bind_eq_ok h
  obtain ⟨_, s₅, -, h⟩ := bind_eq_ok h
  obtain ⟨_, s₆, -, h⟩ := bind_eq_ok h
  cases h
  refine ⟨header, ?_, rfl, rfl⟩
  unfold headerOf at hheader
  split at hheader
  · rename_i hparse
    cases hheader
    exact hparse
  · cases hheader

namespace ProcState

/-- The contexts that sys_process_start may give a task. -/
def startContexts (mem : UserMem) (files : ProgramFiles) (namePtr nameLen : Word) :
    Set SavedContext :=
  { c | ∃ filename elfData header pageTable,
    programOf mem files namePtr nameLen = .ok (filename, elfData) ∧
    parseHeader elfData = .ok header ∧ c = .userMode header.entry stackTop pageTable }

variable {k : ProcState}

/-- The saved contexts are among those of `C`. -/
abbrev Among (C : Set SavedContext) (k : ProcState) : Prop := k.sched.contexts ⊆ C

theorem spec_onVm (x : Comp SysError Memory.PageTable.Vm α) :
    Spec (Among C) (onVm x) (fun _ => Among C) (Among C) := by
  intro k hk
  unfold onVm
  cases x k.vm with
  | ok a vm => exact hk
  | error e vm => exact hk

theorem spec_newPageTable (p : Profile) (cpu : Cpu) :
    Spec (Among C) (newPageTable p cpu) (fun _ => Among C) (Among C) := by
  refine .bind .get fun k₀ => .bind (fun k hk => spec_onVm _ k hk.2) fun r => ?_
  cases r with
  | none => exact .throw fun _ hk => hk
  | some pageTable => exact .pure fun _ hk => hk

/-- Replacing a task keeps the contexts in `C` if its new one is there. -/
theorem among_of_withTaskMut {id : TaskId} {sched : Scheduler}
    (hf : ∀ t, (f t).2.context = t.context ∨ ∃ c ∈ C, (f t).2.context = some c) (hk : Among C k)
    (h : k.sched.withTaskMut cpu id f = some ((), sched)) : sched.contexts ⊆ C := by
  obtain ⟨t, -, -, hrep⟩ := withTaskMut_eq_some h
  rcases hf t with hsame | ⟨c, hc, hnew⟩
  · exact (contexts_of_replaces_same hrep hsame).trans hk
  intro c' hc'
  rcases contexts_of_replaces hrep hc' with hold | hnew'
  · exact hk hold
  · have : c = c' := some.inj (hnew.symm.trans hnew')
    exact this ▸ hc

theorem spec_onTask (cpu : Cpu) (id : TaskId) (hf : ∀ t, (f t).2.context = t.context) :
    Spec (Among C) (onTask cpu id f) (fun _ => Among C) (Among C) := by
  intro k hk
  unfold onTask
  cases h : k.sched.withTaskMut cpu id f with
  | none => exact hk
  | some q => exact among_of_withTaskMut (fun t => .inl (hf t)) hk h

theorem spec_onTaskIfAny (cpu : Cpu) (id : TaskId) (hctx : ctx ∈ C) :
    Spec (Among C) (onTaskIfAny cpu id (setContext ctx)) (fun _ => Among C) (Among C) := by
  intro k hk
  unfold onTaskIfAny
  cases h : k.sched.withTaskMut cpu id (setContext ctx) with
  | none => exact hk
  | some q => exact among_of_withTaskMut (fun t => .inr ⟨ctx, hctx, rfl⟩) hk h

theorem spec_switchPageTable (cpu : Cpu) (p4 : Word) :
    Spec (Among C) (switchPageTable cpu p4) (fun _ => Among C) (Among C) := fun _ hk => hk

theorem spec_loadProgram (p : Profile) (cpu : Cpu) (elfData : List Byte) :
    Spec (Among C) (loadProgram p cpu elfData)
      (fun r k => Among C k ∧ ∃ header, parseHeader elfData = .ok header ∧
        r.entryPoint = header.entry ∧ r.stackTop = stackTop) (Among C) := by
  intro k hk
  unfold loadProgram
  cases h : loadElf (Memory.PageTable.Vm.loader p (k.cr3 cpu)) p elfData k.vm with
  | ok r vm => exact ⟨hk, loadElf_result h⟩
  | error e vm =>
    cases e with
    | err e => exact hk
    | panic => exact hk

theorem spec_idOrErr (id : TaskId) (e : SysError) :
    Spec (Among C) (idOrErr id e) (fun _ => Among C) (Among C) := by
  unfold idOrErr
  split
  · exact .pure fun _ hk => hk
  · exact .throw fun _ hk => hk

theorem spec_startProgram (p : Profile) (cpu : Cpu) (taskId : TaskId) (filename : String)
    (hC : ∀ header pageTable, parseHeader elfData = .ok header →
      SavedContext.userMode header.entry stackTop pageTable ∈ C) :
    Spec (Among C) (startProgram p cpu taskId filename elfData) (fun _ => Among C) (Among C) := by
  unfold startProgram
  split
  · exact .throw fun _ hk => hk
  refine .bind (spec_newPageTable p cpu) fun pageTable => .bind .get fun k₀ =>
    .bind (fun k hk => spec_onTask cpu taskId (fun _ => rfl) k hk.2) fun _ =>
    .bind (spec_switchPageTable cpu pageTable) fun _ =>
    .bind (spec_loadProgram p cpu elfData) fun r => ?_
  rintro k ⟨hk, header, hheader, hentry, hstack⟩
  -- the new context is that of the header
  have hctx := hC header pageTable hheader
  rw [← hentry, ← hstack] at hctx
  exact (Spec.bind (spec_onTaskIfAny cpu taskId hctx) fun _ =>
    spec_idOrErr taskId .invalidArgument) k hk

theorem contexts_sysProcessStart (p : Profile) (cpu : Cpu) (mem : UserMem) (files : ProgramFiles)
    (procRaw namePtr nameLen : Word) (hC : startContexts mem files namePtr nameLen ⊆ C) :
    Spec (Among C) (sysProcessStart p cpu mem files procRaw namePtr nameLen)
      (fun _ => Among C) (Among C) := by
  intro k hk
  unfold sysProcessStart
  cases hprogram : programOf mem files namePtr nameLen with
  | error e => exact hk
  | ok q =>
    refine spec_startProgram p cpu procRaw q.1 (fun header pageTable hheader => ?_) k hk
    exact hC ⟨q.1, q.2, header, pageTable, hprogram, hheader, rfl⟩

/-! ## Starting a thread -/

/-- The contexts that sys_thread_create may give a task. -/
def threadContexts (entryPoint stackPtr arg : Word) : Set SavedContext :=
  { c | entryPoint.toNat < userSpaceMax ∧ stackPtr.toNat < userSpaceMax ∧
    ∃ cr3, c = { SavedContext.userMode entryPoint stackPtr cr3 with rdi := arg } }

theorem contexts_spawnTaskFrom (s : Scheduler) (t : Task) :
    (s.spawnTaskFrom t).2.contexts ⊆ s.contexts ∪ { c | t.context = some c } := by
  rcases s.move_spawnOn s.leastLoadedCpu t with ⟨-, hready, hblocked, hmigration⟩ | ⟨-, hsame⟩
  · rintro c ⟨a, ha, hc⟩
    rw [mem_tasks] at ha
    rcases ha with ha | ha | ha
    · rw [Scheduler.spawnTaskFrom, hready, Multiset.mem_cons] at ha
      rcases ha with rfl | ha
      · exact .inr hc
      · exact .inl ⟨a, mem_tasks.mpr (.inl ha), hc⟩
    · rw [spawnTaskFrom, hblocked] at ha
      exact .inl ⟨a, mem_tasks.mpr (.inr (.inl ha)), hc⟩
    · rw [spawnTaskFrom, hmigration] at ha
      exact .inl ⟨a, mem_tasks.mpr (.inr (.inr ha)), hc⟩
  · rw [spawnTaskFrom, hsame]
    exact subset_union_left

theorem contexts_sysThreadCreate (cpu : Cpu) (newId : TaskId) (entryPoint stackPtr arg : Word)
    (hC : threadContexts entryPoint stackPtr arg ⊆ C) :
    Spec (Among C) (sysThreadCreate cpu newId entryPoint stackPtr arg) (fun _ => Among C)
      (Among C) := by
  unfold sysThreadCreate
  split
  · exact .throw fun _ hk => hk
  rename_i hentry
  split
  · exact .throw fun _ hk => hk
  rename_i hstack
  rw [not_or, Nat.not_le] at hentry hstack
  refine .bind .get fun k₀ => ?_
  split
  · exact .throw fun _ hk => hk.2
  split
  · exact .throw fun _ hk => hk.2
  rename_i parent _ _ cr3 _
  split
  · exact .throw fun _ hk => hk.2
  rename_i tid sched hspawn
  refine .bind ?_ fun _ => spec_idOrErr tid .outOfMemory
  rintro _ ⟨rfl, hk⟩
  have hsub := contexts_spawnTaskFrom k₀.sched
    (threadTask newId parent.id cr3 entryPoint stackPtr arg)
  rw [hspawn] at hsub
  refine hsub.trans (union_subset hk ?_)
  intro c hc
  refine hC ⟨hentry.1, hstack.1, cr3, ?_⟩
  exact (some.inj hc).symm

/-! ## The calls as a component -/

/-- The calls that write saved contexts or signal handlers; and the scheduler
    making another task current, so that any task may be the caller. -/
inductive ContextOp
  | processStart (cpu : Cpu) (mem : UserMem) (files : ProgramFiles) (procRaw namePtr nameLen : Word)
  | threadCreate (cpu : Cpu) (newId : TaskId) (entryPoint stackPtr arg : Word)
  | signal (cpu : Cpu) (sig handler : Word)
  | rtSigaction (cpu : Cpu) (mem : UserMem) (sig actPtr oactPtr : Word)
  | sigreturn (cpu : Cpu) (mem : UserMem) (framePtr : Word)
  | setCurrent (cpu : Cpu) (id : TaskId)

/-- A call as a step; nothing runs after a panic. -/
def asStep (r : EStateM.Result (Stop SysError) ProcState Int) : Option (Int × ProcState) :=
  match r with
  | .ok ret k => some (ret, k)
  | .error (.err e) k => some (e.code, k)
  | .error .panic _ => none

def ofSignal (k : ProcState) (q : SignalOutcome × Scheduler) : Option (Int × ProcState) :=
  some (q.1.ret, { k with sched := q.2 })

def contextStep (p : Profile) : StepFn ProcState ContextOp Int
  | k, .processStart cpu mem files procRaw namePtr nameLen =>
    asStep (sysProcessStart p cpu mem files procRaw namePtr nameLen k)
  | k, .threadCreate cpu newId entryPoint stackPtr arg =>
    asStep (sysThreadCreate cpu newId entryPoint stackPtr arg k)
  | k, .signal cpu sig handler => ofSignal k (k.sched.sysSignal cpu sig handler)
  | k, .rtSigaction cpu mem sig actPtr oactPtr =>
    ofSignal k (k.sched.sysRtSigaction cpu mem sig actPtr oactPtr)
  | k, .sigreturn cpu mem framePtr => ofSignal k (k.sched.sysSigreturn cpu mem framePtr)
  | k, .setCurrent cpu id => some (0, { k with sched := k.sched.setCurrentTask cpu id })

/-- The contexts that a call may write. -/
def given (k : ProcState) : ContextOp → Set SavedContext
  | .processStart _ mem files _ namePtr nameLen => startContexts mem files namePtr nameLen
  | .threadCreate _ _ entryPoint stackPtr arg => threadContexts entryPoint stackPtr arg
  | .sigreturn cpu mem framePtr => k.sched.restored cpu mem framePtr
  | .signal .. | .rtSigaction .. | .setCurrent .. => ∅

theorem among_of_asStep (hx : Spec (Among C) x (fun _ => Among C) (Among C)) (hk : Among C k)
    (h : asStep (x k) = some (ret, k')) : Among C k' := by
  have hspec := hx k hk
  cases hrun : x k with
  | ok r k₁ =>
    rw [hrun] at h hspec
    cases h
    exact hspec
  | error e k₁ =>
    rw [hrun] at h hspec
    cases e with
    | err e =>
      cases h
      exact hspec
    | panic => cases h

theorem contexts_step (h : contextStep p k op = some (ret, k')) :
    k'.sched.contexts ⊆ k.sched.contexts ∪ k.given op := by
  cases op with
  | processStart cpu mem files procRaw namePtr nameLen =>
    exact among_of_asStep (contexts_sysProcessStart p cpu mem files procRaw namePtr nameLen
      subset_union_right) subset_union_left h
  | threadCreate cpu newId entryPoint stackPtr arg =>
    exact among_of_asStep (contexts_sysThreadCreate cpu newId entryPoint stackPtr arg
      subset_union_right) subset_union_left h
  | signal cpu sig handler =>
    cases h
    exact (contexts_of_installsAtMost (k.sched.installsAtMost_sysSignal cpu sig handler)).trans
      subset_union_left
  | rtSigaction cpu mem sig actPtr oactPtr =>
    cases h
    exact (contexts_of_installsAtMost
      (k.sched.installsAtMost_sysRtSigaction cpu mem sig actPtr oactPtr)).trans subset_union_left
  | sigreturn cpu mem framePtr =>
    cases h
    exact k.sched.contexts_sysSigreturn cpu mem framePtr
  | setCurrent cpu id =>
    cases h
    exact (k.sched.contexts_setCurrentTask cpu id).subset.trans subset_union_left

/-! ## Confinement -/

/-- What a call is given points into user space: the entry point of the ELF
    header, and the frame of a sys_sigreturn by a task with a user-mode context. -/
def PointsToUser (k : ProcState) : ContextOp → Prop
  | .processStart _ mem files _ namePtr nameLen => ∀ filename elfData header,
    programOf mem files namePtr nameLen = .ok (filename, elfData) →
    parseHeader elfData = .ok header → header.entry.toNat < userSpaceMax
  | .sigreturn cpu mem framePtr => framePtr ≠ 0 → framePtr.toNat < userSpaceMax → ∀ t ctx,
    k.sched.withCurrentTask cpu = some t → t.context = some ctx → ctx.isKernel = 0 →
    (readFrame mem framePtr).savedRcx.toNat < userSpaceMax ∧
    (readFrame mem framePtr).savedRsp.toNat ≤ userSpaceMax
  | .threadCreate .. | .signal .. | .rtSigaction .. | .setCurrent .. => True

theorem toNat_stackTop : stackTop.toNat = userSpaceMax := by decide

theorem inUserSpace_of_given (hop : k.PointsToUser op) (hc : c ∈ k.given op) : c.InUserSpace := by
  intro huser
  cases op with
  | processStart cpu mem files procRaw namePtr nameLen =>
    obtain ⟨filename, elfData, header, pageTable, hprogram, hheader, rfl⟩ := hc
    refine ⟨hop filename elfData header hprogram hheader, ?_⟩
    show stackTop.toNat ≤ userSpaceMax
    rw [toNat_stackTop]
  | threadCreate cpu newId entryPoint stackPtr arg =>
    obtain ⟨hentry, hstack, cr3, rfl⟩ := hc
    exact ⟨hentry, hstack.le⟩
  | signal cpu sig handler => exact hc.elim
  | rtSigaction cpu mem sig actPtr oactPtr => exact hc.elim
  | sigreturn cpu mem framePtr =>
    obtain ⟨hne, hlt, t, ctx, hcur, hctx, rfl⟩ := hc
    rw [Scheduler.SignalFrame.isKernel_restore] at huser
    exact hop hne hlt t ctx hcur hctx huser
  | setCurrent cpu id => exact hc.elim

/-- In a run whose calls are all given addresses of user space, every saved
    user-mode context stays there. -/
theorem contexts_confined_of_pointsToUser (p : Profile) {k₀ k : ProcState}
    {tr : List (Transition ProcState ContextOp Int)} (hinit : k₀.sched.Confined)
    (hrun : Run (contextStep p) k₀ tr k) (hops : ∀ e ∈ tr, e.pre.PointsToUser e.op) :
    k.sched.Confined := by
  refine Run.invariant_of_guard (I := fun _ k => k.sched.Confined)
    (G := fun _ e => e.pre.PointsToUser e.op) hinit ?_ hrun ?_
  · intro _ k a r k' hk hs hop
    rw [confined_iff] at hk ⊢
    intro c hc
    rcases contexts_step hs hc with hold | hnew
    · exact hk c hold
    · exact inUserSpace_of_given hop hnew
  · intro tr₁ e hpre
    exact hops e (hpre.subset (mem_append_right _ mem_cons_self))

/-! ## A frame that points into the kernel -/

/-- A task with a user-mode context runs on the boot CPU. -/
def userTask : Task :=
  { Task.new 1 5 with
    context := some (.userMode 0x401000 0x7FFFFFFFF000 0x1000)
    pageTable := some 0x1000 }

def oneUserTask : ProcState where
  sched := { empty with blocked := [userTask], currentTaskId := 1 }
  vm := ⟨fun _ _ => 0, Memory.FrameAlloc.boot⟩
  cr3 := fun _ => 0x1000

/-- User memory whose byte 39 of the page at 0x1000 is the highest byte of
    `saved_rcx` of a frame there. -/
def frameWith (b : Byte) : UserMem := fun a => if a = 0x1027 then b else 0

theorem confined_oneUserTask : oneUserTask.sched.Confined := by
  intro t ht ctx hctx
  rw [Scheduler.mem_tasks, Scheduler.mem_readyTasks] at ht
  simp only [oneUserTask, Scheduler.empty, List.not_mem_nil, exists_false, List.mem_singleton,
    or_false, false_or] at ht
  subst ht
  cases hctx
  exact fun _ => ⟨by decide, by decide⟩

/-- sys_sigreturn restores an instruction pointer in the kernel half. -/
theorem sigreturn_leaves_user_space : oneUserTask.sched.Confined ∧ ∃ k, contextStep .dev oneUserTask
      (.sigreturn bootCpu (frameWith 0xFF) 0x1000) = some (0, k) ∧ ¬ k.sched.Confined := by
  refine ⟨confined_oneUserTask, _, rfl, fun h => ?_⟩
  have hctx := h _ (mem_tasks.mpr (.inr (.inl mem_cons_self))) _ rfl rfl
  exact absurd hctx.1 (by decide)

/-- A thread is created and a frame with zeros is restored. -/
def threadThenReturn : List ContextOp :=
  [.threadCreate bootCpu 2 0x401000 0x500000 0, .sigreturn bootCpu (frameWith 0) 0x1000]

theorem contexts_confined_threadThenReturn :
    ∃ tr k, Run (contextStep .dev) oneUserTask tr k ∧ tr.map Transition.op = threadThenReturn ∧
      k.sched.Confined := by
  have hrun := exec_run (contextStep .dev) oneUserTask threadThenReturn rfl
  refine ⟨_, _, hrun, rfl, contexts_confined_of_pointsToUser .dev confined_oneUserTask hrun ?_⟩
  intro e he
  simp only [List.mem_cons, List.not_mem_nil, or_false] at he
  rcases he with rfl | rfl
  · exact trivial
  · intro _ _ t ctx _ _ _
    exact ⟨by decide, by decide⟩

end ProcState

end OpenOS
