/-
  Wake-ups of receivers blocked on a channel, over whole runs of the kernel.

  Every task blocked there by a receive should be the registered waiter of its
  end, and the end has no message.  `channel_send` keeps that, because it wakes
  the waiter it takes out of the slot; `channel_call` takes the waiter out and
  does not wake it, and a second receiver on the same end replaces the
  registration.
-/

import OpenOS.Syscall.Effects

namespace OpenOS

open Base Scheduler Option List

/-! ## The waiter slot of a channel end -/

namespace Channel

/-- What a channel operation does to the message and the waiter of end `e`. -/
inductive WaiterMove (e : EndId) (ch : Channel) : Op → Res → Channel → Prop
  | keep {op : Op} {res : Res} {ch' : Channel}
      (hmsg : (ch'.endOf e).pendingMsg = (ch.endOf e).pendingMsg)
      (hwait : (ch'.endOf e).blockedReceiver = (ch.endOf e).blockedReceiver) :
      WaiterMove e ch op res ch'
  | delivered {f : EndId} {msg : Message} {task r : TaskId} {ch' : Channel} (hf : e = f.other)
      (hwait : (ch.endOf e).blockedReceiver = some r) :
      WaiterMove e ch (.send f msg task) (.send (.delivered r)) ch'
  | pending {f : EndId} {msg : Message} {task : TaskId} {ch' : Channel} (hf : e = f.other)
      (hwait : (ch.endOf e).blockedReceiver = none) :
      WaiterMove e ch (.send f msg task) (.send .pending) ch'
  | taken {msg : Message} {task sender : TaskId} {ch' : Channel}
      (hmsg : (ch.endOf e).pendingMsg = some msg) :
      WaiterMove e ch (.receive e task) (.receive (.gotMessage msg sender)) ch'
  | registered {task : TaskId} {ch' : Channel}
      (hmsg : (ch'.endOf e).pendingMsg = none)
      (hwait : (ch'.endOf e).blockedReceiver = some task) :
      WaiterMove e ch (.receive e task) (.receive .blocked) ch'
  | called {f : EndId} {msg : Message} {task : TaskId} {r : Option TaskId} {ch' : Channel}
      (hf : e = f.other) : WaiterMove e ch (.call f msg task) (.call (.blocked r)) ch'

/-- A receive that finds no message registers the task at its empty end. -/
theorem receive_blocked {ch : Channel} (h : (ch.receive on task).1 = .blocked) :
    ((ch.receive on task).2.endOf on).pendingMsg = none ∧
      ((ch.receive on task).2.endOf on).blockedReceiver = some task := by
  unfold receive at h ⊢
  dsimp only at h ⊢
  split at h
  · cases h
  rename_i hopen
  split at h
  · cases h
  · rename_i hmsg
    simp [hopen, hmsg]

theorem step_waiter (h : step ch op = some (res, ch')) (e : EndId) :
    WaiterMove e ch op res ch' := by
  -- by the ends: all but the peer of a send or call and the end of a receive keep both
  cases op with
  | send f msg task =>
    cases h
    cases e <;> cases f <;> fun_cases send ch _ msg task <;> grind [WaiterMove]
  | receive on task =>
    cases h
    cases e <;> cases on <;> fun_cases receive ch _ task <;> grind [WaiterMove]
  | call f msg task =>
    cases h
    cases e <;> cases f <;> fun_cases call ch _ msg task <;> grind [WaiterMove]
  | checkReply f =>
    cases h
    cases e <;> cases f <;> fun_cases checkReply ch _ <;> grind [WaiterMove]
  | reply on msg =>
    cases h
    cases e <;> cases on <;> fun_cases reply ch _ msg <;> grind [WaiterMove]
  | pushHandle handle =>
    cases h
    refine .keep ?_ ?_
    · rw [endOf_pushHandle]
    · rw [endOf_pushHandle]

end Channel

namespace Kernel

/-! ## Tasks blocked by a receive -/

/-- The end a step's receive found empty, when it was a receive system call. -/
def receiveBlockedOn (s : KernelStep) : Option (Ref × EndId) :=
  match s.op, s.res.event with
  | .syscall _ (.channelReceive _ _ _), some ⟨c, .receive e _, .receive .blocked⟩ => some (c, e)
  | _, _ => none

/-- The step moved the task into the blocked queue. -/
def NewlyBlocked (s : KernelStep) (i : TaskId) : Prop :=
  i ∉ s.pre.sched.blockedIds ∧ i ∈ s.post.sched.blockedIds
deriving Decidable

/-- Where each task was when it was last blocked: at an end, if a receive
    blocked it. -/
def blockedOn (tr : List KernelStep) : TaskId → Option (Ref × EndId) :=
  tr.foldl (fun w s i => if NewlyBlocked s i then receiveBlockedOn s else w i) fun _ => none

/-- After the run `tr`, task `i` sits in the blocked queue because of a receive
    on end `e` of channel `c`. -/
def Waits (tr : List KernelStep) (k : Kernel) (i : TaskId) (c : Ref) (e : EndId) : Prop :=
  i ∈ k.sched.blockedIds ∧ blockedOn tr i = some (c, e)

/-- No task is blocked in a receive on an end that has a message. -/
def NoLostWakeup (tr : List KernelStep) (k : Kernel) : Prop :=
  ∀ i c e, Waits tr k i c e → ((k.channels c).endOf e).pendingMsg = none

/-- The step takes the registration away from no task blocked in a receive without
    waking it: no call is stored for such a task, and a receive that finds no message
    registers the running task and replaces no other blocked one. -/
def KeepsWaiters (tr : List KernelStep) (k : Kernel) (op : Op) : Prop :=
  match op, eventOf k op with
  | .syscall cpu _, some ⟨c, .receive e task, .receive .blocked⟩ =>
    (∀ id, (k.sched.cpus cpu).current = some id → id = task) ∧
      ∀ i, Waits tr k i c e → i = task
  | _, some ⟨c, .receive e task, .receive .blocked⟩ => ∀ i, Waits tr k i c e → i = task
  | _, some ⟨c, .call e _ _, .call (.blocked _)⟩ => ∀ i, ¬ Waits tr k i c e.other
  | _, _ => True

@[simp] theorem blockedOn_concat (tr : List KernelStep) (s : KernelStep) (i : TaskId) :
    blockedOn (tr ++ [s]) i =
      if NewlyBlocked s i then receiveBlockedOn s else blockedOn tr i := by
  simp [blockedOn]

/-! ## The scheduler around a receive and a delivery -/

theorem mem_blockedIds_parkReceiver (h : i ∈ (parkReceiver s cpu ctx).blockedIds) :
    i ∈ s.blockedIds ∨ (s.cpus cpu).current = some i := by
  unfold parkReceiver at h
  split at h
  · exact mem_blockedIds_blockAndSwitch h
  · exact mem_blockedIds_blockAndSwitch (mem_blockedIds_unblockCurrent h)

theorem Effect.wakes (h : Effect k op ev s')
    (hev : ev = some ⟨c, .send f msg task, .send (.delivered r)⟩) :
    ∃ cpu, s' = k.sched.wakeTaskById cpu r := by
  cases h with
  | @send cpu mem hd ptr len c' e msg' hmsg hch =>
    simp only [some.injEq, ChannelEvent.mk.injEq, Channel.Res.send.injEq] at hev
    refine ⟨cpu, ?_⟩
    rw [hev.2.2]
    rfl
  | receive | call | reply | pollReceive | pollCall | transfer =>
    simp only [some.injEq, ChannelEvent.mk.injEq] at hev
    cases hev.2.1
  | fail | table | reschedule | wake | setCurrent => cases hev

/-- A receive system call that finds no message blocks the CPU's current task. -/
theorem Effect.parks (h : Effect k (.syscall cpu (.channelReceive ctx hd buf)) ev s')
    (hev : ev = some ⟨c, .receive e task, .receive .blocked⟩) :
    s' = parkReceiver k.sched cpu ctx := by
  cases h with
  | receive hch =>
    simp only [some.injEq, ChannelEvent.mk.injEq, Channel.Res.receive.injEq] at hev
    rw [hev.2.2]
    rfl
  | fail | table => cases hev

/-! ## The joint invariant -/

/-- Every task blocked by a receive is the registered waiter of an empty end. -/
structure WakeInv (tr : List KernelStep) (k : Kernel) : Prop where
  unique : k.sched.UniqueIds
  noMsg : ∀ i c e, Waits tr k i c e → ((k.channels c).endOf e).pendingMsg = none
  waiter : ∀ i c e, Waits tr k i c e → ((k.channels c).endOf e).blockedReceiver = some i

theorem wakeInv_nil (hu : k.sched.UniqueIds) : WakeInv [] k := by
  refine ⟨hu, ?_, ?_⟩
  · rintro i c e ⟨-, h⟩
    cases h
  · rintro i c e ⟨-, h⟩
    cases h

theorem receiveBlockedOn_eq_some (h : receiveBlockedOn s = some (c, e)) :
    ∃ cpu ctx hd buf task, s.op = .syscall cpu (.channelReceive ctx hd buf) ∧
      s.res.event = some ⟨c, .receive e task, .receive .blocked⟩ := by
  unfold receiveBlockedOn at h
  split at h
  · rename_i cpu ctx hd buf c' e' task hop hev
    cases h
    exact ⟨cpu, ctx, hd, buf, task, hop, hev⟩
  · cases h

/-- A task that a step blocked in a receive is registered at the empty end. -/
theorem waiter_of_newlyBlocked (hs : step p k op = some (o, k'))
    (hkeep : KeepsWaiters tr k op) (hnew : NewlyBlocked ⟨k, op, o, k'⟩ i)
    (hon : receiveBlockedOn ⟨k, op, o, k'⟩ = some (c, e)) :
    ((k'.channels c).endOf e).pendingMsg = none ∧
      ((k'.channels c).endOf e).blockedReceiver = some i := by
  obtain ⟨cpu, ctx, hd, buf, task, hop, hev⟩ := receiveBlockedOn_eq_some hon
  dsimp only at hop hev
  subst hop
  obtain ⟨heff, hfollow, hevent⟩ := step_sound hs
  -- the task is the CPU's current one, and that is who registers
  have hcur : (k.sched.cpus cpu).current = some i := by
    have hpost : i ∈ k'.sched.blockedIds := hnew.2
    rw [heff.parks hev] at hpost
    rcases mem_blockedIds_parkReceiver hpost with hold | hcur
    · exact absurd hold hnew.1
    · exact hcur
  simp only [KeepsWaiters, ← hevent, hev] at hkeep
  obtain rfl := hkeep.1 i hcur
  rw [hev] at hfollow
  obtain ⟨ch, hstep, hk⟩ := hfollow
  obtain ⟨hres, rfl⟩ := Prod.mk.inj (some.inj hstep)
  rw [hk, Function.update_self]
  exact Channel.receive_blocked (Channel.Res.receive.inj hres)

section

variable (hI : WakeInv tr k) (hs : step p k op = some (o, k')) (hkeep : KeepsWaiters tr k op)
include hI hs hkeep

/-- A task that stays blocked in a receive stays registered at the empty end. -/
theorem waiter_of_stillBlocked (hw : Waits tr k i c e) (hstill : i ∈ k'.sched.blockedIds) :
    ((k'.channels c).endOf e).pendingMsg = none ∧
      ((k'.channels c).endOf e).blockedReceiver = some i := by
  have hmsg := hI.noMsg i c e hw
  have hwait := hI.waiter i c e hw
  obtain ⟨heff, hfollow, hevent⟩ := step_sound hs
  rcases hev : o.event with _ | ⟨c', cop, cres⟩
  · rw [hev] at hfollow
    rw [show k'.channels = k.channels from hfollow]
    exact ⟨hmsg, hwait⟩
  rw [hev] at hfollow
  obtain ⟨ch, hstep, hk⟩ := hfollow
  rw [hk]
  by_cases hc : c = c'
  · subst hc
    rw [Function.update_self]
    have hmove := Channel.step_waiter hstep e
    rw [hevent] at hev
    cases hmove with
    | keep hm hr => exact ⟨hm.trans hmsg, hr.trans hwait⟩
    | delivered hf hr =>
      -- the registered waiter is woken, so it cannot still be blocked
      obtain ⟨cpu, hsched⟩ := heff.wakes (hevent.trans hev)
      rw [hsched] at hstill
      have hne := (mem_blockedIds_wakeTaskById hI.unique hstill).2
      rw [hwait] at hr
      exact absurd (some.inj hr) hne
    -- a send finds no waiter, or a receive finds a message: excluded here
    | pending hf hr =>
      rw [hwait] at hr
      cases hr
    | taken hm =>
      rw [hmsg] at hm
      cases hm
    | registered hm hr =>
      refine ⟨hm, ?_⟩
      rw [hr]
      simp only [KeepsWaiters, hev] at hkeep
      cases op with
      | syscall => rw [hkeep.2 i hw]
      | poll | reschedule | wake | setCurrent => rw [hkeep i hw]
    | called hf =>
      subst hf
      simp only [KeepsWaiters, hev] at hkeep
      cases op with
      | syscall | poll | reschedule | wake | setCurrent => exact absurd hw (hkeep i)
  · rw [Function.update_of_ne hc]
    exact ⟨hmsg, hwait⟩

theorem wakeInv_step : WakeInv (tr ++ [⟨k, op, o, k'⟩]) k' := by
  have hboth : ∀ i c e, Waits (tr ++ [⟨k, op, o, k'⟩]) k' i c e →
      ((k'.channels c).endOf e).pendingMsg = none ∧
        ((k'.channels c).endOf e).blockedReceiver = some i := by
    rintro i c e ⟨hblocked, hon⟩
    rw [blockedOn_concat] at hon
    split at hon
    · rename_i hnew
      exact waiter_of_newlyBlocked hs hkeep hnew hon
    rename_i hnot
    have hold : i ∈ k.sched.blockedIds := by
      by_contra hout
      exact hnot ⟨hout, hblocked⟩
    exact waiter_of_stillBlocked hI hs hkeep ⟨hold, hon⟩ hblocked
  exact ⟨(step_sound hs).effect.uniqueIds hI.unique, fun i c e h => (hboth i c e h).1,
    fun i c e h => (hboth i c e h).2⟩

end

/-- From any kernel with distinct task ids, in every run whose steps all keep
    the waiters, no state reached has a task blocked in a receive on an end
    that has a message. -/
theorem noLostWakeup_of_keepsWaiters {p : Profile} {k₀ k : Kernel} {tr : List KernelStep}
    (hu : k₀.sched.UniqueIds) (hrun : Run (step p) k₀ tr k)
    (hkeep : ∀ tr₁ s, tr₁ ++ [s] <+: tr → KeepsWaiters tr₁ s.pre s.op) : NoLostWakeup tr k := by
  have hinv : WakeInv tr k := by
    refine hrun.invariant_of_guard (wakeInv_nil hu)
      ?_ hkeep
    intro tr k op o k' hI hs hg
    exact wakeInv_step hI hs hg
  exact hinv.noMsg

/-- Task 1 holds end B of channel 0 and runs; task 2 holds end A. -/
def bootWaiter : Kernel :=
  boot [bootTask 1 .running (oneHandle .all (.channelEndB 0)) (some zeroContext),
    bootTask 2 .ready (oneHandle .all (.channelEndA 0)) (some zeroContext)]

theorem uniqueIds_bootWaiter : bootWaiter.sched.UniqueIds := by
  rw [Scheduler.UniqueIds]
  decide

/-- A call by the running task. -/
def callOp : Op :=
  .syscall bootCpu (.channelCall (fun _ => 7) (Handle.new 0 .all 0).asU64 0x1000#64 1#64 0x2000#64)

/-- A blocked receive and the send that answers it. -/
theorem noLostWakeup_receive_send :
    ∃ tr k, Run (step .dev) bootWaiter tr k ∧ tr.map Transition.op = [receiveOp, sendOneByte .all] ∧
      NoLostWakeup tr k := by
  have hrun := exec_run (step .dev) bootWaiter [receiveOp, sendOneByte .all] rfl
  refine ⟨_, _, hrun, rfl, noLostWakeup_of_keepsWaiters uniqueIds_bootWaiter hrun ?_⟩
  simp only [forall_concat_isPrefix_cons, forall_concat_isPrefix_nil, and_true]
  -- the running task registers itself, and nobody waited before
  refine ⟨⟨fun id hid => (some.inj hid).symm, ?_⟩, trivial⟩
  rintro i ⟨hi, -⟩
  cases hi

/-- Task 1 is blocked in a receive on end B when task 2 calls on end A: the
    request is stored, and task 1 is not woken. -/
theorem call_loses_wakeup :
    ∃ tr k, Run (step .dev) bootWaiter tr k ∧ tr.map Transition.op = [receiveOp, callOp] ∧
      Waits tr k 1 0 .b ∧ ((k.channels 0).endOf .b).pendingMsg = some [7] ∧
      ¬ NoLostWakeup tr k := by
  have hrun := exec_run (step .dev) bootWaiter [receiveOp, callOp] rfl
  refine ⟨_, _, hrun, rfl, ⟨mem_singleton_self _, rfl⟩, rfl, ?_⟩
  intro h
  cases h 1 0 .b ⟨mem_singleton_self _, rfl⟩

/-- System calls, wake-ups and switches lose no task and make none. -/
theorem ids_of_run {p : Profile} {k₀ k : Kernel} {tr : List KernelStep}
    (hrun : Run (step p) k₀ tr k) :
    k.sched.owners.map Prod.fst = k₀.sched.owners.map Prod.fst := by
  induction hrun with
  | nil => rfl
  | snoc _ hs ih =>
    rcases (step_sound hs).effect.owners with heq | ⟨cpu, t, table, -, hupd⟩
    · rwa [heq]
    obtain ⟨rest, hbefore, hafter⟩ := hupd.owners
    rw [hbefore, Multiset.map_cons] at ih
    rwa [hafter, Multiset.map_cons]

theorem ids_receive_call : ∃ tr k, Run (step .dev) bootWaiter tr k ∧
    tr.map Transition.op = [receiveOp, callOp] ∧
    k.sched.owners.map Prod.fst = bootWaiter.sched.owners.map Prod.fst :=
  have hrun := exec_run (step .dev) bootWaiter [receiveOp, callOp] rfl
  ⟨_, _, hrun, rfl, ids_of_run hrun⟩

end Kernel

end OpenOS
