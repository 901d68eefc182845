/-
  What a step of the kernel does, said once.

  `Effect` lists the steps: the channel operation each makes and what becomes
  of the scheduler.  The properties of kernel runs are proved from it
  (`step_sound`), not from the bodies of the system calls.
-/

import OpenOS.Syscall.Channel

namespace OpenOS

open Base Option Scheduler

namespace Kernel

section

variable (s : Scheduler) (cpu : Cpu) (ctx : SavedContext)

/-- The scheduler after a receive that has to wait: the task is blocked, and
    taken back when there is no other task to run. -/
def parkReceiver : Scheduler :=
  if (s.blockAndSwitch cpu ctx).1 then (s.blockAndSwitch cpu ctx).2
  else (s.blockAndSwitch cpu ctx).2.unblockCurrent cpu

/-- The scheduler after a send: a waiting receiver is woken. -/
def afterSend : SendResult → Scheduler
  | .delivered receiver => s.wakeTaskById cpu receiver
  | _ => s

/-- The scheduler after a receive. -/
def afterReceive : RecvResult → Scheduler
  | .blocked => parkReceiver s cpu ctx
  | _ => s

/-- The scheduler after a reply: a waiting caller is woken. -/
def afterReply : ReplyResult → Scheduler
  | .unblocked caller => s.wakeTaskById cpu caller
  | .stored => s

end

/-- How a handle call may change a handle table: by closing or duplicating. -/
inductive TableMove (t : HandleTable) : HandleTable → Prop
  | close (h : Handle) : TableMove t (t.close h).2
  | duplicate {p : Profile} {h : Handle} {r : Rights} {q : Option Handle × HandleTable} :
      t.duplicate p h r = some q → TableMove t q.2

/-- The steps of the kernel: operation, channel event and scheduler. -/
inductive Effect (k : Kernel) : Op → Option ChannelEvent → Scheduler → Prop
  /-- An error before any channel operation. -/
  | fail {op : Op} : Effect k op none k.sched
  | send {cpu : Cpu} {mem : UserMem} {h ptr len : Word} {c : Ref} {e : EndId} {msg : Message}
      (hmsg : copyFromUser mem ptr len = some msg) (hch : k.lookupChannel cpu h = some (c, e)) :
      Effect k (.syscall cpu (.channelSend mem h ptr len))
        (some ⟨c, .send e msg k.sched.currentTaskId,
          .send ((k.channels c).send e msg k.sched.currentTaskId).1⟩)
        (afterSend k.sched cpu ((k.channels c).send e msg k.sched.currentTaskId).1)
  | receive {cpu : Cpu} {ctx : SavedContext} {h buf : Word} {c : Ref} {e : EndId}
      (hch : k.lookupChannel cpu h = some (c, e)) :
      Effect k (.syscall cpu (.channelReceive ctx h buf))
        (some ⟨c, .receive e k.sched.currentTaskId,
          .receive ((k.channels c).receive e k.sched.currentTaskId).1⟩)
        (afterReceive k.sched cpu ctx ((k.channels c).receive e k.sched.currentTaskId).1)
  | call {cpu : Cpu} {mem : UserMem} {h ptr len reply : Word} {c : Ref} {e : EndId}
      {msg : Message} (hmsg : copyFromUser mem ptr len = some msg)
      (hch : k.lookupChannel cpu h = some (c, e)) :
      Effect k (.syscall cpu (.channelCall mem h ptr len reply))
        (some ⟨c, .call e msg k.sched.currentTaskId,
          .call ((k.channels c).call e msg k.sched.currentTaskId).1⟩) k.sched
  | reply {cpu : Cpu} {mem : UserMem} {h ptr len : Word} {c : Ref} {e : EndId} {msg : Message}
      (hmsg : copyFromUser mem ptr len = some msg) (hch : k.lookupChannel cpu h = some (c, e)) :
      Effect k (.syscall cpu (.channelReply mem h ptr len))
        (some ⟨c, .reply e msg, .reply ((k.channels c).reply e msg).1⟩)
        (afterReply k.sched cpu ((k.channels c).reply e msg).1)
  | pollReceive {cpu : Cpu} {c : Ref} {e : EndId} {taskId : TaskId} {buf : Word}
      (hspin : k.spin cpu = some (.receive c e taskId buf)) :
      Effect k (.poll cpu)
        (some ⟨c, .receive e taskId, .receive ((k.channels c).receive e taskId).1⟩) k.sched
  | pollCall {cpu : Cpu} {c : Ref} {e : EndId} {reply : Word}
      (hspin : k.spin cpu = some (.call c e reply)) :
      Effect k (.poll cpu)
        (some ⟨c, .checkReply e, .call ((k.channels c).checkReply e).1⟩) k.sched
  /-- A handle call that only touches the current task's table. -/
  | table {cpu : Cpu} {call : Syscall} {t : Task} {table : HandleTable} {s' : Scheduler}
      (hmove : TableMove t.handleTable table)
      (hupd : k.sched.UpdatesCurrent cpu t { t with handleTable := table } s') :
      Effect k (.syscall cpu call) none s'
  /-- A transfer that took the handle out of the table. -/
  | transfer {cpu : Cpu} {h chRaw : Word} {c : Ref} {e : EndId} {t : Task} {s' : Scheduler}
      (hch : k.lookupChannel cpu chRaw = some (c, e))
      (hclosed : (t.handleTable.close (Handle.fromRaw h)).1 = true)
      (hupd : k.sched.UpdatesCurrent cpu t
        { t with handleTable := (t.handleTable.close (Handle.fromRaw h)).2 } s') :
      Effect k (.syscall cpu (.handleTransfer h chRaw))
        (some ⟨c, .pushHandle h, .pushHandle ((k.channels c).pushHandle h).1⟩) s'
  | reschedule {cpu : Cpu} {ctx : SavedContext} :
      Effect k (.reschedule cpu ctx) none (k.sched.blockAndSwitch cpu ctx).2
  | wake {cpu : Cpu} {id : TaskId} : Effect k (.wake cpu id) none (k.sched.wakeTaskById cpu id)
  | setCurrent {cpu : Cpu} {id : TaskId} :
      Effect k (.setCurrent cpu id) none (k.sched.setCurrentTask cpu id)

/-- The channels change by the event of the outcome, if any. -/
def ChannelsFollow (k : Kernel) (ev : Option ChannelEvent) (k' : Kernel) : Prop :=
  match ev with
  | none => k'.channels = k.channels
  | some ev => ∃ ch, Channel.step (k.channels ev.ch) ev.op = some (ev.res, ch) ∧
      k'.channels = Function.update k.channels ev.ch ch

/-- The channel operation a step makes, read off the state it starts in. -/
def eventOf (k : Kernel) : Op → Option ChannelEvent
  | .syscall cpu (.channelSend mem h ptr len) =>
    (copyFromUser mem ptr len).bind fun msg =>
    (k.lookupChannel cpu h).map fun q =>
      ⟨q.1, .send q.2 msg k.sched.currentTaskId,
        .send ((k.channels q.1).send q.2 msg k.sched.currentTaskId).1⟩
  | .syscall cpu (.channelReceive _ h _) =>
    (k.lookupChannel cpu h).map fun q =>
      ⟨q.1, .receive q.2 k.sched.currentTaskId,
        .receive ((k.channels q.1).receive q.2 k.sched.currentTaskId).1⟩
  | .syscall cpu (.channelCall mem h ptr len _) =>
    (copyFromUser mem ptr len).bind fun msg =>
    (k.lookupChannel cpu h).map fun q =>
      ⟨q.1, .call q.2 msg k.sched.currentTaskId,
        .call ((k.channels q.1).call q.2 msg k.sched.currentTaskId).1⟩
  | .syscall cpu (.channelReply mem h ptr len) =>
    (copyFromUser mem ptr len).bind fun msg =>
    (k.lookupChannel cpu h).map fun q =>
      ⟨q.1, .reply q.2 msg, .reply ((k.channels q.1).reply q.2 msg).1⟩
  | .syscall cpu (.handleTransfer h chRaw) =>
    (k.lookupChannel cpu chRaw).bind fun q =>
    (k.sched.withCurrentTask cpu).bind fun t =>
      if (t.handleTable.close (Handle.fromRaw h)).1 then
        some ⟨q.1, .pushHandle h, .pushHandle ((k.channels q.1).pushHandle h).1⟩
      else none
  | .poll cpu =>
    (k.spin cpu).map fun sp => match sp with
      | .receive c e taskId _ =>
        ⟨c, .receive e taskId, .receive ((k.channels c).receive e taskId).1⟩
      | .call c e _ => ⟨c, .checkReply e, .call ((k.channels c).checkReply e).1⟩
  | _ => none

/-- A result of a system call, read as a step of the kernel. -/
structure Sound (k : Kernel) (op : Op) (q : Outcome × Kernel) : Prop where
  effect : Effect k op q.1.event q.2.sched
  channels : ChannelsFollow k q.1.event q.2
  event : q.1.event = eventOf k op

@[simp] theorem event_deliver (ev : ChannelEvent) (bufPtr : Word) (msg : Message) :
    (Outcome.deliver ev bufPtr msg).event = some ev := by
  unfold Outcome.deliver
  split <;> rfl

section Syscalls

variable (k : Kernel) (cpu : Cpu)

theorem sound_fail (err : SysError) (hev : eventOf k op = none) : Sound k op (.fail err, k) :=
  ⟨.fail, rfl, hev.symm⟩

/-- A result that makes the channel operation `eventOf` names. -/
theorem sound_event (heff : Effect k op (some ev) s')
    (hstep : Channel.step (k.channels ev.ch) ev.op = some (ev.res, ch))
    (hev : eventOf k op = some ev)
    (hq : q.1.event = some ev ∧ q.2.sched = s' ∧
      q.2.channels = Function.update k.channels ev.ch ch) :
    Sound k op q := by
  obtain ⟨hqe, hsched, hk⟩ := hq
  refine ⟨?_, ?_, hqe.trans hev.symm⟩
  · rwa [hqe, hsched]
  · rw [hqe]
    exact ⟨ch, hstep, hk⟩

theorem sysChannelSend_sound (mem : UserMem) (h ptr len : Word) :
    Sound k (.syscall cpu (.channelSend mem h ptr len)) (k.sysChannelSend cpu mem h ptr len) := by
  unfold sysChannelSend
  split
  · rename_i hmsg
    exact sound_fail k _ (by simp [eventOf, hmsg])
  rename_i msg hmsg
  split
  · rename_i hch
    exact sound_fail k _ (by simp [eventOf, hch])
  rename_i c e hch
  -- the three results differ in the scheduler alone, which `afterSend` covers
  refine sound_event k (.send hmsg hch) rfl
    (by simp [eventOf, hmsg, hch]) ?_
  dsimp only
  cases ((k.channels c).send e msg k.sched.currentTaskId).1 <;> exact ⟨rfl, rfl, rfl⟩

theorem sysChannelReceive_sound (ctx : SavedContext) (h buf : Word) :
    Sound k (.syscall cpu (.channelReceive ctx h buf)) (k.sysChannelReceive cpu ctx h buf) := by
  unfold sysChannelReceive
  split
  · rename_i hch
    exact sound_fail k _ (by simp [eventOf, hch])
  rename_i c e hch
  refine sound_event k (.receive hch) rfl (by simp [eventOf, hch]) ?_
  dsimp only
  cases ((k.channels c).receive e k.sched.currentTaskId).1 with
  | gotMessage msg sender => exact ⟨event_deliver _ _ _, rfl, rfl⟩
  | closed => exact ⟨rfl, rfl, rfl⟩
  | blocked =>
    -- a refused switch is undone by `unblock_current`, as in `parkReceiver`
    simp only [afterReceive, parkReceiver]
    split <;> exact ⟨rfl, rfl, rfl⟩

theorem sysChannelCall_sound (mem : UserMem) (h ptr len reply : Word) :
    Sound k (.syscall cpu (.channelCall mem h ptr len reply))
      (k.sysChannelCall cpu mem h ptr len reply) := by
  unfold sysChannelCall
  split
  · rename_i hmsg
    exact sound_fail k _ (by simp [eventOf, hmsg])
  rename_i msg hmsg
  split
  · rename_i hch
    exact sound_fail k _ (by simp [eventOf, hch])
  rename_i c e hch
  refine sound_event k (.call hmsg hch) rfl
    (by simp [eventOf, hmsg, hch]) ?_
  dsimp only
  cases ((k.channels c).call e msg k.sched.currentTaskId).1 with
  | gotReply r => exact ⟨event_deliver _ _ _, rfl, rfl⟩
  | blocked receiver | closed => exact ⟨rfl, rfl, rfl⟩

theorem sysChannelReply_sound (mem : UserMem) (h ptr len : Word) :
    Sound k (.syscall cpu (.channelReply mem h ptr len)) (k.sysChannelReply cpu mem h ptr len) := by
  unfold sysChannelReply
  split
  · rename_i hmsg
    exact sound_fail k _ (by simp [eventOf, hmsg])
  rename_i msg hmsg
  split
  · rename_i hch
    exact sound_fail k _ (by simp [eventOf, hch])
  rename_i c e hch
  refine sound_event k (.reply hmsg hch) rfl
    (by simp [eventOf, hmsg, hch]) ?_
  dsimp only
  cases ((k.channels c).reply e msg).1 <;> exact ⟨rfl, rfl, rfl⟩

theorem pollSpin_sound (hsp : k.spin cpu = some sp) : Sound k (.poll cpu) (k.pollSpin cpu sp) := by
  cases sp with
  | receive c e taskId buf =>
    refine sound_event k (.pollReceive hsp) rfl (by simp [eventOf, hsp]) ?_
    simp only [pollSpin]
    cases ((k.channels c).receive e taskId).1 with
    | gotMessage msg sender => exact ⟨event_deliver _ _ _, rfl, rfl⟩
    | blocked | closed => exact ⟨rfl, rfl, rfl⟩
  | call c e reply =>
    refine sound_event k (.pollCall hsp) rfl (by simp [eventOf, hsp]) ?_
    simp only [pollSpin]
    cases ((k.channels c).checkReply e).1 with
    | gotReply r => exact ⟨event_deliver _ _ _, rfl, rfl⟩
    | blocked receiver | closed => exact ⟨rfl, rfl, rfl⟩

theorem sysHandleClose_sound (h : Word) :
    Sound k (.syscall cpu (.handleClose h)) (k.sysHandleClose cpu h) := by
  unfold sysHandleClose
  split
  iterate 2
    · rename_i s hmut
      obtain ⟨t, hr, hupd⟩ := withCurrentTaskMut_eq_some (fun _ => rfl) hmut
      exact ⟨.table (.close _) hupd, rfl, rfl⟩
  · exact sound_fail k _ rfl

theorem sysHandleTransfer_sound (h chRaw : Word) :
    Sound k (.syscall cpu (.handleTransfer h chRaw)) (k.sysHandleTransfer cpu h chRaw) := by
  unfold sysHandleTransfer
  split
  · rename_i hch
    exact sound_fail k _ (by simp [eventOf, hch])
  rename_i c e hch
  split
  · rename_i hmut
    have hnone := withCurrentTaskMut_eq_none hmut
    exact sound_fail k _ (by simp [eventOf, hnone])
  · -- the handle is not in the table, which `close` leaves as it is
    rename_i s hmut
    obtain ⟨t, hr, hupd⟩ := withCurrentTaskMut_eq_some (fun _ => rfl) hmut
    have hclosed : (t.handleTable.close (Handle.fromRaw h)).1 = false := hr.symm
    refine ⟨.table (.close _) hupd, rfl, ?_⟩
    simp only [eventOf, hch, hupd.before, bind_some, hclosed]
    rfl
  · rename_i s hmut
    obtain ⟨t, hr, hupd⟩ := withCurrentTaskMut_eq_some (fun _ => rfl) hmut
    have hclosed : (t.handleTable.close (Handle.fromRaw h)).1 = true := hr.symm
    refine sound_event k (.transfer hch hclosed hupd) rfl
      (by simp [eventOf, hch, hupd.before, hclosed]) ?_
    dsimp only
    split <;> exact ⟨rfl, rfl, rfl⟩

end Syscalls

theorem sysHandleDuplicate_sound (hs : k.sysHandleDuplicate p cpu h r = some q) :
    Sound k (.syscall cpu (.handleDuplicate h r)) q := by
  unfold sysHandleDuplicate at hs
  split at hs
  · cases hs
    exact sound_fail k _ rfl
  rename_i task htask
  split at hs
  · cases hs
  rename_i newHandle table hdup
  split at hs
  · cases hs
    exact sound_fail k _ rfl
  rename_i s hmut
  obtain ⟨t, hr, hupd⟩ := withCurrentTaskMut_eq_some (fun _ => rfl) hmut
  cases htask.symm.trans hupd.before
  have heff : Effect k (.syscall cpu (.handleDuplicate h r)) none s := .table (.duplicate hdup) hupd
  split at hs
  · cases hs
    exact ⟨heff, rfl, rfl⟩
  · cases hs
    exact ⟨heff, rfl, rfl⟩

/-- Every step is one of the listed effects, with the channels following the
    event, and the event is the one the state before the step determines. -/
theorem step_sound (h : step p k op = some (o, k')) : Sound k op (o, k') := by
  cases op with
  | syscall cpu call =>
    simp only [step] at h
    split at h
    · cases h
    cases call with
    | channelSend mem hd ptr len =>
      exact some.inj h ▸ sysChannelSend_sound k cpu mem hd ptr len
    | channelReceive ctx hd buf =>
      exact some.inj h ▸ sysChannelReceive_sound k cpu ctx hd buf
    | channelCall mem hd ptr len r =>
      exact some.inj h ▸ sysChannelCall_sound k cpu mem hd ptr len r
    | channelReply mem hd ptr len =>
      exact some.inj h ▸ sysChannelReply_sound k cpu mem hd ptr len
    | handleClose hd => exact some.inj h ▸ sysHandleClose_sound k cpu hd
    | handleDuplicate hd r => exact sysHandleDuplicate_sound h
    | handleTransfer hd c => exact some.inj h ▸ sysHandleTransfer_sound k cpu hd c
  | poll cpu =>
    simp only [step, map_eq_some_iff] at h
    obtain ⟨sp, hsp, hq⟩ := h
    exact hq ▸ pollSpin_sound k cpu hsp
  | reschedule cpu ctx =>
    simp only [step] at h
    split at h
    · cases h
    · exact some.inj h ▸ ⟨.reschedule, rfl, rfl⟩
  | wake cpu id =>
    simp only [step] at h
    split at h
    · cases h
    · exact some.inj h ▸ ⟨.wake, rfl, rfl⟩
  | setCurrent cpu id =>
    simp only [step] at h
    split at h
    · cases h
    · exact some.inj h ▸ ⟨.setCurrent, rfl, rfl⟩

/-! ## Tasks and their tables -/

theorem owners_parkReceiver (s : Scheduler) (cpu : Cpu) (ctx : SavedContext) :
    (parkReceiver s cpu ctx).owners = s.owners := by
  unfold parkReceiver
  split
  · exact s.owners_blockAndSwitch cpu ctx
  · rw [owners_unblockCurrent, owners_blockAndSwitch]

/-- A step moves tasks between queues, or changes the table of the current task
    by one handle operation. -/
theorem Effect.owners (h : Effect k op ev s') :
    s'.owners = k.sched.owners ∨
      ∃ cpu t table, TableMove t.handleTable table ∧
        k.sched.UpdatesCurrent cpu t { t with handleTable := table } s' := by
  cases h with
  | fail | call | pollReceive | pollCall => exact .inl rfl
  | @send cpu mem h ptr len c e msg hmsg hch =>
    left
    rcases ((k.channels c).send e msg k.sched.currentTaskId).1 with receiver | _ | _
    · exact k.sched.owners_wakeTaskById cpu receiver
    · rfl
    · rfl
  | @receive cpu ctx h buf c e hch =>
    left
    rcases ((k.channels c).receive e k.sched.currentTaskId).1 with _ | _ | _
    · rfl
    · exact owners_parkReceiver k.sched cpu ctx
    · rfl
  | @reply cpu mem h ptr len c e msg hmsg hch =>
    left
    rcases ((k.channels c).reply e msg).1 with caller | _
    · exact k.sched.owners_wakeTaskById cpu caller
    · rfl
  | table hmove hupd => exact .inr ⟨_, _, _, hmove, hupd⟩
  | transfer hch hclosed hupd => exact .inr ⟨_, _, _, .close _, hupd⟩
  | reschedule => exact .inl (k.sched.owners_blockAndSwitch _ _)
  | wake => exact .inl (k.sched.owners_wakeTaskById _ _)
  | setCurrent => exact .inl (k.sched.owners_setCurrentTask _ _)

theorem Effect.uniqueIds (h : Effect k op ev s') (hu : k.sched.UniqueIds) : s'.UniqueIds := by
  unfold Scheduler.UniqueIds at hu ⊢
  rcases h.owners with hsame | ⟨cpu, t, table, -, hupd⟩
  · rwa [hsame]
  obtain ⟨rest, hbefore, hafter⟩ := hupd.owners
  rw [hbefore, Multiset.map_cons] at hu
  rwa [hafter, Multiset.map_cons]

end Kernel

end OpenOS
