/-
  Rights on use: what a task can do to a channel on which its handles lack a
  right.

  The documentation of handles says rights are checked by the kernel on every
  operation, but `lookup_channel` returns any entry that holds a channel end.
  So a step is confined by the stored rights exactly when the task does not
  present, at a moment the operation would go through, a handle to a channel
  on which none of its entries has the right (`confined_iff_withinRights`).
-/

import OpenOS.Syscall.Effects

namespace OpenOS

open Base Option Channel

namespace HandleTable

/-- No entry of the table for channel `c` has the right `r`. -/
def LacksOn (t : HandleTable) (c : Ref) (r : Rights) : Prop :=
  ∀ slot entry, t.slots slot = some entry →
    (entry.object = .channelEndA c ∨ entry.object = .channelEndB c) →
    entry.handle.rights.contains r = false

end HandleTable

/-- The operation created a pending message, reply or handle. -/
def Channel.storedBy : Channel.Op → Channel.Res → Bool
  | .send _ _ _, .send r => r ≠ .closed
  | .call _ _ _, .call (.blocked _) => true
  | .reply _ _, .reply _ => true
  | .pushHandle _, .pushHandle ok => ok
  | _, _ => false

/-- The operation took a message off the channel. -/
def Channel.takenBy : Channel.Op → Channel.Res → Bool
  | .receive _ _, .receive (.gotMessage _ _) => true
  | _, _ => false

namespace Kernel

/-- The step created something pending on channel `c`. -/
def Stores (c : Ref) (ev : Option ChannelEvent) : Prop :=
  ∃ op res, ev = some ⟨c, op, res⟩ ∧ storedBy op res = true

/-- The step took a message off channel `c`. -/
def Takes (c : Ref) (ev : Option ChannelEvent) : Prop :=
  ∃ op res, ev = some ⟨c, op, res⟩ ∧ takenBy op res = true

/-- The handle table of the task that makes a step: the current task of a
    system call, or the task whose receive waits in the handler. -/
def ActsWith (k : Kernel) (op : Op) (t : HandleTable) : Prop :=
  match op with
  | .syscall cpu _ => ∃ task, k.sched.withCurrentTask cpu = some task ∧ task.handleTable = t
  | .poll cpu => ∃ c e taskId buf,
      k.spin cpu = some (.receive c e taskId buf) ∧ (taskId, t) ∈ k.sched.owners
  | _ => False

/-- Rights are enforced in a step: a task none of whose entries for a channel
    has WRITE creates nothing on it, and without READ takes nothing off it. -/
def Confined (s : KernelStep) : Prop :=
  ∀ t c, ActsWith s.pre s.op t →
    (t.LacksOn c .write → ¬ Stores c s.res.event) ∧ (t.LacksOn c .read → ¬ Takes c s.res.event)

/-! ## The condition on the operation and the state before it -/

/-- The operation would store something on channel `c`: the arguments are
    readable, the handle resolves to an end of the channel, and the channel
    accepts the operation. -/
def WouldStore (k : Kernel) (op : Op) (c : Ref) : Prop :=
  match op with
  | .syscall cpu (.channelSend mem h ptr len) => ∃ e msg,
      copyFromUser mem ptr len = some msg ∧ k.lookupChannel cpu h = some (c, e) ∧
      (k.channels c).Open
  | .syscall cpu (.channelCall mem h ptr len _) => ∃ e msg,
      copyFromUser mem ptr len = some msg ∧ k.lookupChannel cpu h = some (c, e) ∧
      (k.channels c).Open ∧ ((k.channels c).endOf e).pendingReply = none
  | .syscall cpu (.channelReply mem h ptr len) => ∃ e msg,
      copyFromUser mem ptr len = some msg ∧ k.lookupChannel cpu h = some (c, e)
  | .syscall cpu (.handleTransfer h chRaw) => ∃ e task,
      k.lookupChannel cpu chRaw = some (c, e) ∧ k.sched.withCurrentTask cpu = some task ∧
      (task.handleTable.close (Handle.fromRaw h)).1 = true ∧
      (k.channels c).pendingHandles.length < maxPendingHandles
  | _ => False

/-- The operation would take a message off channel `c`. -/
def WouldTake (k : Kernel) (op : Op) (c : Ref) : Prop :=
  match op with
  | .syscall cpu (.channelReceive _ h _) => ∃ e,
      k.lookupChannel cpu h = some (c, e) ∧ ((k.channels c).endOf e).closed = false ∧
      ((k.channels c).endOf e).pendingMsg ≠ none
  | .poll cpu => ∃ e taskId buf,
      k.spin cpu = some (.receive c e taskId buf) ∧ ((k.channels c).endOf e).closed = false ∧
      ((k.channels c).endOf e).pendingMsg ≠ none
  | _ => False

/-- The task does not use a channel beyond the rights stored for it. -/
def WithinRights (k : Kernel) (op : Op) : Prop :=
  ∀ t c, ActsWith k op t →
    (t.LacksOn c .write → ¬ WouldStore k op c) ∧ (t.LacksOn c .read → ¬ WouldTake k op c)

variable {ch : Channel}

theorem storedBy_send (hlen : msg.length ≤ maxMsgSize) :
    storedBy (.send f msg task) (.send (ch.send f msg task).1) = true ↔ ch.Open := by
  have h := ch.send_ne_closed_iff f msg task
  simp [storedBy, h, hlen]

theorem storedBy_call (hlen : msg.length ≤ maxMsgSize) :
    storedBy (.call f msg task) (.call (ch.call f msg task).1) = true ↔
      ch.Open ∧ (ch.endOf f).pendingReply = none := by
  have h := ch.call_eq_blocked_iff f msg task
  simp only [hlen, true_and] at h
  rw [← h]
  rcases (ch.call f msg task).1 with r | r | _ <;> simp [storedBy]

theorem takenBy_receive :
    takenBy (.receive on task) (.receive (ch.receive on task).1) = true ↔
      (ch.endOf on).closed = false ∧ (ch.endOf on).pendingMsg ≠ none := by
  rw [← ch.receive_eq_gotMessage_iff on task]
  rcases (ch.receive on task).1 with ⟨m, s⟩ | _ | _ <;> simp [takenBy]

/-! ## The event of a step, read by the condition -/

section Events

variable {P : Channel.Op → Channel.Res → Prop}

/-- The event of a call that looks up a channel and makes one operation on it. -/
theorem lookupEvent_iff {op : Ref × EndId → Channel.Op} {res : Ref × EndId → Channel.Res} :
    (∃ o r, (chan.map fun q => (⟨q.1, op q, res q⟩ : ChannelEvent)) = some ⟨c, o, r⟩ ∧ P o r) ↔
      ∃ e, chan = some (c, e) ∧ P (op (c, e)) (res (c, e)) := by
  constructor
  · rintro ⟨o, r, hev, hP⟩
    obtain ⟨⟨c', e⟩, hch, heq⟩ := map_eq_some_iff.mp hev
    cases heq
    exact ⟨e, hch, hP⟩
  · rintro ⟨e, rfl, hP⟩
    exact ⟨_, _, rfl, hP⟩

/-- The same for a call that first copies a message from user memory. -/
theorem messageEvent_iff {op : Message → Ref × EndId → Channel.Op}
    {res : Message → Ref × EndId → Channel.Res} :
    (∃ o r, (copied.bind fun msg => chan.map fun q =>
        (⟨q.1, op msg q, res msg q⟩ : ChannelEvent)) = some ⟨c, o, r⟩ ∧ P o r) ↔
      ∃ e msg, copied = some msg ∧ chan = some (c, e) ∧ P (op msg (c, e)) (res msg (c, e)) := by
  cases copied with
  | none =>
    refine ⟨?_, ?_⟩
    · rintro ⟨o, r, hev, -⟩
      cases hev
    · rintro ⟨e, msg, hmsg, -⟩
      cases hmsg
  | some msg =>
    refine lookupEvent_iff.trans (exists_congr fun e => ⟨?_, ?_⟩)
    · rintro ⟨hch, hP⟩
      exact ⟨msg, rfl, hch, hP⟩
    · rintro ⟨msg', hmsg, hch, hP⟩
      cases hmsg
      exact ⟨hch, hP⟩

end Events

theorem stores_iff (k : Kernel) (op : Op) (c : Ref) :
    Stores c (eventOf k op) ↔ WouldStore k op c := by
  cases op with
  | syscall cpu call =>
    cases call with
    | channelSend mem h ptr len =>
      refine messageEvent_iff.trans (exists₂_congr fun e msg => ?_)
      refine and_congr_right fun hmsg => and_congr_right fun _ => ?_
      exact storedBy_send (length_of_copyFromUser hmsg).2
    | channelCall mem h ptr len r =>
      refine messageEvent_iff.trans (exists₂_congr fun e msg => ?_)
      refine and_congr_right fun hmsg => and_congr_right fun _ => ?_
      exact storedBy_call (length_of_copyFromUser hmsg).2
    | channelReply mem h ptr len =>
      -- a reply is stored whatever the state of the channel
      refine messageEvent_iff.trans (exists₂_congr fun e msg => ?_)
      exact and_congr_right fun _ => and_iff_left rfl
    | handleTransfer h chRaw =>
      constructor
      · rintro ⟨op, res, hev, hst⟩
        simp only [eventOf, bind_eq_some_iff] at hev
        obtain ⟨⟨c', e⟩, hch, task, htask, heq⟩ := hev
        split at heq
        · rename_i hclosed
          cases heq
          exact ⟨e, task, hch, htask, hclosed, (pushHandle_eq_true_iff _ h).mp hst⟩
        · cases heq
      · rintro ⟨e, task, hch, htask, hclosed, hroom⟩
        refine ⟨.pushHandle h, .pushHandle ((k.channels c).pushHandle h).1, ?_,
          (pushHandle_eq_true_iff _ h).mpr hroom⟩
        simp [eventOf, hch, htask, hclosed]
    | channelReceive ctx h buf =>
      refine lookupEvent_iff.trans ⟨?_, False.elim⟩
      rintro ⟨e, -, hst⟩
      cases hst
    | handleClose | handleDuplicate =>
      refine ⟨?_, False.elim⟩
      rintro ⟨op, res, hev, -⟩
      cases hev
  | poll cpu =>
    refine ⟨?_, False.elim⟩
    rintro ⟨op, res, hev, hst⟩
    obtain ⟨sp, hsp, heq⟩ := map_eq_some_iff.mp hev
    cases sp with
    | receive => cases heq; cases hst
    | call => cases heq; cases hst
  | reschedule | wake | setCurrent =>
    refine ⟨?_, False.elim⟩
    rintro ⟨op, res, hev, -⟩
    cases hev

theorem takes_iff (k : Kernel) (op : Op) (c : Ref) : Takes c (eventOf k op) ↔ WouldTake k op c := by
  cases op with
  | syscall cpu call =>
    cases call with
    | channelReceive ctx h buf =>
      refine lookupEvent_iff.trans (exists_congr fun e => ?_)
      exact and_congr_right fun _ => takenBy_receive
    | channelSend | channelCall | channelReply =>
      refine messageEvent_iff.trans ⟨?_, False.elim⟩
      rintro ⟨e, msg, -, -, htk⟩
      cases htk
    | handleTransfer h chRaw =>
      refine ⟨?_, False.elim⟩
      rintro ⟨op, res, hev, htk⟩
      simp only [eventOf, bind_eq_some_iff] at hev
      obtain ⟨q, -, task, -, heq⟩ := hev
      split at heq
      · cases heq
        cases htk
      · cases heq
    | handleClose | handleDuplicate =>
      refine ⟨?_, False.elim⟩
      rintro ⟨op, res, hev, -⟩
      cases hev
  | poll cpu =>
    constructor
    · rintro ⟨op, res, hev, htk⟩
      obtain ⟨sp, hsp, heq⟩ := map_eq_some_iff.mp hev
      cases sp with
      | receive c' e taskId buf =>
        cases heq
        exact ⟨e, taskId, buf, hsp, takenBy_receive.mp htk⟩
      | call => cases heq; cases htk
    · rintro ⟨e, taskId, buf, hsp, hmsg⟩
      refine ⟨.receive e taskId, .receive ((k.channels c).receive e taskId).1, ?_,
        takenBy_receive.mpr hmsg⟩
      simp [eventOf, hsp]
  | reschedule | wake | setCurrent =>
    refine ⟨?_, False.elim⟩
    rintro ⟨op, res, hev, -⟩
    cases hev

/-! ## Runs -/

/-- Rights are enforced in a step exactly when it keeps within them. -/
theorem confined_iff_of_step (h : step p k op = some (o, k')) :
    Confined ⟨k, op, o, k'⟩ ↔ WithinRights k op := by
  have hev : o.event = eventOf k op := (step_sound h).event
  unfold Confined WithinRights
  simp [hev, stores_iff, takes_iff]

/-- In every run of the kernel, rights are enforced in all steps if and only if no step
    uses a channel beyond the rights in the table of the task that makes it. -/
theorem confined_iff_withinRights {p : Profile} {k₀ k : Kernel} {tr : List KernelStep}
    (hrun : Run (step p) k₀ tr k) : (∀ s ∈ tr, Confined s) ↔ ∀ s ∈ tr, WithinRights s.pre s.op := by
  refine forall₂_congr fun s hs => ?_
  obtain ⟨-, -, -, hstep⟩ := hrun.of_mem hs
  exact confined_iff_of_step hstep

/-- A kernel running one task, which holds end A of channel 0 with rights `r`. -/
def bootEndA (r : Rights) : Kernel := boot [bootTask 1 .running (oneHandle r (.channelEndA 0)) none]

/-- A send through a handle that has all rights meets the condition. -/
theorem confined_send_all :
    ∃ tr k, Run (step .dev) (bootEndA .all) tr k ∧ tr.map Transition.op = [sendOneByte .all] ∧
      ∀ s ∈ tr, Confined s := by
  have hrun := exec_run (step .dev) (bootEndA .all) [sendOneByte .all] rfl
  refine ⟨_, _, hrun, rfl, (confined_iff_withinRights hrun).mpr ?_⟩
  intro s hs
  obtain rfl := List.mem_singleton.mp hs
  rintro t c ⟨task, htask, rfl⟩
  cases htask
  refine ⟨?_, fun _ h => h⟩
  rintro hlacks ⟨e, msg, -, hch, -⟩
  -- the handle resolves to channel 0, and the only entry for it has WRITE
  cases hch
  have hwrite := hlacks 0 ⟨Handle.new 0 .all 0, .channelEndA 0⟩ rfl (.inl rfl)
  revert hwrite
  decide

/-- A task whose only handle to the channel has READ and nothing else sends a
    message through it. -/
theorem read_only_handle_sends :
    ∃ tr k, Run (step .dev) (bootEndA .read) tr k ∧ tr.map Transition.op = [sendOneByte .read] ∧
      ((k.channels 0).endOf .b).pendingMsg = some [7] ∧ ¬ ∀ s ∈ tr, Confined s := by
  have hrun := exec_run (step .dev) (bootEndA .read) [sendOneByte .read] rfl
  refine ⟨_, _, hrun, rfl, rfl, ?_⟩
  intro hconf
  refine (hconf _ (List.mem_singleton_self _) (oneHandle .read (.channelEndA 0)) 0
    ⟨_, rfl, rfl⟩).1 ?_ ?_
  · intro slot entry hslot _
    simp only [oneHandle] at hslot
    split at hslot
    · cases hslot
      decide
    · cases hslot
  · exact ⟨.send .a [7] 1, .send .pending, rfl, rfl⟩

end Kernel

end OpenOS
