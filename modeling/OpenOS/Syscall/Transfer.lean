/-
  Handle transfer across two tasks' tables and the pending list of a channel.

  `sys_handle_transfer` closes the sender's handle and puts the raw token into
  the channel's pending list.  The token is a number: the entry, and with it
  the reference to the object, is gone at that moment, and no receive ever
  drains the list or adds an entry to the receiver's table.  So along an
  exchange the object is conserved exactly when the receiver already had a
  handle of its own; and on the error path the table is kept unless the list
  was full, because the removal comes before the push.
-/

import OpenOS.Syscall.Effects
import Mathlib.Tactic.FinCases

namespace OpenOS

open Base Option List Scheduler HandleTable Multiset Handle

variable {t : HandleTable}

namespace HandleTable

/-- Some entry of the table references the object. -/
def HasEntry (t : HandleTable) (obj : KernelObject) : Prop :=
  ∃ slot entry, t.slots slot = some entry ∧ entry.object = obj

/-- Some handle resolves to the object. -/
def Resolves (t : HandleTable) (obj : KernelObject) : Prop := ∃ h, t.get h = some obj

theorem Resolves.hasEntry (h : t.Resolves obj) : t.HasEntry obj := by
  obtain ⟨hd, hget⟩ := h
  rw [get_eq_resolve, map_eq_some_iff] at hget
  obtain ⟨entry, hres, hobj⟩ := hget
  exact ⟨_, entry, (resolve_eq_some.mp hres).1, hobj⟩

/-- Closing a handle that is in the table changes the table. -/
theorem close_ne_self (hok : (t.close h).1 = true) : (t.close h).2 ≠ t := by
  rw [close_eq_resolve] at hok ⊢
  rcases hres : t.resolve h with _ | entry
  · rw [hres] at hok
    cases hok
  intro heq
  have hslot := congrFun (congrArg slots heq) h.slotId
  simp only [Function.update_self] at hslot
  rw [(resolve_eq_some.mp hres).1] at hslot
  cases hslot

theorem close_eq_self (hfail : (t.close h).1 = false) : (t.close h).2 = t := by
  rw [close_eq_resolve] at hfail ⊢
  rcases hres : t.resolve h with _ | entry
  · rfl
  · rw [hres] at hfail
    cases hfail

end HandleTable

namespace Kernel

variable {k : Kernel} {id : TaskId}

theorem TableMove.hasEntry (h : TableMove t t') (hobj : t'.HasEntry obj) : t.HasEntry obj := by
  obtain ⟨slot, entry, hslot, rfl⟩ := hobj
  cases h with
  | close hd =>
    rw [close_eq_resolve] at hslot
    split at hslot
    · exact ⟨slot, entry, (erase_slots.mp hslot).2, rfl⟩
    · exact ⟨slot, entry, hslot, rfl⟩
  | @duplicate p hd r q hdup =>
    rw [duplicate_eq_resolve] at hdup
    split at hdup
    · split at hdup
      · rename_i src hres
        rw [map_eq_some_iff] at hdup
        obtain ⟨⟨newHandle, table⟩, hpush, rfl⟩ := hdup
        -- the new entry has the object of the entry it was duplicated from
        rcases (push_slots hpush).mp hslot with ⟨-, rfl⟩ | ⟨-, hold⟩
        · exact ⟨_, src, (resolve_eq_some.mp hres).1, rfl⟩
        · exact ⟨slot, entry, hold, rfl⟩
      · cases hdup
        exact ⟨slot, entry, hslot, rfl⟩
    · cases hdup
      exact ⟨slot, entry, hslot, rfl⟩

/-! ## References to an object -/

/-- Some task's table references the object. -/
def InSomeTable (k : Kernel) (obj : KernelObject) : Prop := ∃ q ∈ k.sched.owners, q.2.HasEntry obj

/-- A handler that waits on a CPU references its channel. -/
def InSomeHandler (k : Kernel) (obj : KernelObject) : Prop :=
  ∃ cpu c, (obj = .channelEndA c ∨ obj = .channelEndB c) ∧
    ((∃ e task buf, k.spin cpu = some (.receive c e task buf)) ∨
      ∃ e buf, k.spin cpu = some (.call c e buf))

/-- The object is referenced. -/
def Referenced (k : Kernel) (obj : KernelObject) : Prop := k.InSomeTable obj ∨ k.InSomeHandler obj

/-- The task has a handle that resolves to the object. -/
def HoldsFor (k : Kernel) (id : TaskId) (obj : KernelObject) : Prop :=
  ∃ t, (id, t) ∈ k.sched.owners ∧ t.Resolves obj

theorem HoldsFor.inSomeTable (h : k.HoldsFor id obj) : k.InSomeTable obj := by
  obtain ⟨t, hmem, hres⟩ := h
  exact ⟨(id, t), hmem, hres.hasEntry⟩

theorem Effect.inSomeTable (h : Effect k op ev s') (hobj : ∃ q ∈ s'.owners, q.2.HasEntry obj) :
    k.InSomeTable obj := by
  obtain ⟨q, hq, hent⟩ := hobj
  rcases h.owners with hsame | ⟨cpu, t, table, hmove, hupd⟩
  · exact ⟨q, hsame ▸ hq, hent⟩
  obtain ⟨rest, hbefore, hafter⟩ := hupd.owners
  rw [hafter, Multiset.mem_cons] at hq
  rcases hq with rfl | hrest
  · refine ⟨Scheduler.owner t, ?_, hmove.hasEntry hent⟩
    rw [hbefore]
    exact Multiset.mem_cons_self _ _
  · refine ⟨q, ?_, hent⟩
    rw [hbefore]
    exact Multiset.mem_cons_of_mem hrest

/-- Along a run, an object that is in a table at the end was in one in every
    state on the way. -/
theorem inSomeTable_of_run (hrun : Run (step p) k₀ tr k)
    (hobj : k.InSomeTable obj) : ∀ s ∈ tr, s.post.InSomeTable obj := by
  induction hrun with
  | nil =>
    intro s hs
    cases hs
  | @snoc tr k k' op o _ hs ih =>
    have hpre : k.InSomeTable obj := (step_sound hs).effect.inSomeTable hobj
    rw [forall_mem_append, forall_mem_singleton]
    exact ⟨ih hpre, hobj⟩

/-! ## The error path -/

/-- The handle table of the current task. -/
def currentTable (k : Kernel) (cpu : Cpu) : Option HandleTable :=
  (k.sched.withCurrentTask cpu).map Task.handleTable

/-- A transfer that returns an error leaves the sender's table as it was. -/
def ErrorKeepsTable (k : Kernel) (cpu : Cpu) (h chRaw : Word) : Prop :=
  (k.sysHandleTransfer cpu h chRaw).1.ret ≠ some 0 →
    (k.sysHandleTransfer cpu h chRaw).2.currentTable cpu = k.currentTable cpu

/-- The transfer gets as far as the push, and the pending list is full. -/
def PushRefused (k : Kernel) (cpu : Cpu) (h chRaw : Word) : Prop :=
  ∃ c e task, k.lookupChannel cpu chRaw = some (c, e) ∧
    k.sched.withCurrentTask cpu = some task ∧
    (task.handleTable.close (fromRaw h)).1 = true ∧
    maxPendingHandles ≤ (k.channels c).pendingHandles.length

theorem errorKeepsTable_iff (k : Kernel) (cpu : Cpu) (h chRaw : Word) :
    ErrorKeepsTable k cpu h chRaw ↔ ¬ PushRefused k cpu h chRaw := by
  unfold ErrorKeepsTable sysHandleTransfer
  split
  · rename_i hch
    refine ⟨?_, fun _ _ => rfl⟩
    rintro - ⟨c, e, task, hch', -⟩
    rw [hch] at hch'
    cases hch'
  rename_i c e hch
  split
  · rename_i hmut
    refine ⟨?_, fun _ _ => rfl⟩
    rintro - ⟨-, -, task, -, htask, -⟩
    rw [withCurrentTaskMut_eq_none hmut] at htask
    cases htask
  · -- not in the table: `close` fails and changes nothing
    rename_i s hmut
    obtain ⟨t, hr, hupd⟩ := withCurrentTaskMut_eq_some (fun _ => rfl) hmut
    have hfail : (t.handleTable.close (fromRaw h)).1 = false := hr.symm
    constructor
    · rintro - ⟨-, -, task, -, htask, hok, -⟩
      cases hupd.before.symm.trans htask
      rw [hfail] at hok
      cases hok
    · intro _ _
      simp [currentTable, hupd.before, hupd.after, closeIn, close_eq_self hfail]
  · -- removed from the table: kept only when the push succeeds
    rename_i s hmut
    obtain ⟨t, hr, hupd⟩ := withCurrentTaskMut_eq_some (fun _ => rfl) hmut
    have hok : (t.handleTable.close (fromRaw h)).1 = true := hr.symm
    dsimp only
    split
    · rename_i hpush
      refine ⟨?_, fun _ hret => absurd rfl hret⟩
      rintro - ⟨c', e', task, hch', -, -, hfull⟩
      obtain ⟨rfl, rfl⟩ := Prod.mk.inj (some.inj (hch.symm.trans hch'))
      have hroom := (Channel.pushHandle_eq_true_iff _ h).mp hpush
      omega
    · rename_i hpush
      constructor
      · intro hkeep _
        have hsame := hkeep (show some SysError.channelClosed.code ≠ some 0 by decide)
        simp only [currentTable, setChannel, hupd.before, hupd.after, map_some, some.injEq] at hsame
        exact close_ne_self hok hsame
      · intro hnot
        refine absurd ⟨c, e, t, hch, hupd.before, hok, ?_⟩ hnot
        have hroom := (Channel.pushHandle_eq_true_iff (k.channels c) h).not.mp hpush
        omega

/-! ## The exchange -/

/-- The step transferred a handle to `obj` over end `e` of channel `c`. -/
def TransfersTo (s : KernelStep) (c : Ref) (e : EndId) (obj : KernelObject) : Prop :=
  ∃ cpu h chRaw task, s.op = .syscall cpu (.handleTransfer h chRaw) ∧ s.res.ret = some 0 ∧
    s.pre.lookupChannel cpu chRaw = some (c, e) ∧ s.pre.sched.withCurrentTask cpu = some task ∧
    task.handleTable.get (fromRaw h) = some obj

/-- The step returned a message on end `e` of channel `c` to the task `id`. -/
def ReceivesOn (s : KernelStep) (c : Ref) (e : EndId) (id : TaskId) : Prop :=
  ∃ msg sender, s.res.event = some ⟨c, .receive e id, .receive (.gotMessage msg sender)⟩

/-- A transfer, and the next receive of a message at the other end. -/
structure Exchange (c : Ref) (e : EndId) (obj : KernelObject) (id : TaskId)
    (first : KernelStep) (mid : List KernelStep) (last : KernelStep) : Prop where
  transfer : TransfersTo first c e obj
  receive : ReceivesOn last c e.other id
  next : ∀ s ∈ mid, ∀ i, ¬ ReceivesOn s c e.other i

/-- The object stays referenced, and the receiver ends up with a handle to it. -/
def Conserved (obj : KernelObject) (id : TaskId) (tr : List KernelStep) (k : Kernel) : Prop :=
  (∀ s ∈ tr, s.post.Referenced obj) ∧ k.HoldsFor id obj

theorem Effect.sched_eq_of_gotMessage (h : Effect k op ev s')
    (hev : ev = some ⟨c, .receive e id, .receive (.gotMessage msg sender)⟩) : s' = k.sched := by
  cases h with
  | fail | call | pollReceive | pollCall => rfl
  | receive hch =>
    simp only [some.injEq, ChannelEvent.mk.injEq, Channel.Res.receive.injEq] at hev
    rw [hev.2.2]
    rfl
  | send | reply | transfer =>
    simp only [some.injEq, ChannelEvent.mk.injEq] at hev
    cases hev.2.1
  | table | reschedule | wake | setCurrent => cases hev

theorem conserved_iff_holdsFor
    (hrun : Run (step p) k₀ (first :: mid ++ [last]) k) (hex : Exchange c e obj id first mid last) :
    Conserved obj id (first :: mid ++ [last]) k ↔ last.pre.HoldsFor id obj := by
  -- the last receive changes no table, so what the receiver holds after it, it
  -- held before; and what is in a table at the end was in one all the way
  obtain ⟨-, hs, rfl⟩ := hrun.of_concat
  obtain ⟨msg, sender, hev⟩ := hex.receive
  have hsched : last.post.sched = last.pre.sched :=
    (step_sound hs).effect.sched_eq_of_gotMessage hev
  have hholds : last.post.HoldsFor id obj ↔ last.pre.HoldsFor id obj := by
    unfold HoldsFor
    rw [hsched]
  constructor
  · rintro ⟨-, h⟩
    exact hholds.mp h
  · intro h
    have hlast := hholds.mpr h
    refine ⟨fun s hmem => .inl ?_, hlast⟩
    exact inSomeTable_of_run hrun hlast.inSomeTable s hmem

/-- Handle transfer conserves the object so far: a failed one keeps the sender's table
    unless the handle was removed and the pending list was full; after a successful one
    the object stays referenced and reaches the receiver's table, with its next message,
    if and only if the receiver already had a handle to it. -/
theorem transfer_conserves_iff (p : Profile) :
    (∀ k cpu h chRaw, ErrorKeepsTable k cpu h chRaw ↔ ¬ PushRefused k cpu h chRaw) ∧
      ∀ k₀ k c e obj id first mid last, Run (step p) k₀ (first :: mid ++ [last]) k →
        Exchange c e obj id first mid last →
        (Conserved obj id (first :: mid ++ [last]) k ↔ last.pre.HoldsFor id obj) := by
  refine ⟨errorKeepsTable_iff, ?_⟩
  intro k₀ k c e obj id first mid last hrun hex
  exact conserved_iff_holdsFor hrun hex

/-- A table with two entries, in slots 0 and 1. -/
def twoHandles (obj₀ obj₁ : KernelObject) : HandleTable :=
  { slots := fun slot =>
      if slot = 0 then some ⟨new 0 .all 0, obj₀⟩
      else if slot = 1 then some ⟨new 1 .all 1, obj₁⟩
      else none
    nextSlot := 2
    generation := 2 }

/-- Task 1 holds end A and event 5; task 2 holds end B and another object. -/
def bootPair (obj : KernelObject) : Kernel :=
  boot [bootTask 1 .running (twoHandles (.channelEndA 0) (.event 5)) none,
    bootTask 2 .ready (twoHandles (.channelEndB 0) obj) none]

/-- Task 1 transfers event 5 and sends a byte, then task 2 receives it. -/
def transferOps : List Op :=
  [.syscall bootCpu (.handleTransfer (new 1 .all 1).asU64 (new 0 .all 0).asU64),
    sendOneByte .all, .setCurrent bootCpu 2, receiveOp]

/-- The exchange runs, and only tasks 1 and 2 exist when task 2 receives: task 1
    without the transferred entry, task 2 as it started. -/
theorem exchange_transferOps (obj : KernelObject) :
    ∃ k first mid last, Run (step .dev) (bootPair obj) (first :: mid ++ [last]) k ∧
      (first :: mid ++ [last]).map Transition.op = transferOps ∧
      Exchange 0 .a (.event 5) 2 first mid last ∧
      (∀ t, (2, t) ∈ last.pre.sched.owners ↔ t = twoHandles (.channelEndB 0) obj) := by
  have hrun := exec_run (step .dev) (bootPair obj) transferOps rfl
  refine ⟨_, _, [_, _], _, hrun, rfl, ⟨?_, ?_, ?_⟩, ?_⟩
  · exact ⟨bootCpu, _, _, _, rfl, rfl, rfl, rfl, rfl⟩
  · exact ⟨[7], 0, rfl⟩
  · rintro s hs i ⟨msg, sender, hev⟩
    simp only [List.mem_cons, List.not_mem_nil, or_false] at hs
    rcases hs with rfl | rfl
    · cases hev
    · cases hev
  · intro t
    rw [Scheduler.mem_owners]
    constructor
    · rintro (⟨cpu, t', ht, heq⟩ | ⟨t', ht, heq⟩)
      · by_cases hcpu : cpu = bootCpu
        · subst hcpu
          rcases List.mem_cons.mp ht with rfl | ht
          · exact absurd (congrArg Prod.fst heq) (show (1 : TaskId) ≠ 2 by decide)
          · obtain rfl := List.mem_singleton.mp ht
            exact (congrArg Prod.snd heq).symm
        · fin_cases cpu
          · exact absurd rfl hcpu
          all_goals cases ht
      · cases ht
    · rintro rfl
      exact .inl ⟨bootCpu, bootTask 2 .ready (twoHandles (.channelEndB 0) obj) none,
        List.mem_cons_of_mem _ (List.mem_singleton_self _), rfl⟩

/-- The condition is met when the receiver holds the event already. -/
theorem transfer_conserves_own_handle :
    ∃ k first mid last, Run (step .dev) (bootPair (.event 5)) (first :: mid ++ [last]) k ∧
      (first :: mid ++ [last]).map Transition.op = transferOps ∧
      Conserved (.event 5) 2 (first :: mid ++ [last]) k := by
  obtain ⟨k, first, mid, last, hrun, hops, hex, hown⟩ := exchange_transferOps (.event 5)
  refine ⟨k, first, mid, last, hrun, hops, ?_⟩
  refine ((transfer_conserves_iff .dev).2 _ _ _ _ _ _ _ _ _ hrun hex).mpr ?_
  exact ⟨_, (hown _).mpr rfl, new 1 .all 1, rfl⟩

/-- A kernel whose pending lists are full. -/
def bootFull : Kernel :=
  { bootPair (.event 6) with
    channels := fun _ => { Channel.new with pendingHandles := replicate 64 0 } }

/-- Task 1 transfers its only handle to event 5 and gets 0; task 2 receives the next
    message and has no handle to the event. With a full pending list the transfer fails
    but the handle is gone. -/
theorem transferred_object_lost :
    (∃ k first mid last, Run (step .dev) (bootPair (.event 6)) (first :: mid ++ [last]) k ∧
      (first :: mid ++ [last]).map Transition.op = transferOps ∧
      Exchange 0 .a (.event 5) 2 first mid last ∧
      ¬ Conserved (.event 5) 2 (first :: mid ++ [last]) k) ∧
    ¬ ErrorKeepsTable bootFull bootCpu (new 1 .all 1).asU64 (new 0 .all 0).asU64 := by
  constructor
  · obtain ⟨k, first, mid, last, hrun, hops, hex, hown⟩ := exchange_transferOps (.event 6)
    refine ⟨k, first, mid, last, hrun, hops, hex, ?_⟩
    rw [conserved_iff_holdsFor hrun hex]
    rintro ⟨t, ht, hres⟩
    obtain rfl := (hown t).mp ht
    obtain ⟨slot, entry, hslot, hobj⟩ := hres.hasEntry
    simp only [twoHandles] at hslot
    split at hslot
    · cases hslot
      cases hobj
    split at hslot
    · cases hslot
      cases hobj
    · cases hslot
  · rw [errorKeepsTable_iff, not_not]
    exact ⟨0, .a, _, rfl, rfl, rfl, by decide⟩

end Kernel

end OpenOS
