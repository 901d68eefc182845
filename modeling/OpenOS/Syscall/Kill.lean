/-
  SIGKILL over runs of the signal system calls.

  What decides whether the signal is delivered is the blocked mask, which
  sys_sigprocmask changes without a test for SIGKILL: it is delivered in time in
  every state of a run exactly when no step of the run sends SIGKILL to a task
  that blocks it or blocks it in a task where it is pending.
-/

import OpenOS.Syscall.Signal
import OpenOS.Task.Conservation

namespace OpenOS.Scheduler

open Base Multiset SignalState SysError

/-! ## Events and conditions -/

/-- The step sent SIGKILL to this task. -/
def SendsKill (id : TaskId) (e : SignalEvent) : Prop :=
  (∃ cpu sig, e.op = .kill cpu id sig ∧ checkSig sig = some killIdx ∧
    e.res = .returned ⟨0, []⟩) ∨
  ∃ cpu tgid sig, e.op = .tgkill cpu tgid id sig ∧ checkSig sig = some killIdx ∧
    e.res = .returned ⟨0, []⟩

/-- The step took SIGKILL from this task. -/
def TakesKill (id : TaskId) (e : SignalEvent) : Prop :=
  (∃ cpu, e.op = .nextPending cpu id) ∧ e.res = .next (some sigkill)

/-- A SIGKILL has been sent to the task and not been taken since. -/
def Outstanding (tr : List SignalEvent) (id : TaskId) : Prop :=
  Since (SendsKill id) (TakesKill id) tr

/-- SIGKILL can be neither blocked nor caught: an outstanding one is seen by
    `has_pending` and returned by `next_pending` after at most the pending
    lower-numbered signals, and its handler is the default one. -/
def Killable (tr : List SignalEvent) (t : Task) : Prop :=
  (Outstanding tr t.id → t.signalState.hasPending = true ∧ t.signalState.Reaches sigkill) ∧
    t.signalState.handlers killIdx = sigDfl

/-- The operation does not bring a pending and a blocked SIGKILL together: none
    is sent to a task that blocks it, and no task blocks it while it is pending. -/
def KeepsKillable (e : SignalEvent) : Prop :=
  match e.op with
  | .kill cpu pid sig => checkSig sig = some killIdx →
      ∀ t, e.pre.withTask cpu pid = some t → t.signalState.blocked.getLsbD 9 = false
  | .tgkill cpu tgid tid sig => checkSig sig = some killIdx →
      ∀ t, e.pre.withTask cpu tid = some t → inGroup tgid t = true →
        t.signalState.blocked.getLsbD 9 = false
  | .sigprocmask cpu mem how setPtr _ => setPtr.toNat < userSpaceMax →
      ∀ mask, readMask mem setPtr = some mask → mask.getLsbD 9 = true →
        how = sigBlock ∨ how = sigSetmask →
        ∀ t, e.pre.withCurrentTask cpu = some t → t.signalState.pending.getLsbD 9 = false
  | _ => True

/-! ## Signal states -/

/-- The signal states of all tasks, by id. -/
def signals (s : Scheduler) : Multiset (TaskId × SignalState) :=
  s.tasks.map fun t => (t.id, t.signalState)

theorem signals_wakeTaskById (s : Scheduler) (cpu : Cpu) (id : TaskId) :
    (s.wakeTaskById cpu id).signals = s.signals :=
  (s.move_wakeTaskById cpu id).map_tasks (fun _ _ => rfl) (fun _ _ => rfl)

theorem signals_setCurrentTask (s : Scheduler) (cpu : Cpu) (id : TaskId) :
    (s.setCurrentTask cpu id).signals = s.signals := by
  rw [signals, tasks_setCurrentTask, signals]

/-- A pending SIGKILL is not blocked. -/
def Unmasked (ss : SignalState) : Prop := ss.pending.getLsbD 9 = true → ss.blocked.getLsbD 9 = false

/-- What a step does when it changes the signal state of task `t` to `ss`, as
    far as SIGKILL is concerned. -/
structure ChangesTo (e : SignalEvent) (t : Task) (ss : SignalState) : Prop where
  pending : ss.pending.getLsbD 9 = true ↔
    SendsKill t.id e ∨ (t.signalState.pending.getLsbD 9 = true ∧ ¬ TakesKill t.id e)
  others : ∀ id, id ≠ t.id → ¬ SendsKill id e ∧ ¬ TakesKill id e
  handler : ss.handlers killIdx = t.signalState.handlers killIdx
  unmasked : Unmasked t.signalState → (Unmasked ss ↔ KeepsKillable e)

/-- What a step does to the signal states: nothing, or a change of one. -/
inductive SignalEffect (e : SignalEvent) : Prop
  | quiet (hsame : e.post.signals = e.pre.signals) (hsends : ∀ id, ¬ SendsKill id e)
      (htakes : ∀ id, ¬ TakesKill id e) (hkeep : KeepsKillable e)
  | change (t : Task) (ss : SignalState) (rest : Multiset (TaskId × SignalState))
      (hbefore : e.pre.signals = (t.id, t.signalState) ::ₘ rest)
      (hafter : e.post.signals = (t.id, ss) ::ₘ rest) (hchange : ChangesTo e t ss)

variable {ss : SignalState}

/-- Replacing a task's signal state, and then at most waking a task. -/
theorem effect_of_replaces (hrep : e.pre.Replaces t { t with signalState := ss } s₁)
    (hpost : e.post.signals = s₁.signals) (hchange : ChangesTo e t ss) : SignalEffect e := by
  obtain ⟨rest, hbefore, hafter⟩ := hrep
  refine .change t ss (rest.map fun t => (t.id, t.signalState)) ?_ ?_ hchange
  · rw [signals, hbefore, map_cons]
  · rw [hpost, signals, hafter, map_cons]

variable {s : Scheduler}

theorem signals_of_replaces_self (h : s.Replaces t t s') : s'.signals = s.signals := by
  rw [signals, h.tasks_self, signals]

theorem pos_of_checkSig (h : checkSig sig = some n) : 0 < n.val := by
  unfold checkSig at h
  split at h
  · rename_i hrange
    cases h
    exact hrange.1
  · cases h

theorem toNat_sigNum (n : Fin 32) : (sigNum n).toNat = n.val := by
  rw [sigNum, BitVec.toNat_ofNat]
  omega

theorem pending_sendSignal_sigNum (hpos : 0 < n.val) (ss : SignalState) :
    (ss.sendSignal (sigNum n)).pending.getLsbD 9 =
      (ss.pending.getLsbD 9 || decide (n = killIdx)) := by
  have hnum := toNat_sigNum n
  have hne : sigNum n ≠ 0 := by
    intro h
    rw [h] at hnum
    simp at hnum
    omega
  have hle : sigNum n ≤ maxSignum := by
    rw [BitVec.le_def, hnum]
    show n.val ≤ 31
    omega
  rw [pending_sendSignal hne hle (by decide), hnum]
  congr 1
  rw [decide_eq_decide, Fin.ext_iff, eq_comm]
  rfl

/-! ## One lemma for each way a state changes -/

theorem changesTo_send (hpos : 0 < n.val)
    (hsends : ∀ id, SendsKill id e ↔ id = t.id ∧ n = killIdx) (htakes : ∀ id, ¬ TakesKill id e)
    (hkeep : KeepsKillable e ↔ (n = killIdx → t.signalState.blocked.getLsbD 9 = false)) :
    ChangesTo e t (t.signalState.sendSignal (sigNum n)) := by
  refine ⟨?_, fun id hid => ⟨fun h => hid ((hsends id).mp h).1, htakes id⟩, ?_, ?_⟩
  · rw [pending_sendSignal_sigNum hpos, hsends, Bool.or_eq_true, decide_eq_true_eq]
    simp only [htakes, not_false_eq_true, and_true, true_and]
    exact or_comm
  · rw [handlers_sendSignal]
  · intro hgood
    rw [hkeep, Unmasked, blocked_sendSignal, pending_sendSignal_sigNum hpos,
      Bool.or_eq_true, decide_eq_true_eq]
    exact ⟨fun h hn => h (.inr hn), fun h => fun
      | .inl hpending => hgood hpending
      | .inr hn => h hn⟩

/-- A change that leaves the pending signals alone, made by a step that neither
    sends nor takes SIGKILL. -/
theorem changesTo_of_pending_eq
    (hpending : ss.pending = t.signalState.pending) (hsends : ∀ id, ¬ SendsKill id e)
    (htakes : ∀ id, ¬ TakesKill id e)
    (hhandler : ss.handlers killIdx = t.signalState.handlers killIdx)
    (hunmasked : Unmasked t.signalState → (Unmasked ss ↔ KeepsKillable e)) : ChangesTo e t ss := by
  refine ⟨?_, fun id _ => ⟨hsends id, htakes id⟩, hhandler, hunmasked⟩
  rw [hpending]
  simp [hsends, htakes]

theorem changesTo_setHandler (hn : n ≠ killIdx) (hsends : ∀ id, ¬ SendsKill id e)
    (htakes : ∀ id, ¬ TakesKill id e) (hkeep : KeepsKillable e) :
    ChangesTo e t (t.signalState.setHandler n handler) := by
  refine changesTo_of_pending_eq rfl hsends htakes ?_ fun hgood => ⟨fun _ => hkeep, fun _ => hgood⟩
  exact Function.update_of_ne (Ne.symm hn) _ _

theorem fields_applyMask (h : ss.applyMask how mask = some ss') :
    ss'.pending = ss.pending ∧ ss'.handlers = ss.handlers := by
  unfold applyMask at h
  split_ifs at h <;> cases h <;> exact ⟨rfl, rfl⟩

theorem blocked_applyMask (h : ss.applyMask how mask = some ss')
    (hold : ss.blocked.getLsbD 9 = false) :
    ss'.blocked.getLsbD 9 = true ↔ mask.getLsbD 9 = true ∧ (how = sigBlock ∨ how = sigSetmask) := by
  unfold applyMask at h
  split_ifs at h with hblock hunblock hset
  · cases h
    rw [BitVec.getLsbD_or, hold]
    simp [hblock]
  · cases h
    simp only [BitVec.getLsbD_and, hold, Bool.false_and, Bool.false_eq_true, false_iff, not_and,
      hunblock]
    intro _
    decide
  · cases h
    simp [hset]

theorem applyMask_eq_none
    (h : ss.applyMask how mask = none) : how ≠ sigBlock ∧ how ≠ sigSetmask := by
  unfold applyMask at h
  split_ifs at h with hblock hunblock hset
  exact ⟨hblock, hset⟩

theorem changesTo_next :
    ChangesTo ⟨s, .nextPending cpu t.id, .next t.signalState.nextPending.1, s'⟩ t
      t.signalState.nextPending.2 := by
  have hsends : ∀ id, ¬ SendsKill id
      ⟨s, .nextPending cpu t.id, .next t.signalState.nextPending.1, s'⟩ := by
    simp [SendsKill]
  have htakes : ∀ id, TakesKill id
      ⟨s, .nextPending cpu t.id, .next t.signalState.nextPending.1, s'⟩ ↔
        id = t.id ∧ t.signalState.nextPending.1 = some sigkill := by
    intro id
    constructor
    · rintro ⟨⟨c, h⟩, hres⟩
      cases h
      exact ⟨rfl, SignalRes.next.inj hres⟩
    · rintro ⟨rfl, hres⟩
      exact ⟨⟨cpu, rfl⟩, congrArg SignalRes.next hres⟩
  have hpending : t.signalState.nextPending.2.pending.getLsbD 9 = true ↔
      t.signalState.pending.getLsbD 9 = true ∧ t.signalState.nextPending.1 ≠ some sigkill := by
    rcases t.signalState.nextPending_cases with ⟨-, heq⟩ | ⟨sig, hret, -, -, -, -, -, hclear⟩
    · rw [heq]
      simp
    · rw [hclear 9 (by decide), hret, Bool.and_eq_true, decide_eq_true_eq, ne_eq, ne_eq,
        Option.some.injEq, ← BitVec.toNat_inj, eq_comm (a := sig.toNat)]
      rfl
  refine ⟨?_, ?_, ?_, ?_⟩
  · rw [hpending, htakes]
    simp [hsends]
  · intro id hid
    exact ⟨hsends id, fun h => hid ((htakes id).mp h).1⟩
  · rw [handlers_nextPending]
  · intro hgood
    refine ⟨fun _ => trivial, fun _ h => ?_⟩
    rw [blocked_nextPending]
    exact hgood (hpending.mp h).1

/-! ## What a step does -/

section Steps

variable (s : Scheduler) (cpu : Cpu)

theorem effect_kill (pid sig : Word) :
    SignalEffect ⟨s, .kill cpu pid sig, .returned (s.sysKill cpu pid sig).1,
      (s.sysKill cpu pid sig).2⟩ := by
  have htakes : ∀ r s' id, ¬ TakesKill id ⟨s, .kill cpu pid sig, r, s'⟩ := by simp [TakesKill]
  have hsends : ∀ r s' id, SendsKill id ⟨s, .kill cpu pid sig, r, s'⟩ ↔
      id = pid ∧ checkSig sig = some killIdx ∧ r = .returned ⟨0, []⟩ := by
    simp [SendsKill, eq_comm]
  unfold sysKill
  split
  · rename_i hsig
    refine .quiet rfl ?_ (htakes _ _) ?_
    · simp [hsends, hsig]
    · simp [KeepsKillable, hsig]
  rename_i n hsig
  split
  · rename_i s₁ hmut
    obtain ⟨t, hfind, -, hrep⟩ := withTaskMut_eq_some hmut
    obtain ⟨hid, -⟩ := mem_tasks_of_withTask hfind
    refine effect_of_replaces hrep (signals_wakeTaskById s₁ cpu pid)
      (changesTo_send (pos_of_checkSig hsig) ?_ (htakes _ _) ?_)
    · simp [hsends, hsig, hid]
    · refine ⟨fun h hn => h (by rw [hsig, hn]) t hfind, fun h hkill t' ht' => ?_⟩
      cases hfind.symm.trans ht'
      exact h (Option.some.inj (hsig.symm.trans hkill))
  · rename_i hmut
    refine .quiet rfl ?_ (htakes _ _) ?_
    · simp [hsends, SignalOutcome.fail, code]
    · simp [KeepsKillable, withTaskMut_eq_none hmut]

theorem effect_tgkill (tgid tid sig : Word) :
    SignalEffect ⟨s, .tgkill cpu tgid tid sig, .returned (s.sysTgkill cpu tgid tid sig).1,
      (s.sysTgkill cpu tgid tid sig).2⟩ := by
  have htakes : ∀ r s' id, ¬ TakesKill id ⟨s, .tgkill cpu tgid tid sig, r, s'⟩ := by
    simp [TakesKill]
  have hsends : ∀ r s' id, SendsKill id ⟨s, .tgkill cpu tgid tid sig, r, s'⟩ ↔
      id = tid ∧ checkSig sig = some killIdx ∧ r = .returned ⟨0, []⟩ := by
    simp [SendsKill, eq_comm]
  unfold sysTgkill
  split
  · rename_i hsig
    refine .quiet rfl ?_ (htakes _ _) ?_
    · simp [hsends, hsig]
    · simp [KeepsKillable, hsig]
  rename_i n hsig
  split
  · rename_i s₁ hmut
    obtain ⟨t, hfind, hret, hrep⟩ := withTaskMut_eq_some hmut
    obtain ⟨hid, -⟩ := mem_tasks_of_withTask hfind
    -- the closure answers true only for a task of the group
    have hgroup : inGroup tgid t = true := by
      by_contra hnot
      rw [if_neg hnot] at hret
      cases hret
    rw [if_pos hgroup] at hrep
    refine effect_of_replaces hrep (signals_wakeTaskById s₁ cpu tid)
      (changesTo_send (pos_of_checkSig hsig) ?_ (htakes _ _) ?_)
    · simp [hsends, hsig, hid]
    · refine ⟨fun h hn => h (by rw [hsig, hn]) t hfind hgroup, fun h hkill t' ht' _ => ?_⟩
      cases hfind.symm.trans ht'
      exact h (Option.some.inj (hsig.symm.trans hkill))
  · rename_i s₁ hmut
    obtain ⟨t, hfind, hret, hrep⟩ := withTaskMut_eq_some hmut
    have hgroup : ¬ inGroup tgid t = true := by
      intro hin
      rw [if_pos hin] at hret
      cases hret
    rw [if_neg hgroup] at hrep
    refine .quiet (signals_of_replaces_self hrep) ?_ (htakes _ _) ?_
    · simp [hsends, SignalOutcome.fail, code]
    · simp [KeepsKillable, hfind, hgroup]
  · rename_i hmut
    refine .quiet rfl ?_ (htakes _ _) ?_
    · simp [hsends, SignalOutcome.fail, code]
    · simp [KeepsKillable, withTaskMut_eq_none hmut]

/-- The operations that touch no pending or blocked mask. -/
def SetsHandler (op : SignalOp) : Prop :=
  (∃ c sig handler, op = .signal c sig handler) ∨
    ∃ c mem sig actPtr oactPtr, op = .rtSigaction c mem sig actPtr oactPtr

/-- Such an operation sends and takes nothing, and meets the condition. -/
theorem setsHandler_spec (h : SetsHandler e.op) :
    (∀ id, ¬ SendsKill id e) ∧ (∀ id, ¬ TakesKill id e) ∧ KeepsKillable e := by
  rcases h with ⟨c, sig, handler, hop⟩ | ⟨c, mem, sig, actPtr, oactPtr, hop⟩
  all_goals simp [SendsKill, TakesKill, KeepsKillable, hop]

/-- Between `s` and `s'` nothing changed, or a handler other than that of SIGKILL. -/
def InstallsAtMost (s : Scheduler) (cpu : Cpu) (s' : Scheduler) : Prop :=
  s' = s ∨ ∃ n handler old, n ≠ killIdx ∧
    s.withCurrentTaskMut cpu (installHandler n handler) = some (old, s')

theorem effect_setsHandler (hop : SetsHandler e.op)
    (h : InstallsAtMost e.pre cpu e.post) : SignalEffect e := by
  obtain ⟨hsends, htakes, hkeep⟩ := setsHandler_spec hop
  rcases h with hsame | ⟨n, handler, r, hn, hmut⟩
  · exact .quiet (by rw [hsame]) hsends htakes hkeep
  · obtain ⟨t, -, -, hrep⟩ := replaces_of_withCurrentTaskMut hmut
    exact effect_of_replaces hrep rfl (changesTo_setHandler hn hsends htakes hkeep)

theorem installsAtMost_sysSignal (sig handler : Word) :
    InstallsAtMost s cpu (s.sysSignal cpu sig handler).2 := by
  unfold sysSignal
  split
  · exact .inl rfl
  split
  · exact .inl rfl
  rename_i n _ hn
  split
  · exact .inl rfl
  · rename_i old s₁ hmut
    exact .inr ⟨n, handler, old, hn, hmut⟩

theorem installsAtMost_installAction (mem : UserMem) (hn : n ≠ killIdx) (actPtr : Word)
    (writes : List UserWrite) :
    InstallsAtMost s cpu (s.installAction cpu mem n actPtr writes).2 := by
  unfold installAction
  split
  · exact .inl rfl
  split
  · exact .inl rfl
  split
  · exact .inl rfl
  dsimp only
  split
  · exact .inl rfl
  · rename_i old s₁ hmut
    exact .inr ⟨n, _, old, hn, hmut⟩

theorem installsAtMost_sysRtSigaction (mem : UserMem) (sig actPtr oactPtr : Word) :
    InstallsAtMost s cpu (s.sysRtSigaction cpu mem sig actPtr oactPtr).2 := by
  unfold sysRtSigaction
  split
  · exact .inl rfl
  split
  · exact .inl rfl
  rename_i n _ hn
  split
  · exact s.installsAtMost_installAction cpu mem hn actPtr []
  split
  · exact .inl rfl
  · split
    · exact .inl rfl
    · exact s.installsAtMost_installAction cpu mem hn actPtr _

theorem changesTo_applyMask (hop : e.op = .sigprocmask cpu mem how setPtr oldsetPtr)
    (hptr : ¬ (setPtr ≠ 0 ∧ userSpaceMax ≤ setPtr.toNat)) (hmask : readMask mem setPtr = some mask)
    (hcur : e.pre.withCurrentTask cpu = some t)
    (happly : t.signalState.applyMask how mask = some ss) (hsends : ∀ id, ¬ SendsKill id e)
    (htakes : ∀ id, ¬ TakesKill id e) : ChangesTo e t ss := by
  have hlt : setPtr.toNat < userSpaceMax := by
    by_cases hzero : setPtr = 0
    · rw [hzero]
      decide
    · by_contra hge
      exact hptr ⟨hzero, Nat.le_of_not_lt hge⟩
  have hkeep : KeepsKillable e ↔ (mask.getLsbD 9 = true → how = sigBlock ∨ how = sigSetmask →
      t.signalState.pending.getLsbD 9 = false) := by
    simp only [KeepsKillable, hop]
    constructor
    · intro h hbit hhow
      exact h hlt mask hmask hbit hhow t hcur
    · intro h _ mask' hmask' hbit hhow t' ht'
      cases hmask.symm.trans hmask'
      cases hcur.symm.trans ht'
      exact h hbit hhow
  have hsame : ss.pending = t.signalState.pending ∧ ss.handlers = t.signalState.handlers :=
    fields_applyMask happly
  refine changesTo_of_pending_eq hsame.1 hsends htakes (by rw [hsame.2]) fun hgood => ?_
  rw [hkeep, Unmasked, hsame.1]
  cases hpend : t.signalState.pending.getLsbD 9 with
  | false => simp
  | true =>
    have hblocked := blocked_applyMask happly (hgood hpend)
    constructor
    · intro h hbit hhow
      have hfalse := h rfl
      rw [hblocked.mpr ⟨hbit, hhow⟩] at hfalse
      exact absurd hfalse (by decide)
    · intro h _
      by_contra htrue
      obtain ⟨hbit, hhow⟩ := hblocked.mp (Bool.eq_true_of_not_eq_false htrue)
      exact absurd (h hbit hhow) (by decide)

theorem effect_changeMask (hop : e.op = .sigprocmask cpu mem how setPtr oldsetPtr)
    (hptr : ¬ (setPtr ≠ 0 ∧ userSpaceMax ≤ setPtr.toNat))
    (hmut : e.pre.withCurrentTaskMut cpu (changeMask how (readMask mem setPtr)) = some (r, e.post))
    (hsends : ∀ id, ¬ SendsKill id e) (htakes : ∀ id, ¬ TakesKill id e) : SignalEffect e := by
  obtain ⟨t, hcur, -, hrep⟩ := replaces_of_withCurrentTaskMut hmut
  cases hmask : readMask mem setPtr with
  | none =>
    rw [hmask] at hrep
    refine .quiet (signals_of_replaces_self hrep) hsends htakes ?_
    simp only [KeepsKillable, hop]
    intro _ mask h
    rw [hmask] at h
    cases h
  | some mask =>
    rw [hmask, changeMask] at hrep
    cases happly : t.signalState.applyMask how mask with
    | none =>
      rw [happly] at hrep
      refine .quiet (signals_of_replaces_self hrep) hsends htakes ?_
      simp only [KeepsKillable, hop]
      intro _ _ _ _ hhow
      obtain ⟨hblock, hset⟩ := applyMask_eq_none happly
      exact (hhow.elim hblock hset).elim
    | some ss =>
      rw [happly] at hrep
      exact effect_of_replaces hrep rfl
        (changesTo_applyMask cpu hop hptr hmask hcur happly hsends htakes)

theorem effect_sigprocmask (mem : UserMem) (how setPtr oldsetPtr : Word) :
    SignalEffect ⟨s, .sigprocmask cpu mem how setPtr oldsetPtr,
      .returned (s.sysSigprocmask cpu mem how setPtr oldsetPtr).1,
      (s.sysSigprocmask cpu mem how setPtr oldsetPtr).2⟩ := by
  have hsends : ∀ r s' id, ¬ SendsKill id
      ⟨s, .sigprocmask cpu mem how setPtr oldsetPtr, r, s'⟩ := by
    simp [SendsKill]
  have htakes : ∀ r s' id, ¬ TakesKill id
      ⟨s, .sigprocmask cpu mem how setPtr oldsetPtr, r, s'⟩ := by
    simp [TakesKill]
  unfold sysSigprocmask
  split
  · rename_i hptr
    refine .quiet rfl (hsends _ _) (htakes _ _) ?_
    intro hlt
    exact absurd hptr.2 (Nat.not_le.mpr hlt)
  rename_i hptr
  split
  · rename_i hnone
    refine .quiet rfl (hsends _ _) (htakes _ _) ?_
    intro _ _ _ _ _ t ht
    rw [withCurrentTaskMut_eq_none hnone] at ht
    cases ht
  · rename_i err s₁ hmut
    exact effect_changeMask cpu rfl hptr hmut (hsends _ _) (htakes _ _)
  · rename_i old s₁ hmut
    split <;> exact effect_changeMask cpu rfl hptr hmut (hsends _ _) (htakes _ _)

theorem effect_setCurrent (id : TaskId) :
    SignalEffect ⟨s, .setCurrent cpu id, .done, s.setCurrentTask cpu id⟩ := by
  refine .quiet (s.signals_setCurrentTask cpu id) ?_ ?_ trivial
  · simp [SendsKill]
  · simp [TakesKill]

end Steps

theorem signalStep_effect (h : signalStep e.pre e.op = some (e.res, e.post)) : SignalEffect e := by
  obtain ⟨s, op, r, s'⟩ := e
  dsimp only at h
  cases op with
  | kill cpu pid sig =>
    cases h
    exact effect_kill s cpu pid sig
  | tgkill cpu tgid tid sig =>
    cases h
    exact effect_tgkill s cpu tgid tid sig
  | signal cpu sig handler =>
    cases h
    exact effect_setsHandler cpu (.inl ⟨cpu, sig, handler, rfl⟩)
      (installsAtMost_sysSignal s cpu sig handler)
  | rtSigaction cpu mem sig actPtr oactPtr =>
    cases h
    exact effect_setsHandler cpu (.inr ⟨cpu, mem, sig, actPtr, oactPtr, rfl⟩)
      (installsAtMost_sysRtSigaction s cpu mem sig actPtr oactPtr)
  | sigprocmask cpu mem how setPtr oldsetPtr =>
    cases h
    exact effect_sigprocmask s cpu mem how setPtr oldsetPtr
  | nextPending cpu id =>
    simp only [signalStep] at h
    split at h
    · cases h
      refine .quiet rfl ?_ ?_ trivial
      · simp [SendsKill]
      · simp [TakesKill]
    rename_i next s₁ hmut
    cases h
    obtain ⟨t, hfind, rfl, hrep⟩ := withTaskMut_eq_some hmut
    obtain ⟨rfl, -⟩ := mem_tasks_of_withTask hfind
    exact effect_of_replaces hrep rfl changesTo_next
  | setCurrent cpu id =>
    cases h
    exact effect_setCurrent s cpu id

/-! ## Runs -/

/-- In every run: ids are distinct, SIGKILL is pending exactly while one is
    outstanding, and its handler is the default one. -/
structure KillTracked (tr : List SignalEvent) (s : Scheduler) : Prop where
  distinct : (s.signals.map Prod.fst).Nodup
  pending : ∀ q ∈ s.signals, q.2.pending.getLsbD 9 = true ↔ Outstanding tr q.1
  handler : ∀ q ∈ s.signals, q.2.handlers killIdx = sigDfl

theorem KillTracked.concat
    (hinv : KillTracked tr e.pre) (heffect : SignalEffect e) : KillTracked (tr ++ [e]) e.post := by
  obtain ⟨hdistinct, hpending, hhandler⟩ := hinv
  cases heffect with
  | quiet hsame hsends htakes hkeep =>
    refine ⟨by rwa [hsame], fun q hq => ?_, by rwa [hsame]⟩
    rw [hsame] at hq
    rw [hpending q hq, Outstanding, Outstanding, since_concat]
    simp [hsends, htakes]
  | change t ss rest hbefore hafter hchange =>
    rw [hbefore] at hdistinct hpending hhandler
    have hnotin : ∀ q ∈ rest, q.1 ≠ t.id := by
      intro q hq heq
      rw [map_cons, nodup_cons] at hdistinct
      exact hdistinct.1 (mem_map.mpr ⟨q, hq, heq⟩)
    refine ⟨?_, fun q hq => ?_, fun q hq => ?_⟩
    · rw [hafter, map_cons]
      rwa [map_cons] at hdistinct
    · rw [Outstanding, since_concat]
      rw [hafter] at hq
      rcases mem_cons.mp hq with rfl | hq
      · rw [hchange.pending, hpending (t.id, t.signalState) (mem_cons_self _ _), Outstanding]
      · obtain ⟨hsends, htakes⟩ := hchange.others q.1 (hnotin q hq)
        rw [hpending q (mem_cons_of_mem hq), Outstanding]
        simp [hsends, htakes]
    · rw [hafter] at hq
      rcases mem_cons.mp hq with rfl | hq
      · rw [hchange.handler]
        exact hhandler (t.id, t.signalState) (mem_cons_self _ _)
      · exact hhandler q (mem_cons_of_mem hq)

/-- A step from a state in which no pending SIGKILL is blocked ends in one
    exactly when it meets the condition. -/
theorem forall_unmasked_iff (heffect : SignalEffect e) (hgood : ∀ q ∈ e.pre.signals, Unmasked q.2) :
    (∀ q ∈ e.post.signals, Unmasked q.2) ↔ KeepsKillable e := by
  cases heffect with
  | quiet hsame hsends htakes hkeep =>
    rw [hsame]
    exact ⟨fun _ => hkeep, fun _ => hgood⟩
  | change t ss rest hbefore hafter hchange =>
    rw [hbefore] at hgood
    rw [hafter, ← hchange.unmasked (hgood (t.id, t.signalState) (mem_cons_self _ _))]
    constructor
    · intro h
      exact h (t.id, ss) (mem_cons_self _ _)
    · intro hss q hq
      rcases mem_cons.mp hq with rfl | hq
      · exact hss
      · exact hgood q (mem_cons_of_mem hq)

theorem killTracked_of_run (hdistinct : (s₀.tasks.map Task.id).Nodup)
    (hnew : ∀ t ∈ s₀.tasks, t.signalState = SignalState.new) (hrun : Run signalStep s₀ tr s) :
    KillTracked tr s := by
  induction hrun with
  | nil =>
    have hfresh : ∀ q ∈ s₀.signals, q.2 = SignalState.new := by
      intro q hq
      obtain ⟨t, ht, rfl⟩ := mem_map.mp hq
      exact hnew t ht
    refine ⟨?_, fun q hq => ?_, fun q hq => ?_⟩
    · rwa [signals, map_map]
    · rw [hfresh q hq]
      exact ⟨fun h => absurd h (by decide), fun h => absurd h (not_since_nil _ _)⟩
    · rw [hfresh q hq]
      rfl
  | snoc hrun hstep ih => exact ih.concat (signalStep_effect hstep)

/-- While the run is tracked, a task is killable exactly when its pending
    SIGKILL is not blocked. -/
theorem KillTracked.killable_iff (h : KillTracked tr s) (ht : t ∈ s.tasks) :
    Killable tr t ↔ Unmasked t.signalState := by
  have hmem : (t.id, t.signalState) ∈ s.signals :=
    mem_map_of_mem (fun t : Task => (t.id, t.signalState)) ht
  have hpending : t.signalState.pending.getLsbD 9 = true ↔ Outstanding tr t.id :=
    h.pending (t.id, t.signalState) hmem
  have hhandler : t.signalState.handlers killIdx = sigDfl := h.handler (t.id, t.signalState) hmem
  have hnum : sigkill.toNat = 9 := by decide
  rw [Killable, ← hpending, and_iff_left hhandler]
  refine imp_congr_right fun hbit => ?_
  have hreach : t.signalState.Reaches sigkill ↔ t.signalState.blocked.getLsbD 9 = false := by
    rw [reaches_iff (by rw [hnum]; decide) (by rw [hnum]; decide) (by rw [hnum]; exact hbit), hnum]
  rw [hreach]
  exact and_iff_right_of_imp
    (fun hfree => hasPending_of_bit (by decide) (by decide) hbit hfree)

/-- From a state whose tasks have distinct ids and fresh signal states, SIGKILL can be
    neither blocked, caught nor ignored in any state of a run exactly when no step sends
    it to a task that blocks it or blocks it where it is pending. -/
theorem killable_iff_keepsKillable {s₀ s : Scheduler} {tr : List SignalEvent}
    (hdistinct : (s₀.tasks.map Task.id).Nodup)
    (hnew : ∀ t ∈ s₀.tasks, t.signalState = SignalState.new) (hrun : Run signalStep s₀ tr s) :
    (∀ tr₁ s₁, tr₁ <+: tr → Run signalStep s₀ tr₁ s₁ → ∀ t ∈ s₁.tasks, Killable tr₁ t) ↔
      ∀ e ∈ tr, KeepsKillable e := by
  have hinit : ∀ q ∈ s₀.signals, Unmasked q.2 := by
    intro q hq
    obtain ⟨t, ht, rfl⟩ := mem_map.mp hq
    show Unmasked t.signalState
    rw [hnew t ht]
    intro _
    rfl
  have hunmasked := hrun.forall_reached_iff (B := fun s => ∀ q ∈ s.signals, Unmasked q.2) hinit
    fun _ _ _ hstep hgood => forall_unmasked_iff (signalStep_effect hstep) hgood
  rw [← hunmasked]
  refine forall₄_congr fun tr₁ s₁ _ hrun₁ => ?_
  have htracked := killTracked_of_run hdistinct hnew hrun₁
  constructor
  · intro h q hq
    obtain ⟨t, ht, rfl⟩ := mem_map.mp hq
    exact (htracked.killable_iff ht).mp (h t ht)
  · intro h t ht
    exact (htracked.killable_iff ht).mpr
      (h (t.id, t.signalState) (mem_map_of_mem (fun t : Task => (t.id, t.signalState)) ht))

/-! ## A blocked SIGKILL -/

/-- The booted system: the idle task, with id 1, runs on CPU 0. -/
def booted : Scheduler := empty.init 1 idleContext

theorem tasks_booted : booted.tasks = {{ Task.new 1 0 with context := some idleContext }} := by
  rw [tasks, readyTasks, booted, init, sum_update_split]
  simp [othersReady, empty]

/-- User memory in which the eight bytes at 0x1000 are the mask `1 << 9`. -/
def maskAtPage : UserMem := fun a => if a = 0x1001 then 2 else 0

/-- Task 1 blocks signal 9, and SIGKILL is then sent to it. -/
def maskThenKill : List SignalOp :=
  [.sigprocmask bootCpu maskAtPage sigSetmask 0x1000 0, .kill bootCpu 1 9]

/-- The mask keeps a SIGKILL sent afterwards from being seen. -/
theorem sigkill_blocked_by_sigprocmask :
    ∃ tr s, Run signalStep booted tr s ∧ tr.map Transition.op = maskThenKill ∧
      Outstanding tr 1 ∧ ∃ t, s.withTask bootCpu 1 = some t ∧
        t.signalState.hasPending = false ∧ t.signalState.nextPending.1 = none := by
  have hrun := exec_run signalStep booted maskThenKill rfl
  refine ⟨_, _, hrun, rfl, ?_, ?_⟩
  · exact ⟨[_], _, [], rfl, .inl ⟨bootCpu, 9, rfl, by decide, rfl⟩, by simp⟩
  · exact ⟨_, rfl, by decide, by decide⟩

/-- Task 1 is sent SIGTERM and SIGKILL, and then takes a signal. -/
def killThenTake : List SignalOp := [.kill bootCpu 1 15, .kill bootCpu 1 9, .nextPending bootCpu 1]

theorem killable_iff_keepsKillable_killThenTake :
    ∃ tr s, Run signalStep booted tr s ∧ tr.map Transition.op = killThenTake ∧
      ∀ tr₁ s₁, tr₁ <+: tr → Run signalStep booted tr₁ s₁ → ∀ t ∈ s₁.tasks, Killable tr₁ t := by
  have hrun := exec_run signalStep booted killThenTake rfl
  refine ⟨_, _, hrun, rfl, (killable_iff_keepsKillable ?_ ?_ hrun).mpr ?_⟩
  · rw [tasks_booted]
    simp
  · intro t ht
    obtain rfl := mem_singleton.mp ht
    rfl
  · -- SIGKILL is not blocked when it is sent, and nothing is blocked afterwards
    refine List.forall_mem_cons.mpr ⟨?_, List.forall_mem_cons.mpr
      ⟨?_, List.forall_mem_singleton.mpr trivial⟩⟩
    · intro hsig
      exact absurd hsig (by decide)
    · intro _ t ht
      cases ht
      decide

end OpenOS.Scheduler
