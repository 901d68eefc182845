/-
  The tasks that wait on a channel: whom `receive` names as the sender of a message, and
  whom `close` returns.

  A pending send is recorded on the sender's end and looked up on the receiver's, and each
  end has one place for each kind of waiter.  Where nobody is replaced there, `close`
  returns everybody who waits.
-/

import OpenOS.Ipc.Channel

namespace OpenOS.Channel

open Base Option List

/-! ## Runs with close -/

inductive Act
  | op (o : Op)
  | close

inductive Answer
  | res (r : Res)
  | woken (tasks : List TaskId)

def act : StepFn Channel Act Answer
  | ch, .op o => (step ch o).map fun (r, ch') => (.res r, ch')
  | ch, .close => some (.woken ch.close.1, ch.close.2)

abbrev ActStep := Transition Channel Act Answer

/-- The task that is told Blocked or Pending. -/
def told (e : ActStep) : Option TaskId :=
  match e.op, e.res with
  | .op (.send _ _ task), .res (.send .pending) => some task
  | .op (.receive _ task), .res (.receive .blocked) => some task
  | .op (.call _ _ task), .res (.call (.blocked _)) => some task
  | _, _ => none

/-- The task that is returned to be woken. -/
def returned (e : ActStep) : Option TaskId :=
  match e.res with
  | .res (.send (.delivered receiver)) => some receiver
  | .res (.receive (.gotMessage _ sender)) => some sender
  | .res (.call (.blocked receiver)) => receiver
  | .res (.reply (.unblocked caller)) => some caller
  | _ => none

/-- The task was told to wait and has not been returned since. -/
def Waiting (tr : List ActStep) (task : TaskId) : Prop :=
  Since (fun e => told e = some task) (fun e => returned e = some task) tr

/-- The message at end `e` is that of a send by the task, with result Pending. -/
def PendingBy (tr : List ActStep) (e : EndId) (task : TaskId) : Prop :=
  Since (fun x => ∃ msg, x.op = .op (.send e.other msg task) ∧ x.res = .res (.send .pending))
    (fun x => (∃ msg i, x.op = .op (.send e.other msg i) ∧ x.res ≠ .res (.send .closed)) ∨
      (∃ msg i r, x.op = .op (.call e.other msg i) ∧ x.res = .res (.call (.blocked r))) ∨
      ∃ i m s, x.op = .op (.receive e i) ∧ x.res = .res (.receive (.gotMessage m s))) tr

/-- What a step does to the record of a blocked sender of end `e`. -/
def recordSender (e : EndId) (task : Option TaskId) (x : ActStep) : Option TaskId :=
  match x.op, x.res with
  | .op (.send f _ i), .res (.send .pending) => if f = e then some i else task
  | .op (.receive on _), .res (.receive (.gotMessage _ _)) => if on = e then none else task
  | .close, _ => none
  | _, _ => task

/-- The last task to send from end `e` with result Pending, if no message was taken there
    since. -/
def lastSender (tr : List ActStep) (e : EndId) : Option TaskId := tr.foldl (recordSender e) none

/-- `receive` names the sender of a pending message, and `close` returns all who wait. -/
structure Complete (tr : List ActStep) (x : ActStep) : Prop where
  sender : ∀ e i m s task, x.op = .op (.receive e i) → x.res = .res (.receive (.gotMessage m s)) →
    PendingBy tr e task → s = task
  close : ∀ tasks, x.res = .woken tasks → ∀ task, Waiting tr task → task ∈ tasks

/-- Nobody is replaced as a waiter, the sender of a pending message that is taken on an end
    is the last one to have sent from that end too, and a channel is closed once. -/
structure Orderly (tr : List ActStep) (x : ActStep) : Prop where
  send : ∀ f msg i, x.op = .op (.send f msg i) →
    (x.pre.endOf f.other).blockedReceiver = none → (x.pre.endOf f).blockedSender = none
  receive : ∀ e i, x.op = .op (.receive e i) →
    (x.pre.endOf e).pendingMsg = none → (x.pre.endOf e).blockedReceiver = none
  call : ∀ f msg i, x.op = .op (.call f msg i) →
    (x.pre.endOf f).pendingReply = none → (x.pre.endOf f).blockedCaller = none
  sender : ∀ e i task, x.op = .op (.receive e i) → PendingBy tr e task →
    (lastSender tr e).getD 0 = task
  close : x.op = .close → ∀ y ∈ tr, y.op ≠ .close

/-! ## The places of the waiters -/

/-- The tasks recorded on an end. -/
def waiters (e : EndState) : List TaskId :=
  e.blockedReceiver.toList ++ e.blockedSender.toList ++ e.blockedCaller.toList

/-- The task is recorded on the channel. -/
def Recorded (ch : Channel) (task : TaskId) : Prop :=
  task ∈ waiters ch.endA ∨ task ∈ waiters ch.endB

variable {ch : Channel}

theorem mem_close : task ∈ ch.close.1 ↔ Recorded ch task := mem_append

@[grind =] theorem mem_waiters : task ∈ waiters e ↔
    e.blockedReceiver = some task ∨ e.blockedSender = some task ∨ e.blockedCaller = some task := by
  simp [waiters]

/-- What an operation does to the records. -/
def Keeps (x : ActStep) : Prop :=
  ∀ task, (told x = some task → Recorded x.post task) ∧
    (Recorded x.pre task → returned x ≠ some task → Recorded x.post task)

-- a step writes to the end it is made on and to its peer: by cases on which that is

theorem keeps_step (h : Orderly tr ⟨ch, .op o, .res r, ch'⟩)
    (hstep : step ch o = some (r, ch')) : Keeps ⟨ch, .op o, .res r, ch'⟩ := by
  intro task
  cases o with
  | send f msg i =>
    have hfree := h.send f msg i rfl
    cases hstep
    cases f <;> fun_cases send ch _ msg i <;> grind [told, returned, Recorded]
  | receive on i =>
    have hfree := h.receive on i rfl
    cases hstep
    cases on <;> fun_cases receive ch _ i <;> grind [told, returned, Recorded]
  | call f msg i =>
    have hfree := h.call f msg i rfl
    cases hstep
    cases f <;> fun_cases call ch _ msg i <;> grind [told, returned, Recorded]
  | checkReply f =>
    cases hstep
    cases f <;> fun_cases checkReply ch _ <;> grind [told, returned, Recorded]
  | reply on msg =>
    cases hstep
    cases on <;> fun_cases reply ch _ msg <;> grind [told, returned, Recorded]
  | pushHandle handle =>
    cases hstep
    fun_cases pushHandle ch handle <;> grind [told, returned, Recorded]

theorem sender_of_receive (h : (ch.receive on i).1 = .gotMessage m s) :
    s = (ch.endOf on).blockedSender.getD 0 := by
  simp only [receive] at h
  split_ifs at h
  cases hmsg : (ch.endOf on).pendingMsg with
  | none =>
    rw [hmsg] at h
    cases h
  | some msg =>
    rw [hmsg] at h
    cases h
    rfl

theorem lastSender_concat (tr : List ActStep) (x : ActStep) (e : EndId) :
    lastSender (tr ++ [x]) e = recordSender e (lastSender tr e) x := by
  rw [lastSender, foldl_append, foldl_cons, foldl_nil, lastSender]

/-- Every step treats the places of the blocked senders as the record does. -/
theorem blockedSender_act (hact : act ch a = some (r, ch')) (e : EndId) :
    (ch'.endOf e).blockedSender = recordSender e (ch.endOf e).blockedSender ⟨ch, a, r, ch'⟩ := by
  cases a with
  | close =>
    cases hact
    cases e <;> rfl
  | op o =>
    obtain ⟨⟨r, ch₁⟩, hstep, heq⟩ := map_eq_some_iff.mp hact
    cases heq
    cases o with
    | send f msg i =>
      cases hstep
      cases e <;> cases f <;> fun_cases send ch _ msg i <;> grind [recordSender]
    | receive on i =>
      cases hstep
      cases e <;> cases on <;> fun_cases receive ch _ i <;> grind [recordSender]
    | call f msg i =>
      cases hstep
      cases e <;> cases f <;> fun_cases call ch _ msg i <;> grind [recordSender]
    | checkReply f =>
      cases hstep
      cases e <;> cases f <;> fun_cases checkReply ch _ <;> grind [recordSender]
    | reply on msg =>
      cases hstep
      cases e <;> cases on <;> fun_cases reply ch _ msg <;> grind [recordSender]
    | pushHandle handle =>
      cases hstep
      rw [endOf_pushHandle]
      rfl

/-- The place of an end holds the last one who sent from there. -/
theorem blockedSender_of_run (hrun : Run act new tr ch) (e : EndId) :
    (ch.endOf e).blockedSender = lastSender tr e := by
  refine Run.invariant (I := fun tr ch => (ch.endOf e).blockedSender = lastSender tr e)
    (by cases e <;> rfl) ?_ hrun
  intro tr ch a r ch' h hact
  rw [lastSender_concat, ← h, blockedSender_act hact]

/-- Until the channel is closed, whoever waits is recorded. -/
def RecordsAll (tr : List ActStep) (ch : Channel) : Prop :=
  (∀ y ∈ tr, y.op ≠ .close) → ∀ task, Waiting tr task → Recorded ch task

section

variable (h : RecordsAll tr ch)
  (hact : act ch a = some (r, ch'))
  (hord : Orderly tr ⟨ch, a, r, ch'⟩)
include h hact hord

theorem recordsAll_step : RecordsAll (tr ++ [⟨ch, a, r, ch'⟩]) ch' := by
  intro hopen task hwaiting
  rw [forall_mem_append, forall_mem_singleton] at hopen
  cases a with
  | close => exact absurd rfl hopen.2
  | op o =>
    obtain ⟨⟨r, ch₁⟩, hstep, heq⟩ := map_eq_some_iff.mp hact
    cases heq
    obtain ⟨htold, hkept⟩ := keeps_step hord hstep task
    rcases since_concat.mp hwaiting with hnow | ⟨hbefore, hnot⟩
    · exact htold hnow
    · exact hkept (h hopen.1 task hbefore) hnot

theorem complete_step (hlast : ∀ e, (ch.endOf e).blockedSender = lastSender tr e) :
    Complete tr ⟨ch, a, r, ch'⟩ := by
  refine ⟨fun e i m s task hop hres hpending => ?_, fun tasks hres task hwaiting => ?_⟩
  · have hsender := hord.sender e i task hop hpending
    cases hop
    cases hres
    obtain ⟨hres, -⟩ := Prod.mk.inj (some.inj hact)
    rw [sender_of_receive (Res.receive.inj (Answer.res.inj hres)), hlast, hsender]
  · cases a with
    | op o =>
      obtain ⟨q, -, heq⟩ := map_eq_some_iff.mp hact
      cases heq
      cases hres
    | close =>
      cases hact
      cases hres
      exact mem_close.mpr (h (hord.close rfl) task hwaiting)

end

/-- In every run in which the steps are orderly, receivers learn who sent a pending message
    and `close` returns all who wait. -/
theorem complete_of_run {tr : List ActStep} {ch : Channel} (hrun : Run act new tr ch)
    (hord : ∀ tr₁ x, tr₁ ++ [x] <+: tr → Orderly tr₁ x) :
    ∀ tr₁ x, tr₁ ++ [x] <+: tr → Complete tr₁ x := by
  intro tr₁ x hpre
  obtain ⟨ch₁, hrun₁⟩ := hrun.of_isPrefix hpre
  obtain ⟨hrun₁, hact, -⟩ := hrun₁.of_concat
  have hrec : RecordsAll tr₁ x.pre := Run.invariant_of_guard
    (fun _ _ hwait => absurd hwait (not_since_nil _ _))
    (fun _ _ _ _ _ h hs hg => recordsAll_step h hs hg) hrun₁
    fun tr₂ y hy => hord tr₂ y (hy.trans ((prefix_append _ _).trans hpre))
  exact complete_step hrec hact (hord tr₁ x hpre) (blockedSender_of_run hrun₁)

/-- A task sends both ways and is named for both messages; a receiver that waits is returned
    by `close`. -/
theorem complete_exchange : ∃ tr ch, Run act new tr ch ∧
    (∀ tr₁ x, tr₁ ++ [x] <+: tr → Complete tr₁ x) ∧
    tr.map (fun x => x.res) = [.res (.send .pending), .res (.send .pending),
      .res (.receive (.gotMessage [1] 7)), .res (.receive (.gotMessage [2] 7)),
      .res (.receive .blocked), .woken [9]] := by
  have hrun := exec_run act new [.op (.send .b [2] 7), .op (.send .a [1] 7), .op (.receive .b 8),
    .op (.receive .a 9), .op (.receive .a 9), .close] rfl
  refine ⟨_, _, hrun, complete_of_run hrun ?_, rfl⟩
  simp only [forall_concat_isPrefix_cons, forall_concat_isPrefix_nil, and_true]
  refine ⟨⟨?_, nofun, nofun, nofun, nofun⟩, ⟨?_, nofun, nofun, nofun, nofun⟩,
    ⟨nofun, ?_, nofun, ?_, nofun⟩, ⟨nofun, ?_, nofun, ?_, nofun⟩, ⟨nofun, ?_, nofun, ?_, nofun⟩,
    nofun, nofun, nofun, nofun, fun _ => by simp⟩
  · rintro f msg i ⟨⟩ -
    rfl
  · rintro f msg i ⟨⟩ -
    rfl
  · rintro e i ⟨⟩ hnone
    cases hnone
  · -- the message at `b` is that of the second send
    rintro e i task ⟨⟩ hpending
    rcases (since_concat (l := [_])).mp hpending with ⟨msg, hop, -⟩ | ⟨-, hnot⟩
    · cases hop
      rfl
    · exact absurd (.inl ⟨_, _, rfl, nofun⟩) hnot
  · rintro e i ⟨⟩ hnone
    cases hnone
  · -- the message at `a` is that of the first send: the other steps leave it there
    rintro e i task ⟨⟩ hpending
    rcases (since_concat (l := [_, _])).mp hpending with ⟨msg, hop, -⟩ | ⟨hpending, -⟩
    · cases hop
    rcases (since_concat (l := [_])).mp hpending with ⟨msg, hop, -⟩ | ⟨hpending, -⟩
    · cases hop
    rcases (since_concat (l := [])).mp hpending with ⟨msg, hop, -⟩ | ⟨hpending, -⟩
    · cases hop
      rfl
    · exact absurd hpending (not_since_nil _ _)
  · rintro e i ⟨⟩ -
    rfl
  · -- it has been taken
    rintro e i task ⟨⟩ hpending
    rcases (since_concat (l := [_, _, _])).mp hpending with ⟨msg, hop, -⟩ | ⟨-, hnot⟩
    · cases hop
    · exact absurd (.inr (.inr ⟨_, _, _, rfl, rfl⟩)) hnot

/-- A message of task 7 is received as one of task 0, and of two receivers `close`
    returns one. -/
theorem sender_and_receiver_lost : (∃ tr ch, Run act new tr ch ∧ tr.map (fun x => (x.op, x.res)) =
      [(.op (.send .a [1] 7), .res (.send .pending)),
        (.op (.receive .b 8), .res (.receive (.gotMessage [1] 0)))]) ∧
    ∃ tr ch, Run act new tr ch ∧ tr.map (fun x => (x.op, x.res)) =
      [(.op (.receive .a 8), .res (.receive .blocked)),
        (.op (.receive .a 9), .res (.receive .blocked)), (.close, .woken [9])] := by
  have h₁ : Run act new _ _ := .snoc (.snoc .nil (a := .op (.send .a [1] 7)) rfl)
    (a := .op (.receive .b 8)) rfl
  have h₂ : Run act new _ _ := .snoc (.snoc (.snoc .nil (a := .op (.receive .a 8)) rfl)
    (a := .op (.receive .a 9)) rfl) (a := .close) rfl
  exact ⟨⟨_, _, h₁, rfl⟩, _, _, h₂, rfl⟩

end OpenOS.Channel
