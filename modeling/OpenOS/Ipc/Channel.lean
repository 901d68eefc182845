/-
  The bidirectional message channel (kernel/src/ipc/mod.rs): one message slot
  and one reply slot per end, three waiter fields per end, and a list of
  handle values under transfer.

  The source works on a pair of mutable references (own end, peer end)
  obtained from `ends_mut`; here an operation reads both ends with `endOf`
  and writes them back with `setEnds`.
-/

import OpenOS.Base.Run
import OpenOS.Base.Word

namespace OpenOS

open Base Bool

/-- Message bytes (`Vec<u8>`). -/
abbrev Message := List (BitVec 8)

/-- A task identifier, as the raw `u64` the channel stores. -/
abbrev TaskId := Word

/-- Messages larger than this are rejected. -/
def maxMsgSize : Nat := 4096

/-- Maximum number of pending handles per channel. -/
def maxPendingHandles : Nat := 64

/-- Which end of a channel is being operated on. -/
inductive EndId
  | a
  | b
deriving DecidableEq

/-- The peer end. -/
@[grind] def EndId.other : EndId → EndId
  | .a => .b
  | .b => .a

@[simp] theorem EndId.other_other (e : EndId) : e.other.other = e := by
  cases e <;> rfl

theorem EndId.eq_or_eq_other (e f : EndId) : f = e ∨ f = e.other := by
  cases e <;> cases f <;> decide

/-- To show a property of both ends, show it of an end and of its peer. -/
theorem EndId.forall_iff {P : EndId → Prop} (f : EndId) : (∀ e, P e) ↔ P f ∧ P f.other := by
  constructor
  · intro h
    exact ⟨h f, h f.other⟩
  · rintro ⟨hself, hother⟩ e
    rcases EndId.eq_or_eq_other f e with rfl | rfl
    · exact hself
    · exact hother

/-- State for one end of a channel. -/
structure EndState where
  /-- Message waiting to be received (set by the peer's `send` or `call`). -/
  pendingMsg : Option Message
  /-- Task blocked in `receive` on this end. -/
  blockedReceiver : Option TaskId
  /-- Task blocked in `send` on this end. -/
  blockedSender : Option TaskId
  /-- Task blocked in `call` on this end. -/
  blockedCaller : Option TaskId
  /-- Reply waiting to be consumed by the caller. -/
  pendingReply : Option Message
  closed : Bool
deriving DecidableEq

/-- A bidirectional message channel with two ends. -/
structure Channel where
  endA : EndState
  endB : EndState
  pendingHandles : List Word
deriving DecidableEq

inductive SendResult
  | delivered (receiver : TaskId)
  | pending
  | closed
deriving DecidableEq

inductive RecvResult
  | gotMessage (msg : Message) (sender : TaskId)
  | blocked
  | closed
deriving DecidableEq

inductive CallResult
  | gotReply (reply : Message)
  | blocked (receiver : Option TaskId)
  | closed
deriving DecidableEq

inductive ReplyResult
  | unblocked (caller : TaskId)
  | stored
deriving DecidableEq

/-- A fresh end. -/
def EndState.new : EndState := ⟨none, none, none, none, none, false⟩

namespace Channel

/-- Create a new channel. -/
def new : Channel := ⟨EndState.new, EndState.new, []⟩

/-- The state of one end. -/
@[grind] def endOf (ch : Channel) : EndId → EndState
  | .a => ch.endA
  | .b => ch.endB

/-- Write back an end and its peer. -/
@[grind] def setEnds (ch : Channel) (on : EndId) (src dst : EndState) : Channel :=
  match on with
  | .a => { ch with endA := src, endB := dst }
  | .b => { ch with endA := dst, endB := src }

@[simp] theorem endOf_new (e : EndId) : new.endOf e = EndState.new := by
  cases e <;> rfl

@[simp] theorem endOf_setEnds_self (ch : Channel) (on : EndId) (src dst : EndState) :
    (ch.setEnds on src dst).endOf on = src := by
  cases on <;> rfl

/-- Close both ends; the blocked tasks to be woken with an error, in order. -/
def close (ch : Channel) : List TaskId × Channel :=
  let waiters (e : EndState) : List TaskId :=
    e.blockedReceiver.toList ++ e.blockedSender.toList ++ e.blockedCaller.toList
  let shut (e : EndState) : EndState :=
    { e with closed := true, blockedReceiver := none, blockedSender := none,
             blockedCaller := none }
  (waiters ch.endA ++ waiters ch.endB, { ch with endA := shut ch.endA, endB := shut ch.endB })

/-- Send a message from one end to the other. -/
def send (ch : Channel) (fromEnd : EndId) (msg : Message) (senderTaskId : TaskId) :
    SendResult × Channel :=
  if msg.length > maxMsgSize then (.closed, ch)
  else
    let src := ch.endOf fromEnd
    let dst := ch.endOf fromEnd.other
    if src.closed || dst.closed then (.closed, ch)
    else
      match dst.blockedReceiver with
      | some receiverId =>
        -- the peer is waiting: deliver immediately
        (.delivered receiverId,
          ch.setEnds fromEnd src { dst with blockedReceiver := none, pendingMsg := some msg })
      | none =>
        -- stored on the destination end; whatever was there is replaced
        (.pending, ch.setEnds fromEnd { src with blockedSender := some senderTaskId }
            { dst with pendingMsg := some msg })

/-- Receive a message on one end. -/
def receive (ch : Channel) (on : EndId) (taskId : TaskId) : RecvResult × Channel :=
  let src := ch.endOf on
  let dst := ch.endOf on.other
  if src.closed then (.closed, ch)
  else
    match src.pendingMsg with
    -- the sender is read from this end, where only this end's own sends put it
    | some msg =>
      (.gotMessage msg (src.blockedSender.getD 0),
        ch.setEnds on { src with pendingMsg := none, blockedSender := none } dst)
    | none => (.blocked, ch.setEnds on { src with blockedReceiver := some taskId } dst)

/-- Push a handle onto the pending list; `false` when the list is full. -/
def pushHandle (ch : Channel) (handle : Word) : Bool × Channel :=
  if ch.pendingHandles.length ≥ maxPendingHandles then (false, ch)
  else (true, { ch with pendingHandles := ch.pendingHandles ++ [handle] })

@[simp] theorem endOf_pushHandle (ch : Channel) (handle : Word) (e : EndId) :
    (ch.pushHandle handle).2.endOf e = ch.endOf e := by
  unfold pushHandle
  split
  · rfl
  · cases e <;> rfl

/-- Call: send, then block for the reply. -/
def call (ch : Channel) (fromEnd : EndId) (msg : Message) (taskId : TaskId) :
    CallResult × Channel :=
  if msg.length > maxMsgSize then (.closed, ch)
  else
    let src := ch.endOf fromEnd
    let dst := ch.endOf fromEnd.other
    if src.closed || dst.closed then (.closed, ch)
    else
      match src.pendingReply with
      | some reply =>
        -- fast path: a stored reply answers the call, the request is not sent
        (.gotReply reply, ch.setEnds fromEnd { src with pendingReply := none } dst)
      | none =>
        (.blocked dst.blockedReceiver, ch.setEnds fromEnd { src with blockedCaller := some taskId }
            { dst with blockedReceiver := none, pendingMsg := some msg })

/-- Check for a reply without sending another message. -/
def checkReply (ch : Channel) (fromEnd : EndId) : CallResult × Channel :=
  let src := ch.endOf fromEnd
  let dst := ch.endOf fromEnd.other
  if src.closed then (.closed, ch)
  else
    match src.pendingReply with
    | some reply => (.gotReply reply, ch.setEnds fromEnd { src with pendingReply := none } dst)
    | none => (.blocked none, ch)

/-- Reply to a message received on one end. -/
def reply (ch : Channel) (on : EndId) (msg : Message) : ReplyResult × Channel :=
  let src := ch.endOf on
  let dst := ch.endOf on.other
  match dst.blockedCaller with
  | some callerId =>
    (.unblocked callerId,
      ch.setEnds on src { dst with blockedCaller := none, pendingReply := some msg })
  | none => (.stored, ch.setEnds on src { dst with pendingReply := some msg })

/-! ## The state machine -/

/-- The operations tasks interleave on a channel. -/
inductive Op
  | send (fromEnd : EndId) (msg : Message) (task : TaskId)
  | receive (on : EndId) (task : TaskId)
  | call (fromEnd : EndId) (msg : Message) (task : TaskId)
  | checkReply (fromEnd : EndId)
  | reply (on : EndId) (msg : Message)
  | pushHandle (handle : Word)
deriving DecidableEq

/-- Their results. -/
inductive Res
  | send (r : SendResult)
  | receive (r : RecvResult)
  | call (r : CallResult)
  | reply (r : ReplyResult)
  | pushHandle (ok : Bool)
deriving DecidableEq

/-- One operation on a channel; none of them panics. -/
def step : StepFn Channel Op Res
  | ch, .send f msg task => some (.send (ch.send f msg task).1, (ch.send f msg task).2)
  | ch, .receive on task => some (.receive (ch.receive on task).1, (ch.receive on task).2)
  | ch, .call f msg task => some (.call (ch.call f msg task).1, (ch.call f msg task).2)
  | ch, .checkReply f => some (.call (ch.checkReply f).1, (ch.checkReply f).2)
  | ch, .reply on msg => some (.reply (ch.reply on msg).1, (ch.reply on msg).2)
  | ch, .pushHandle h => some (.pushHandle (ch.pushHandle h).1, (ch.pushHandle h).2)

/-- A step of a channel, as it appears in a run. -/
abbrev ChannelStep := Transition Channel Op Res

/-- Neither end is closed. -/
def Open (ch : Channel) : Prop := ∀ e, (ch.endOf e).closed = false

theorem open_new : Open new := by
  intro e
  simp [EndState.new]

theorem pendingMsg_new (e : EndId) : (new.endOf e).pendingMsg = none := by
  rw [endOf_new]
  rfl

theorem pendingReply_new (e : EndId) : (new.endOf e).pendingReply = none := by
  rw [endOf_new]
  rfl

/-! ## When an operation goes through -/

theorem closed_or_eq_false {ch : Channel} :
    ((ch.endOf f).closed || (ch.endOf f.other).closed) = false ↔ ch.Open := by
  rw [or_eq_false_iff]
  exact (EndId.forall_iff (P := fun e => (ch.endOf e).closed = false) f).symm

theorem send_ne_closed_iff (ch : Channel) (f : EndId) (msg : Message) (task : TaskId) :
    (ch.send f msg task).1 ≠ .closed ↔ msg.length ≤ maxMsgSize ∧ ch.Open := by
  unfold send
  split
  · rename_i hlen
    exact ⟨fun h => absurd rfl h, fun h => absurd h.1 (Nat.not_le.mpr hlen)⟩
  rename_i hlen
  dsimp only
  split
  · rename_i hclosed
    refine ⟨fun h => absurd rfl h, fun h => ?_⟩
    rw [closed_or_eq_false.mpr h.2] at hclosed
    cases hclosed
  rename_i hclosed
  have hopen := closed_or_eq_false.mp (eq_false_iff.mpr hclosed)
  refine ⟨fun _ => ⟨Nat.not_lt.mp hlen, hopen⟩, fun _ => ?_⟩
  split
  · exact fun h => by cases h
  · exact fun h => by cases h

/-- A request is stored when, besides, no reply is waiting for the caller. -/
theorem call_eq_blocked_iff (ch : Channel) (f : EndId) (msg : Message) (task : TaskId) :
    (∃ r, (ch.call f msg task).1 = .blocked r) ↔
      msg.length ≤ maxMsgSize ∧ ch.Open ∧ (ch.endOf f).pendingReply = none := by
  unfold call
  split
  · rename_i hlen
    exact ⟨fun ⟨_, h⟩ => (nomatch h), fun h => absurd h.1 (Nat.not_le.mpr hlen)⟩
  rename_i hlen
  dsimp only
  split
  · rename_i hclosed
    refine ⟨fun ⟨_, h⟩ => (nomatch h), fun h => ?_⟩
    rw [closed_or_eq_false.mpr h.2.1] at hclosed
    cases hclosed
  rename_i hclosed
  have hopen := closed_or_eq_false.mp (eq_false_iff.mpr hclosed)
  split
  · rename_i r hr
    refine ⟨fun ⟨_, h⟩ => (nomatch h), fun h => ?_⟩
    rw [h.2.2] at hr
    cases hr
  · rename_i hr
    exact ⟨fun _ => ⟨Nat.not_lt.mp hlen, hopen, hr⟩, fun _ => ⟨_, rfl⟩⟩

theorem receive_eq_gotMessage_iff (ch : Channel) (on : EndId) (task : TaskId) :
    (∃ m s, (ch.receive on task).1 = .gotMessage m s) ↔
      (ch.endOf on).closed = false ∧ (ch.endOf on).pendingMsg ≠ none := by
  unfold receive
  dsimp only
  split
  · rename_i hclosed
    refine ⟨fun ⟨_, _, h⟩ => (nomatch h), fun h => ?_⟩
    rw [h.1] at hclosed
    cases hclosed
  rename_i hclosed
  split
  · rename_i msg hmsg
    refine ⟨fun _ => ⟨eq_false_iff.mpr hclosed, ?_⟩, fun _ => ⟨_, _, rfl⟩⟩
    rw [hmsg]
    exact Option.some_ne_none msg
  · rename_i hmsg
    exact ⟨fun ⟨_, _, h⟩ => (nomatch h), fun h => absurd hmsg h.2⟩

theorem pushHandle_eq_true_iff (ch : Channel) (handle : Word) :
    (ch.pushHandle handle).1 = true ↔ ch.pendingHandles.length < maxPendingHandles := by
  unfold pushHandle
  split
  · rename_i hfull
    exact ⟨fun h => (nomatch h), fun h => absurd hfull (Nat.not_le.mpr h)⟩
  · rename_i hroom
    exact ⟨fun _ => Nat.not_le.mp hroom, fun _ => rfl⟩

end Channel

end OpenOS
