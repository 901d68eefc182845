/-
  The message slot and the reply slot of a channel end as mailboxes: each
  operation of the channel is at most one event on one slot (`step_slots`).
-/

import OpenOS.Base.Mailbox
import OpenOS.Ipc.Channel

namespace OpenOS.Channel

open Base Bool

/-! ## What a step did, as seen by the tasks -/

section

variable (e : EndId) (t : ChannelStep)

/-- The message a step accepted on end `e`: `send` returned Delivered or
    Pending, or `call` returned Blocked. -/
def acceptedOn : Option Message :=
  match t.op, t.res with
  | .send f msg _, .send (.delivered _) => if f = e then some msg else none
  | .send f msg _, .send .pending => if f = e then some msg else none
  | .call f msg _, .call (.blocked _) => if f = e then some msg else none
  | _, _ => none

/-- The message a step returned from `receive` on end `e`. -/
def receivedOn : Option Message :=
  match t.op, t.res with
  | .receive on _, .receive (.gotMessage msg _) => if on = e then some msg else none
  | _, _ => none

/-- The reply a step issued on end `e`. -/
def repliedOn : Option Message :=
  match t.op with
  | .reply on msg => if on = e then some msg else none
  | _ => none

/-- The reply a step returned to a caller on end `e`, from `call` or from the
    `check_reply` polling that continues it. -/
def gotReplyOn : Option Message :=
  match t.op, t.res with
  | .call f _ _, .call (.gotReply r) => if f = e then some r else none
  | .checkReply f, .call (.gotReply r) => if f = e then some r else none
  | _, _ => none

/-- The event of a step on the message slot of end `e`. -/
def msgEvent : Option (Mailbox.Event Message) :=
  ((acceptedOn e.other t).map .put).or ((receivedOn e t).map .take)

/-- The event of a step on the reply slot of end `e`. -/
def replyEvent : Option (Mailbox.Event Message) :=
  ((repliedOn e.other t).map .put).or ((gotReplyOn e t).map .take)

/-! ## Every operation moves the slots by these events -/

/-- What one step does to the slots of both ends. -/
def SlotsMove : Prop :=
  ∀ e, Mailbox.Moves (t.pre.endOf e).pendingMsg (msgEvent e t) (t.post.endOf e).pendingMsg ∧
    Mailbox.Moves (t.pre.endOf e).pendingReply (replyEvent e t) (t.post.endOf e).pendingReply

end

attribute [local grind] Mailbox.Moves msgEvent replyEvent acceptedOn receivedOn repliedOn
  gotReplyOn

/-- Every operation on an open channel leaves it open and moves the slots by
    the events of the step. -/
theorem step_slots (ho : Open ch) (h : step ch op = some (res, ch')) :
    Open ch' ∧ SlotsMove ⟨ch, op, res, ch'⟩ := by
  -- one end at a time, whichever end the operation is on
  rw [Open, SlotsMove, ← forall_and]
  intro e
  have ha := ho .a
  have hb := ho .b
  cases op with
  | send f msg task =>
    cases h
    cases e <;> cases f <;> fun_cases send ch _ msg task <;> grind
  | receive on task =>
    cases h
    cases e <;> cases on <;> fun_cases receive ch _ task <;> grind
  | call f msg task =>
    cases h
    cases e <;> cases f <;> fun_cases call ch _ msg task <;> grind
  | checkReply f =>
    cases h
    cases e <;> cases f <;> fun_cases checkReply ch _ <;> grind
  | reply on msg =>
    cases h
    cases e <;> cases on <;> fun_cases reply ch _ msg <;> grind
  | pushHandle handle =>
    cases h
    cases e <;> fun_cases pushHandle ch handle <;> grind

/-! ## The slots along a run -/

/-- The events of the message slot of end `e` in a run. -/
abbrev msgEvents (e : EndId) (tr : List ChannelStep) : List (Mailbox.Event Message) :=
  tr.filterMap (msgEvent e)

/-- The events of the reply slot of end `e` in a run. -/
abbrev replyEvents (e : EndId) (tr : List ChannelStep) : List (Mailbox.Event Message) :=
  tr.filterMap (replyEvent e)

theorem open_of_run (ho : Open ch₀) (hrun : Run step ch₀ tr ch) : Open ch :=
  hrun.invariant (I := fun _ ch => Open ch) ho
    (fun _ _ _ _ _ ho hs => (step_slots ho hs).1)

/-- The message slot of an end, empty at the start, along a run. -/
theorem msgEvents_valid (ho : Open ch₀) (hempty : (ch₀.endOf e).pendingMsg = none)
    (hrun : Run step ch₀ tr ch) :
    Mailbox.Valid (msgEvents e tr) ∧
      Mailbox.content (msgEvents e tr) = (ch.endOf e).pendingMsg :=
  (Mailbox.valid_of_run (fun ch => (ch.endOf e).pendingMsg) (msgEvent e) Open
    ⟨ho, hempty⟩ (fun _ _ _ _ ho hs => ⟨(step_slots ho hs).1, ((step_slots ho hs).2 e).1⟩) hrun).2

/-- The reply slot of an end, empty at the start, along a run. -/
theorem replyEvents_valid (ho : Open ch₀) (hempty : (ch₀.endOf e).pendingReply = none)
    (hrun : Run step ch₀ tr ch) :
    Mailbox.Valid (replyEvents e tr) ∧
      Mailbox.content (replyEvents e tr) = (ch.endOf e).pendingReply :=
  (Mailbox.valid_of_run (fun ch => (ch.endOf e).pendingReply) (replyEvent e) Open
    ⟨ho, hempty⟩ (fun _ _ _ _ ho hs => ⟨(step_slots ho hs).1, ((step_slots ho hs).2 e).2⟩) hrun).2

end OpenOS.Channel
