/-
  Delivery of channel messages over whole runs.

  Neither `send` nor `call` looks at the slot before filling it, and a sender
  whose message is left pending is not stopped from sending again, so messages
  are delivered exactly once in a run in which every accepted message found the
  slot empty.
-/

import OpenOS.Ipc.Slots

namespace OpenOS.Channel

open Base List

/-- The messages accepted on end `e`, in order. -/
def accepted (e : EndId) (tr : List ChannelStep) : List Message := tr.filterMap (acceptedOn e)

/-- The messages returned by `receive` on end `e`, in order. -/
def received (e : EndId) (tr : List ChannelStep) : List Message := tr.filterMap (receivedOn e)

/-- Exactly-once, in-order delivery in both directions, for a run that ends in
    the state `ch`. -/
structure ExactlyOnce (tr : List ChannelStep) (ch : Channel) : Prop where
  inOrder : ∀ e : EndId, received e tr <+: accepted e.other tr
  nothingLost : ∀ e : EndId,
    accepted e.other tr = received e tr ++ (ch.endOf e).pendingMsg.toList

/-- The operation does not store a message over one that is still pending.
    Oversized messages are refused, and a call answered by a stored reply does
    not send its request. -/
def KeepsPending (ch : Channel) : Op → Prop
  | .send f msg _ => msg.length ≤ maxMsgSize → (ch.endOf f.other).pendingMsg = none
  | .call f msg _ =>
    msg.length ≤ maxMsgSize → (ch.endOf f).pendingReply = none →
      (ch.endOf f.other).pendingMsg = none
  | _ => True

/-! ## Accepted and received messages as slot events -/

theorem puts_msgEvents (e : EndId) (tr : List ChannelStep) :
    Mailbox.puts (msgEvents e tr) = accepted e.other tr := by
  rw [Mailbox.puts, filterMap_filterMap]
  congr 1
  funext t
  unfold msgEvent
  rcases acceptedOn e.other t with _ | m
  · rcases receivedOn e t with _ | m <;> rfl
  · rfl

theorem acceptedOn_eq_none_of_receivedOn (h : receivedOn e t = some m) : acceptedOn f t = none := by
  obtain ⟨pre, op, res, post⟩ := t
  cases op with
  | receive on task => rfl
  | send | call | checkReply | reply | pushHandle => cases h

theorem takes_msgEvents (e : EndId) (tr : List ChannelStep) :
    Mailbox.takes (msgEvents e tr) = received e tr := by
  rw [Mailbox.takes, filterMap_filterMap]
  congr 1
  funext t
  unfold msgEvent
  rcases hr : receivedOn e t with _ | m
  · rcases acceptedOn e.other t with _ | m <;> rfl
  · rw [acceptedOn_eq_none_of_receivedOn hr]
    rfl

/-! ## When an operation is accepted -/

theorem acceptedOn_send (ho : Open ch) (e f : EndId) (msg : Message) (task : TaskId)
    (post : Channel) :
    acceptedOn e ⟨ch, .send f msg task, .send (ch.send f msg task).1, post⟩ =
      if f = e ∧ msg.length ≤ maxMsgSize then some msg else none := by
  unfold send
  by_cases hlen : msg.length ≤ maxMsgSize
  · rw [if_neg (Nat.not_lt.mpr hlen)]
    simp only [ho f, ho f.other, Bool.or_self, Bool.false_eq_true, if_false]
    split
    · simp [acceptedOn, hlen]
    · simp [acceptedOn, hlen]
  · rw [if_pos (Nat.not_le.mp hlen)]
    simp [acceptedOn, hlen]

theorem acceptedOn_call (ho : Open ch) (e f : EndId) (msg : Message) (task : TaskId)
    (post : Channel) :
    acceptedOn e ⟨ch, .call f msg task, .call (ch.call f msg task).1, post⟩ =
      if f = e ∧ msg.length ≤ maxMsgSize ∧ (ch.endOf f).pendingReply = none then some msg
      else none := by
  unfold call
  by_cases hlen : msg.length ≤ maxMsgSize
  · rw [if_neg (Nat.not_lt.mpr hlen)]
    simp only [ho f, ho f.other, Bool.or_self, Bool.false_eq_true, if_false]
    split
    · rename_i r hr
      simp [acceptedOn, hr]
    · rename_i hr
      simp [acceptedOn, hlen, hr]
  · rw [if_pos (Nat.not_le.mp hlen)]
    simp [acceptedOn, hlen]

/-- A step of an open channel keeps pending messages exactly when whatever it
    accepts finds the slot empty. -/
theorem keepsPending_iff (ho : Open ch) (h : step ch op = some (res, ch')) :
    KeepsPending ch op ↔
      ∀ f m, acceptedOn f ⟨ch, op, res, ch'⟩ = some m → (ch.endOf f.other).pendingMsg = none := by
  cases op with
  | send f msg task =>
    cases h
    simp only [acceptedOn_send ho]
    constructor
    · intro hk g m hm
      split at hm
      · rename_i hacc
        exact hacc.1 ▸ hk hacc.2
      · cases hm
    · intro hall hlen
      exact hall f msg (if_pos ⟨rfl, hlen⟩)
  | call f msg task =>
    cases h
    simp only [acceptedOn_call ho]
    constructor
    · intro hk g m hm
      split at hm
      · rename_i hacc
        exact hacc.1 ▸ hk hacc.2.1 hacc.2.2
      · cases hm
    · intro hall hlen hr
      exact hall f msg (if_pos ⟨rfl, hlen, hr⟩)
  | receive | checkReply | reply | pushHandle =>
    refine ⟨fun _ f m hm => ?_, fun _ => trivial⟩
    cases hm

/-! ## Runs -/

section Runs

variable {ch₀ ch : Channel} {tr : List ChannelStep}

theorem msgEvent_eq_put : msgEvent e t = some (.put m) ↔ acceptedOn e.other t = some m := by
  unfold msgEvent
  rcases acceptedOn e.other t with _ | m'
  · rcases receivedOn e t with _ | m' <;> simp
  · simp

theorem lossless_iff_keepsPending (ho : Open ch₀)
    (hempty : ∀ e, (ch₀.endOf e).pendingMsg = none) (hrun : Run step ch₀ tr ch) :
    (∀ e, Mailbox.Lossless (msgEvents e tr)) ↔ ∀ t ∈ tr, KeepsPending t.pre t.op := by
  induction hrun with
  | nil => exact ⟨fun _ t ht => by simp at ht, fun _ _ => Mailbox.lossless_nil⟩
  | @snoc tr s s' a r hr hs ih =>
    have hstep := keepsPending_iff (open_of_run ho hr) hs
    -- a step is an event of the slot, or leaves its history as it was
    have hlast : ∀ e, Mailbox.Lossless (msgEvents e (tr ++ [⟨s, a, r, s'⟩])) ↔
        Mailbox.Lossless (msgEvents e tr) ∧
          ∀ m, acceptedOn e.other ⟨s, a, r, s'⟩ = some m → (s.endOf e).pendingMsg = none := by
      intro e
      rw [← (msgEvents_valid ho (hempty e) hr).2]
      simp only [← msgEvent_eq_put]
      rcases hev : msgEvent e ⟨s, a, r, s'⟩ with _ | ev
      · simp [hev]
      · simp [hev, Mailbox.lossless_concat]
    simp only [hlast, forall_and, ih, forall_mem_append, forall_mem_singleton, hstep]
    -- the slots of both ends cover what is accepted on either end
    refine and_congr_right fun _ => ?_
    constructor
    · intro h f m hm
      exact h f.other m (by rwa [EndId.other_other])
    · intro h e m hm
      have := h e.other m hm
      rwa [EndId.other_other] at this

/-- In every run by any number of tasks on an open channel with empty message slots,
    delivery is exactly once and in order if and only if no operation stored a message
    over a pending one. -/
theorem exactlyOnce_iff_keepsPending (ho : Open ch₀)
    (hempty : ∀ e, (ch₀.endOf e).pendingMsg = none) (hrun : Run step ch₀ tr ch) :
    ExactlyOnce tr ch ↔ ∀ t ∈ tr, KeepsPending t.pre t.op := by
  rw [← lossless_iff_keepsPending ho hempty hrun]
  have hslot : ∀ e, Mailbox.Lossless (msgEvents e tr) ↔
      accepted e.other tr = received e tr ++ (ch.endOf e).pendingMsg.toList := by
    intro e
    obtain ⟨hv, hc⟩ := msgEvents_valid ho (hempty e) hrun
    rw [← Mailbox.puts_eq_takes_append_iff hv, puts_msgEvents, takes_msgEvents, hc]
  constructor
  · intro h e
    exact (hslot e).mpr (h.nothingLost e)
  · intro h
    have hall := fun e => (hslot e).mp (h e)
    exact ⟨fun e => ⟨_, (hall e).symm⟩, hall⟩

end Runs

/-- A send that is received before the next one meets the condition. -/
theorem exactlyOnce_alternating :
    ∃ tr ch, Run step new tr ch ∧
      tr.map Transition.op =
        [.send .a [1#8] 1, .receive .b 2, .call .a [2#8] 1, .receive .b 2] ∧ ExactlyOnce tr ch := by
  have hrun := exec_run step new
    [.send .a [1#8] 1, .receive .b 2, .call .a [2#8] 1, .receive .b 2] rfl
  refine ⟨_, _, hrun, rfl, (exactlyOnce_iff_keepsPending open_new pendingMsg_new hrun).mpr ?_⟩
  intro t ht
  simp only [mem_cons, not_mem_nil, or_false] at ht
  rcases ht with rfl | rfl | rfl | rfl
  · exact fun _ => rfl
  · trivial
  · exact fun _ _ => rfl
  · trivial

/-- Two sends before the first receive: both return Pending, the second
    replaces the first, and the receiver gets the second only. -/
theorem second_send_overwrites :
    ∃ tr ch, Run step new tr ch ∧
      tr.map Transition.op = [.send .a [1#8] 1, .send .a [2#8] 1, .receive .b 2] ∧
      tr.map Transition.res =
        [.send .pending, .send .pending, .receive (.gotMessage [2#8] 0)] ∧
      accepted .a tr = [[1#8], [2#8]] ∧ received .b tr = [[2#8]] ∧
      ¬ received .b tr <+: accepted .a tr := by
  have hrun := exec_run step new [.send .a [1#8] 1, .send .a [2#8] 1, .receive .b 2] rfl
  refine ⟨_, _, hrun, rfl, rfl, rfl, rfl, ?_⟩
  decide

end OpenOS.Channel
