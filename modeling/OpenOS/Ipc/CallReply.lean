/-
  Requests and replies of the RPC operations over whole runs.

  A `call` that finds a reply already stored returns it at once and does not
  send its request: that is the fast path the protocol description promises
  ("if a reply is already pending from a previous `reply`, returns it
  immediately").  That the replies of an end answer its requests one by one needs
  the requests that are sent to take turns; the fast path is free.
-/

import OpenOS.Ipc.Delivery

namespace OpenOS.Channel

open Base List Option

/-! ## The events of an RPC client end -/

/-- The replies issued on end `e`, in order. -/
def replied (e : EndId) (tr : List ChannelStep) : List Message := tr.filterMap (repliedOn e)

/-- The replies returned to callers on end `e`, in order. -/
def gotReplies (e : EndId) (tr : List ChannelStep) : List Message := tr.filterMap (gotReplyOn e)

/-- The last reply issued for callers on end `e`, unless it was consumed. -/
def storedReply (e : EndId) (tr : List ChannelStep) : Option Message :=
  Mailbox.content (replyEvents e tr)

/-- What happens to the calls made on one end. -/
inductive RpcEvent
  /-- A call stored its request for the peer. -/
  | request (m : Message)
  /-- A receive on the peer end took a request. -/
  | taken (m : Message)
  /-- The peer issued a reply. -/
  | answered (r : Message)
  /-- `call` or `check_reply` returned a reply. -/
  | consumed (r : Message)
deriving DecidableEq

/-- The event of a step for the calls made on end `c`. -/
def rpcEvent (c : EndId) (t : ChannelStep) : Option RpcEvent :=
  (((acceptedOn c t).map .request).or ((receivedOn c.other t).map .taken)).or
    (((repliedOn c.other t).map .answered).or ((gotReplyOn c t).map .consumed))

/-- The events of a run for the calls made on end `c`. -/
def rpcEvents (c : EndId) (tr : List ChannelStep) : List RpcEvent := tr.filterMap (rpcEvent c)

/-- One complete call. -/
structure Round where
  request : Message
  reply : Message

/-- A call in full: its request is taken, then answered, and that answer is
    what it returns. -/
def Round.events (q : Round) : List RpcEvent :=
  [.request q.request, .taken q.request, .answered q.reply, .consumed q.reply]

/-! ## The conditions on clients and servers, and the correspondence -/

/-- Each reply on an end follows a receive on it that was not answered yet. -/
def RepliesFollowReceive (tr : List ChannelStep) : Prop :=
  ∀ tr₁ t, tr₁ ++ [t] <+: tr → ∀ e r, t.op = .reply e r →
    (replied e tr₁).length < (received e tr₁).length

/-- A request is accepted on an end only when every earlier one accepted there has been
    answered to a caller. -/
def RequestsTakeTurns (tr : List ChannelStep) : Prop :=
  ∀ tr₁ t, tr₁ ++ [t] <+: tr → ∀ c m, acceptedOn c t = some m →
    (accepted c tr₁).length = (gotReplies c tr₁).length

/-- Every returned reply is the last one issued for that end and not consumed
    since, and the step that returns it sends no request. -/
def ReturnsStoredReply (tr : List ChannelStep) : Prop :=
  ∀ tr₁ t, tr₁ ++ [t] <+: tr → ∀ c r, gotReplyOn c t = some r →
    storedReply c tr₁ = some r ∧ acceptedOn c t = none

/-- Every reply answers a request of the end it is returned on. -/
structure CallReply (tr : List ChannelStep) : Prop where
  /-- The events of an end are complete rounds, up to the one under way. -/
  rounds : ∀ c, ∃ qs : List Round, rpcEvents c tr <+: qs.flatMap Round.events
  /-- A call that is made when no request of its end is unanswered does not return a reply
      before its own request was sent. -/
  ownRequest : ∀ tr₁ t, tr₁ ++ [t] <+: tr → ∀ c m i r, t.op = .call c m i →
    (accepted c tr₁).length = (gotReplies c tr₁).length → t.res ≠ .call (.gotReply r)
  /-- No reply replaces one that is still unconsumed. -/
  noOverwrite : ∀ t ∈ tr, ∀ e r, t.op = .reply e r → (t.pre.endOf e.other).pendingReply = none

/-! ## One step -/

theorem filterMap_concat (f : α → Option β) (l : List α) (a : α) :
    (l ++ [a]).filterMap f = l.filterMap f ++ (f a).toList := by
  rcases h : f a with _ | b <;> simp [h]

section

variable (e : EndId) (tr : List ChannelStep) (t : ChannelStep)

@[simp] theorem accepted_concat :
    accepted e (tr ++ [t]) = accepted e tr ++ (acceptedOn e t).toList :=
  filterMap_concat _ tr t

@[simp] theorem received_concat :
    received e (tr ++ [t]) = received e tr ++ (receivedOn e t).toList :=
  filterMap_concat _ tr t

@[simp] theorem replied_concat : replied e (tr ++ [t]) = replied e tr ++ (repliedOn e t).toList :=
  filterMap_concat _ tr t

@[simp] theorem gotReplies_concat :
    gotReplies e (tr ++ [t]) = gotReplies e tr ++ (gotReplyOn e t).toList :=
  filterMap_concat _ tr t

end

@[simp] theorem rpcEvents_concat (c : EndId) (tr : List ChannelStep) (t : ChannelStep) :
    rpcEvents c (tr ++ [t]) = rpcEvents c tr ++ (rpcEvent c t).toList :=
  filterMap_concat _ tr t

namespace RpcEvent

def request? : RpcEvent → Option Message
  | request m => some m
  | _ => none

def taken? : RpcEvent → Option Message
  | taken m => some m
  | _ => none

def answered? : RpcEvent → Option Message
  | answered r => some r
  | _ => none

def consumed? : RpcEvent → Option Message
  | consumed r => some r
  | _ => none

end RpcEvent

attribute [local simp] RpcEvent.request? RpcEvent.taken? RpcEvent.answered? RpcEvent.consumed?

/-- A step is at most one event of the calls made on an end: each of the four
    observations can be read off it. -/
theorem rpcEvent_spec (c : EndId) (t : ChannelStep) :
    acceptedOn c t = (rpcEvent c t).bind RpcEvent.request? ∧
      receivedOn c.other t = (rpcEvent c t).bind RpcEvent.taken? ∧
      repliedOn c.other t = (rpcEvent c t).bind RpcEvent.answered? ∧
      gotReplyOn c t = (rpcEvent c t).bind RpcEvent.consumed? := by
  obtain ⟨pre, op, res, post⟩ := t
  unfold rpcEvent acceptedOn receivedOn repliedOn gotReplyOn
  -- the operation decides which of the four can be present, and the result which is
  cases op with
  | send f msg task =>
    by_cases hf : f = c <;> rcases res with (_ | _ | _) | _ | _ | _ | _ <;>
      simp [hf]
  | receive on task =>
    by_cases hon : on = c.other <;> rcases res with _ | (_ | _ | _) | _ | _ | _ <;>
      simp [hon]
  | call f msg task =>
    by_cases hf : f = c <;> rcases res with _ | _ | (_ | _ | _) | _ | _ <;>
      simp [hf]
  | checkReply f =>
    by_cases hf : f = c <;> rcases res with _ | _ | (_ | _ | _) | _ | _ <;>
      simp [hf]
  | reply on msg =>
    by_cases hon : on = c.other <;>
      simp [hon]
  | pushHandle handle => simp

/-- Where the call under way on an end is. -/
inductive Phase
  | idle
  | requested (m : Message)
  | taken (m : Message)
  | answered (m r : Message)

namespace Phase

/-- The events of the call under way so far. -/
def events : Phase → List RpcEvent
  | idle => []
  | requested m => [.request m]
  | taken m => [.request m, .taken m]
  | answered m r => [.request m, .taken m, .answered r]

/-- The message slot of the peer. -/
def msg : Phase → Option Message
  | requested m => some m
  | _ => none

/-- The reply slot of the client end. -/
def reply : Phase → Option Message
  | answered _ r => some r
  | _ => none

/-- How many of request, take and answer have happened. -/
def progress : Phase → Nat
  | idle => 0
  | requested _ => 1
  | taken _ => 2
  | answered _ _ => 3

end Phase

/-- The calls on end `c` after a run: complete rounds `qs` and a call in phase
    `ph`, with both slots and all counts as the phase says. -/
structure InPhase (c : EndId) (tr : List ChannelStep) (ch : Channel) (qs : List Round)
    (ph : Phase) : Prop where
  events : rpcEvents c tr = qs.flatMap Round.events ++ ph.events
  msg : (ch.endOf c.other).pendingMsg = ph.msg
  reply : (ch.endOf c).pendingReply = ph.reply
  accepted : (accepted c tr).length = qs.length + (if 1 ≤ ph.progress then 1 else 0)
  received : (received c.other tr).length = qs.length + (if 2 ≤ ph.progress then 1 else 0)
  replied : (replied c.other tr).length = qs.length + (if 3 ≤ ph.progress then 1 else 0)
  gotReplies : (gotReplies c tr).length = qs.length

variable {ch : Channel} {c : EndId} {t : ChannelStep}

theorem inPhase_nil (c : EndId) (hmsg : (ch.endOf c.other).pendingMsg = none)
    (hreply : (ch.endOf c).pendingReply = none) : InPhase c [] ch [] .idle :=
  ⟨rfl, hmsg, hreply, rfl, rfl, rfl, rfl⟩

section Step

variable {tr : List ChannelStep} {qs : List Round} {ph : Phase}

/-- With no earlier request unanswered, the end is idle. -/
theorem InPhase.idle_of_turn (h : InPhase c tr ch qs ph)
    (hturn : (Channel.accepted c tr).length = (Channel.gotReplies c tr).length) : ph = .idle := by
  have hacc := h.accepted
  have hgot := h.gotReplies
  cases ph with
  | idle => rfl
  | requested | taken | answered =>
    simp only [Phase.progress] at hacc
    simp at hacc
    omega

/-- With a receive not answered yet, the request has been taken. -/
theorem InPhase.taken_of_receive (h : InPhase c tr ch qs ph)
    (hlt : (Channel.replied c.other tr).length < (Channel.received c.other tr).length) :
    ∃ m, ph = .taken m := by
  have hrec := h.received
  have hrep := h.replied
  cases ph with
  | taken m => exact ⟨m, rfl⟩
  | idle | requested | answered =>
    simp only [Phase.progress] at hrec hrep
    simp at hrec hrep
    omega

/-- One step of the calls on an end: nothing, or the next phase. -/
theorem InPhase.step (h : InPhase c tr t.pre qs ph) (hmove : SlotsMove t)
    (hcall : ∀ m, acceptedOn c t = some m → ph = .idle)
    (hreply : ∀ r, repliedOn c.other t = some r → ∃ m, ph = .taken m) :
    ∃ qs' ph', InPhase c (tr ++ [t]) t.post qs' ph' := by
  obtain ⟨hev, hmsg, hrep, h1, h2, h3, h4⟩ := h
  obtain ⟨ha, hb, hc, hd⟩ := rpcEvent_spec c t
  have hm := (hmove c.other).1
  have hr := (hmove c).2
  rw [msgEvent, EndId.other_other, ha, hb] at hm
  rw [replyEvent, hc, hd] at hr
  -- the event of the step decides the next phase; the slots say that a take or a
  -- returned reply is of the message of the phase
  rcases hnext : rpcEvent c t with _ | m | m | r | r
  all_goals
    rw [hnext] at ha hb hc hd hm hr
  · refine ⟨qs, ph, ?_, Eq.trans hm hmsg, Eq.trans hr hrep, ?_, ?_, ?_, ?_⟩ <;>
      simp [hnext, ha, hb, hc, hd, hev, h1, h2, h3, h4]
  · -- a request is accepted: the end was idle
    obtain rfl := hcall m ha
    refine ⟨qs, .requested m, ?_, hm, Eq.trans hr hrep, ?_, ?_, ?_, ?_⟩ <;>
      simp [hnext, ha, hb, hc, hd, hev, h1, h2, h3, h4, Phase.events, Phase.progress]
  · -- a message is taken: it is the pending request
    have hslot : ph.msg = some m := hmsg.symm.trans hm.1
    obtain rfl : ph = .requested m := by
      cases ph with
      | requested m' => exact congrArg _ (some.inj hslot)
      | idle | taken | answered => cases hslot
    refine ⟨qs, .taken m, ?_, hm.2, Eq.trans hr hrep, ?_, ?_, ?_, ?_⟩ <;>
      simp [hnext, ha, hb, hc, hd, hev, h1, h2, h3, h4, Phase.events, Phase.progress]
  · -- a reply is issued: the request has been taken
    obtain ⟨m, rfl⟩ := hreply r hc
    refine ⟨qs, .answered m r, ?_, Eq.trans hm hmsg, hr, ?_, ?_, ?_, ?_⟩ <;>
      simp [hnext, ha, hb, hc, hd, hev, h1, h2, h3, h4, Phase.events, Phase.progress]
  · -- a reply is returned: it is the stored one, and the round is complete
    have hslot : ph.reply = some r := hrep.symm.trans hr.1
    obtain ⟨m, rfl⟩ : ∃ m, ph = .answered m r := by
      cases ph with
      | answered m r' => exact ⟨m, congrArg _ (some.inj hslot)⟩
      | idle | requested | taken => cases hslot
    refine ⟨qs ++ [⟨m, r⟩], .idle, ?_, Eq.trans hm hmsg, hr.2, ?_, ?_, ?_, ?_⟩ <;>
      simp [hnext, ha, hb, hc, hd, hev, h1, h2, h3, h4, Phase.events, Phase.progress, Round.events]

end Step

/-- The events of a call under way are the beginning of a round. -/
theorem Phase.events_isPrefix (ph : Phase) : ∃ q : Round, ph.events <+: q.events := by
  cases ph with
  | idle => exact ⟨⟨[], []⟩, nil_prefix⟩
  | requested m => exact ⟨⟨m, []⟩, ⟨_, rfl⟩⟩
  | taken m => exact ⟨⟨m, []⟩, ⟨_, rfl⟩⟩
  | answered m r => exact ⟨⟨m, r⟩, ⟨_, rfl⟩⟩

theorem InPhase.rounds (h : InPhase c tr ch qs ph) :
    ∃ qs : List Round, rpcEvents c tr <+: qs.flatMap Round.events := by
  obtain ⟨q, rest, hq⟩ := ph.events_isPrefix
  refine ⟨qs ++ [q], rest, ?_⟩
  rw [h.events, append_assoc, hq]
  simp

/-! ## Runs -/

section Runs

variable {ch₀ ch : Channel} {tr : List ChannelStep} {r : Message}

theorem rpcEvent_of_gotReplyOn (h : gotReplyOn c t = some r) :
    rpcEvent c t = some (.consumed r) := by
  have hspec := (rpcEvent_spec c t).2.2.2
  rw [h] at hspec
  rcases hev : rpcEvent c t with _ | m | m | r' | r'
  all_goals
    rw [hev] at hspec
    cases hspec
  rfl

/-- A returned reply is the one in the slot, and its step sends no request. -/
theorem SlotsMove.reply_of_gotReplyOn (hmove : SlotsMove t) (h : gotReplyOn c t = some r) :
    (t.pre.endOf c).pendingReply = some r ∧ acceptedOn c t = none := by
  obtain ⟨ha, -, hc, hd⟩ := rpcEvent_spec c t
  rw [rpcEvent_of_gotReplyOn h] at ha hc hd
  have hslot := (hmove c).2
  rw [replyEvent, hc, hd] at hslot
  exact ⟨hslot.1, ha⟩

theorem returnsStoredReply_of_run (ho : Open ch₀)
    (hempty : ∀ e, (ch₀.endOf e).pendingReply = none) (hrun : Run step ch₀ tr ch) :
    ReturnsStoredReply tr := by
  intro tr₁ t hpre c r hgot
  obtain ⟨ch₁, hrun₁⟩ := hrun.of_isPrefix hpre
  obtain ⟨hbefore, hs, -⟩ := hrun₁.of_concat
  have hslot := (replyEvents_valid ho (hempty c) hbefore).2
  have hmove := (step_slots (open_of_run ho hbefore) hs).2
  obtain ⟨hstored, hnone⟩ := hmove.reply_of_gotReplyOn hgot
  exact ⟨hslot.trans hstored, hnone⟩

theorem op_of_repliedOn (h : repliedOn e t = some r) : t.op = .reply e r := by
  obtain ⟨pre, op, res, post⟩ := t
  cases op with
  | reply on msg =>
    simp only [repliedOn] at h
    split at h
    · rename_i hon
      rw [hon, some.inj h]
    · cases h
  | send | call | receive | checkReply | pushHandle => cases h

/-- The conditions on one step after the run `tr`. -/
def Disciplined (tr : List ChannelStep) (t : ChannelStep) : Prop :=
  (∀ e r, t.op = .reply e r → (replied e tr).length < (received e tr).length) ∧
    ∀ c m, acceptedOn c t = some m → (accepted c tr).length = (gotReplies c tr).length

/-- The channel is open, and both ends are in some phase. -/
structure RpcInv (tr : List ChannelStep) (ch : Channel) : Prop where
  isOpen : Open ch
  phase : ∀ c, ∃ qs ph, InPhase c tr ch qs ph

theorem rpcInv_step {s s' : Channel} {op : Op} {res : Res} (hI : RpcInv tr s)
    (hs : step s op = some (res, s')) (hd : Disciplined tr ⟨s, op, res, s'⟩) :
    RpcInv (tr ++ [⟨s, op, res, s'⟩]) s' := by
  obtain ⟨hrep, hturn⟩ := hd
  obtain ⟨ho', hmove⟩ := step_slots hI.isOpen hs
  refine ⟨ho', fun c => ?_⟩
  obtain ⟨qs, ph, hph⟩ := hI.phase c
  exact hph.step hmove (fun m hm => hph.idle_of_turn (hturn c m hm))
    fun r hr => hph.taken_of_receive (hrep c.other r (op_of_repliedOn hr))

theorem rpcInv_of_run (hinit : RpcInv [] ch₀) (hrun : Run step ch₀ tr ch)
    (hfollow : RepliesFollowReceive tr) (hturns : RequestsTakeTurns tr) : RpcInv tr ch := by
  refine hrun.invariant_of_guard hinit (G := Disciplined) ?_ ?_
  · intro tr s op res s' hI hs hd
    exact rpcInv_step hI hs hd
  · exact fun tr₁ t hpre => ⟨hfollow tr₁ t hpre, hturns tr₁ t hpre⟩

/-- With no request unanswered the end is idle, so no reply is stored there. -/
theorem RpcInv.ownRequest (hI : RpcInv tr t.pre) (hs : step t.pre t.op = some (t.res, t.post))
    (hop : t.op = .call c m i) (hturn : (accepted c tr).length = (gotReplies c tr).length) :
    t.res ≠ .call (.gotReply r) := by
  intro hres
  obtain ⟨qs, ph, hph⟩ := hI.phase c
  obtain rfl := hph.idle_of_turn hturn
  have hgot : gotReplyOn c t = some r := by
    obtain ⟨pre, op, res, post⟩ := t
    dsimp only at hop hres
    simp [gotReplyOn, hop, hres]
  have hnone := hph.reply
  rw [((step_slots hI.isOpen hs).2.reply_of_gotReplyOn hgot).1] at hnone
  cases hnone

/-- A reply to a receive that is not answered yet finds the slot empty. -/
theorem RpcInv.noOverwrite (hI : RpcInv tr ch)
    (hlt : (replied e tr).length < (received e tr).length) :
    (ch.endOf e.other).pendingReply = none := by
  obtain ⟨qs, ph, hph⟩ := hI.phase e.other
  rw [← EndId.other_other e] at hlt
  obtain ⟨m, rfl⟩ := hph.taken_of_receive hlt
  exact hph.reply

/-- In every run on an open channel with empty slots a returned reply is the last one
    issued for that end and not yet consumed; and if every reply follows a receive it
    answers and the requests sent on an end take turns, the replies answer the requests
    one by one, a call returns a stored reply only while a request of its end is
    unanswered, and no reply is overwritten. -/
theorem callReply_correspondence (ho : Open ch₀) (hmsg : ∀ e, (ch₀.endOf e).pendingMsg = none)
    (hreply : ∀ e, (ch₀.endOf e).pendingReply = none) (hrun : Run step ch₀ tr ch) :
    ReturnsStoredReply tr ∧ (RepliesFollowReceive tr → RequestsTakeTurns tr → CallReply tr) := by
  refine ⟨returnsStoredReply_of_run ho hreply hrun, ?_⟩
  intro hfollow hturns
  have hinit : RpcInv [] ch₀ :=
    ⟨ho, fun c => ⟨[], .idle, inPhase_nil c (hmsg c.other) (hreply c)⟩⟩
  -- the conditions hold of every shorter run, so the invariant does
  have hbefore : ∀ tr₁ t, tr₁ ++ [t] <+: tr →
      RpcInv tr₁ t.pre ∧ step t.pre t.op = some (t.res, t.post) := by
    intro tr₁ t hpre
    obtain ⟨ch₁, hrun₁⟩ := hrun.of_isPrefix hpre
    obtain ⟨hrun₁, hs, -⟩ := hrun₁.of_concat
    have hshort : tr₁ <+: tr := (prefix_append tr₁ [t]).trans hpre
    exact ⟨rpcInv_of_run hinit hrun₁ (fun tr₂ u h => hfollow tr₂ u (h.trans hshort))
      fun tr₂ u h => hturns tr₂ u (h.trans hshort), hs⟩
  refine ⟨fun c => ?_, fun tr₁ t hpre c m i r hop hturn => ?_, fun t ht e r hop => ?_⟩
  · obtain ⟨qs, ph, hph⟩ := (rpcInv_of_run hinit hrun hfollow hturns).phase c
    exact hph.rounds
  · obtain ⟨hI, hs⟩ := hbefore tr₁ t hpre
    exact hI.ownRequest hs hop hturn
  · obtain ⟨tr₁, hpre, -⟩ := hrun.of_mem ht
    exact (hbefore tr₁ t hpre).1.noOverwrite (hfollow tr₁ t hpre e r hop)

end Runs

/-- A request is answered, a second call takes the stored reply in place of sending its
    own, and a third one sends it and polls for the answer. -/
theorem callReply_two_rounds :
    ∃ tr ch, Run step new tr ch ∧
      tr.map Transition.op = [.call .a [1#8] 1, .receive .b 2, .reply .b [2#8], .call .a [3#8] 3,
        .call .a [3#8] 3, .receive .b 2, .reply .b [4#8], .checkReply .a] ∧
      gotReplies .a tr = [[2#8], [4#8]] ∧ CallReply tr := by
  have hrun := exec_run step new [.call .a [1#8] 1, .receive .b 2, .reply .b [2#8],
    .call .a [3#8] 3, .call .a [3#8] 3, .receive .b 2, .reply .b [4#8], .checkReply .a] rfl
  refine ⟨_, _, hrun, rfl, rfl,
    (callReply_correspondence open_new pendingMsg_new pendingReply_new hrun).2 ?_ ?_⟩
  · unfold RepliesFollowReceive
    simp only [forall_concat_isPrefix_cons, forall_concat_isPrefix_nil, and_true]
    refine ⟨?_, ?_, ?_, ?_, ?_, ?_, ?_, ?_⟩
    all_goals
      intro e r hop
      cases hop
    all_goals decide
  · unfold RequestsTakeTurns
    simp only [forall_concat_isPrefix_cons, forall_concat_isPrefix_nil, and_true]
    refine ⟨?_, ?_, ?_, ?_, ?_, ?_, ?_, ?_⟩
    all_goals
      intro c m hacc
      cases c
    all_goals first | rfl | cases hacc

/-- The reply to a first request is returned to a second call, whose own
    request never reaches the peer; and of two requests that do not take turns the answer
    to the first is overwritten. -/
theorem stored_reply_answers_next_call :
    (∃ tr ch, Run step new tr ch ∧
      tr.map Transition.op =
        [.call .a [1#8] 1, .receive .b 2, .reply .b [2#8], .call .a [3#8] 3] ∧
      RepliesFollowReceive tr ∧
      gotReplies .a tr = [[2#8]] ∧
      rpcEvents .a tr = [.request [1#8], .taken [1#8], .answered [2#8], .consumed [2#8]] ∧
      (∃ t ∈ tr, t.op = .call .a [3#8] 3 ∧ t.res = .call (.gotReply [2#8])) ∧
      [3#8] ∉ received .b tr) ∧
    ∃ tr ch, Run step new tr ch ∧
      tr.map Transition.op = [.call .a [1#8] 1, .receive .b 2, .call .a [3#8] 3, .receive .b 2,
        .reply .b [2#8], .reply .b [4#8]] ∧
      RepliesFollowReceive tr ∧
      ∃ t ∈ tr, t.op = .reply .b [4#8] ∧ (t.pre.endOf .a).pendingReply = some [2#8] := by
  have hfast := exec_run step new
    [.call .a [1#8] 1, .receive .b 2, .reply .b [2#8], .call .a [3#8] 3] rfl
  have hboth := exec_run step new [.call .a [1#8] 1, .receive .b 2, .call .a [3#8] 3,
    .receive .b 2, .reply .b [2#8], .reply .b [4#8]] rfl
  refine ⟨⟨_, _, hfast, rfl, ?_, rfl, rfl, ?_, ?_⟩, _, _, hboth, rfl, ?_, ?_⟩
  · unfold RepliesFollowReceive
    simp only [forall_concat_isPrefix_cons, forall_concat_isPrefix_nil, and_true]
    exact ⟨nofun, nofun, fun _ _ h => by cases h; decide, nofun⟩
  · exact ⟨_, mem_cons_of_mem _ (mem_cons_of_mem _ (mem_cons_of_mem _
      (mem_singleton_self _))), rfl, rfl⟩
  · decide
  · unfold RepliesFollowReceive
    simp only [forall_concat_isPrefix_cons, forall_concat_isPrefix_nil, and_true]
    exact ⟨nofun, nofun, nofun, nofun, fun _ _ h => by cases h; decide,
      fun _ _ h => by cases h; decide⟩
  · exact ⟨_, mem_cons_of_mem _ (mem_cons_of_mem _ (mem_cons_of_mem _ (mem_cons_of_mem _
      (mem_cons_of_mem _ (mem_singleton_self _))))), rfl, rfl⟩

end OpenOS.Channel
