/-
  What a receive and a call write to the buffer of their caller
  (kernel/src/syscall/mod.rs).

  Both ignore the length that the caller states, and take the message out of the channel
  before they look at the pointer.  They stay inside the buffer, and keep a message that
  they report as an error, exactly when the message fits and the pointer is good.
-/

import OpenOS.Syscall.Effects

namespace OpenOS

open Base Function Option SysError Prod

namespace Channel

/-- The message or reply that an operation takes out of the channel, from the state before
    it. -/
def waiting (ch : Channel) : Op → Option Message
  | .receive e _ => if (ch.endOf e).closed then none else (ch.endOf e).pendingMsg
  | .checkReply e => if (ch.endOf e).closed then none else (ch.endOf e).pendingReply
  | .call e msg _ =>
    if maxMsgSize < msg.length ∨ (ch.endOf e).closed ∨ (ch.endOf e.other).closed then none
    else (ch.endOf e).pendingReply
  | _ => none

/-- The message or reply of a result. -/
def Res.taken : Res → Option Message
  | .receive (.gotMessage msg _) => some msg
  | .call (.gotReply answer) => some answer
  | _ => none

variable {ch : Channel}

theorem taken_of_step (h : step ch op = some (res, ch')) :
    res.taken = ch.waiting op ∧ (res.taken ≠ none → ch' ≠ ch) := by
  cases op with
  | receive e task =>
    cases h
    cases e <;> fun_cases receive ch _ task <;> grind [waiting, Res.taken]
  | checkReply e =>
    cases h
    cases e <;> fun_cases checkReply ch _ <;> grind [waiting, Res.taken]
  | call e msg task =>
    cases h
    cases e <;> fun_cases call ch _ msg task <;> grind [waiting, Res.taken]
  | send | reply | pushHandle =>
    cases h
    exact ⟨rfl, fun h => absurd rfl h⟩

end Channel

namespace Kernel

/-- The buffer of a receive, of a call, or of the handler that waits in one. -/
def bufferOf (k : Kernel) : Op → Option Word
  | .syscall _ (.channelReceive _ _ buf) => some buf
  | .syscall _ (.channelCall _ _ _ _ reply) => some reply
  | .poll cpu => (k.spin cpu).map fun
    | .receive _ _ _ buf => buf
    | .call _ _ reply => reply
  | _ => none

/-- What the step is about to hand over. -/
def arriving (k : Kernel) (op : Op) : Option Message :=
  (k.eventOf op).bind fun ev => (k.channels ev.ch).waiting ev.op

/-- Every byte written is inside the buffer, and BadPointer leaves all messages where they
    were. -/
def Bounded (buf len : Word) (k : Kernel) (o : Outcome) (k' : Kernel) : Prop :=
  (∀ w, o.write = some w → ∀ i < w.bytes.length,
    buf.toNat ≤ w.dst.toNat + i ∧ w.dst.toNat + i < buf.toNat + len.toNat) ∧
  (o.ret = some badPointer.code → k'.channels = k.channels)

/-- The message can be copied to the buffer, and is no longer than it. -/
def Fits (buf len : Word) (msg : Message) : Prop :=
  userRangeOk buf msg.length = true ∧ msg.length ≤ len.toNat

theorem bounded_deliver (htaken : k'.channels ≠ k.channels) :
    Bounded buf len k (.deliver ev buf msg) k' ↔ Fits buf len msg := by
  unfold Outcome.deliver copyToUser
  by_cases hok : userRangeOk buf msg.length = true
  · have hret : (if msg.length < 2 ^ 63 then (msg.length : Int) else -1) ≠
        badPointer.code := by
      rw [code]
      split <;> omega
    simp only [Bounded, Fits, hok, if_true, some.injEq, forall_eq', hret,
      IsEmpty.forall_iff, and_true, true_and]
    refine ⟨fun h => ?_, fun h i hi => by omega⟩
    by_contra hlong
    exact absurd (h len.toNat (Nat.not_le.mp hlong)).2 (Nat.lt_irrefl _)
  · rw [if_neg hok]
    exact iff_of_false (fun h => htaken (h.2 rfl)) fun h => hok h.1

/-- An outcome that writes what its channel operation has taken, and nothing else. -/
def Delivers (buf : Word) (o : Outcome) : Prop :=
  (o.event = none → o.write = none) ∧ ∀ ev, o.event = some ev → match ev.res.taken with
    | some msg => o = .deliver ev buf msg
    | none => o.write = none ∧ o.ret ≠ some badPointer.code

theorem delivers_fail (err : SysError) : Delivers buf (.fail err) := ⟨fun _ => rfl, nofun⟩

theorem delivers_deliver (h : ev.res.taken = some msg) : Delivers buf (.deliver ev buf msg) := by
  refine ⟨by simp, fun ev' hev => ?_⟩
  rw [event_deliver, some.injEq] at hev
  rw [← hev, h]

theorem delivers_quiet (h : ev.res.taken = none) (hret : ret ≠ some badPointer.code) :
    Delivers buf ⟨ret, some ev, none⟩ := by
  refine ⟨fun _ => rfl, fun ev' hev => ?_⟩
  cases hev
  rw [h]
  exact ⟨rfl, hret⟩

theorem delivers_of_step (hstep : step p k op = some (o, k')) (hbuf : k.bufferOf op = some buf) :
    Delivers buf o := by
  cases op with
  | syscall cpu call =>
    rw [step] at hstep
    split at hstep
    · cases hstep
    cases call with
    | channelReceive ctx h b =>
      cases hbuf
      obtain ⟨rfl, -⟩ := Prod.mk.inj (some.inj hstep)
      split
      · exact delivers_fail _
      dsimp only
      cases ((k.channels _).receive _ _).1 with
      | gotMessage msg sender => exact delivers_deliver rfl
      | closed => exact delivers_quiet rfl (by decide)
      | blocked =>
        dsimp only
        split <;> exact delivers_quiet rfl (by decide)
    | channelCall mem h ptr msgLen b =>
      cases hbuf
      obtain ⟨rfl, -⟩ := Prod.mk.inj (some.inj hstep)
      split
      · exact delivers_fail _
      split
      · exact delivers_fail _
      dsimp only
      cases ((k.channels _).call _ _ _).1 with
      | gotReply answer => exact delivers_deliver rfl
      | closed | blocked => exact delivers_quiet rfl (by decide)
    | _ => cases hbuf
  | poll cpu =>
    obtain ⟨sp, hsp, heq⟩ := map_eq_some_iff.mp hstep
    obtain ⟨rfl, -⟩ := Prod.mk.inj heq
    rw [bufferOf, hsp] at hbuf
    cases hbuf
    cases sp with
    | receive c e task b =>
      dsimp only
      cases ((k.channels c).receive e task).1 with
      | gotMessage msg sender => exact delivers_deliver rfl
      | closed | blocked => exact delivers_quiet rfl (by decide)
    | call c e b =>
      dsimp only
      cases ((k.channels c).checkReply e).1 with
      | gotReply answer => exact delivers_deliver rfl
      | closed | blocked => exact delivers_quiet rfl (by decide)
  | _ => cases hbuf

/-- A receive or a call, or a turn of its waiting, keeps to the buffer and loses no message
    exactly when what it is about to hand over fits. -/
theorem bounded_iff_fits {p : Profile} {k k' : Kernel} {op : Op} {o : Outcome} {buf : Word}
    (hstep : step p k op = some (o, k')) (hbuf : k.bufferOf op = some buf) (len : Word) :
    Bounded buf len k o k' ↔ ∀ msg, k.arriving op = some msg → Fits buf len msg := by
  have hsound := step_sound hstep
  obtain ⟨hquiet, hdeliver⟩ := delivers_of_step hstep hbuf
  have hchannels := hsound.channels
  rw [arriving, ← hsound.event]
  cases hev : o.event with
  | none =>
    rw [hev] at hchannels
    simp [Bounded, hquiet hev, show k'.channels = k.channels from hchannels]
  | some ev =>
    rw [hev] at hchannels
    obtain ⟨ch', hch, hk'⟩ := hchannels
    obtain ⟨htaken, hne⟩ := Channel.taken_of_step hch
    have hout := hdeliver ev hev
    rw [bind_some, ← htaken]
    cases hres : ev.res.taken with
    | none =>
      rw [hres] at hout
      simp [Bounded, hout.1, hout.2]
    | some msg =>
      rw [hres] at hout
      simp only [some.injEq, forall_eq']
      rw [show o = _ from hout, bounded_deliver]
      rw [hk']
      exact update_ne_self_iff.mpr (hne (by simp [hres]))

/-- Task 1 has one end of a channel, task 2 the other. -/
def bootEnds : Kernel :=
  boot [bootTask 1 .running (oneHandle .all (.channelEndA 0)) none,
    bootTask 2 .ready (oneHandle .all (.channelEndB 0)) none]

/-- A receive of the running task, to a buffer at this address. -/
def receiveTo (buf : Word) : Op :=
  .syscall bootCpu (.channelReceive zeroContext (Handle.new 0 .all 0).asU64 buf)

/-- A message of one byte, received into a buffer of one. -/
theorem bounded_oneByte : ∃ tr k o k', Run (step .dev) bootEnds tr k ∧
    step .dev k (receiveTo 0x1000) = some (o, k') ∧ o.write = some ⟨0x1000, [7]⟩ ∧
    Bounded 0x1000 1 k o k' := by
  have hrun : Run (step .dev) bootEnds _ _ := .snoc (.snoc .nil (a := sendOneByte .all) rfl)
    (a := .setCurrent bootCpu 2) rfl
  refine ⟨_, _, _, _, hrun, rfl, by decide, (bounded_iff_fits (show step .dev _
    (receiveTo 0x1000) = _ from rfl) rfl 1).mpr fun msg hmsg => ?_⟩
  obtain rfl : [7] = msg := some.inj hmsg
  exact ⟨by decide, by decide⟩

/-- A message of two bytes overruns a buffer of one, and is lost when the buffer is null. -/
theorem message_overruns_or_lost : ∃ tr k, Run (step .dev) bootEnds tr k ∧
    (∃ o k', step .dev k (receiveTo 0x1000) = some (o, k') ∧ o.write = some ⟨0x1000, [7, 7]⟩ ∧
      ¬ Bounded 0x1000 1 k o k') ∧
    ∃ o k', step .dev k (receiveTo 0) = some (o, k') ∧
      o.ret = some badPointer.code ∧ ((k.channels 0).endOf .b).pendingMsg = some [7, 7] ∧
      ((k'.channels 0).endOf .b).pendingMsg = none := by
  have hrun : Run (step .dev) bootEnds _ _ := .snoc (.snoc .nil
    (a := .syscall bootCpu (.channelSend (fun _ => 7) (Handle.new 0 .all 0).asU64 0x1000 2)) rfl)
    (a := .setCurrent bootCpu 2) rfl
  refine ⟨_, _, hrun, ⟨_, _, rfl, by decide, fun h => ?_⟩, _, _, rfl, by decide, rfl, rfl⟩
  exact absurd (h.1 ⟨0x1000, [7, 7]⟩ (by decide) 1 (by decide)).2 (by decide)

end Kernel

end OpenOS
