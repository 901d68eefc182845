/-
  The queues of the network drivers: `send_frame` of the kernel (drivers/virtio.rs and
  drivers/virtio_net.rs), `send_frame` and `recv_frame` of the user-space driver
  (user/net_driver/src/main.rs).

  A descriptor is in the free chain, with the device, or reported and not read.  The
  kernel reads no report of a sent frame; the user-space driver does so at the end of a
  send, which it reaches only when it has found a free descriptor.
-/

import Mathlib.Logic.Function.Basic
import OpenOS.Base.Bytes
import OpenOS.Base.Overwrite
import OpenOS.Base.Run

namespace OpenOS.VirtioNet

open Base Function List Option

def vqSize : Nat := 16

def maxFrameSize : Nat := 1518

def virtioNetHdrSize : Nat := 10

def bufSize : Nat := virtioNetHdrSize + maxFrameSize

structure VringDesc where
  len : Nat
  flags : Nat
  next : Nat

/-- A queue. A ring has a place for each descriptor, so its entries are a list between
    the wrapping indices. -/
structure Virtqueue where
  descriptors : Nat → VringDesc
  buffers : Nat → List Byte
  freeHead : Nat
  numFree : Nat
  /-- Submitted to the device and not reported. -/
  avail : List Nat
  /-- Reported with a length and not read. -/
  used : List (Nat × Nat)

namespace Virtqueue

/-- `alloc_desc`; an index out of bounds panics. -/
def allocDesc (q : Virtqueue) : Option (Option Nat × Virtqueue) :=
  if q.numFree = 0 then some (none, q)
  else if q.freeHead < vqSize then
    some (some q.freeHead,
      { q with freeHead := (q.descriptors q.freeHead).next, numFree := q.numFree - 1 })
  else none

section

variable (q : Virtqueue) (i : Nat)

def freeDesc : Option Virtqueue :=
  if i < vqSize then
    some { q with
      descriptors := update q.descriptors i { q.descriptors i with next := q.freeHead }
      freeHead := i
      numFree := q.numFree + 1 }
  else none

/-- A descriptor is written and submitted. -/
def submit (d : VringDesc) : Virtqueue :=
  { q with descriptors := update q.descriptors i d, avail := q.avail ++ [i] }

/-- A header of zeros and the frame are put in the buffer. -/
def fill (data : List Byte) : Virtqueue :=
  let frame := replicate virtioNetHdrSize 0 ++ data
  { q with buffers := update q.buffers i (overwrite 0 (q.buffers i) 0 frame) }

/-- What both drivers do with a frame that is not too large, if a descriptor is free.
    They leave different links in the descriptor. -/
def transmit (next : Nat) (q : Virtqueue) (data : List Byte) : Option (Option Virtqueue) :=
  q.allocDesc.map fun (i, q') => i.map fun i =>
    (q'.fill i data).submit i ⟨virtioNetHdrSize + data.length, 0, next⟩

/-- The device reports a descriptor that it was given. -/
def report (len : Nat) : Option Virtqueue :=
  if i ∈ q.avail then some { q with avail := q.avail.erase i, used := q.used ++ [(i, len)] }
  else none

/-! ## Where the descriptors are -/

def chain (next : Nat → Nat) : Nat → Nat → List Nat
  | 0, _ => []
  | n + 1, i => i :: chain next n (next i)

/-- The free descriptors, from the head of the chain. -/
def free : List Nat := chain (fun i => (q.descriptors i).next) q.numFree q.freeHead

/-- Each descriptor is in one place. -/
def Inv : Prop := (q.free ++ (q.avail ++ q.used.map Prod.fst)).Perm (range vqSize)

end

variable {q : Virtqueue}

theorem chain_congr (h : ∀ j ∈ chain f n i, f j = g j) : chain f n i = chain g n i := by
  induction n generalizing i with
  | zero => rfl
  | succ n ih =>
    rw [chain, forall_mem_cons] at h
    rw [chain, chain, ih h.2, h.1]

theorem chain_update (h : i ∉ chain (fun j => (q.descriptors j).next) n len) :
    chain (fun j => (update q.descriptors i d j).next) n len =
      chain (fun j => (q.descriptors j).next) n len := by
  refine (chain_congr fun j hj => ?_).symm
  rw [update_of_ne]
  rintro rfl
  exact h hj

@[simp] theorem length_chain (f : Nat → Nat) (n i : Nat) : (chain f n i).length = n := by
  induction n generalizing i with
  | zero => rfl
  | succ n ih => rw [chain, length_cons, ih]

theorem Inv.length (h : q.Inv) : q.numFree + (q.avail.length + q.used.length) = vqSize := by
  simpa [free] using h.length_eq

theorem Inv.lt (h : q.Inv) (hi : i ∈ q.free ++ (q.avail ++ q.used.map Prod.fst)) : i < vqSize :=
  mem_range.mp (h.mem_iff.mp hi)

theorem Inv.transmit (h : q.Inv) (hfree : q.numFree ≠ 0) (next : Nat) (data : List Byte) :
    ∃ q', q.transmit next data = some (some q') ∧ q'.Inv ∧ q'.numFree = q.numFree - 1 ∧
      q'.used = q.used := by
  obtain ⟨n, hn⟩ := Nat.exists_eq_succ_of_ne_zero hfree
  have hchain : q.free = q.freeHead ::
      chain (fun i => (q.descriptors i).next) n (q.descriptors q.freeHead).next := by
    rw [free, hn, chain]
  have hlt : q.freeHead < vqSize := h.lt (by simp [hchain])
  have hnodup := (nodup_append.mp (h.nodup_iff.mpr nodup_range)).1
  rw [hchain] at hnodup
  have hout := (nodup_cons.mp hnodup).1
  have heq : ∃ q' : Virtqueue, q.transmit next data = some (some q') ∧ q' =
      ({ q with freeHead := (q.descriptors q.freeHead).next, numFree := n }.fill q.freeHead
        data).submit q.freeHead ⟨virtioNetHdrSize + data.length, 0, next⟩ := by
    rw [Virtqueue.transmit, allocDesc, if_pos hlt, hn]
    exact ⟨_, rfl, rfl⟩
  obtain ⟨q', heq, rfl⟩ := heq
  refine ⟨_, heq, List.Perm.trans ?_ h, by rw [hn]; rfl, rfl⟩
  rw [hchain]
  simp only [free, submit, fill, chain_update hout]
  simp only [append_assoc, cons_append]
  rw [← append_assoc, ← append_assoc]
  exact perm_middle

theorem Inv.report (h : q.Inv) (hreport : q.report i len = some q') : q'.Inv := by
  obtain ⟨hi, heq⟩ := ite_none_right_eq_some.mp hreport
  cases heq
  refine List.Perm.trans (.append_left _ ?_) h
  have hcons := (perm_cons_erase hi).append_right (q.used.map Prod.fst)
  refine List.Perm.trans ?_ hcons.symm
  rw [map_append, ← append_assoc]
  exact perm_append_singleton ..

theorem numFree_report (hreport : q.report i len = some q') : q'.numFree = q.numFree := by
  obtain ⟨-, heq⟩ := ite_none_right_eq_some.mp hreport
  cases heq
  rfl

/-! ## The kernel driver -/

/-- `send_frame` of the kernel. -/
def kernelSendFrame (q : Virtqueue) (data : List Byte) : Option (Except String Nat × Virtqueue) :=
  if maxFrameSize < data.length then some (.error "frame too large", q)
  else (q.transmit 0xFFFF data).map fun
    | none => (.error "tx queue full", q)
    | some q' => (.ok data.length, q')

inductive KernelOp
  | send (data : List Byte)
  | used (i len : Nat)

def kernelStep : StepFn Virtqueue KernelOp (Option (Except String Nat))
  | q, .send data => (q.kernelSendFrame data).map fun (r, q') => (some r, q')
  | q, .used i len => (q.report i len).map fun q' => (none, q')

/-- `VirtQueue::new` -/
def kernelNew : Virtqueue where
  descriptors i := ⟨0, 0, if i < vqSize - 1 then i + 1 else 0xFFFF⟩
  buffers _ := replicate bufSize 0
  freeHead := 0
  numFree := vqSize
  avail := []
  used := []

abbrev KernelStep := Transition Virtqueue KernelOp (Option (Except String Nat))

/-- The frames handed to `send_frame` that are not too large. -/
def sends (tr : List KernelStep) : Nat :=
  tr.countP fun e =>
    match e.op with
    | .send data => data.length ≤ maxFrameSize
    | .used .. => false

theorem inv_kernelNew : kernelNew.Inv := by
  unfold Inv
  decide

theorem kernelStep_spec (h : q.Inv) (hfree : q.numFree = vqSize - sends tr)
    (hstep : kernelStep q op = some (r, q')) :
    q'.Inv ∧ q'.numFree = vqSize - sends (tr ++ [⟨q, op, r, q'⟩]) := by
  rw [sends, countP_append, countP_singleton]
  change q.numFree = vqSize - tr.countP _ at hfree
  cases op with
  | used i len =>
    obtain ⟨q₁, hreport, heq⟩ := map_eq_some_iff.mp hstep
    cases heq
    rw [numFree_report hreport]
    exact ⟨h.report hreport, by simpa using hfree⟩
  | send data =>
    obtain ⟨⟨r₁, q₁⟩, hsend, heq⟩ := map_eq_some_iff.mp hstep
    cases heq
    rw [kernelSendFrame] at hsend
    split at hsend
    · rename_i hlarge
      cases hsend
      simpa [h, Nat.not_le.mpr hlarge] using hfree
    · rename_i hfits
      rw [if_pos (by simpa using hfits)]
      by_cases hnone : q.numFree = 0
      · rw [Virtqueue.transmit, allocDesc, if_pos hnone] at hsend
        cases hsend
        exact ⟨h, by omega⟩
      · obtain ⟨q₂, heq, hinv, hnum, -⟩ := h.transmit hnone 0xFFFF data
        rw [heq] at hsend
        cases hsend
        exact ⟨hinv, by omega⟩

/-- Every descriptor is free or submitted; and a device that has reported all of them helps
    the next send exactly when fewer than `vqSize` frames were sent before. -/
theorem kernelSendFrame_iff {tr : List KernelStep} (hrun : Run kernelStep kernelNew tr q) :
    q.numFree + (q.avail.length + q.used.length) = vqSize ∧
      ((q.avail = [] → ∀ data : List Byte, data.length ≤ maxFrameSize →
          ∃ q', q.kernelSendFrame data = some (.ok data.length, q')) ↔
        (q.avail = [] → sends tr < vqSize)) := by
  obtain ⟨hinv, hnum⟩ := Run.invariant
    (I := fun tr q => Inv q ∧ q.numFree = vqSize - sends tr) ⟨inv_kernelNew, rfl⟩
    (fun _ _ _ _ _ h hstep => kernelStep_spec h.1 h.2 hstep) hrun
  refine ⟨hinv.length, forall_congr' fun _ => ⟨fun hsend => ?_, fun hfew data hlen => ?_⟩⟩
  · obtain ⟨q', heq⟩ := hsend [] (Nat.zero_le _)
    by_contra hmany
    rw [kernelSendFrame, if_neg (by decide), transmit, allocDesc, if_pos (by omega)] at heq
    cases heq
  · obtain ⟨q', heq, -⟩ := hinv.transmit (by omega) 0xFFFF data
    refine ⟨q', ?_⟩
    rw [kernelSendFrame, if_neg (Nat.not_lt.mpr hlen), heq]
    rfl

/-- One frame is sent and reported. -/
theorem kernelSendFrame_second : ∃ tr q, Run kernelStep kernelNew tr q ∧ q.avail = [] ∧
    sends tr < vqSize ∧ ∃ q', q.kernelSendFrame [1] = some (.ok 1, q') := by
  have hrun : Run kernelStep kernelNew _ _ := .snoc (.snoc .nil (a := .send [0]) rfl)
    (a := .used 0 0) rfl
  exact ⟨_, _, hrun, rfl, by decide, ((kernelSendFrame_iff hrun).2.mpr fun _ => by decide) rfl [1]
    (by decide)⟩

/-- All of sixteen frames are reported, and the next one is refused. -/
theorem kernel_queue_starved : ∃ tr q, Run kernelStep kernelNew tr q ∧ q.avail = [] ∧
    (q.kernelSendFrame [1]).map Prod.fst = some (.error "tx queue full") := by
  have hexec : ((exec kernelStep kernelNew (replicate vqSize (.send [0]) ++
      (range vqSize).map fun i => .used i 0)).map fun e =>
        (e.2.avail, (e.2.kernelSendFrame [1]).map Prod.fst)) =
      some ([], some (.error "tx queue full")) := rfl
  obtain ⟨tr, q, hrun, heq⟩ := run_of_exec hexec
  exact ⟨tr, q, hrun, Prod.mk.inj heq⟩

/-! ## The user-space driver -/

/-- The loop of `reclaim_used`. -/
def reclaimFrom : List (Nat × Nat) → Virtqueue → Option Virtqueue
  | [], q => some q
  | u :: us, q => ({ q with used := us }.freeDesc u.1).bind (reclaimFrom us)

def reclaimUsed (q : Virtqueue) : Option Virtqueue := reclaimFrom q.used q

/-- `send_frame`; the error of the source has no text. -/
def sendFrame (q : Virtqueue) (data : List Byte) : Option (Option Nat × Virtqueue) :=
  if maxFrameSize < data.length then some (none, q)
  else (q.transmit 0 data).bind fun
    | none => some (none, q)
    | some q' => q'.reclaimUsed.map fun q'' => (some data.length, q'')

/-- `recv_frame`: the bytes of the frame, if there is one.  The descriptor is submitted
    again, with VRING_DESC_F_WRITE. -/
def recvFrame (q : Virtqueue) : Option (Option (List Byte) × Virtqueue) :=
  match q.used with
  | [] => some (none, q)
  | (i, len) :: us =>
    let q' := { q with used := us }.submit i ⟨bufSize, 2, 0⟩
    if virtioNetHdrSize < len then
      -- the slices of the buffer and of the result end at the reported length
      if i < vqSize ∧ len ≤ bufSize then
        some (some (((q.buffers i).take len).drop virtioNetHdrSize), q')
      else none
    else if i < vqSize then some (none, q') else none

theorem Inv.reclaimFrom (h : q.Inv) (hus : q.used = us) :
    ∃ q', Virtqueue.reclaimFrom us q = some q' ∧ q'.Inv ∧ q'.numFree = q.numFree + us.length := by
  induction us generalizing q with
  | nil => exact ⟨q, rfl, h, rfl⟩
  | cons u us ih =>
    have hlt : u.1 < vqSize := h.lt (by simp [hus])
    have hout : u.1 ∉ q.free := fun hmem =>
      (nodup_append.mp (h.nodup_iff.mpr nodup_range)).2.2 _ hmem _ (by simp [hus]) rfl
    have hinv : Inv { q with
        descriptors := update q.descriptors u.1 { q.descriptors u.1 with next := q.freeHead }
        freeHead := u.1, numFree := q.numFree + 1, used := us } := by
      refine List.Perm.trans ?_ h
      simp only [free, chain, update_self, chain_update hout, hus]
      rw [← append_assoc, ← append_assoc]
      exact perm_middle.symm
    obtain ⟨q', heq, hinv', hnum⟩ := ih hinv rfl
    refine ⟨q', ?_, hinv', ?_⟩
    · rw [Virtqueue.reclaimFrom, freeDesc, if_pos hlt]
      exact heq
    · rw [hnum, length_cons, Nat.add_assoc, Nat.add_comm 1]

theorem Inv.sendFrame (h : q.Inv) (hfree : q.numFree ≠ 0) (hlen : data.length ≤ maxFrameSize) :
    ∃ q', q.sendFrame data = some (some data.length, q') ∧ q'.Inv ∧
      q'.numFree = q.numFree - 1 + q.used.length := by
  obtain ⟨q₁, htransmit, hinv₁, hnum₁, hused⟩ := h.transmit hfree 0 data
  obtain ⟨q₂, hreclaim, hinv₂, hnum₂⟩ := hinv₁.reclaimFrom rfl
  refine ⟨q₂, ?_, hinv₂, by rw [hnum₂, hnum₁, hused]⟩
  rw [Virtqueue.sendFrame, if_neg (Nat.not_lt.mpr hlen), htransmit]
  exact congrArg (Option.map fun q => (some data.length, q)) hreclaim

/-- The reports are of descriptors of the queue, and of lengths within a buffer. -/
def Readable (q : Virtqueue) : Prop :=
  (∀ i ∈ q.avail, i < vqSize) ∧ ∀ u ∈ q.used, u.1 < vqSize ∧ u.2 ≤ bufSize

theorem Readable.recvFrame (h : q.Readable) : ∃ r q', q.recvFrame = some (r, q') ∧ q'.Readable := by
  unfold Virtqueue.recvFrame
  split
  · exact ⟨none, q, rfl, h⟩
  · rename_i i len us hused
    obtain ⟨⟨hi, hlen⟩, hus⟩ := forall_mem_cons.mp (hused ▸ h.2)
    have hpost : ({ q with used := us }.submit i ⟨bufSize, 2, 0⟩).Readable := by
      refine ⟨?_, hus⟩
      rw [submit, forall_mem_append, forall_mem_singleton]
      exact ⟨h.1, hi⟩
    split
    · rw [if_pos ⟨hi, hlen⟩]
      exact ⟨_, _, rfl, hpost⟩
    · exact ⟨_, _, rfl, hpost⟩

end Virtqueue

open Virtqueue

structure NetDriver where
  txQueue : Virtqueue
  rxQueue : Virtqueue

inductive Op
  | send (data : List Byte)
  | recv
  | txUsed (i len : Nat)
  /-- The device writes into the buffer before it reports it. -/
  | rxUsed (i len : Nat) (buffer : List Byte)

inductive Res
  | sent (n : Option Nat)
  | received (frame : Option (List Byte))
  | reported

def step : StepFn NetDriver Op Res
  | s, .send data => (s.txQueue.sendFrame data).map fun (r, q) => (.sent r, { s with txQueue := q })
  | s, .recv => s.rxQueue.recvFrame.map fun (r, q) => (.received r, { s with rxQueue := q })
  | s, .txUsed i len => (s.txQueue.report i len).map fun q => (.reported, { s with txQueue := q })
  | s, .rxUsed i len buffer => (s.rxQueue.report i len).map fun q =>
    (.reported, { s with rxQueue := { q with buffers := update q.buffers i buffer } })

/-- `init_descriptors` for sending; all descriptors are submitted for receiving. -/
def initial : NetDriver :=
  let queue : Virtqueue := { kernelNew with descriptors := fun i => ⟨bufSize, 0, (i + 1) % vqSize⟩ }
  ⟨queue, { queue with
    descriptors := fun i => ⟨bufSize, 2, (i + 1) % vqSize⟩, avail := range vqSize }⟩

/-- When all frames are reported the next one is sent, and a receive returns. -/
def Works (s : NetDriver) : Prop :=
  (s.txQueue.avail = [] → ∀ data : List Byte, data.length ≤ maxFrameSize →
    ∃ q, s.txQueue.sendFrame data = some (some data.length, q)) ∧ s.rxQueue.recvFrame ≠ none

/-- A send that takes the last free descriptor finds a report to read, and the device
    reports no more bytes than a buffer has. -/
def Timely (e : Transition NetDriver Op Res) : Prop :=
  match e.op with
  | .send _ => e.pre.txQueue.numFree = 1 → e.pre.txQueue.used ≠ []
  | .rxUsed _ len _ => len ≤ bufSize
  | _ => True

structure Ready (s : NetDriver) : Prop where
  tx : s.txQueue.Inv
  free : s.txQueue.numFree ≠ 0
  rx : s.rxQueue.Readable

theorem ready_step (h : Ready s) (hstep : step s op = some (r, s'))
    (htimely : Timely ⟨s, op, r, s'⟩) : Ready s' := by
  cases op with
  | send data =>
    obtain ⟨⟨r₁, q⟩, hsend, heq⟩ := map_eq_some_iff.mp hstep
    cases heq
    by_cases hlen : data.length ≤ maxFrameSize
    · obtain ⟨q', heq, hinv, hnum⟩ := h.tx.sendFrame h.free hlen
      cases hsend.symm.trans heq
      refine ⟨hinv, ?_, h.rx⟩
      have hfree := h.free
      have hused : s.txQueue.numFree = 1 → s.txQueue.used.length ≠ 0 := fun hone hzero =>
        htimely hone (length_eq_zero_iff.mp hzero)
      show q.numFree ≠ 0
      omega
    · rw [sendFrame, if_pos (Nat.not_le.mp hlen)] at hsend
      cases hsend
      exact h
  | recv =>
    obtain ⟨⟨r₁, q⟩, hrecv, heq⟩ := map_eq_some_iff.mp hstep
    cases heq
    obtain ⟨r₂, q', heq, hrx⟩ := h.rx.recvFrame
    cases hrecv.symm.trans heq
    exact ⟨h.tx, h.free, hrx⟩
  | txUsed i len =>
    obtain ⟨q, hreport, heq⟩ := map_eq_some_iff.mp hstep
    cases heq
    exact ⟨h.tx.report hreport, by rw [numFree_report hreport]; exact h.free, h.rx⟩
  | rxUsed i len buffer =>
    obtain ⟨q, hreport, heq⟩ := map_eq_some_iff.mp hstep
    cases heq
    obtain ⟨hi, heq⟩ := ite_none_right_eq_some.mp hreport
    cases heq
    refine ⟨h.tx, h.free, fun j hj => h.rx.1 j (mem_of_mem_erase hj), ?_⟩
    rw [forall_mem_append, forall_mem_singleton]
    exact ⟨h.rx.2, h.rx.1 i hi, htimely⟩

/-- In every run in which reports are timely and fit, the driver goes on working. -/
theorem works_of_run {tr : List (Transition NetDriver Op Res)} {s : NetDriver}
    (hrun : Run step initial tr s) (htimely : ∀ e ∈ tr, Timely e) : Works s := by
  have hinit : Ready initial := by
    refine ⟨?_, by decide, fun i hi => mem_range.mp hi, nofun⟩
    unfold Virtqueue.Inv
    decide
  have hready : Ready s := Run.invariant_of_guard
    hinit (fun _ _ _ _ _ h hs ht => ready_step h hs ht) hrun
    (Run.guard_of_forall_mem htimely)
  refine ⟨fun _ data hlen => ?_, ?_⟩
  · obtain ⟨q, heq, -⟩ := hready.tx.sendFrame hready.free hlen
    exact ⟨q, heq⟩
  · obtain ⟨r, q, heq, -⟩ := hready.rx.recvFrame
    rw [heq]
    exact some_ne_none _

/-- A frame is sent and reported, and one is received. -/
theorem works_send_recv : ∃ tr s, Run step initial tr s ∧ Works s ∧ s.txQueue.avail = [] ∧
    (tr.map Transition.res).getLast? = some (.received (some [1])) := by
  have hrun : Run step initial _ _ := .snoc (.snoc (.snoc (.snoc .nil (a := .send [1]) rfl)
    (a := .txUsed 0 0) rfl) (a := .rxUsed 0 11 (replicate 10 0 ++ [1])) rfl) (a := .recv) rfl
  refine ⟨_, _, hrun, works_of_run hrun ?_, rfl, rfl⟩
  simp only [nil_append, cons_append, forall_mem_cons, not_mem_nil,
    IsEmpty.forall_iff, implies_true, and_true]
  exact ⟨fun h => absurd h (by decide), trivial, show 11 ≤ bufSize by decide, trivial⟩

/-- After sixteen frames sent before the first is reported none is sent any more. A
    report of more bytes than a buffer has makes the receive panic. -/
theorem driver_wedged : (∃ tr s, Run step initial tr s ∧ s.txQueue.avail = [] ∧
      s.txQueue.sendFrame [1] = some (none, s.txQueue)) ∧
    ∃ tr s, Run step initial tr s ∧ s.rxQueue.recvFrame = none := by
  constructor
  · have hexec : ((exec step initial (replicate vqSize (.send [1]) ++
        (range vqSize).map fun i => .txUsed i 0)).map fun e =>
          (e.2.txQueue.avail, decide (e.2.txQueue.numFree = 0))) = some ([], true) := rfl
    obtain ⟨tr, s, hrun, heq⟩ := run_of_exec hexec
    obtain ⟨havail, hfree⟩ := Prod.mk.inj heq
    refine ⟨tr, s, hrun, havail, ?_⟩
    rw [sendFrame, transmit, allocDesc, if_pos (of_decide_eq_true hfree)]
    rfl
  · have hrun : Run step initial _ _ := .snoc .nil (a := .rxUsed 0 (bufSize + 1) []) rfl
    exact ⟨_, _, hrun, rfl⟩

end OpenOS.VirtioNet
