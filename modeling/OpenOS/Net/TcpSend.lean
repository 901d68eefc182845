/-
  What becomes of the bytes that `send_data` reported (kernel/src/net/tcp.rs): periodic_tick
  gives a segment up after five attempts, and process_ack drops one whose first byte is the
  one that the peer asks for.
-/

import OpenOS.Net.TcpAccept
import OpenOS.Net.TcpQueue

namespace OpenOS.Net.Tcp.Table

open Function List Base
open BitVec (ofNat ofNat_add add_assoc)

/-! ## What periodic_tick removes -/

/-- The segments in the retransmit queue of a connection. -/
def segments (t : Table) (key : Key) : List (Seq × List Byte) :=
  (t.connections key).elim [] fun conn => conn.retransmitQueue.map fun e => (e.seq, e.data)

/-- The connection is Established, with no error: `send_data` does not fail. -/
def Sends (t : Table) (key : Key) : Prop :=
  ∃ conn, t.connections key = some conn ∧ conn.state = .established ∧ conn.error = none

/-- `periodic_tick` removes a segment only if the connection leaves Established or records an
    error. -/
def Remembers (e : TcpStep) : Prop :=
  ∀ now, e.op = .tick now → ∀ key,
    e.post.segments key = e.pre.segments key ∨ e.pre.Sends key ∧ ¬ e.post.Sends key

/-- No attempt is the last one, and no segment is queued when TIME_WAIT ends. -/
def Spares (now : Nat) (conn : TcpConnection) : Prop :=
  match conn.state with
  | .established => ∀ entry ∈ conn.retransmitQueue,
    entry.attempts + (if due now entry then 1 else 0) < maxRetransmitAttempts
  | .timeWait => timeWaitDurationTicks ≤ now - conn.lastRecvTick → conn.retransmitQueue = []
  | _ => True

instance decidableSpares (now : Nat) (conn : TcpConnection) : Decidable (Spares now conn) := by
  unfold Spares
  split <;> infer_instance

/-- A call of `periodic_tick` finds connections that it spares. -/
def Timely (e : TcpStep) : Prop :=
  ∀ now, e.op = .tick now → ∀ key conn, e.pre.connections key = some conn → Spares now conn

theorem map_filter_map_eq_iff {f : α → β} {g : α → α} {p : α → Bool} {l : List α}
    (hf : ∀ a, f (g a) = f a) : ((l.map g).filter p).map f = l.map f ↔ ∀ a ∈ l, p (g a) := by
  constructor
  · intro h a ha
    have hlen := congrArg length h
    rw [length_map, length_map, ← l.length_map g, length_filter_eq_length_iff] at hlen
    exact hlen _ (mem_map_of_mem ha)
  · intro h
    rw [filter_eq_self.2 (by simpa using h), map_map]
    exact map_congr_left fun a _ => hf a

variable {t : Table}

theorem segments_periodicTick (hconn : t.connections key = some conn) :
    (t.periodicTick now).segments key = t.segments key ↔ Spares now conn := by
  simp only [segments, periodicTick, hconn, tickConnection, Spares, Option.bind_some]
  cases hstate : conn.state <;> simp only [Option.elim_some]
  case established =>
    rw [retransmit, map_filter_map_eq_iff (by intro e; split <;> rfl)]
    refine forall₂_congr fun e _ => ?_
    split <;> simp
  case timeWait =>
    split
    · rename_i h
      exact ⟨fun heq _ => map_eq_nil_iff.1 heq.symm, fun hnil => by rw [hnil h]; rfl⟩
    · rename_i h
      exact iff_of_true rfl fun hle => absurd hle h

/-- A connection that can be sent on stays so: the removed segments are forgotten. -/
theorem sends_periodicTick (h : t.Sends key) : (t.periodicTick now).Sends key := by
  obtain ⟨conn, hconn, hstate, herror⟩ := h
  simp [Sends, periodicTick, hconn, tickConnection, hstate, retransmit, herror]

theorem remembers_step (h : step t op = some (r, t')) :
    Remembers ⟨t, op, r, t'⟩ ↔ Timely ⟨t, op, r, t'⟩ := by
  refine forall₂_congr fun now hop => forall_congr' fun key => ?_
  cases hop
  cases h
  dsimp only
  rw [or_iff_left fun h => h.2 (sends_periodicTick h.1)]
  cases hconn : t.connections key with
  | none => simp [segments, periodicTick, hconn]
  | some conn => simp [segments_periodicTick hconn]

/-! ## What send_data queues -/

/-- The byte with sequence number `x` is in the payload of a queued segment. -/
def Queued (t : Table) (key : Key) (x : Seq) : Prop :=
  ∃ seg ∈ t.segments key, ∃ i < seg.2.length - headerMinSize, seg.1 + ofNat 32 i = x

/-- The packet of the step acknowledges the byte `x`. -/
def Acks (key : Key) (x : Seq) (e : TcpStep) : Prop :=
  ∃ now srcIp dstIp data header payload, e.op = .packet now srcIp dstIp data ∧
    parseTcp data = some (header, payload) ∧ (header.dstPort, srcIp, header.srcPort) = key ∧
    header.has flagAck = true ∧ isSeqBefore x header.ack = true

/-- Each byte that a `send_data` of the run reported is queued, or acknowledged since, or the
    connection was lost since: a `send_data` would have failed. -/
def Accounted (tr : List TcpStep) (t : Table) : Prop :=
  ∀ before e after, tr = before ++ e :: after →
    ∀ now frames key data n conn, e.op = .send now frames key data → e.res = .sent (some n) →
      e.pre.connections key = some conn → (∀ e' ∈ after, e'.post.Sends key) →
      ∀ i < n, t.Queued key (conn.seqNum + ofNat 32 i) ∨
        ∃ e' ∈ after, Acks key (conn.seqNum + ofNat 32 i) e'

/-- An acknowledgement that reaches an established connection covers each queued segment as a
    whole, or lies before its first byte. -/
def AcksWhole (e : TcpStep) : Prop :=
  ∀ now srcIp dstIp data header payload, e.op = .packet now srcIp dstIp data →
    parseTcp data = some (header, payload) → header.has flagAck = true →
    ∀ conn, e.pre.connections (header.dstPort, srcIp, header.srcPort) = some conn →
      conn.state = .established → ∀ entry ∈ conn.retransmitQueue,
        isSeqBefore header.ack entry.seq = true ∨ ∀ i < entry.len, entry.Covered header.ack i

theorem queued_iff {x : Seq} (hconn : t.connections key = some conn) :
    t.Queued key x ↔ ∃ e ∈ conn.retransmitQueue, ∃ i < e.len, e.seq + ofNat 32 i = x := by
  simp [Queued, segments, hconn, RetransmitEntry.len]

theorem length_buildTcp (srcPort dstPort : Port) (seq ack : Seq) (flags : Byte)
    (window : BitVec 16) (payload : List Byte) :
    (buildTcp srcPort dstPort seq ack flags window payload).length =
      headerMinSize + payload.length := by
  simp [buildTcp, be16, be32, headerMinSize]
  omega

/-- The loop appends to the queue segments with all the bytes that it counts. -/
theorem sendFrom_spec (now : Nat → Nat) (key : Key) (frames : Nat) (conn : TcpConnection)
    (data : List Byte) {n : Nat} {conn' : TcpConnection}
    (h : sendFrom now key frames conn data = (n, conn')) :
    conn'.state = conn.state ∧ conn'.error = conn.error ∧
    ∃ new, conn'.retransmitQueue = conn.retransmitQueue ++ new ∧
      ∀ i < n, ∃ e ∈ new, ∃ j < e.len, e.seq + ofNat 32 j = conn.seqNum + ofNat 32 i := by
  induction frames generalizing conn data n with
  | zero =>
    cases h
    exact ⟨rfl, rfl, [], by simp, nofun⟩
  | succ frames ih =>
    rw [sendFrom] at h
    split at h
    · cases h
      exact ⟨rfl, rfl, [], by simp, nofun⟩
    cases h
    obtain ⟨hstate, herror, new, hqueue, hnew⟩ := ih _ _ rfl
    refine ⟨hstate, herror, _ :: new, by rw [hqueue, sendSegment, append_assoc]; rfl, ?_⟩
    intro i hi
    by_cases hfirst : i < (sendSegment (now frames) key conn data).1
    · refine ⟨_, mem_cons_self, i, ?_, rfl⟩
      simp only [sendSegment] at hfirst
      simp only [RetransmitEntry.len, length_buildTcp, length_take]
      omega
    · obtain ⟨e, he, j, hj, hseq⟩ := hnew (i - (sendSegment (now frames) key conn data).1) (by omega)
      refine ⟨e, mem_cons_of_mem _ he, j, hj, hseq.trans ?_⟩
      rw [sendSegment, add_assoc, ← ofNat_add]
      congr 2
      exact Nat.add_sub_cancel' (Nat.not_lt.mp hfirst)

theorem subset_sendFrom (now : Nat → Nat) (key : Key) (frames : Nat) (conn : TcpConnection)
    (data : List Byte) :
    conn.retransmitQueue ⊆ (sendFrom now key frames conn data).2.retransmitQueue := by
  obtain ⟨-, -, new, hqueue, -⟩ := sendFrom_spec now key frames conn data rfl
  rw [hqueue]
  exact subset_append_left _ _

theorem Queued.mono {t' : Table} {x : Seq} (hx : t.Queued key x)
    (hconn : t.connections key = some conn)
    (hconn' : t'.connections key = some conn')
    (hsub : conn.retransmitQueue ⊆ conn'.retransmitQueue) : t'.Queued key x := by
  obtain ⟨entry, hentry, hin⟩ := (queued_iff hconn).mp hx
  exact (queued_iff hconn').mpr ⟨entry, hsub hentry, hin⟩

/-- What an acknowledgement leaves in the queue of an established connection that stays so. -/
theorem queue_handleSegment {header : TcpHeader} (hstate : conn.state = .established)
    (hstays : (handleSegment conn header payload now).state = .established) :
    (handleSegment conn header payload now).retransmitQueue = conn.retransmitQueue.filter
      fun e => !header.has flagAck || isSeqBefore header.ack e.seq := by
  simp only [handleSegment, hstate, handleEstablished] at hstays ⊢
  split at hstays
  · cases hstays
  rw [if_neg ‹_›]
  split at hstays
  · cases hstays
  rw [if_neg ‹_›]
  cases hack : header.has flagAck <;> simp [ackOf, processAck, hack]

/-- A queued byte stays queued in a step after which the connection can be sent on, or is
    acknowledged by it. -/
theorem queued_step {e : TcpStep} {x : Seq} (hs : step e.pre e.op = some (e.res, e.post))
    (htimely : Timely e) (hwhole : AcksWhole e) (hpre : e.pre.Sends key)
    (hpost : e.post.Sends key) (hx : e.pre.Queued key x) :
    e.post.Queued key x ∨ Acks key x e := by
  obtain ⟨t, op, r, t'⟩ := e
  dsimp only at hs hpre hpost hx ⊢
  obtain ⟨conn, hconn, hstate, herror⟩ := hpre
  obtain ⟨conn', hconn', hstate', -⟩ := hpost
  cases op with
  | packet now srcIp dstIp data =>
    cases hs
    rcases connections_handleTcpPacket t key now srcIp data with
      ⟨hsame, -⟩ | ⟨header, payload, hparse, hkey, ⟨c, hc, hnew⟩ | ⟨hnone, -⟩⟩
    · rw [queued_iff (hsame.trans hconn)]
      exact .inl ((queued_iff hconn).mp hx)
    · cases hconn.symm.trans hc
      cases hconn'.symm.trans hnew
      rw [queued_iff hnew, queue_handleSegment hstate hstate']
      obtain ⟨entry, hentry, i, hi, rfl⟩ := (queued_iff hconn).mp hx
      by_cases hkept : !header.has flagAck || isSeqBefore header.ack entry.seq
      · exact .inl ⟨entry, mem_filter.mpr ⟨hentry, hkept⟩, i, hi, rfl⟩
      · -- the entry is dropped, so all its bytes are covered
        simp only [Bool.or_eq_true, Bool.not_eq_true', not_or, Bool.not_eq_false] at hkept
        have hcovered := (hwhole now srcIp dstIp data header payload rfl hparse hkept.1 conn
          (hkey ▸ hconn) hstate entry hentry).resolve_left hkept.2
        exact .inr ⟨now, srcIp, dstIp, data, header, payload, rfl, hparse, hkey, hkept.1,
          hcovered i hi⟩
    · cases hconn.symm.trans hnone
  | close k | send now frames k data | recv k len =>
    cases hs
    refine .inl (hx.mono hconn hconn' ?_)
    by_cases hk : key = k
    · -- a connection that is closed is Established no more
      subst hk
      simp only [close, sendData, recvData, hconn, hstate, herror, setConnection, update_self] at hconn'
      grind [subset_sendFrom]
    · simp only [connections_close hk, connections_sendData hk, connections_recvData hk,
        hconn] at hconn'
      cases hconn'
      exact Subset.refl _
  | tick now =>
    cases hs
    obtain ⟨seg, hseg, hin⟩ := hx
    rw [← (segments_periodicTick hconn).mpr (htimely now rfl key conn hconn)] at hseg
    exact .inl ⟨seg, hseg, hin⟩

/-- A `send_data` that reports bytes leaves all of them queued, on a connection that can be
    sent on. -/
theorem queued_sendData {n : Nat} (hconn : t.connections key = some conn)
    (h : sendData now frames key data t = (some n, t')) :
    t'.Sends key ∧ ∀ i < n, t'.Queued key (conn.seqNum + ofNat 32 i) := by
  rw [sendData, hconn] at h
  dsimp only at h
  split at h
  · cases h
  rename_i herror
  split at h
  · cases h
  rename_i hstate
  cases h
  obtain ⟨hstate', herror', new, hqueue, hnew⟩ := sendFrom_spec now key frames conn data rfl
  refine ⟨⟨_, update_self .., hstate'.trans (not_not.mp hstate), ?_⟩, fun i hi => ?_⟩
  · rw [herror']
    cases he : conn.error with
    | none => rfl
    | some err =>
      cases err
      exact absurd he herror
  · obtain ⟨e, he, hin⟩ := hnew i hi
    refine (queued_iff (update_self ..)).mpr ⟨e, ?_, hin⟩
    rw [hqueue]
    exact mem_append_right _ he

/-- A queued byte along a run in which the connection can always be sent on. -/
theorem queued_of_run {x : Seq} (hrun : Run step t₀ tr t) (hsends : t₀.Sends key)
    (hx : t₀.Queued key x) (hgood : ∀ e ∈ tr, Timely e ∧ AcksWhole e)
    (hstays : ∀ e ∈ tr, e.post.Sends key) : t.Queued key x ∨ ∃ e ∈ tr, Acks key x e := by
  have hinv := hrun.invariant_of_guard
    (I := fun tr t => t.Sends key ∧ (t.Queued key x ∨ ∃ e ∈ tr, Acks key x e))
    (G := fun _ e => (Timely e ∧ AcksWhole e) ∧ e.post.Sends key) ⟨hsends, .inl hx⟩ ?_
    (Run.guard_of_forall_mem fun e he => ⟨hgood e he, hstays e he⟩)
  · exact hinv.2
  rintro tr t op r t' ⟨hpre, hin | ⟨e, he, hack⟩⟩ hs ⟨⟨htimely, hwhole⟩, hpost⟩
  · refine ⟨hpost, (queued_step hs htimely hwhole hpre hpost hin).imp_right fun hack => ?_⟩
    exact ⟨_, mem_append_right _ (mem_singleton_self _), hack⟩
  · exact ⟨hpost, .inr ⟨e, mem_append_left _ he, hack⟩⟩

/-- In every run `periodic_tick` forgets nothing exactly if every call of it is timely; if the
    acknowledgements cover whole segments besides, every byte that `send_data` reported is
    accounted for. -/
theorem remembers_iff {t₀ t : Table} {tr : List TcpStep} (hrun : Run step t₀ tr t) :
    ((∀ e ∈ tr, Remembers e) ↔ ∀ e ∈ tr, Timely e) ∧
      ((∀ e ∈ tr, Timely e ∧ AcksWhole e) → Accounted tr t) := by
  refine ⟨forall₂_congr fun e he => ?_, ?_⟩
  · obtain ⟨-, -, -, hstep⟩ := hrun.of_mem he
    exact remembers_step hstep
  · rintro hgood before ⟨t₁, op, r, t₂⟩ after rfl now frames key data n conn hop
      hres hconn hstays i hi
    cases hop
    cases hres
    obtain ⟨s, -, hfrom⟩ := hrun.of_append
    obtain ⟨-, hs, hafter⟩ := hfrom.of_cons
    simp only [step, Option.some.injEq, Prod.mk.injEq, Res.sent.injEq] at hs
    obtain ⟨hsends, hqueued⟩ := queued_sendData hconn (Prod.ext hs.1 hs.2)
    exact queued_of_run hafter hsends (hqueued i hi)
      (fun e he => hgood e (mem_append_right _ (mem_cons_of_mem _ he))) hstays

/-- One established connection, with nothing sent on it. -/
def idleTable : Table where
  connections key :=
    if key = (1, 2, 3) then some { newConnection 0 1 2 3 with state := .established } else none
  pendingAccept _ := none

/-- `send_data` at tick 0, with a driver that takes every frame. -/
def sendAtStart (data : List Byte) : Op := .send (fun _ => 0) 1 (1, 2, 3) data

/-- The peer acknowledges all bytes before `ack`. -/
def peerAcks (ack : Seq) : Op := .packet 20 2 1 (buildTcp 3 1 0 ack flagAck 65535 [])

/-- Two bytes are sent again at tick 18 and then acknowledged, and a third one is queued. -/
theorem remembers_idle : ∃ tr t, Run step idleTable tr t ∧
    tr.map (·.op) = [sendAtStart [7, 8], .tick 18, peerAcks 1002, sendAtStart [9]] ∧
    (∀ e ∈ tr, Remembers e) ∧ Accounted tr t := by
  suffices hgood : ∃ tr t, Run step idleTable tr t ∧ tr.map (·.op) = _ ∧
      ∀ e ∈ tr, Timely e ∧ AcksWhole e by
    obtain ⟨tr, t, hrun, hops, hgood⟩ := hgood
    obtain ⟨hremembers, haccounted⟩ := remembers_iff hrun
    exact ⟨tr, t, hrun, hops, hremembers.mpr fun e he => (hgood e he).1, haccounted hgood⟩
  refine ⟨_, _, exec_run step idleTable
    [sendAtStart [7, 8], .tick 18, peerAcks 1002, sendAtStart [9]] rfl, rfl, ?_⟩
  simp only [forall_mem_cons]
  refine ⟨⟨nofun, nofun⟩, ⟨?_, nofun⟩, ⟨nofun, ?_⟩, ⟨nofun, nofun⟩, nofun⟩
  · intro now hop key conn hconn
    cases hop
    by_cases hk : key = (1, 2, 3)
    · subst hk
      cases hconn
      decide +kernel
    · rw [connections_sendData hk] at hconn
      cases (if_neg hk).symm.trans hconn
  · intro now srcIp dstIp data header payload hop hparse _ conn hconn _
    cases hop
    cases hparse
    cases hconn
    decide +kernel

/-- The byte that is sent first is neither queued nor acknowledged. -/
theorem not_accounted {e : TcpStep} {after : List TcpStep} (hop : e.op = sendAtStart [7])
    (hres : e.res = .sent (some 1)) (hpre : e.pre = idleTable)
    (hstays : ∀ e' ∈ after, e'.post.Sends (1, 2, 3))
    (hacks : ∀ e' ∈ after, ¬ Acks (1, 2, 3) 1000 e') (hgone : t.segments (1, 2, 3) = []) :
    ¬ Accounted (e :: after) t := by
  intro h
  have hconn : e.pre.connections (1, 2, 3) =
      some { newConnection 0 1 2 3 with state := .established } := by rw [hpre]; rfl
  rcases h [] e after rfl (fun _ => 0) 1 (1, 2, 3) [7] 1 _ hop hres hconn hstays 0 (by decide) with
    ⟨seg, hseg, -⟩ | ⟨e', he', hack⟩
  · rw [hgone] at hseg
    cases hseg
  · exact hacks e' he' hack

/-- The fifth attempt is the last one, and an acknowledgement of nothing takes the byte out of
    the queue too: it is gone, and sending does not fail. -/
theorem sent_byte_forgotten :
    (∃ tr t, Run step idleTable tr t ∧
      tr.map (·.op) = [sendAtStart [7], .tick 18, .tick 36, .tick 54, .tick 72, .tick 90] ∧
      (¬ ∀ e ∈ tr, Remembers e) ∧ ¬ Accounted tr t) ∧
    ∃ tr t, Run step idleTable tr t ∧ tr.map (·.op) = [sendAtStart [7], peerAcks 1000] ∧
      ¬ Accounted tr t := by
  constructor
  · refine ⟨_, _, exec_run step idleTable
      [sendAtStart [7], .tick 18, .tick 36, .tick 54, .tick 72, .tick 90] rfl, rfl, fun h => ?_, ?_⟩
    · rcases h _ (getLast_mem (cons_ne_nil _ _)) 90 rfl (1, 2, 3) with h | h
      · exact absurd h (by decide +kernel)
      · exact h.2 (sends_periodicTick h.1)
    · refine not_accounted rfl rfl rfl ?_ ?_ rfl
      · simp only [forall_mem_cons]
        exact ⟨⟨_, rfl, rfl, rfl⟩, ⟨_, rfl, rfl, rfl⟩, ⟨_, rfl, rfl, rfl⟩, ⟨_, rfl, rfl, rfl⟩,
          ⟨_, rfl, rfl, rfl⟩, nofun⟩
      · simp [Acks]
  · refine ⟨_, _, exec_run step idleTable [sendAtStart [7], peerAcks 1000] rfl, rfl,
      not_accounted rfl rfl rfl ?_ ?_ rfl⟩
    · simp only [forall_mem_cons]
      exact ⟨⟨_, rfl, rfl, rfl⟩, nofun⟩
    · rintro _ (_ | ⟨_, ⟨⟩⟩) ⟨_, _, _, _, _, _, hop, hparse, -, -, hack⟩
      cases hop
      cases hparse
      exact absurd hack (by decide +kernel)

end OpenOS.Net.Tcp.Table
