/-
  Segments that a connection should not accept: a wrong checksum, a RST outside the
  receive window, an acknowledgement of data that was never sent.

  `handle_tcp_packet` checks none of the three.  What it leaves unchanged is told by
  the flags, and `Ignored` says which segments that is in each state.
-/

import OpenOS.Net.Tcp

namespace OpenOS.Net.Tcp

open Base Function List

/-- State, sequence numbers, windows, retransmit queue and receive buffer are as before. -/
def Unchanged (c c' : TcpConnection) : Prop :=
  c'.state = c.state ∧ c'.seqNum = c.seqNum ∧ c'.ackNum = c.ackNum ∧
    c'.recvWindow = c.recvWindow ∧ c'.sendWindow = c.sendWindow ∧ c'.cwnd = c.cwnd ∧
    c'.retransmitQueue = c.retransmitQueue ∧ c'.recvBuffer = c.recvBuffer

theorem Unchanged.refl (c : TcpConnection) : Unchanged c c :=
  ⟨rfl, rfl, rfl, rfl, rfl, rfl, rfl, rfl⟩

/-- The first sequence number not sent yet; `connect` does not count its SYN. -/
def sndNxt (c : TcpConnection) : Seq := if c.state = .synSent then c.seqNum + 1 else c.seqNum

/-- The segment must not be accepted. -/
def Unacceptable (c : TcpConnection) (srcIp dstIp : Ip) (data : List Byte) : Prop :=
  tcpChecksum .release srcIp dstIp data ≠ some 0 ∨
    ∃ header payload, parseTcp data = some (header, payload) ∧
      ((header.has flagRst = true ∧ c.recvWindow.toNat ≤ (header.seq - c.ackNum).toNat) ∨
        (header.has flagAck = true ∧ isSeqBefore (sndNxt c) header.ack = true))

instance decidableUnacceptable (c : TcpConnection) (srcIp dstIp : Ip) (data : List Byte) :
    Decidable (Unacceptable c srcIp dstIp data) :=
  decidable_of_iff (tcpChecksum .release srcIp dstIp data ≠ some 0 ∨
      ∃ q ∈ parseTcp data, (q.1.has flagRst = true ∧
        c.recvWindow.toNat ≤ (q.1.seq - c.ackNum).toNat) ∨
        (q.1.has flagAck = true ∧ isSeqBefore (sndNxt c) q.1.ack = true))
    (or_congr_right ⟨fun ⟨q, hq, h⟩ => ⟨q.1, q.2, hq, h⟩, fun ⟨h, pl, hq, hor⟩ => ⟨(h, pl), hq, hor⟩⟩)

/-! ## What is ignored -/

/-- The segment has no acknowledgement, or one of nothing in the queue. -/
def AcksNothing (c : TcpConnection) (header : TcpHeader) : Prop :=
  header.has flagAck = true → ∀ entry ∈ c.retransmitQueue, isSeqBefore header.ack entry.seq = true

/-- The segments that each state ignores. -/
def Ignored (c : TcpConnection) (header : TcpHeader) (payload : List Byte) : Prop :=
  match c.state with
  | .closed => True
  | .synSent => if header.isSynAck then header.ack ≠ c.seqNum + 1 else header.has flagRst = false
  | .synReceived => if header.has flagAck then header.ack ≠ c.seqNum else header.has flagRst = false
  | .established => header.has flagRst = false ∧ header.has flagFin = false ∧ payload = [] ∧
      header.window = c.sendWindow ∧ AcksNothing c header
  | .finWait1 => header.has flagRst = false ∧ header.has flagFin = false ∧ header.has flagAck = false
  | .finWait2 => header.has flagRst = false ∧ header.has flagFin = false
  | .closeWait => header.has flagRst = false ∧ AcksNothing c header
  | .lastAck => header.has flagRst = false ∧ header.has flagAck = false
  | .closing => header.has flagRst = false ∧ header.has flagAck = false
  | .timeWait => header.has flagRst = false

section

variable {header : TcpHeader}

theorem queue_processAck (ack : Seq) : (processAck c ack).retransmitQueue = c.retransmitQueue ↔
    ∀ entry ∈ c.retransmitQueue, isSeqBefore ack entry.seq = true :=
  filter_eq_self

/-- The acknowledgement changes the queue or nothing. -/
theorem unchanged_ackOf_iff : Unchanged c (ackOf c header) ↔ AcksNothing c header := by
  unfold ackOf AcksNothing
  by_cases hack : header.has flagAck = true
  · rw [if_pos hack, forall_prop_of_true hack, ← queue_processAck]
    refine ⟨fun h => h.2.2.2.2.2.2.1, fun hqueue => ⟨rfl, rfl, rfl, rfl, rfl, ?_, hqueue, rfl⟩⟩
    show (if _ then _ else _) = _
    rw [if_neg]
    exact fun hlt => absurd (congrArg length hqueue) (Nat.ne_of_lt hlt)
  · rw [if_neg hack, forall_prop_of_false hack]
    exact iff_of_true (Unchanged.refl c) trivial

/-- process_ack does not read the two fields that are set before it. -/
theorem ackOf_heard (now : Nat) (window : BitVec 16) :
    ackOf { c with lastRecvTick := now, sendWindow := window } header =
      { ackOf c header with lastRecvTick := now, sendWindow := window } := by
  unfold ackOf
  split <;> rfl

theorem not_unchanged_of_state (h : c'.state ≠ c.state) : ¬ Unchanged c c' :=
  fun hu => h hu.1

/-- A RST ends every state but Closed. -/
theorem unchanged_reset_iff (hstate : c.state ≠ .closed) :
    Unchanged c (if header.has flagRst then handleReset c else x) ↔
      header.has flagRst = false ∧ Unchanged c x := by
  by_cases hrst : header.has flagRst = true
  · rw [if_pos hrst]
    exact iff_of_false (not_unchanged_of_state fun heq => hstate heq.symm) fun h => by simp [hrst] at h
  · rw [if_neg hrst, and_iff_right (Bool.eq_false_of_not_eq_true hrst)]

/-- A branch that leaves the state must not be taken. -/
theorem unchanged_branch_iff [Decidable P] (hx : x.state ≠ c.state) :
    Unchanged c (if P then x else y) ↔ ¬ P ∧ Unchanged c y := by
  split
  · rename_i hP
    exact iff_of_false (not_unchanged_of_state hx) fun h => h.1 hP
  · rename_i hP
    exact (and_iff_right hP).symm

theorem unchanged_established_iff (hstate : c.state = .established) (now : Nat) :
    Unchanged c (handleEstablished c header payload now) ↔ header.has flagRst = false ∧
      header.has flagFin = false ∧ payload = [] ∧ header.window = c.sendWindow ∧
      AcksNothing c header := by
  have hclosed : c.state ≠ .closed := by simp [hstate]
  unfold handleEstablished
  rw [unchanged_reset_iff hclosed, ackOf_heard, unchanged_branch_iff (by simp [hstate]),
    Bool.not_eq_true, ← unchanged_ackOf_iff]
  refine and_congr_right fun _ => and_congr_right fun _ => ?_
  unfold Unchanged
  simp only [state_ackOf, seqNum_ackOf, ackNum_ackOf, recvWindow_ackOf, sendWindow_ackOf,
    recvBuffer_ackOf, append_right_eq_self, true_and, and_true]
  constructor
  · rintro ⟨-, hwindow, hcwnd, hqueue, hpayload⟩
    exact ⟨hpayload, hwindow, hcwnd, hqueue⟩
  · rintro ⟨rfl, hwindow, hcwnd, hqueue⟩
    exact ⟨BitVec.add_zero _, hwindow, hcwnd, hqueue, rfl⟩

/-- A segment changes nothing exactly if its state ignores it. -/
theorem unchanged_iff (now : Nat) :
    Unchanged c (handleSegment c header payload now) ↔ Ignored c header payload := by
  have hself := iff_true_intro (Unchanged.refl c)
  unfold handleSegment Ignored
  cases hstate : c.state with
  | closed => exact hself
  | synSent =>
    dsimp only
    unfold handleSynSent
    split
    · rw [ite_not, unchanged_branch_iff (by simp [hstate]), and_iff_left (Unchanged.refl c)]
    · rw [unchanged_reset_iff (by simp [hstate]), and_iff_left (Unchanged.refl c)]
  | synReceived =>
    dsimp only
    unfold handleSynReceived
    split
    · rw [unchanged_branch_iff (by simp [hstate]), and_iff_left (Unchanged.refl c)]
    · rw [unchanged_reset_iff (by simp [hstate]), and_iff_left (Unchanged.refl c)]
  | established => exact unchanged_established_iff hstate now
  | finWait1 =>
    unfold handleFinWait1
    rw [unchanged_reset_iff (by simp [hstate]), unchanged_branch_iff (by split <;> simp [hstate]),
      unchanged_branch_iff (by simp [hstate]), Bool.not_eq_true, Bool.not_eq_true]
    refine and_congr_right fun _ => and_congr_right fun _ => and_iff_left_of_imp fun hack => ?_
    exact unchanged_ackOf_iff.mpr fun h => absurd h (by simp [hack])
  | finWait2 =>
    rw [handleFinWait2, unchanged_reset_iff (by simp [hstate]),
      unchanged_branch_iff (by simp [hstate]), and_iff_left (Unchanged.refl c), Bool.not_eq_true]
  | closeWait =>
    rw [handleCloseWait, unchanged_reset_iff (by simp [hstate]), unchanged_ackOf_iff]
  | lastAck =>
    rw [handleLastAck, endsOnAck, unchanged_reset_iff (by simp [hstate]),
      unchanged_branch_iff (by simp [hstate]), and_iff_left (Unchanged.refl c), Bool.not_eq_true]
  | timeWait =>
    rw [unchanged_reset_iff (by simp [hstate]), and_iff_left (Unchanged.refl c)]
  | closing =>
    rw [handleClosing, endsOnAck, unchanged_reset_iff (by simp [hstate]),
      unchanged_branch_iff (by simp [hstate]), and_iff_left (Unchanged.refl c), Bool.not_eq_true]

end

/-! ## Packets -/

/-- The packet is no segment, or for another connection, or its state ignores it. -/
def IgnoredAt (key : Key) (c : TcpConnection) (srcIp : Ip) (data : List Byte) : Prop :=
  ∀ header payload, parseTcp data = some (header, payload) →
    (header.dstPort, srcIp, header.srcPort) = key → Ignored c header payload

namespace Table

/-- What a packet does at one key: nothing, or a segment reaches its connection, or a
    SYN makes one. -/
theorem connections_handleTcpPacket (t : Table) (key : Key) (now : Nat) (srcIp : Ip)
    (data : List Byte) :
    ((t.handleTcpPacket now srcIp data).connections key = t.connections key ∧
      (t.connections key = none ∨ ∀ header payload, parseTcp data = some (header, payload) →
        (header.dstPort, srcIp, header.srcPort) ≠ key)) ∨
    ∃ header payload, parseTcp data = some (header, payload) ∧
      (header.dstPort, srcIp, header.srcPort) = key ∧
      ((∃ c, t.connections key = some c ∧ (t.handleTcpPacket now srcIp data).connections key =
          some (handleSegment c header payload now)) ∨
        (t.connections key = none ∧ header.has flagSyn = true ∧
          (t.handleTcpPacket now srcIp data).connections key =
            some (passiveConnection now header.dstPort srcIp header.srcPort header.seq))) := by
  unfold handleTcpPacket
  cases hparse : parseTcp data with
  | none => exact .inl ⟨rfl, .inr nofun⟩
  | some parsed =>
    obtain ⟨header, payload⟩ := parsed
    dsimp only
    by_cases hkey : (header.dstPort, srcIp, header.srcPort) = key
    · rw [hkey]
      cases hc : t.connections key with
      | some c => exact .inr ⟨header, payload, rfl, hkey, .inl ⟨c, rfl, update_self ..⟩⟩
      | none =>
        dsimp only
        split
        · exact .inl ⟨hc, .inl rfl⟩
        split
        · rename_i hsyn
          rw [Bool.and_eq_true] at hsyn
          split
          · exact .inl ⟨hc, .inl rfl⟩
          · exact .inr ⟨header, payload, rfl, hkey, .inr ⟨rfl, hsyn.1, update_self ..⟩⟩
        · exact .inl ⟨hc, .inl rfl⟩
    · have hother : ∀ v, update t.connections (header.dstPort, srcIp, header.srcPort) v key =
          t.connections key := fun v => update_of_ne (fun h => hkey h.symm) _ _
      refine .inl ⟨?_, .inr fun _ _ h => ?_⟩
      · split
        · exact hother _
        split
        · rfl
        split
        · split
          · rfl
          · exact hother _
        · rfl
      · cases h
        exact hkey

/-- An unacceptable segment has no effect exactly if it is one that is ignored anyway. -/
theorem unacceptable_unchanged_iff {t : Table} {key : Key} {c : TcpConnection}
    (hc : t.connections key = some c) (now : Nat) (srcIp dstIp : Ip) (data : List Byte) :
    (Unacceptable c srcIp dstIp data →
        ∃ c', (t.handleTcpPacket now srcIp data).connections key = some c' ∧ Unchanged c c') ↔
      (Unacceptable c srcIp dstIp data → IgnoredAt key c srcIp data) := by
  refine imp_congr_right fun _ => ?_
  rcases connections_handleTcpPacket t key now srcIp data with
    ⟨hsame, hother⟩ | ⟨header, payload, hparse, hkey, ⟨c', hc', hnew⟩ | ⟨hnone, -⟩⟩
  · refine iff_of_true ⟨c, hsame.trans hc, Unchanged.refl c⟩ fun header payload hparse hkey => ?_
    rcases hother with hnone | hne
    · cases hc.symm.trans hnone
    · exact absurd hkey (hne header payload hparse)
  · cases hc.symm.trans hc'
    rw [hnew]
    simp only [Option.some_inj, exists_eq_left', unchanged_iff]
    constructor
    · intro hignored header' payload' hparse' _
      rw [hparse] at hparse'
      cases hparse'
      exact hignored
    · exact fun hignored => hignored header payload hparse hkey
  · cases hc.symm.trans hnone

/-! ### An established connection -/

def sampleKey : Key := (4000, 0x0A000002, 80)

/-- Ten bytes are sent and not acknowledged. -/
def sampleConnection : TcpConnection :=
  { newConnection 0 4000 0x0A000002 80 with
    state := .established, seqNum := 1011, ackNum := 501
    retransmitQueue := [⟨1001, buildTcp 4000 80 1001 501 flagAck 65535 (replicate 10 0),
      0x0A000002, 0, 0⟩] }

def sampleTable : Table :=
  ⟨fun key => if key = sampleKey then some sampleConnection else none, fun _ => none⟩

/-- The segment with its checksum, as `build_tcp_ip_packet` writes it. -/
def withChecksum (srcIp dstIp : Ip) (segment : List Byte) : List Byte :=
  match tcpChecksum .release srcIp dstIp segment with
  | some sum => segment.take 16 ++ be16 sum ++ segment.drop 18
  | none => segment

/-- A segment from the peer of the sample connection. -/
def fromPeer (seq ack : Seq) (flags : Byte) (payload : List Byte) : List Byte :=
  buildTcp 80 4000 seq ack flags 65535 payload

/-- A segment without flags and data has no effect, whatever its checksum is. -/
theorem unchanged_empty_segment :
    ∃ c', (sampleTable.handleTcpPacket 5 0x0A000002 (fromPeer 501 0 0 [])).connections sampleKey =
      some c' ∧ Unchanged sampleConnection c' :=
  (unacceptable_unchanged_iff rfl 5 0x0A000002 0x0A00020F
    (fromPeer 501 0 0 [])).mpr
    (fun _ header payload hparse _ => by
      cases hparse
      exact ⟨by decide, by decide, by decide, by decide, fun h => absurd h (by decide)⟩)
    (.inl (by decide +kernel))

/-- Data with a wrong checksum, a RST far outside the window and an acknowledgement
    of bytes that were not sent, each with effect. -/
theorem unacceptable_segments_change :
    (Unacceptable sampleConnection 0x0A000002 0x0A00020F (fromPeer 501 1001 flagAck [7]) ∧
      ((sampleTable.handleTcpPacket 5 0x0A000002 (fromPeer 501 1001 flagAck [7])).connections
        sampleKey).map (·.recvBuffer) = some [7]) ∧
    (Unacceptable sampleConnection 0x0A000002 0x0A00020F
        (withChecksum 0x0A000002 0x0A00020F (fromPeer 100 0 flagRst [])) ∧
      ((sampleTable.handleTcpPacket 5 0x0A000002
        (withChecksum 0x0A000002 0x0A00020F (fromPeer 100 0 flagRst []))).connections
        sampleKey).map (·.state) = some .closed) ∧
    Unacceptable sampleConnection 0x0A000002 0x0A00020F
        (withChecksum 0x0A000002 0x0A00020F (fromPeer 501 2000 flagAck [])) ∧
      ((sampleTable.handleTcpPacket 5 0x0A000002
        (withChecksum 0x0A000002 0x0A00020F (fromPeer 501 2000 flagAck []))).connections
        sampleKey).map (·.retransmitQueue) = some [] := by
  decide +kernel

-- a call on one key leaves the connections of the others

theorem connections_close {k : Key} (hk : key ≠ k) :
    (close k t).2.connections key = t.connections key := by
  unfold close
  repeat' split
  all_goals simp [setConnection, hk]

theorem connections_sendData {k : Key} (hk : key ≠ k) :
    (sendData now frames k data t).2.connections key = t.connections key := by
  fun_cases sendData now frames k data t <;> simp [setConnection, hk]

theorem connections_recvData {k : Key} (hk : key ≠ k) :
    (recvData k len t).2.connections key = t.connections key := by
  fun_cases recvData k len t <;> simp [setConnection, hk]

/-! ### A closed connection -/

theorem closed_step (hclosed : c.state = .closed) (hc : t.connections key = some c)
    (hs : step t op = some (r, s)) : s.connections key = some c := by
  cases op with
  | packet now srcIp dstIp data =>
    cases hs
    rcases connections_handleTcpPacket t key now srcIp data with
      ⟨hsame, -⟩ | ⟨header, payload, -, -, ⟨c', hc', hnew⟩ | ⟨hnone, -⟩⟩
    · exact hsame.trans hc
    · cases hc.symm.trans hc'
      rw [hnew, handleSegment, hclosed]
    · cases hc.symm.trans hnone
  | close k | send _ _ k data | recv k len =>
    cases hs
    by_cases hk : key = k
    · simp [close, sendData, recvData, ← hk, hc, hclosed]
    · simp [connections_close hk, connections_sendData hk, connections_recvData hk, hc]
  | tick now =>
    cases hs
    simp [periodicTick, hc, tickConnection, hclosed]

/-- A closed connection is never removed, and its key is not connected again. -/
theorem closed_of_run {t s : Table} {tr : List TcpStep} {key : Key} {c : TcpConnection}
    (hrun : Run step t tr s) (hc : t.connections key = some c) (hclosed : c.state = .closed)
    (now : Nat) : s.connections key = some c ∧ s.connect now key = (false, s) := by
  have hsame : s.connections key = some c :=
    hrun.invariant (I := fun _ s => s.connections key = some c) hc
      fun _ _ _ _ _ h hs => closed_step hclosed h hs
  exact ⟨hsame, by rw [connect, hsame]⟩

/-- The peer resets the sample connection; a tick and a new SYN leave it as it is. -/
theorem closed_of_run_tick : ∃ tr₁ t tr₂ s, Run step sampleTable tr₁ t ∧
    tr₁.map (·.op) = [.packet 1 0x0A000002 0 (fromPeer 501 1001 flagRst [])] ∧ Run step t tr₂ s ∧
    tr₂.map (·.op) = [.tick 9, .packet 9 0x0A000002 0 (fromPeer 700 0 flagSyn [])] ∧
    (s.connections sampleKey).map (·.state) = some .closed ∧
    s.connect 9 sampleKey = (false, s) := by
  have hreset := exec_run step sampleTable
    [.packet 1 0x0A000002 0 (fromPeer 501 1001 flagRst [])] rfl
  have hrun := exec_run step (sampleTable.handleTcpPacket 1 0x0A000002 (fromPeer 501 1001 flagRst []))
    [.tick 9, .packet 9 0x0A000002 0 (fromPeer 700 0 flagSyn [])] rfl
  have hconn : (sampleTable.handleTcpPacket 1 0x0A000002
    (fromPeer 501 1001 flagRst [])).connections sampleKey = some (handleReset sampleConnection) := rfl
  obtain ⟨hsame, hrefused⟩ := closed_of_run hrun hconn rfl 9
  exact ⟨_, _, _, _, hreset, rfl, hrun, rfl, by rw [hsame]; rfl, hrefused⟩

end Table

end OpenOS.Net.Tcp
