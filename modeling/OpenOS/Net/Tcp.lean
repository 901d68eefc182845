/-
  TCP connections (kernel/src/net/tcp.rs): incoming segments, `connect`, `close`,
  `send_data`, `recv_data` and `periodic_tick` on the connection table.

  What the code sends is not part of the state: no segment it builds is read back
  except from a retransmit queue.
-/

import OpenOS.Base.Run
import OpenOS.Net.Wire

namespace OpenOS.Net.Tcp

open Function Base

abbrev Seq := BitVec 32

def headerMinSize : Nat := 20
def maxSegmentSize : Nat := 1460
def defaultWindowSize : BitVec 16 := 65535
def initialSeq : Seq := 1000
def retransmitTimeoutTicks : Nat := 18
def keepaliveIntervalTicks : Nat := 1092
def maxRetransmitAttempts : Nat := 5
def timeWaitDurationTicks : Nat := 1092
def ipProtoTcp : Byte := 6

def flagFin : Byte := 0x01
def flagSyn : Byte := 0x02
def flagRst : Byte := 0x04
def flagPsh : Byte := 0x08
def flagAck : Byte := 0x10

inductive TcpState
  | closed
  | synSent
  | synReceived
  | established
  | finWait1
  | finWait2
  | closeWait
  | lastAck
  | timeWait
  | closing
deriving DecidableEq

/-! ## Segments -/

structure TcpHeader where
  srcPort : Port
  dstPort : Port
  seq : Seq
  ack : Seq
  flags : Byte
  window : BitVec 16
deriving DecidableEq

/-- `flags & flag != 0` -/
def TcpHeader.has (h : TcpHeader) (flag : Byte) : Bool := h.flags &&& flag != 0

/-- `tcp_checksum`: over the pseudo-header and the segment. -/
def tcpChecksum (p : Profile) (srcIp dstIp : Ip) (segment : List Byte) : Option (BitVec 16) :=
  internetChecksum p (be32 srcIp ++ be32 dstIp ++ [0, ipProtoTcp] ++
    be16 (BitVec.ofNat 16 segment.length) ++ segment)

/-- `parse_tcp`: the header and the payload. -/
def parseTcp (data : List Byte) : Option (TcpHeader × List Byte) :=
  if data.length < headerMinSize then none
  else
    let headerLen := (byteAt data 12).toNat / 16 * 4
    if headerLen < headerMinSize ∨ data.length < headerLen then none
    else
      some ({ srcPort := readU16Be data 0
              dstPort := readU16Be data 2
              seq := readU32Be data 4
              ack := readU32Be data 8
              flags := byteAt data 13
              window := readU16Be data 14 }, data.drop headerLen)

/-- `build_tcp`: the checksum field stays 0. -/
def buildTcp (srcPort dstPort : Port) (seq ack : Seq) (flags : Byte) (window : BitVec 16)
    (payload : List Byte) : List Byte :=
  be16 srcPort ++ be16 dstPort ++ be32 seq ++ be32 ack ++ [(5 : Byte) <<< 4, flags] ++ be16 window ++
    [0, 0] ++ be16 0 ++ payload

/-! ## Connections -/

structure RetransmitEntry where
  seq : Seq
  data : List Byte
  remoteAddr : Ip
  sentAt : Nat
  attempts : Nat
deriving DecidableEq

inductive TcpError
  | connectionReset
deriving DecidableEq

/-- A congestion window: it starts at one segment and is never made smaller. -/
abbrev Cwnd := { n : Nat // maxSegmentSize ≤ n }

structure TcpConnection where
  state : TcpState
  localPort : Port
  remoteAddr : Ip
  remotePort : Port
  seqNum : Seq
  ackNum : Seq
  recvWindow : BitVec 16
  sendWindow : BitVec 16
  retransmitQueue : List RetransmitEntry
  recvBuffer : List Byte
  cwnd : Cwnd
  ssthresh : Nat
  lastRecvTick : Nat
  lastSendTick : Nat
  error : Option TcpError
deriving DecidableEq

/-- The connection that `new_connection` makes. -/
def newConnection (now : Nat) (localPort : Port) (remoteAddr : Ip) (remotePort : Port) :
    TcpConnection where
  state := .closed
  localPort := localPort
  remoteAddr := remoteAddr
  remotePort := remotePort
  seqNum := initialSeq
  ackNum := 0
  recvWindow := defaultWindowSize
  sendWindow := defaultWindowSize
  retransmitQueue := []
  recvBuffer := []
  cwnd := ⟨maxSegmentSize, Nat.le_refl _⟩
  ssthresh := defaultWindowSize.toNat * 2
  lastRecvTick := now
  lastSendTick := now
  error := none

/-- `is_seq_before`: the wrapped difference is negative as an i32. -/
def isSeqBefore (a b : Seq) : Bool := (a - b).msb

/-- The growth of the congestion window on a new acknowledgement. -/
def growCwnd (cwnd : Cwnd) (ssthresh : Nat) : Cwnd :=
  if h : cwnd.1 < ssthresh then
    ⟨min (cwnd.1 + maxSegmentSize) ssthresh, by have := cwnd.2; omega⟩
  else ⟨cwnd.1 + maxSegmentSize * maxSegmentSize / cwnd.1, Nat.le_add_right_of_le cwnd.2⟩

def processAck (conn : TcpConnection) (ack : Seq) : TcpConnection :=
  let queue := conn.retransmitQueue.filter fun entry => isSeqBefore ack entry.seq
  { conn with
    retransmitQueue := queue
    cwnd := if queue.length < conn.retransmitQueue.length then growCwnd conn.cwnd conn.ssthresh
      else conn.cwnd }

def handleReset (conn : TcpConnection) : TcpConnection :=
  { conn with
    state := .closed, retransmitQueue := [], recvBuffer := [], error := some .connectionReset }

/-! ## A segment in each state -/

section

variable (conn : TcpConnection) (header : TcpHeader) (payload : List Byte)

/-- The segment is a SYN-ACK. -/
def TcpHeader.isSynAck (header : TcpHeader) : Bool :=
  header.flags &&& (flagSyn ||| flagAck) == flagSyn ||| flagAck

def handleSynSent : TcpConnection :=
  if header.isSynAck then
    if header.ack ≠ conn.seqNum + 1 then conn
    else
      { conn with
        ackNum := header.seq + 1
        seqNum := header.ack
        sendWindow := header.window
        state := .established
        retransmitQueue := []
        -- data on the SYN-ACK is buffered, and not acknowledged
        recvBuffer := conn.recvBuffer ++ payload }
  else if header.has flagRst then handleReset conn
  else conn

def handleSynReceived : TcpConnection :=
  if header.has flagAck then
    if header.ack = conn.seqNum then
      { conn with
        state := .established
        sendWindow := header.window
        retransmitQueue := []
        recvBuffer := conn.recvBuffer ++ payload
        ackNum := conn.ackNum + BitVec.ofNat 32 payload.length }
    else conn
  else if header.has flagRst then handleReset conn
  else conn

/-- The acknowledgement of a segment, where it has one. -/
def ackOf : TcpConnection := if header.has flagAck then processAck conn header.ack else conn

-- process_ack touches the queue and the congestion window alone

@[simp] theorem state_ackOf : (ackOf conn header).state = conn.state := by
  unfold ackOf; split <;> rfl

@[simp] theorem seqNum_ackOf : (ackOf conn header).seqNum = conn.seqNum := by
  unfold ackOf; split <;> rfl

@[simp] theorem ackNum_ackOf : (ackOf conn header).ackNum = conn.ackNum := by
  unfold ackOf; split <;> rfl

@[simp] theorem recvWindow_ackOf : (ackOf conn header).recvWindow = conn.recvWindow := by
  unfold ackOf; split <;> rfl

@[simp] theorem sendWindow_ackOf : (ackOf conn header).sendWindow = conn.sendWindow := by
  unfold ackOf; split <;> rfl

@[simp] theorem recvBuffer_ackOf : (ackOf conn header).recvBuffer = conn.recvBuffer := by
  unfold ackOf; split <;> rfl

def handleEstablished (now : Nat) : TcpConnection :=
  if header.has flagRst then handleReset conn
  else
    let conn := ackOf { conn with lastRecvTick := now, sendWindow := header.window } header
    if header.has flagFin then { conn with ackNum := header.seq + 1, state := .closeWait }
    else
      { conn with
        recvBuffer := conn.recvBuffer ++ payload
        ackNum := conn.ackNum + BitVec.ofNat 32 payload.length }

def handleFinWait1 : TcpConnection :=
  if header.has flagRst then handleReset conn
  else
    let conn := ackOf conn header
    if header.has flagFin then
      { conn with
        ackNum := header.seq + 1, state := if header.has flagAck then .timeWait else .closing }
    else if header.has flagAck then { conn with state := .finWait2, retransmitQueue := [] }
    else conn

def handleFinWait2 : TcpConnection :=
  if header.has flagRst then handleReset conn
  else if header.has flagFin then { conn with ackNum := header.seq + 1, state := .timeWait }
  else conn

def handleCloseWait : TcpConnection :=
  if header.has flagRst then handleReset conn else ackOf conn header

/-- `handle_last_ack` and `handle_closing`: any ACK ends the state. -/
def endsOnAck (next : TcpState) : TcpConnection :=
  if header.has flagRst then handleReset conn
  else if header.has flagAck then { conn with state := next, retransmitQueue := [] }
  else conn

def handleLastAck : TcpConnection := endsOnAck conn header .closed

def handleClosing : TcpConnection := endsOnAck conn header .timeWait

/-- The match of `handle_tcp_packet` on the state of the connection. -/
def handleSegment (now : Nat) : TcpConnection :=
  match conn.state with
  | .synSent => handleSynSent conn header payload
  | .synReceived => handleSynReceived conn header payload
  | .established => handleEstablished conn header payload now
  | .finWait1 => handleFinWait1 conn header
  | .finWait2 => handleFinWait2 conn header
  | .closeWait => handleCloseWait conn header
  | .lastAck => handleLastAck conn header
  | .timeWait => if header.has flagRst then handleReset conn else conn
  | .closing => handleClosing conn header
  | .closed => conn

end

/-! ## The connection table -/

/-- Local port, remote address and remote port. -/
abbrev Key := Port × Ip × Port

/-- CONNECTIONS and PENDING_ACCEPT. -/
structure Table where
  connections : Key → Option TcpConnection
  pendingAccept : Port → Option (List (Ip × Port))

namespace Table

def setConnection (t : Table) (key : Key) (conn : TcpConnection) : Table :=
  { t with connections := update t.connections key (some conn) }

/-- The connection that `handle_passive_syn` makes for a SYN. -/
def passiveConnection (now : Nat) (localPort : Port) (srcIp : Ip) (remotePort : Port) (seq : Seq) :
    TcpConnection :=
  { newConnection now localPort srcIp remotePort with
    seqNum := initialSeq + 1
    ackNum := seq + 1
    state := .synReceived
    retransmitQueue := [⟨initialSeq, buildTcp localPort remotePort initialSeq (seq + 1)
      (flagSyn ||| flagAck) defaultWindowSize [], srcIp, now, 0⟩] }

/-- `handle_tcp_packet`; the destination address is not looked at. -/
def handleTcpPacket (now : Nat) (srcIp : Ip) (tcpData : List Byte) (t : Table) : Table :=
  match parseTcp tcpData with
  | none => t
  | some (header, payload) =>
    let key := (header.dstPort, srcIp, header.srcPort)
    match t.connections key with
    | some conn => t.setConnection key (handleSegment conn header payload now)
    | none =>
      if header.has flagRst then t
      else if header.has flagSyn && !header.has flagAck then
        match t.pendingAccept header.dstPort with
        | none => t
        | some queue =>
          { connections := update t.connections key
              (some (passiveConnection now header.dstPort srcIp header.srcPort header.seq))
            pendingAccept := update t.pendingAccept header.dstPort
              (some (queue ++ [(srcIp, header.srcPort)])) }
      else t

def close (key : Key) (t : Table) : Bool × Table :=
  match t.connections key with
  | none => (false, t)
  | some conn =>
    let closing (next : TcpState) :=
      (true, t.setConnection key { conn with state := next, seqNum := conn.seqNum + 1 })
    match conn.state with
    | .established => closing .finWait1
    | .closeWait => closing .lastAck
    | _ => (false, t)

/-- `connect`: a key that has a connection, even a closed one, is refused. -/
def connect (now : Nat) (key : Key) (t : Table) : Bool × Table :=
  match t.connections key with
  | some _ => (false, t)
  | none =>
    let conn := newConnection now key.1 key.2.1 key.2.2
    let syn := buildTcp key.1 key.2.2 conn.seqNum 0 flagSyn conn.recvWindow []
    (true, t.setConnection key { conn with
      state := .synSent, retransmitQueue := [⟨conn.seqNum, syn, key.2.1, now, 0⟩] })

/-- A turn of the loop of `send_data`: the number of bytes taken, and the connection with
    their segment queued. A window of 0 takes none. -/
def sendSegment (now : Nat) (key : Key) (conn : TcpConnection) (data : List Byte) :
    Nat × TcpConnection :=
  let chunkSize := min (min data.length maxSegmentSize) (min conn.cwnd.1 conn.sendWindow.toNat)
  let segment := buildTcp key.1 key.2.2 conn.seqNum conn.ackNum (flagPsh ||| flagAck)
    conn.recvWindow (data.take chunkSize)
  (chunkSize, { conn with
    retransmitQueue := conn.retransmitQueue ++ [⟨conn.seqNum, segment, key.2.1, now, 0⟩]
    lastSendTick := now
    seqNum := conn.seqNum + BitVec.ofNat 32 chunkSize })

/-- The loop of `send_data`: `frames` is the number of frames that the driver takes before it
    refuses one, or the ARP entry is gone, and `now` the tick at each of them. -/
def sendFrom (now : Nat → Nat) (key : Key) :
    Nat → TcpConnection → List Byte → Nat × TcpConnection
  | 0, conn, _ => (0, conn)
  | frames + 1, conn, data =>
    if data = [] then (0, conn)
    else
      let sent := sendSegment (now frames) key conn data
      let rest := sendFrom now key frames sent.2 (data.drop sent.1)
      (sent.1 + rest.1, rest.2)

/-- `send_data`; `none` is an error. -/
def sendData (now : Nat → Nat) (frames : Nat) (key : Key) (data : List Byte) (t : Table) :
    Option Nat × Table :=
  match t.connections key with
  | none => (none, t)
  | some conn =>
    if conn.error = some .connectionReset then (none, t)
    else if conn.state ≠ .established then (none, t)
    else
      let sent := sendFrom now key frames conn data
      (some sent.1, t.setConnection key sent.2)

/-- `recv_data` with a buffer of `len` bytes; `none` is an error. -/
def recvData (key : Key) (len : Nat) (t : Table) : Option (List Byte) × Table :=
  match t.connections key with
  | none => (none, t)
  | some conn =>
    if conn.error = some .connectionReset then (none, t)
    else if conn.state ≠ .established ∧ conn.state ≠ .closeWait then (none, t)
    else
      (some (conn.recvBuffer.take len),
        t.setConnection key { conn with recvBuffer := conn.recvBuffer.drop len })

/-- The retransmissions of `periodic_tick` that are due. -/
def due (now : Nat) (entry : RetransmitEntry) : Bool :=
  retransmitTimeoutTicks ≤ now - entry.sentAt && entry.attempts < maxRetransmitAttempts

/-- `cwnd / 2`, one segment at least. -/
def halve (cwnd : Cwnd) : Cwnd := ⟨max (cwnd.1 / 2) maxSegmentSize, Nat.le_max_right ..⟩

/-- The loop over the retransmit queue: each entry that is due halves the window. -/
def retransmit (now : Nat) (conn : TcpConnection) : TcpConnection :=
  let late := conn.retransmitQueue.filter (due now)
  { conn with
    retransmitQueue := conn.retransmitQueue.map fun entry =>
      if due now entry then { entry with sentAt := now, attempts := entry.attempts + 1 } else entry
    cwnd := halve^[late.length] conn.cwnd
    ssthresh := if late = [] then conn.ssthresh else (halve^[late.length] conn.cwnd).1 }

/-- `periodic_tick` for one connection; `none` removes it. -/
def tickConnection (now : Nat) (conn : TcpConnection) : Option TcpConnection :=
  match conn.state with
  | .timeWait => if timeWaitDurationTicks ≤ now - conn.lastRecvTick then none else some conn
  | .established =>
    let conn := retransmit now conn
    let queue := conn.retransmitQueue.filter (·.attempts < maxRetransmitAttempts)
    some { conn with
      retransmitQueue := queue
      lastSendTick := if keepaliveIntervalTicks ≤ now - conn.lastRecvTick ∧ queue = [] then now
        else conn.lastSendTick }
  | _ => some conn

def periodicTick (now : Nat) (t : Table) : Table :=
  { t with connections := fun key => (t.connections key).bind (tickConnection now) }

/-! ## Runs -/

inductive Op
  | packet (now : Nat) (srcIp dstIp : Ip) (data : List Byte)
  | close (key : Key)
  | send (now : Nat → Nat) (frames : Nat) (key : Key) (data : List Byte)
  | recv (key : Key) (len : Nat)
  | tick (now : Nat)

inductive Res
  | done
  | closed (ok : Bool)
  | sent (count : Option Nat)
  | received (data : Option (List Byte))

def step : StepFn Table Op Res := fun t op =>
  match op with
  | .packet now srcIp _ data => some (.done, t.handleTcpPacket now srcIp data)
  | .close key => some (.closed (t.close key).1, (t.close key).2)
  | .send now frames key data =>
    some (.sent (t.sendData now frames key data).1, (t.sendData now frames key data).2)
  | .recv key len => some (.received (t.recvData key len).1, (t.recvData key len).2)
  | .tick now => some (.done, t.periodicTick now)

abbrev TcpStep := Transition Table Op Res

end Table

end OpenOS.Net.Tcp
