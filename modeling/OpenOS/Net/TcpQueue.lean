/-
  What an acknowledgement removes from the retransmit queue (kernel/src/net/tcp.rs):
  process_ack compares it with the first byte of a segment.
-/

import OpenOS.Net.Tcp

namespace OpenOS.Net.Tcp

open BitVec (ofNat ofNat_add msb_eq_decide add_assoc)

/-- The payload bytes of a queued segment. -/
def RetransmitEntry.len (e : RetransmitEntry) : Nat := e.data.length - headerMinSize

/-- The acknowledgement covers the byte at offset `i` of a segment. -/
abbrev RetransmitEntry.Covered (e : RetransmitEntry) (ack : Seq) (i : Nat) : Prop :=
  isSeqBefore (e.seq + ofNat 32 i) ack

/-- The segments take up the sequence numbers from `first` to `next`, one after the other. -/
def Consecutive (next : Seq) : Seq → List RetransmitEntry → Prop
  | first, [] => first = next
  | first, e :: q => e.seq = first ∧ 0 < e.len ∧ Consecutive next (first + ofNat 32 e.len) q

/-- The bytes of a queue. -/
def span (q : List RetransmitEntry) : Nat := (q.map (·.len)).sum

section

variable {e : RetransmitEntry}

theorem isSeqBefore_add (ha : a < 2 ^ 31) (hb : b < 2 ^ 31) :
    isSeqBefore (first + ofNat 32 a) (first + ofNat 32 b) = decide (a < b) := by
  rw [isSeqBefore, msb_eq_decide, decide_eq_decide]
  simp only [BitVec.toNat_sub, BitVec.toNat_add, BitVec.toNat_ofNat]
  omega

theorem Consecutive.next_eq (h : Consecutive next first q) : next = first + ofNat 32 (span q) := by
  induction q generalizing first with
  | nil => simp [span, ← show first = next from h]
  | cons e q ih => simpa [span, ofNat_add, add_assoc] using ih h.2.2

/-- Each byte of the queue is in one of its segments. -/
theorem Consecutive.exists_at (h : Consecutive next first q) (ha : a < span q) :
    ∃ e ∈ q, ∃ o, e.seq = first + ofNat 32 o ∧ o ≤ a ∧ a < o + e.len := by
  induction q generalizing first a with
  | nil => simp [span] at ha
  | cons e q ih =>
    by_cases hlt : a < e.len
    · exact ⟨e, by simp, 0, by simpa using h.1, by omega, by omega⟩
    · have hrest : a - e.len < span q := by simp [span] at ha ⊢; omega
      obtain ⟨e', hmem, o, hseq, hle, hgt⟩ := ih h.2.2 hrest
      refine ⟨e', .tail _ hmem, e.len + o, ?_, by omega, by omega⟩
      rw [hseq, ofNat_add, add_assoc]

theorem Consecutive.offset (h : Consecutive next first q) (he : e ∈ q) :
    ∃ o, e.seq = first + ofNat 32 o ∧ o + e.len ≤ span q := by
  induction q generalizing first with
  | nil => cases he
  | cons e' q ih =>
    cases he with
    | head => exact ⟨0, by simpa using h.1, by simp [span]⟩
    | tail _ he =>
      obtain ⟨o, hseq, hle⟩ := ih h.2.2 he
      refine ⟨e'.len + o, by rw [hseq, ofNat_add, add_assoc], ?_⟩
      simp only [span, List.map_cons, List.sum_cons] at hle ⊢
      omega

/-- Less than 2^31 bytes are queued; the first one not acknowledged is `una`, which covers no
    segment as a whole, and `ack` is not before it and not after `seq_num`. -/
structure Outstanding (conn : TcpConnection) (first una ack : Seq) : Prop where
  consecutive : Consecutive conn.seqNum first conn.retransmitQueue
  small : span conn.retransmitQueue < 2 ^ 31
  pending : ∀ e ∈ conn.retransmitQueue, ∃ i < e.len, ¬ e.Covered una i
  not_before : (una - first).toNat ≤ (ack - first).toNat
  not_after : (ack - first).toNat ≤ span conn.retransmitQueue

/-- A segment stays exactly while a byte of it is not covered, and an acknowledgement of nothing
    new leaves the queue and the congestion window as they are. -/
def RemovesAcked (conn : TcpConnection) (una ack : Seq) : Prop :=
  (∀ e ∈ conn.retransmitQueue,
    e ∈ (processAck conn ack).retransmitQueue ↔ ∃ i < e.len, ¬ e.Covered ack i) ∧
  (ack = una → (processAck conn ack).retransmitQueue = conn.retransmitQueue ∧
    (processAck conn ack).cwnd = conn.cwnd)

theorem covered_iff (hseq : e.seq = first + ofNat 32 o) (ho : o + i < 2 ^ 31) (ha : a < 2 ^ 31) :
    e.Covered (first + ofNat 32 a) i ↔ o + i < a := by
  rw [RetransmitEntry.Covered, hseq, add_assoc, ← ofNat_add, isSeqBefore_add ho ha,
    decide_eq_true_iff]

theorem mem_processAck (hseq : e.seq = first + ofNat 32 o) (ho : o < 2 ^ 31) (ha : a < 2 ^ 31) :
    e ∈ (processAck conn (first + ofNat 32 a)).retransmitQueue ↔
      e ∈ conn.retransmitQueue ∧ a < o := by
  rw [processAck, List.mem_filter, hseq, isSeqBefore_add ha ho, decide_eq_true_iff]

/-- The acknowledged segments and no others are removed only by an acknowledgement of all that
    was sent. -/
theorem removesAcked_iff {conn : TcpConnection} {first una ack : Seq}
    (h : Outstanding conn first una ack) :
    RemovesAcked conn una ack ↔ ack = conn.seqNum := by
  obtain ⟨hcons, hsmall, hpending, -, hafter⟩ := h
  have hack : ack = first + ofNat 32 (ack - first).toNat := by bv_omega
  generalize (ack - first).toNat = a at hack hafter
  subst hack
  rw [hcons.next_eq]
  constructor
  · rintro ⟨hstay, -⟩
    by_contra hne
    have hlt : a < span conn.retransmitQueue := lt_of_le_of_ne hafter fun heq => hne (by rw [heq])
    -- the segment that holds the next byte expected is removed with that byte
    obtain ⟨e, he, o, hseq, hle, hgt⟩ := hcons.exists_at hlt
    have hnot : ¬ e.Covered (first + ofNat 32 a) (a - o) := by
      rw [covered_iff hseq (by omega) (by omega)]
      omega
    have hin := (hstay e he).2 ⟨a - o, by omega, hnot⟩
    rw [mem_processAck hseq (by omega) (by omega)] at hin
    omega
  · intro hall
    have heq : a = span conn.retransmitQueue := by bv_omega
    have hcovered : ∀ e ∈ conn.retransmitQueue, ∀ i < e.len, e.Covered (first + ofNat 32 a) i := by
      intro e he i hi
      obtain ⟨o, hseq, hle⟩ := hcons.offset he
      rw [covered_iff hseq (by omega) (by omega)]
      omega
    refine ⟨fun e he => ?_, fun huna => ?_⟩
    · obtain ⟨o, hseq, hle⟩ := hcons.offset he
      rw [mem_processAck hseq (by omega) (by omega)]
      constructor
      · omega
      · rintro ⟨i, hi, hnot⟩
        exact absurd (hcovered e he i hi) hnot
    · have hnil : conn.retransmitQueue = [] := by
        refine List.eq_nil_iff_forall_not_mem.2 fun e he => ?_
        obtain ⟨i, hi, hnot⟩ := hpending e he
        exact hnot (huna ▸ hcovered e he i hi)
      simp [processAck, hnil]

end

/-- An established connection that has sent a segment of one byte and one of two. -/
def twoSent : TcpConnection :=
  { newConnection 0 1 2 3 with
    state := .established
    seqNum := initialSeq + 3
    retransmitQueue := [⟨initialSeq, buildTcp 1 3 initialSeq 0 flagAck 0 [7], 2, 0, 0⟩,
      ⟨initialSeq + 1, buildTcp 1 3 (initialSeq + 1) 0 flagAck 0 [8, 9], 2, 0, 0⟩] }

theorem outstanding_twoSent {ack : Seq} (h : (ack - initialSeq).toNat ≤ 3) :
    Outstanding twoSent initialSeq initialSeq ack :=
  ⟨⟨rfl, by decide, rfl, by decide, rfl⟩, by decide, by decide, by simp, h⟩

/-- Both segments are acknowledged. -/
theorem removesAcked_all : RemovesAcked twoSent initialSeq (initialSeq + 3) :=
  (removesAcked_iff (outstanding_twoSent (by decide))).2 rfl

/-- The acknowledgement of nothing takes the first segment out of the queue. -/
theorem not_removesAcked_repeated :
    Outstanding twoSent initialSeq initialSeq initialSeq ∧
      ¬ RemovesAcked twoSent initialSeq initialSeq := by
  refine ⟨outstanding_twoSent (by decide), fun h => ?_⟩
  exact absurd (h.2 rfl).1 (by decide)

end OpenOS.Net.Tcp
