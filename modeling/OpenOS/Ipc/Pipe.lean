/-
  Pipes (kernel/src/ipc/pipe.rs): a byte queue of bounded capacity with a flag
  for each end.  The ends are objects of their own, which the handle tables
  refer to; dropping the last reference to an end clears its flag.
-/

import OpenOS.Base.Bytes
import OpenOS.Handle.Table

namespace OpenOS

open Base Function List

structure PipeBuffer where
  buffer : List Byte
  capacity : Nat
  readerOpen : Bool
  writerOpen : Bool
deriving DecidableEq

namespace PipeBuffer

/-- DEFAULT_PIPE_CAPACITY and EPIPE. -/
def defaultCapacity : Nat := 4096
def EPIPE : Int := -32

/-- The buffer `create_pipe` makes. -/
def new : PipeBuffer := ⟨[], defaultCapacity, true, true⟩

/-- `PipeReader::read` into a buffer of `len` bytes. -/
def read (pipe : PipeBuffer) (len : Nat) : List Byte × PipeBuffer :=
  (pipe.buffer.take len, { pipe with buffer := pipe.buffer.drop len })

def isEof (pipe : PipeBuffer) : Bool := !pipe.writerOpen && pipe.buffer.isEmpty

/-- `PipeWriter::write`.  A buffer is never over its capacity. -/
def write (pipe : PipeBuffer) (data : List Byte) : Except Int Nat × PipeBuffer :=
  if data = [] then (.ok 0, pipe)
  else if !pipe.readerOpen then (.error EPIPE, pipe)
  else
    let taken := data.take (pipe.capacity - pipe.buffer.length)
    (.ok taken.length, { pipe with buffer := pipe.buffer ++ taken })

/-! ## The byte stream -/

/-- The buffer `create_pipe_with_capacity` makes. -/
def withCapacity (capacity : Nat) : PipeBuffer := ⟨[], capacity, true, true⟩

inductive Op
  | write (data : List Byte)
  | read (len : Nat)

inductive Res
  | wrote (res : Except Int Nat)
  | got (bytes : List Byte)

/-- A call on one of the ends. -/
def step : StepFn PipeBuffer Op Res
  | pipe, .write data => some (.wrote (pipe.write data).1, (pipe.write data).2)
  | pipe, .read len => some (.got (pipe.read len).1, (pipe.read len).2)

/-- The bytes that a call put in. -/
def accepted : Op × Res → List Byte
  | (.write data, .wrote (.ok n)) => data.take n
  | _ => []

/-- The bytes that a call took out. -/
def taken : Op × Res → List Byte
  | (.read _, .got bytes) => bytes
  | _ => []

/-- A pipe as a bounded queue, after a run from an empty one. -/
structure Fifo (capacity : Nat) (tr : List (Transition PipeBuffer Op Res)) (pipe : PipeBuffer) :
    Prop where
  capacity_eq : pipe.capacity = capacity
  open_eq : pipe.readerOpen = true
  bytes : tr.flatMap (accepted ·.label) = tr.flatMap (taken ·.label) ++ pipe.buffer
  bounded : pipe.buffer.length ≤ capacity
  writes : ∀ e ∈ tr, ∀ data, e.op = .write data →
    e.res = .wrote (.ok (min data.length (capacity - e.pre.buffer.length)))

variable {capacity : Nat} {pipe : PipeBuffer}

/-- A write while the reader is open. -/
theorem write_eq (h : pipe.readerOpen = true) (data : List Byte) : pipe.write data =
    (.ok (min data.length (pipe.capacity - pipe.buffer.length)),
      { pipe with buffer := pipe.buffer ++ data.take (pipe.capacity - pipe.buffer.length) }) := by
  rw [write]
  split
  · rename_i hnil
    rw [hnil, take_nil, append_nil, length_nil, Nat.zero_min]
  · simp [h, Nat.min_comm]

theorem Fifo.step (h : Fifo capacity tr pipe) (hstep : step pipe op = some (res, pipe')) :
    Fifo capacity (tr ++ [⟨pipe, op, res, pipe'⟩]) pipe' := by
  obtain ⟨rfl, hopen, hbytes, hbounded, hwrites⟩ := h
  cases op with
  | write data =>
    rw [PipeBuffer.step, write_eq hopen] at hstep
    cases hstep
    refine ⟨rfl, hopen, ?_, ?_, ?_⟩
    · rw [flatMap_append, hbytes]
      simp [Transition.label, accepted, taken, Nat.min_comm]
    · rw [length_append, length_take]
      omega
    · rw [forall_mem_append, forall_mem_singleton]
      refine ⟨hwrites, ?_⟩
      rintro _ ⟨⟩
      rfl
  | read len =>
    cases hstep
    refine ⟨rfl, hopen, ?_, ?_, ?_⟩
    · rw [flatMap_append, hbytes]
      simp [Transition.label, accepted, taken, read]
    · rw [read, length_drop]
      exact Nat.le_trans (Nat.sub_le ..) hbounded
    · rw [forall_mem_append]
      exact ⟨hwrites, nofun⟩

/-- In every run of writes and reads, whatever their sizes. -/
theorem fifo_of_run {tr : List (Transition PipeBuffer Op Res)}
    (hrun : Run step (withCapacity capacity) tr pipe) : Fifo capacity tr pipe := by
  apply Run.invariant ?_ ?_ hrun
  · exact ⟨rfl, rfl, rfl, Nat.zero_le _, nofun⟩
  · intro tr s op res s' h hstep
    exact h.step hstep

theorem fifo_of_run_small : ∃ tr pipe, Run step (withCapacity 2) tr pipe ∧
    tr.map Transition.op = [.write [1, 2, 3], .read 1] ∧ pipe.buffer = [2] ∧ Fifo 2 tr pipe := by
  have hrun : Run step (withCapacity 2) _ _ :=
    .snoc (.snoc .nil (a := .write [1, 2, 3]) rfl) (a := .read 1) rfl
  exact ⟨_, _, hrun, rfl, rfl, fifo_of_run hrun⟩

end PipeBuffer

/-- The buffers and the end objects on the heap; `inner` is the buffer of an end,
    and references from `next` on are not in use. -/
structure Pipes where
  buffers : Ref → PipeBuffer
  inner : Ref → Ref
  next : Ref

namespace Pipes

/-- A new end of a buffer. -/
def newEnd (pipes : Pipes) (buf : Ref) : Ref × Pipes :=
  (pipes.next, { pipes with inner := update pipes.inner pipes.next buf, next := pipes.next + 1 })

/-- A new buffer, as `create_pipe` makes it. -/
def newBuffer (pipes : Pipes) : Ref × Pipes :=
  (pipes.next,
    { pipes with
      buffers := update pipes.buffers pipes.next PipeBuffer.new
      next := pipes.next + 1 })

/-- The buffer of an end. -/
def bufferOf (pipes : Pipes) (theEnd : Ref) : PipeBuffer := pipes.buffers (pipes.inner theEnd)

def setBufferOf (pipes : Pipes) (theEnd : Ref) (buf : PipeBuffer) : Pipes :=
  { pipes with buffers := update pipes.buffers (pipes.inner theEnd) buf }

end Pipes

end OpenOS
