/-
  The socket descriptors of a task: `sys_socket`, `sys_accept` and `sys_close_sock`
  (kernel/src/syscall/mod.rs, kernel/src/net/socket.rs).

  `sys_socket` numbers sockets with a counter of the whole kernel and does not look
  at the table; `sys_accept` takes the first number from 10 on that has no socket;
  neither looks at the file descriptors.
-/

import OpenOS.Syscall.Channel

namespace OpenOS.Net.SocketTable

open Function Base Option

inductive SocketType
  | tcp
  | udp
  | raw
deriving DecidableEq

inductive SocketState
  | created
  | bound
  | listening
  | connected
  | closed
deriving DecidableEq

/-- A socket, without its options, which none of the calls here reads. -/
structure Socket where
  socketType : SocketType
  state : SocketState
  localPort : BitVec 16
  remoteAddr : BitVec 32
  remotePort : BitVec 16
deriving DecidableEq

def Socket.new (socketType : SocketType) : Socket := ⟨socketType, .created, 0, 0, 0⟩

/-- NEXT_SOCK_FD, and the tables of the task that makes the calls. -/
structure Sockets where
  nextSockFd : Word
  socketTable : Word → Option Socket
  fdTable : Word → Option FdEntry

def socketTypeOf (socketType : Word) : Option SocketType :=
  if socketType = 0 then some .tcp
  else if socketType = 1 then some .udp
  else if socketType = 2 then some .raw
  else none

def sysSocket (k : Sockets) (socketType : Word) : Except SysError Word × Sockets :=
  match socketTypeOf socketType with
  | none => (.error .invalidArgument, k)
  | some ty =>
    (.ok k.nextSockFd, { k with
      nextSockFd := k.nextSockFd + 1
      socketTable := update k.socketTable k.nextSockFd (some (.new ty)) })

/-- The first of this many descriptors, from one on, that has no socket. -/
def freeFrom (table : Word → Option Socket) : Nat → Word → Option Word
  | 0, _ => none
  | fuel + 1, fd => if (table fd).isSome then freeFrom table fuel (fd + 1) else some fd

/-- `sys_accept` once `accept_next` gives a connection; it does not return when every
    descriptor has a socket. -/
def sysAccept (k : Sockets) (sockFd : Word) (remoteAddr : BitVec 32) (remotePort : BitVec 16) :
    Option (Except SysError Word × Sockets) :=
  match k.socketTable sockFd with
  | none => some (.error .invalidArgument, k)
  | some listener =>
    if listener.state = .listening then
      (freeFrom k.socketTable (2 ^ 64 - 10) 10).map fun fd =>
        let socket := ⟨.tcp, .connected, listener.localPort, remoteAddr, remotePort⟩
        (.ok fd, { k with socketTable := update k.socketTable fd (some socket) })
    else some (.error .invalidArgument, k)

/-- `sys_close_sock`, without the teardown of the connection. -/
def sysCloseSock (k : Sockets) (sockFd : Word) : Except SysError Word × Sockets :=
  match k.socketTable sockFd with
  | none => (.error .notFound, k)
  | some _ => (.ok 0, { k with socketTable := update k.socketTable sockFd none })

/-! ## Runs -/

inductive Op
  | socket (socketType : Word)
  | accept (sockFd : Word) (remoteAddr : BitVec 32) (remotePort : BitVec 16)
  | close (sockFd : Word)
deriving DecidableEq

def step : StepFn Sockets Op (Except SysError Word)
  | k, .socket socketType => some (sysSocket k socketType)
  | k, .accept sockFd remoteAddr remotePort => sysAccept k sockFd remoteAddr remotePort
  | k, .close sockFd => some (sysCloseSock k sockFd)

abbrev Step := Transition Sockets Op (Except SysError Word)

/-- The descriptor that a call makes, if it succeeds. -/
def newFd (e : Step) : Option Word :=
  match e.op, e.res with
  | .socket _, .ok fd => some fd
  | .accept .., .ok fd => some fd
  | _, _ => none

/-- A new descriptor is in neither table of the task, and no live socket is lost. -/
structure Unique (e : Step) : Prop where
  unused : ∀ fd, newFd e = some fd → e.pre.socketTable fd = none ∧ e.pre.fdTable fd = none
  kept : ∀ fd socket, e.pre.socketTable fd = some socket → e.op ≠ .close fd →
    e.post.socketTable fd = some socket

/-- The counter is in neither table; the first descriptor from 10 on without a socket is
    no open file. -/
def FdFree (k : Sockets) : Op → Prop
  | .socket socketType => (socketTypeOf socketType).isSome →
    k.socketTable k.nextSockFd = none ∧ k.fdTable k.nextSockFd = none
  | .accept sockFd .. => (k.socketTable sockFd).any (·.state = .listening) → ∀ n : Nat,
    (∀ m < n, (k.socketTable (10 + m)).isSome) → k.socketTable (10 + n) = none →
      k.fdTable (10 + n) = none
  | .close _ => True

theorem freeFrom_eq_some (h : freeFrom table fuel start = some fd) :
    ∃ n : Nat, fd = start + n ∧ table fd = none ∧ ∀ m < n, (table (start + m)).isSome := by
  induction fuel generalizing start with
  | zero => cases h
  | succ fuel ih =>
    rw [freeFrom] at h
    split at h
    · rename_i hused
      obtain ⟨n, rfl, hfree, hbelow⟩ := ih h
      have hnext : ∀ m : Nat, start + 1 + (m : Word) = start + ((m + 1 : Nat) : Word) := by
        intro m
        simp only [BitVec.natCast_eq_ofNat]
        bv_omega
      refine ⟨n + 1, hnext n, hfree, fun m hm => ?_⟩
      cases m with
      | zero => simpa using hused
      | succ m => exact hnext m ▸ hbelow m (Nat.lt_of_succ_lt_succ hm)
    · rename_i hfree
      cases h
      exact ⟨0, by simp, not_isSome_iff_eq_none.mp hfree, nofun⟩

/-- A call that changes no socket. -/
theorem unique_same (hnew : newFd ⟨k, op, r, k⟩ = none) : Unique ⟨k, op, r, k⟩ :=
  ⟨fun fd h => (by cases hnew.symm.trans h), fun _ _ h _ => h⟩

/-- A call that puts a socket under a descriptor. -/
theorem unique_insert (hnew : newFd ⟨k, op, r, k'⟩ = some fd)
    (hpost : k'.socketTable = update k.socketTable fd (some socket)) :
    Unique ⟨k, op, r, k'⟩ ↔ k.socketTable fd = none ∧ k.fdTable fd = none := by
  refine ⟨fun h => h.unused fd hnew, fun h => ⟨fun fd' hfd' => ?_, fun fd' old hold _ => ?_⟩⟩
  · cases hnew.symm.trans hfd'
    exact h
  · have hne : fd' ≠ fd := by
      rintro rfl
      cases h.1.symm.trans hold
    rwa [hpost, update_of_ne hne]

/-- A step is as it should be exactly when the number it takes is free. -/
theorem unique_iff_of_step (h : step k op = some (r, k')) :
    Unique ⟨k, op, r, k'⟩ ↔ FdFree k op := by
  cases op with
  | socket socketType =>
    rw [step, sysSocket] at h
    cases hty : socketTypeOf socketType with
    | none =>
      rw [hty] at h
      cases h
      exact iff_of_true (unique_same rfl) (by simp [FdFree, hty])
    | some ty =>
      rw [hty] at h
      cases h
      rw [unique_insert rfl rfl]
      simp [FdFree, hty]
  | accept sockFd remoteAddr remotePort =>
    rw [step, sysAccept] at h
    split at h
    · rename_i hnone
      cases h
      exact iff_of_true (unique_same rfl) (by simp [FdFree, hnone])
    rename_i listener hsock
    split at h
    · rename_i hlisten
      obtain ⟨fd, hfree, heq⟩ := map_eq_some_iff.mp h
      cases heq
      obtain ⟨n, rfl, hnone, hbelow⟩ := freeFrom_eq_some hfree
      rw [unique_insert rfl rfl]
      simp only [FdFree, hsock, any_some, hlisten, decide_true, true_implies]
      refine ⟨fun hunused n' hbelow' hnone' => ?_, fun hfile => ⟨hnone, hfile n hbelow hnone⟩⟩
      -- there is only one first free descriptor
      obtain rfl : n' = n := by
        by_contra hne
        rcases Nat.lt_or_gt_of_ne hne with hlt | hlt
        · cases hnone' ▸ hbelow n' hlt
        · cases hnone ▸ hbelow' n hlt
      exact hunused.2
    · rename_i hlisten
      cases h
      exact iff_of_true (unique_same rfl) (by simp [FdFree, hsock, hlisten])
  | close sockFd =>
    rw [step, sysCloseSock] at h
    split at h
    · cases h
      exact iff_of_true (unique_same rfl) trivial
    · cases h
      refine iff_of_true ⟨nofun, fun fd socket hfd hne => ?_⟩ trivial
      have hne' : fd ≠ sockFd := fun heq => hne (heq ▸ rfl)
      exact (update_of_ne hne' _ _).trans hfd

/-- While each number taken is free, a socket stays until its descriptor is closed. -/
theorem kept_of_run {k₀ k : Sockets} {tr : List Step} (hrun : Run step k₀ tr k)
    (hfree : ∀ e ∈ tr, FdFree e.pre e.op) (hfd : k₀.socketTable fd = some socket)
    (hopen : ∀ e ∈ tr, e.op ≠ .close fd) : k.socketTable fd = some socket := by
  induction hrun with
  | nil => exact hfd
  | snoc _ hstep ih =>
    rw [List.forall_mem_append, List.forall_mem_singleton] at hfree hopen
    exact ((unique_iff_of_step hstep).2 hfree.2).kept fd socket (ih hfree.1 hopen.1) hopen.2

/-- In every run all descriptors made are unique exactly when each number was free. -/
theorem unique_of_run_iff {k₀ k : Sockets} {tr : List Step} (hrun : Run step k₀ tr k) :
    (∀ e ∈ tr, Unique e) ↔ ∀ e ∈ tr, FdFree e.pre e.op := by
  refine forall₂_congr fun e he => ?_
  obtain ⟨-, -, -, hstep⟩ := hrun.of_mem he
  exact unique_iff_of_step hstep

/-- Ten sockets have been made, and the last of them listens; descriptor 11 is a file. -/
def tenSockets : Sockets where
  nextSockFd := 10
  socketTable := fun fd =>
    if fd = 9 then some ⟨.tcp, .listening, 80, 0, 0⟩
    else if fd < 9 then some (.new .tcp) else none
  fdTable := fun fd => if fd = 11 then some ⟨"/f", 1, 0⟩ else none

theorem unique_first_accept : ∃ tr k, Run step tenSockets tr k ∧
    tr.map Transition.op = [.accept 9 0x0100007f 4000] ∧ (∀ e ∈ tr, Unique e) ∧
    k.socketTable 10 ≠ none := by
  have hrun : Run step tenSockets ([] ++ [_]) _ :=
    .snoc .nil (a := .accept 9 0x0100007f 4000) rfl
  refine ⟨_, _, hrun, rfl, (unique_of_run_iff hrun).2 (List.forall_mem_singleton.2 ?_), nofun⟩
  intro _ n hbelow _
  cases n with
  | zero => rfl
  | succ n => cases hbelow 0 n.succ_pos

/-- A connection is accepted under descriptor 10; the next socket takes the same number,
    and the one after it that of the open file. -/
theorem accepted_socket_overwritten : ∃ tr k, Run step tenSockets tr k ∧
    tr.map Transition.op = [.accept 9 0x0100007f 4000, .socket 1, .socket 1] ∧
    tr.map Transition.res = [.ok 10, .ok 10, .ok 11] ∧ (tenSockets.fdTable 11).isSome :=
  ⟨_, _, .snoc (.snoc (.snoc .nil rfl) rfl)
    rfl, rfl, rfl, rfl⟩

end OpenOS.Net.SocketTable
