/-
  Advisory file locks (kernel/src/fs/file_lock.rs).

  The table keeps for each inode a count, a lock type and a list of holders,
  which are redundant: a state that the code reaches is that of an abstract
  lock, which is free, held exclusively by one task or shared by a list of
  tasks.
-/

import Mathlib.Data.List.Nodup
import OpenOS.Base.Run
import OpenOS.Base.Word

namespace OpenOS.Fs.FileLock

open Base List Function BitVec
open BitVec (ofNat)

/-! ## The table -/

inductive LockType
  | shared
  | exclusive
deriving DecidableEq

structure LockRecord where
  lockType : LockType
  pid : Word
deriving DecidableEq

structure InodeLockState where
  count : BitVec 32
  lockType : Option LockType
  holders : List LockRecord
deriving DecidableEq

/-- File system id and inode number. -/
abbrev LockKey := Word × Word

/-- `FILE_LOCKS` -/
abbrev LockTable := LockKey → Option InodeLockState

/-- `LOCK_SH`, `LOCK_EX`, `LOCK_NB` and `LOCK_UN`. -/
def lockSh : Word := 1#64
def lockEx : Word := 2#64
def lockNb : Word := 4#64
def lockUn : Word := 8#64

def errWouldBlock : Int := -7

/-- `MAX_HEAP_SIZE` of the kernel's allocator. -/
def maxHeapSize : Nat := 16 * 1024 * 1024

/-- The size of a `LockRecord`. -/
def recordSize : Nat := 16

/-- What an access to the table ends in; a blocking request that cannot be
    granted goes to its waiting loop. -/
inductive Reply
  | ok
  | err (code : Int)
  | waits
deriving DecidableEq

namespace InodeLockState

/-- The state with one holder that a vacant entry is filled with. -/
def held (t : LockType) (pid : Word) : InodeLockState := ⟨1, some t, [⟨t, pid⟩]⟩

section

variable (st : InodeLockState) (t : LockType) (pid : Word)

/-- `holders.push(..)`; `none` is the panic when the list no longer fits the
    kernel's heap. -/
def push : Option (List LockRecord) :=
  if (st.holders.length + 1) * recordSize ≤ maxHeapSize then some (st.holders ++ [⟨t, pid⟩])
  else none

/-- The record of a task. -/
def recordOf : Option LockRecord := st.holders.find? fun r => r.pid = pid

/-- The task's shared record becomes an exclusive one. -/
def upgrade : InodeLockState :=
  { st with
    lockType := some .exclusive
    holders := st.holders.modify (st.holders.findIdx fun r => r.pid = pid)
      fun r => { r with lockType := .exclusive } }

/-- The holders without those of a task. -/
def others : List LockRecord := st.holders.filter fun r => r.pid ≠ pid

end

end InodeLockState

/-- The answer to a request that cannot be granted. -/
def refused (nonblocking : Bool) : Reply := if nonblocking then .err errWouldBlock else .waits

/-! ## Requests -/

section

variable (p : Profile) (pid : Word) (nonblocking : Bool)

/-- The first attempt of `acquire_shared` on the entry of the inode. -/
def acquireShared :
    Option InodeLockState → Option (Reply × InodeLockState)
  | none => some (.ok, .held .shared pid)
  | some st =>
    match st.recordOf pid with
    -- a lock of this task, exclusive or not, is enough
    | some _ => some (.ok, st)
    | none =>
      match st.lockType with
      | none => do
        let holders ← st.push .shared pid
        return (.ok, ⟨1, some .shared, holders⟩)
      | some .shared => do
        let count ← p.add st.count 1
        let holders ← st.push .shared pid
        return (.ok, { st with count := count, holders := holders })
      | some .exclusive => some (refused nonblocking, st)

/-- The first attempt of `acquire_exclusive`. -/
def acquireExclusive :
    Option InodeLockState → Option (Reply × InodeLockState)
  | none => some (.ok, .held .exclusive pid)
  | some st =>
    match st.recordOf pid with
    | some ⟨.exclusive, _⟩ => some (.ok, st)
    | some ⟨.shared, _⟩ =>
      if st.count = 1 then some (.ok, st.upgrade pid) else some (refused nonblocking, st)
    | none =>
      match st.lockType with
      | none => do
        let holders ← st.push .exclusive pid
        return (.ok, ⟨1, some .exclusive, holders⟩)
      | some _ => some (refused nonblocking, st)

/-- `try_acquire_shared`, a turn of the waiting loop. -/
def tryAcquireShared :
    Option InodeLockState → Option (Reply × InodeLockState)
  | none => some (.ok, .held .shared pid)
  | some st =>
    match st.recordOf pid with
    | some _ => some (.ok, st)
    | none =>
      match st.lockType with
      | some .exclusive => some (.waits, st)
      | none | some .shared => do
        let count ← p.add st.count 1
        let holders ← st.push .shared pid
        return (.ok, ⟨count, some .shared, holders⟩)

/-- The end of `try_acquire_exclusive`, for a task that cannot upgrade. -/
def takeFree (st : InodeLockState) : Option (Reply × InodeLockState) :=
  if st.count = 0 then do
    let holders ← st.push .exclusive pid
    return (.ok, ⟨1, some .exclusive, holders⟩)
  else some (.waits, st)

def tryAcquireExclusive :
    Option InodeLockState → Option (Reply × InodeLockState)
  | none => some (.ok, .held .exclusive pid)
  | some st =>
    match st.recordOf pid with
    | some ⟨.exclusive, _⟩ => some (.ok, st)
    | some ⟨.shared, _⟩ => if st.count = 1 then some (.ok, st.upgrade pid) else takeFree pid st
    | none => takeFree pid st

/-! ## Releases -/

/-- `release_lock` on an entry: the lock type is computed again from the holders
    that are left. -/
def releaseLock (st : InodeLockState) : Option InodeLockState :=
  let holders := st.others pid
  let removed := st.holders.length - holders.length
  if removed = 0 then some st
  else if p = .dev ∧ st.count < ofNat 32 removed then none
  else do
    let count ← p.sub st.count (ofNat 32 removed)
    let lockType := if count = 0 then none
      else if holders.isEmpty then none
      else if holders.any fun r => r.lockType = .exclusive then some .exclusive
      else some .shared
    return ⟨count, lockType, holders⟩

/-- `release_all_for_task` on an entry: the lock type is only cleared. -/
def releaseStale (st : InodeLockState) : InodeLockState :=
  if st.holders.any fun r => r.pid = pid then
    let holders := st.others pid
    let removed := st.holders.length - holders.length
    if 0 < removed then
      let count := saturatingSub st.count (ofNat 32 removed)
      ⟨count, if count = 0 then none else st.lockType, holders⟩
    else { st with holders := holders }
  else st

end

/-! ## The component -/

/-- The table, and the tasks in a waiting loop with what they wait for. -/
structure Locks where
  table : LockTable
  waiting : Word → Option (LockKey × LockType)

namespace Locks

/-- No locks. -/
def initial : Locks := ⟨fun _ => none, fun _ => none⟩

/-- A request's access to its entry; a task that has to wait is put into its
    loop, one that got its answer is not. -/
def access (s : Locks) (key : LockKey) (pid : Word) (t : LockType)
    (f : Option InodeLockState → Option (Reply × InodeLockState)) : Option (Reply × Locks) := do
  let (reply, st) ← f (s.table key)
  return (reply,
    { table := update s.table key (some st)
      waiting := update s.waiting pid (if reply = .waits then some (key, t) else none) })

/-- `release_lock` -/
def unlock (p : Profile) (s : Locks) (key : LockKey) (pid : Word) : Option (Reply × Locks) :=
  match s.table key with
  | none => some (.ok, s)
  | some st => do
    let st' ← releaseLock p pid st
    return (.ok, { s with table := update s.table key (some st') })

/-- `flock`, up to the answer or the waiting loop. -/
def flock (p : Profile) (s : Locks) (key : LockKey) (operation pid : Word) :
    Option (Reply × Locks) :=
  let op := operation &&& ~~~lockNb
  let nonblocking := operation &&& lockNb ≠ 0
  if op = lockSh then s.access key pid .shared (acquireShared p pid nonblocking)
  else if op = lockEx then s.access key pid .exclusive (acquireExclusive pid nonblocking)
  else if op = lockUn then s.unlock p key pid
  else some (.err (-1), s)

def releaseAllForTask (s : Locks) (pid : Word) : Locks :=
  { s with table := fun key => (s.table key).map (releaseStale pid) }

/-- The accesses to the table; a turn of a waiting loop is one of its own. -/
inductive Op
  | flock (key : LockKey) (operation pid : Word)
  | retry (pid : Word)
  | releaseAll (pid : Word)

/-- A task in a waiting loop makes no other request. -/
def step (p : Profile) : StepFn Locks Op Reply
  | s, .flock key operation pid =>
    if s.waiting pid = none then s.flock p key operation pid else none
  | s, .retry pid =>
    match s.waiting pid with
    | none => none
    | some (key, .shared) => s.access key pid .shared (tryAcquireShared p pid)
    | some (key, .exclusive) => s.access key pid .exclusive (tryAcquireExclusive pid)
  | s, .releaseAll pid => some (.ok, s.releaseAllForTask pid)

end Locks

/-! ## The abstract lock -/

/-- A lock: free, held by one task, or shared by tasks in the order in which
    they came. -/
inductive Lock
  | free
  | exclusive (pid : Word)
  | shared (pids : List Word)
deriving DecidableEq

variable {f : Option InodeLockState → Option (Reply × InodeLockState)}

namespace Lock

/-- Sharers are some, distinct, and fit the heap. -/
def Valid : Lock → Prop
  | free | exclusive _ => True
  | shared pids => pids ≠ [] ∧ pids.Nodup ∧ pids.length * recordSize ≤ maxHeapSize

/-- The tasks that hold the lock. -/
def holders : Lock → List Word
  | free => []
  | exclusive pid => [pid]
  | shared pids => pids

/-- A shared lock for a task, if it need not wait. -/
def share (pid : Word) : Lock → Option Lock
  | free => some (shared [pid])
  | exclusive q => if q = pid then some (exclusive q) else none
  | shared pids => some (shared (if pid ∈ pids then pids else pids ++ [pid]))

/-- An exclusive lock for a task, if it need not wait. -/
def exclude (pid : Word) : Lock → Option Lock
  | free => some (exclusive pid)
  | exclusive q => if q = pid then some (exclusive q) else none
  | shared pids => if pids = [pid] then some (exclusive pid) else none

/-- What a task asks for. -/
def want (t : LockType) (pid : Word) (l : Lock) : Option Lock :=
  match t with
  | .shared => l.share pid
  | .exclusive => l.exclude pid

/-- The lock without a task. -/
def release (pid : Word) : Lock → Lock
  | free => free
  | exclusive q => if q = pid then free else exclusive q
  | shared pids =>
    if pids.filter (· ≠ pid) = [] then free else shared (pids.filter (· ≠ pid))

variable {l : Lock} {st : InodeLockState} {p : Profile}

theorem mem_holders_of_share (h : l.share pid = some l') : pid ∈ l'.holders := by
  cases l with
  | free =>
    cases h
    exact mem_singleton.mpr rfl
  | exclusive q =>
    simp only [share] at h
    split at h
    · rename_i hq
      cases h
      exact mem_singleton.mpr hq.symm
    · cases h
  | shared pids =>
    cases h
    split
    · assumption
    · exact mem_append_right _ (mem_singleton.mpr rfl)

theorem eq_exclusive_of_exclude (h : l.exclude pid = some l') : l' = exclusive pid := by
  cases l with
  | free => exact (Option.some.inj h).symm
  | exclusive q =>
    simp only [exclude] at h
    split at h
    · rename_i hq
      rw [← Option.some.inj h, hq]
    · cases h
  | shared pids =>
    simp only [exclude] at h
    split at h
    · exact (Option.some.inj h).symm
    · cases h

theorem not_mem_holders_release (pid : Word) (l : Lock) : pid ∉ (l.release pid).holders := by
  cases l with
  | free => exact not_mem_nil
  | exclusive q =>
    simp only [release]
    split
    · exact not_mem_nil
    · rename_i hq
      exact fun h => hq (mem_singleton.mp h).symm
  | shared pids =>
    simp only [release]
    split
    · exact not_mem_nil
    · intro h
      exact absurd rfl (of_decide_eq_true (mem_filter.mp h).2)

theorem Valid.release (h : l.Valid) (pid : Word) : (l.release pid).Valid := by
  cases l with
  | free => exact h
  | exclusive q =>
    simp only [Lock.release]
    split
    · exact trivial
    · exact trivial
  | shared pids =>
    simp only [Lock.release]
    split
    · exact trivial
    · rename_i hne
      refine ⟨hne, h.2.1.filter _, le_trans ?_ h.2.2⟩
      exact Nat.mul_le_mul_right _ (length_filter_le _ _)

/-! ## The state of a lock -/

/-- How the table keeps a lock. -/
def state : Lock → InodeLockState
  | free => ⟨0, none, []⟩
  | exclusive pid => .held .exclusive pid
  | shared pids => ⟨ofNat 32 pids.length, some .shared, pids.map (LockRecord.mk .shared)⟩

/-- An entry keeps a lock; a vacant one keeps a free lock. -/
def KeptIn (l : Lock) (entry : Option InodeLockState) : Prop :=
  entry = some l.state ∨ entry = none ∧ l = free

theorem toNat_count (h : l.Valid) : l.state.count.toNat = l.holders.length := by
  cases l with
  | free => rfl
  | exclusive pid => rfl
  | shared pids =>
    have hlen : pids.length * 16 ≤ 16 * 1024 * 1024 := h.2.2
    exact Nat.mod_eq_of_lt (by omega)

theorem recordOf_shared (pids : List Word) (pid : Word) :
    (shared pids).state.recordOf pid = if pid ∈ pids then some ⟨.shared, pid⟩ else none := by
  show (pids.map (LockRecord.mk .shared)).find? _ = _
  induction pids with
  | nil => rfl
  | cons q pids ih =>
    rw [map_cons, find?_cons]
    by_cases hq : q = pid
    · simp [hq]
    · rw [show decide ((LockRecord.mk LockType.shared q).pid = pid) = false from decide_eq_false hq]
      simp [ih, Ne.symm hq]

theorem recordOf_exclusive (q pid : Word) :
    (exclusive q).state.recordOf pid = if q = pid then some ⟨.exclusive, q⟩ else none := by
  show [LockRecord.mk .exclusive q].find? _ = _
  simp

/-! ## Requests against the lock -/

/-- The answer and the new entry are what the lock says: granted, or refused
    with the lock as it was. -/
inductive Answers (l : Lock) (want : Option Lock) : Reply → InodeLockState → Prop
  | granted {m : Lock} (hwant : want = some m) (hvalid : m.Valid) : Answers l want .ok m.state
  | refused {r : Reply} (hwant : want = none) (hr : r ≠ .ok) : Answers l want r l.state

theorem refused_ne_ok (nonblocking : Bool) : FileLock.refused nonblocking ≠ .ok := by
  cases nonblocking with
  | false => exact nofun
  | true => exact nofun

theorem push_eq_some (h : st.push t pid = some hs) :
    hs = st.holders ++ [⟨t, pid⟩] ∧ (st.holders.length + 1) * recordSize ≤ maxHeapSize := by
  unfold InodeLockState.push at h
  split at h
  · rename_i hfits
    exact ⟨(Option.some.inj h).symm, hfits⟩
  · cases h

/-- One more sharer: what both `acquire_shared` and its retry store. -/
theorem answers_share_push {count : BitVec 32} (hvalid : (shared pids).Valid) (hpid : pid ∉ pids)
    (hcount : p.add (shared pids).state.count 1 = some count)
    (hpush : (shared pids).state.push .shared pid = some hs) :
    Answers (shared pids) ((shared pids).share pid) .ok ⟨count, some .shared, hs⟩ := by
  obtain ⟨rfl, hfits⟩ := push_eq_some hpush
  have hnew : (⟨count, some .shared, (shared pids).state.holders ++ [⟨.shared, pid⟩]⟩ :
      InodeLockState) = (shared (pids ++ [pid])).state := by
    rw [Profile.eq_add_of_add_eq_some hcount]
    simp only [state, map_append, length_append, ofNat_add]
    rfl
  rw [hnew]
  refine .granted (by rw [share, if_neg hpid]) ⟨?_, ?_, ?_⟩
  · simp
  · exact nodup_append.mpr ⟨hvalid.2.1, nodup_singleton pid, by
      intro a ha b hb hab
      rw [mem_singleton.mp hb] at hab
      exact hpid (hab ▸ ha)⟩
  · simpa [state] using hfits

theorem answers_held_shared (pid : Word) : Answers free (free.share pid) .ok
    (.held .shared pid) := by
  refine .granted rfl ⟨cons_ne_nil _ _, nodup_singleton _, ?_⟩
  show 1 * recordSize ≤ maxHeapSize
  decide

theorem answers_held_exclusive (pid : Word) :
    Answers free (free.exclude pid) .ok (.held .exclusive pid) :=
  .granted rfl trivial

/-- Attempts differ in what they do to a lock that is shared: a free lock is taken, and
    the exclusive lock of another task is not. -/
theorem answers_of_shared (hvalid : l.Valid) (hkept : l.KeptIn e)
    (hvacant : f none = some (.ok, .held t pid)) (hfree : f (some free.state) = f none)
    (hexclusive : ∀ q, f (some (exclusive q).state) =
      some (if q = pid then .ok else b, (exclusive q).state))
    (hb : b ≠ .ok)
    (hshared : ∀ pids, l = shared pids → f (some (shared pids).state) = some (r, st) →
      Answers (shared pids) (want t pid (shared pids)) r st)
    (h : f e = some (r, st)) : Answers l (want t pid l) r st := by
  have htaken : f none = some (r, st) → Answers free (want t pid free) r st := by
    intro h
    cases hvacant.symm.trans h
    cases t with
    | shared => exact answers_held_shared pid
    | exclusive => exact answers_held_exclusive pid
  rcases hkept with rfl | ⟨rfl, rfl⟩
  · cases l with
    | free => exact htaken (hfree ▸ h)
    | exclusive q =>
      cases (hexclusive q).symm.trans h
      by_cases hq : q = pid
      · rw [if_pos hq]
        exact .granted (by cases t <;> exact if_pos hq) trivial
      · rw [if_neg hq]
        exact .refused (by cases t <;> exact if_neg hq) hb
    | shared pids => exact hshared pids rfl h
  · exact htaken h

theorem answers_acquireShared (hvalid : l.Valid) (hkept : l.KeptIn e)
    (h : acquireShared p pid nonblocking e = some (r, st)) : Answers l (l.share pid) r st := by
  refine answers_of_shared hvalid hkept rfl ?_ (fun q => ?_)
    (refused_ne_ok nonblocking) ?_ h
  · simp only [acquireShared]
    rfl
  · simp only [acquireShared, recordOf_exclusive]
    split_ifs <;> rfl
  · rintro pids rfl h
    simp only [acquireShared, recordOf_shared] at h
    by_cases hpid : pid ∈ pids
    · rw [if_pos hpid] at h
      cases h
      exact .granted (by rw [want, share, if_pos hpid]) hvalid
    rw [if_neg hpid] at h
    obtain ⟨count, hcount, h⟩ := Option.bind_eq_some_iff.mp h
    obtain ⟨hs, hpush, h⟩ := Option.bind_eq_some_iff.mp h
    cases h
    exact answers_share_push hvalid hpid hcount hpush

/-- The retry stores what the first attempt does: it only counts a free lock up. -/
theorem tryAcquireShared_eq (p : Profile) (hkept : l.KeptIn e) :
    tryAcquireShared p pid e = acquireShared p pid false e := by
  rcases hkept with rfl | ⟨rfl, rfl⟩
  · cases l with
    | free =>
      rfl
    | exclusive q => rfl
    | shared pids => rfl
  · rfl

theorem upgrade_single (pid : Word) : (shared [pid]).state.upgrade pid = (exclusive pid).state := by
  have hidx : [LockRecord.mk .shared pid].findIdx (fun r => decide (r.pid = pid)) = 0 := by
    simp
  simp only [InodeLockState.upgrade, state, map_cons, map_nil, hidx]
  rfl

theorem eq_single_of_count (hvalid : (shared pids).Valid)
    (hpid : pid ∈ pids) (hcount : (shared pids).state.count = 1) : pids = [pid] := by
  have hlen : pids.length = 1 := by
    have h := toNat_count hvalid
    rw [hcount] at h
    exact h.symm
  obtain ⟨q, rfl⟩ := length_eq_one_iff.mp hlen
  rw [mem_singleton.mp hpid]

/-- A sharer's request for the exclusive lock. -/
theorem answers_exclude_sharer (hvalid : (shared pids).Valid) (hpid : pid ∈ pids) (hb : b ≠ .ok)
    (h : (if (shared pids).state.count = 1 then some (.ok, (shared pids).state.upgrade pid)
      else some (b, (shared pids).state)) = some (r, st)) :
    Answers (shared pids) ((shared pids).exclude pid) r st := by
  split at h
  · rename_i hcount
    obtain rfl := eq_single_of_count hvalid hpid hcount
    cases h
    rw [upgrade_single]
    exact .granted (by rw [exclude, if_pos rfl]) trivial
  rename_i hcount
  cases h
  refine .refused ?_ hb
  rw [exclude, if_neg]
  intro hsingle
  exact hcount (by rw [hsingle]; rfl)

/-- A task without a lock is refused the exclusive lock while others share it. -/
theorem exclude_of_not_mem (hpid : pid ∉ pids) : (shared pids).exclude pid = none := by
  rw [exclude, if_neg]
  intro hsingle
  exact hpid (hsingle ▸ mem_singleton.mpr rfl)

theorem answers_acquireExclusive (hvalid : l.Valid) (hkept : l.KeptIn e)
    (h : acquireExclusive pid nonblocking e = some (r, st)) : Answers l (l.exclude pid) r st := by
  refine answers_of_shared hvalid hkept rfl ?_ (fun q => ?_)
    (refused_ne_ok nonblocking) ?_ h
  · simp only [acquireExclusive]
    rfl
  · simp only [acquireExclusive, recordOf_exclusive]
    split_ifs <;> rfl
  · rintro pids rfl h
    simp only [acquireExclusive, recordOf_shared] at h
    by_cases hpid : pid ∈ pids
    · rw [if_pos hpid] at h
      exact answers_exclude_sharer hvalid hpid (refused_ne_ok nonblocking) h
    · rw [if_neg hpid] at h
      cases h
      exact .refused (exclude_of_not_mem hpid) (refused_ne_ok nonblocking)

theorem takeFree_of_held (hvalid : l.Valid) (hheld : l.holders ≠ []) (pid : Word) :
    takeFree pid l.state = some (.waits, l.state) := by
  rw [takeFree, if_neg]
  intro hcount
  have h := toNat_count hvalid
  rw [hcount] at h
  exact hheld (length_eq_zero_iff.mp h.symm)

/-- The retry for the exclusive lock waits where the first attempt does. -/
theorem tryAcquireExclusive_eq (hvalid : l.Valid)
    (hkept : l.KeptIn e) : tryAcquireExclusive pid e = acquireExclusive pid false e := by
  rcases hkept with rfl | ⟨rfl, rfl⟩
  · cases l with
    | free => rfl
    | exclusive q =>
      have hwait := takeFree_of_held hvalid (cons_ne_nil q []) pid
      simp only [tryAcquireExclusive, acquireExclusive]
      split_ifs <;> rfl
    | shared pids =>
      have hwait := takeFree_of_held hvalid hvalid.1 pid
      simp only [tryAcquireExclusive, acquireExclusive, hwait]
      split_ifs <;> rfl
  · rfl

/-! ## Releases against the lock -/

theorem length_holders_state (l : Lock) : l.state.holders.length = l.holders.length := by
  cases l with
  | free => rfl
  | exclusive pid => rfl
  | shared pids => exact length_map _

/-- The holders that are left are those of the released lock. -/
theorem others_state (l : Lock) (pid : Word) : l.state.others pid =
    (l.release pid).state.holders := by
  cases l with
  | free => rfl
  | exclusive q =>
    by_cases hq : q = pid
    · simp [InodeLockState.others, release, state, InodeLockState.held, hq]
    · simp [InodeLockState.others, release, state, InodeLockState.held, hq]
  | shared pids =>
    have hfilter : (shared pids).state.others pid =
        (pids.filter (· ≠ pid)).map (LockRecord.mk .shared) := filter_map
    rw [hfilter, release]
    split
    · rename_i hnil
      rw [hnil]
      rfl
    · rfl

theorem release_of_not_mem (hvalid : l.Valid) (hpid : pid ∉ l.holders) : l.release pid = l := by
  cases l with
  | free => rfl
  | exclusive q =>
    rw [release, if_neg]
    exact fun hq => hpid (mem_singleton.mpr hq.symm)
  | shared pids =>
    have hself : pids.filter (· ≠ pid) = pids := by
      rw [filter_eq_self]
      intro q hq
      exact decide_eq_true fun h => hpid (h ▸ hq)
    rw [release, hself, if_neg hvalid.1]

theorem length_release_lt (hpid : pid ∈ l.holders) :
    (l.release pid).holders.length < l.holders.length := by
  cases l with
  | free => cases hpid
  | exclusive q =>
    rw [release, if_pos (mem_singleton.mp hpid).symm]
    exact Nat.one_pos
  | shared pids =>
    have hlt : (pids.filter (· ≠ pid)).length < pids.length :=
      length_filter_lt_length_iff_exists.mpr ⟨pid, hpid, by simp⟩
    rw [release]
    split
    · exact length_pos_of_mem hpid
    · exact hlt

/-- What is subtracted from the count is what the lists differ by. -/
theorem count_sub (hvalid : l.Valid) (hpid : pid ∈ l.holders) :
    (ofNat 32 (l.state.holders.length - (l.state.others pid).length)).toNat ≤
        l.state.count.toNat ∧
      l.state.count - ofNat 32 (l.state.holders.length - (l.state.others pid).length) =
        (l.release pid).state.count := by
  have hlt := length_release_lt hpid
  have hcount := toNat_count hvalid
  have hcount' := toNat_count (hvalid.release pid)
  have hremoved : (ofNat 32 (l.state.holders.length - (l.state.others pid).length)).toNat =
      l.holders.length - (l.release pid).holders.length := by
    rw [others_state, length_holders_state, length_holders_state]
    exact Nat.mod_eq_of_lt (by omega)
  refine ⟨by omega, eq_of_toNat_eq ?_⟩
  rw [toNat_sub_of_le (by rw [le_def]; omega), hremoved, hcount, hcount']
  omega

theorem lockType_state (hvalid : l.Valid) : (if l.state.count = 0 then none
      else if l.state.holders.isEmpty then none
      else if l.state.holders.any fun r => r.lockType = .exclusive then some LockType.exclusive
      else some .shared) = l.state.lockType := by
  cases l with
  | free => rfl
  | exclusive pid => rfl
  | shared pids =>
    have hcount : (shared pids).state.count ≠ 0 := by
      intro h
      have hlen := toNat_count hvalid
      rw [h] at hlen
      exact hvalid.1 (length_eq_zero_iff.mp hlen.symm)
    have hnonempty : (shared pids).state.holders.isEmpty = false := by
      simpa [state] using hvalid.1
    have hany : ((shared pids).state.holders.any fun r => r.lockType = .exclusive) = false := by
      simp [state]
    rw [if_neg hcount, hnonempty, hany]
    rfl

theorem lockType_release : (if (l.release pid).state.count = 0 then none else l.state.lockType) =
      (if (l.release pid).state.count = 0 then none else (l.release pid).state.lockType) := by
  cases l with
  | free => rfl
  | exclusive q =>
    rw [release]
    split
    · rfl
    · rfl
  | shared pids =>
    rw [release]
    split
    · rfl
    · rfl

theorem length_others_of_not_mem (hvalid : l.Valid)
    (hpid : pid ∉ l.holders) : l.state.holders.length - (l.state.others pid).length = 0 := by
  rw [others_state, release_of_not_mem hvalid hpid, Nat.sub_self]

theorem length_others_of_mem (hpid : pid ∈ l.holders) :
    0 < l.state.holders.length - (l.state.others pid).length := by
  have hlt := length_release_lt hpid
  rw [others_state, length_holders_state, length_holders_state]
  omega

/-- `release_lock` leaves the state of the released lock, and does not panic. -/
theorem releaseLock_state (p : Profile) (hvalid : l.Valid) (pid : Word) :
    releaseLock p pid l.state = some (l.release pid).state := by
  by_cases hpid : pid ∈ l.holders
  · obtain ⟨hle, hcount⟩ := count_sub hvalid hpid
    have hpos := length_others_of_mem hpid
    have hassert : ¬ (p = .dev ∧ l.state.count <
        ofNat 32 (l.state.holders.length - (l.state.others pid).length)) := by
      rintro ⟨-, hlt⟩
      rw [lt_def] at hlt
      omega
    simp only [releaseLock, if_neg (Nat.ne_of_gt hpos), if_neg hassert, p.sub_eq_some_of_le hle,
      hcount]
    show some (InodeLockState.mk _ _ _) = _
    rw [others_state, lockType_state (hvalid.release pid)]
  · simp [releaseLock, length_others_of_not_mem hvalid hpid, release_of_not_mem hvalid hpid]

theorem any_holds (l : Lock) (pid : Word) :
    (l.state.holders.any fun r => r.pid = pid) = true ↔ pid ∈ l.holders := by
  cases l with
  | free => simp [state, holders]
  | exclusive q => simp [state, InodeLockState.held, holders, eq_comm]
  | shared pids => simp [state, holders]

/-- `release_all_for_task` does the same to an entry. -/
theorem releaseStale_state (hvalid : l.Valid) (pid : Word) :
    releaseStale pid l.state = (l.release pid).state := by
  by_cases hpid : pid ∈ l.holders
  · obtain ⟨hle, hcount⟩ := count_sub hvalid hpid
    have hpos := length_others_of_mem hpid
    have hlast : (if (l.release pid).state.count = 0 then none
        else (l.release pid).state.lockType) = (l.release pid).state.lockType := by
      split
      · rename_i hzero
        rw [← lockType_state (hvalid.release pid), if_pos hzero]
      · rfl
    simp only [releaseStale, (any_holds l pid).mpr hpid, if_true, if_pos hpos, saturatingSub,
      if_pos hle, hcount, lockType_release, hlast]
    rw [others_state]
  · have hany : (l.state.holders.any fun r => r.pid = pid) ≠ true :=
      fun h => hpid ((any_holds l pid).mp h)
    rw [releaseStale, if_neg hany, release_of_not_mem hvalid hpid]

end Lock

/-! ## What an entry says -/

/-- The fields of an entry agree. -/
structure InodeLockState.Consistent (st : InodeLockState) : Prop where
  distinct : (st.holders.map LockRecord.pid).Nodup
  count : st.count.toNat = st.holders.length
  free : st.lockType = none ↔ st.holders = []
  lockType : ∀ r ∈ st.holders, st.lockType = some r.lockType
  alone : ∀ r ∈ st.holders, r.lockType = .exclusive → st.holders = [r]

theorem Lock.consistent_state {l : Lock} (hvalid : l.Valid) : l.state.Consistent := by
  have hcount : l.state.count.toNat = l.state.holders.length := by
    rw [Lock.toNat_count hvalid, Lock.length_holders_state]
  cases l with
  | free => exact ⟨nodup_nil, hcount, by simp [Lock.state], nofun, nofun⟩
  | exclusive pid =>
    refine ⟨nodup_singleton pid, hcount, by simp [Lock.state, InodeLockState.held], ?_, ?_⟩
    · intro r hr
      rw [mem_singleton.mp hr]
      rfl
    · intro r hr _
      rw [mem_singleton.mp hr]
      rfl
  | shared pids =>
    refine ⟨?_, hcount, by simpa [Lock.state] using hvalid.1, ?_, ?_⟩
    · have hpids : (pids.map (LockRecord.mk .shared)).map LockRecord.pid = pids := by
        rw [map_map]
        exact map_id'' (fun _ => rfl) pids
      show ((pids.map (LockRecord.mk .shared)).map LockRecord.pid).Nodup
      rw [hpids]
      exact hvalid.2.1
    · intro r hr
      obtain ⟨q, -, rfl⟩ := mem_map.mp hr
      rfl
    · intro r hr hexclusive
      obtain ⟨q, -, rfl⟩ := mem_map.mp hr
      cases hexclusive

namespace Locks

/-- A task is among the holders of an inode's lock. -/
def Holds (s : Locks) (key : LockKey) (pid : Word) : Prop :=
  ∃ st, s.table key = some st ∧ ∃ r ∈ st.holders, r.pid = pid

/-- A task is the exclusive holder. -/
def HoldsAlone (s : Locks) (key : LockKey) (pid : Word) : Prop :=
  ∃ st, s.table key = some st ∧ st.lockType = some .exclusive ∧
    st.holders = [⟨.exclusive, pid⟩]

/-- The lock that an access asks for; a retry asks for what its task waits for. -/
def wants (s : Locks) : Op → Option (LockKey × Word × LockType)
  | .flock key operation pid =>
    if operation &&& ~~~lockNb = lockSh then some (key, pid, .shared)
    else if operation &&& ~~~lockNb = lockEx then some (key, pid, .exclusive)
    else none
  | .retry pid => (s.waiting pid).map fun w => (w.1, pid, w.2)
  | .releaseAll _ => none

/-- An access releases a task's lock on an inode. -/
def Releases : Op → LockKey → Word → Prop
  | .flock key operation pid, key', pid' =>
    operation &&& ~~~lockNb = lockUn ∧ key' = key ∧ pid' = pid
  | .retry _, _, _ => False
  | .releaseAll pid, _, pid' => pid' = pid

/-- An access leaves what it answers. -/
structure Honoured (e : Transition Locks Op Reply) : Prop where
  shared : ∀ key pid, e.pre.wants e.op = some (key, pid, .shared) → e.res = .ok →
    e.post.Holds key pid
  exclusive : ∀ key pid, e.pre.wants e.op = some (key, pid, .exclusive) → e.res = .ok →
    e.post.HoldsAlone key pid
  released : ∀ key pid, Releases e.op key pid → ¬ e.post.Holds key pid

/-- Every entry keeps a lock. -/
def Keeps (s : Locks) (L : LockKey → Lock) : Prop :=
  ∀ key, (L key).Valid ∧ (L key).KeptIn (s.table key)

theorem keeps_initial : initial.Keeps fun _ => .free := fun _ => ⟨trivial, .inr ⟨rfl, rfl⟩⟩

variable {s : Locks}

theorem Keeps.update (h : s.Keeps L) (hvalid : l.Valid)
    (waiting : Word → Option (LockKey × LockType)) :
    Keeps ⟨update s.table key (some l.state), waiting⟩ (update L key l) := by
  intro key'
  show (Function.update L key l key').Valid ∧
    (Function.update L key l key').KeptIn (Function.update s.table key (some l.state) key')
  by_cases hkey : key' = key
  · rw [hkey, update_self, update_self]
    exact ⟨hvalid, .inl rfl⟩
  · rw [update_of_ne hkey, update_of_ne hkey]
    exact h key'

theorem holds_iff (h : s.Keeps L) : s.Holds key pid ↔ pid ∈ (L key).holders := by
  rcases (h key).2 with hkept | ⟨hvacant, hfree⟩
  · rw [← Lock.any_holds, any_eq_true]
    constructor
    · rintro ⟨st, hst, r, hr, hpid⟩
      cases hkept.symm.trans hst
      exact ⟨r, hr, decide_eq_true hpid⟩
    · rintro ⟨r, hr, hpid⟩
      exact ⟨_, hkept, r, hr, of_decide_eq_true hpid⟩
  · constructor
    · rintro ⟨st, hst, -⟩
      cases hvacant.symm.trans hst
    · rw [hfree]
      exact fun h => absurd h not_mem_nil

theorem holdsAlone_of_exclusive (h : s.Keeps L) (hL : L key = .exclusive pid) :
    s.HoldsAlone key pid := by
  rcases (h key).2 with hkept | ⟨-, hfree⟩
  · rw [hL] at hkept
    exact ⟨_, hkept, rfl, rfl⟩
  · cases hL.symm.trans hfree

/-- A request: the other locks stay, this one is granted or stays, and the answer says
    which. -/
theorem step_access (h : s.Keeps L) (hf : ∀ r st, f (s.table key) = some (r, st) →
      Lock.Answers (L key) (Lock.want t pid (L key)) r st)
    (hrun : s.access key pid t f = some (r, s')) (hwants : s.wants op = some (key, pid, t))
    (hno : ∀ key pid, ¬ Releases op key pid) :
    (∃ L', s'.Keeps L') ∧ Honoured ⟨s, op, r, s'⟩ := by
  obtain ⟨⟨reply, st⟩, hcall, hret⟩ := Option.bind_eq_some_iff.mp hrun
  obtain ⟨rfl, rfl⟩ := Prod.mk.inj (Option.some.inj hret)
  cases hf reply st hcall with
  | @granted l hwant hvalid =>
    refine ⟨⟨_, h.update hvalid _⟩, ?_, ?_, fun key' pid' h => absurd h (hno key' pid')⟩
    · intro key' pid' hw _
      cases hwants.symm.trans hw
      refine (holds_iff (h.update hvalid _)).mpr ?_
      rw [update_self]
      exact Lock.mem_holders_of_share hwant
    · intro key' pid' hw _
      cases hwants.symm.trans hw
      refine holdsAlone_of_exclusive (h.update hvalid _) ?_
      rw [update_self]
      exact Lock.eq_exclusive_of_exclude hwant
  | refused hwant hr =>
    exact ⟨⟨_, h.update (h key).1 _⟩, fun _ _ _ hok => absurd hok hr,
      fun _ _ _ hok => absurd hok hr, fun key' pid' h => absurd h (hno key' pid')⟩

/-- An access that asks for no lock and releases none. -/
theorem honoured_of_none (hwants : s.wants op = none)
    (hno : ∀ key pid, ¬ Releases op key pid) : Honoured ⟨s, op, r, s'⟩ where
  shared _ _ hw := nomatch hwants.symm.trans hw
  exclusive _ _ hw := nomatch hwants.symm.trans hw
  released key pid h := absurd h (hno key pid)

theorem keeps_unlock (h : s.Keeps L) (hrun : s.unlock p key pid = some (r, s')) :
    s'.Keeps (update L key ((L key).release pid)) := by
  obtain ⟨hvalid, hkept | ⟨hvacant, hfree⟩⟩ := h key
  · simp only [unlock, hkept, Lock.releaseLock_state p hvalid] at hrun
    cases hrun
    exact h.update (hvalid.release pid) s.waiting
  simp only [unlock, hvacant] at hrun
  cases hrun
  have hsame : update L key ((L key).release pid) = L := by
    rw [update_eq_self_iff, hfree]
    rfl
  rwa [hsame]

theorem keeps_releaseAllForTask (h : s.Keeps L) (pid : Word) :
    (s.releaseAllForTask pid).Keeps fun key => (L key).release pid := by
  intro key
  obtain ⟨hvalid, hkept | ⟨hvacant, hfree⟩⟩ := h key
  · refine ⟨hvalid.release pid, .inl ?_⟩
    show (s.table key).map (releaseStale pid) = _
    rw [hkept, Option.map_some, Lock.releaseStale_state hvalid]
  refine ⟨hvalid.release pid, .inr ⟨?_, ?_⟩⟩
  · show (s.table key).map (releaseStale pid) = none
    rw [hvacant]
    rfl
  · show (L key).release pid = .free
    rw [hfree]
    rfl

theorem step_flock (h : s.Keeps L) (hrun : s.flock p key operation pid = some (r, s')) :
    (∃ L', s'.Keeps L') ∧ Honoured ⟨s, .flock key operation pid, r, s'⟩ := by
  obtain ⟨hvalid, hkept⟩ := h key
  unfold flock at hrun
  by_cases hsh : operation &&& ~~~lockNb = lockSh
  · simp only [if_pos hsh] at hrun
    refine step_access h (fun r st => Lock.answers_acquireShared hvalid hkept) hrun
      (by simp [wants, if_pos hsh]) ?_
    rintro key' pid' ⟨hun, -, -⟩
    exact absurd (hsh.symm.trans hun) (by decide)
  by_cases hex : operation &&& ~~~lockNb = lockEx
  · simp only [if_neg hsh, if_pos hex] at hrun
    refine step_access h (fun r st => Lock.answers_acquireExclusive hvalid hkept) hrun
      (by simp [wants, if_neg hsh, if_pos hex]) ?_
    rintro key' pid' ⟨hun, -, -⟩
    exact absurd (hex.symm.trans hun) (by decide)
  have hwants : s.wants (.flock key operation pid) = none := by
    simp [wants, if_neg hsh, if_neg hex]
  by_cases hun : operation &&& ~~~lockNb = lockUn
  · simp only [if_neg hsh, if_neg hex, if_pos hun] at hrun
    have hkeeps := keeps_unlock h hrun
    refine ⟨⟨_, hkeeps⟩, ?_, ?_, ?_⟩
    · exact fun key' pid' hw => nomatch hwants.symm.trans hw
    · exact fun key' pid' hw => nomatch hwants.symm.trans hw
    · rintro key' pid' ⟨-, rfl, rfl⟩
      rw [holds_iff hkeeps, update_self]
      exact Lock.not_mem_holders_release _ _
  · simp only [if_neg hsh, if_neg hex, if_neg hun] at hrun
    cases hrun
    exact ⟨⟨L, h⟩, honoured_of_none hwants fun key' pid' hrel => hun hrel.1⟩

/-- One access keeps every entry that of a lock, and leaves what it answers. -/
theorem step_spec (h : s.Keeps L) (hstep : step p s op = some (r, s')) :
    (∃ L', s'.Keeps L') ∧ Honoured ⟨s, op, r, s'⟩ := by
  cases op with
  | flock key operation pid =>
    simp only [step] at hstep
    split at hstep
    · exact step_flock h hstep
    · cases hstep
  | retry pid =>
    have hno : ∀ key' pid', ¬ Releases (.retry pid) key' pid' := fun _ _ hrel => hrel
    simp only [step] at hstep
    split at hstep
    · cases hstep
    · rename_i key hwait
      refine step_access h (fun r st hcall => ?_) hstep (by simp only [wants, hwait]; rfl) hno
      rw [Lock.tryAcquireShared_eq p (h key).2] at hcall
      exact Lock.answers_acquireShared (h key).1 (h key).2 hcall
    · rename_i key hwait
      refine step_access h (fun r st hcall => ?_) hstep (by simp only [wants, hwait]; rfl) hno
      rw [Lock.tryAcquireExclusive_eq (h key).1 (h key).2] at hcall
      exact Lock.answers_acquireExclusive (h key).1 (h key).2 hcall
  | releaseAll pid =>
    cases hstep
    have hkeeps := keeps_releaseAllForTask h pid
    refine ⟨⟨_, hkeeps⟩, nofun, nofun, ?_⟩
    rintro key' pid' rfl
    rw [holds_iff hkeeps]
    exact Lock.not_mem_holders_release _ _

/-- In every run of requests, retries and releases the entries are consistent,
    and every access leaves what it answers. -/
theorem locks_exclude (p : Profile) {tr : List (Transition Locks Op Reply)} {s : Locks}
    (hrun : Run (step p) initial tr s) :
    (∀ key st, s.table key = some st → st.Consistent) ∧ ∀ e ∈ tr, Honoured e := by
  have hkeeps {tr s} : Run (step p) initial tr s → ∃ L, s.Keeps L :=
    Run.invariant (I := fun _ s => ∃ L, s.Keeps L) ⟨_, keeps_initial⟩
      fun _ _ _ _ _ ⟨_, h⟩ hstep => (step_spec h hstep).1
  refine ⟨fun key st hst => ?_, fun e he => ?_⟩
  · obtain ⟨L, hL⟩ := hkeeps hrun
    rcases (hL key).2 with hkept | ⟨hvacant, -⟩
    · cases hkept.symm.trans hst
      exact Lock.consistent_state (hL key).1
    · cases hvacant.symm.trans hst
  · obtain ⟨_, -, hrun₁, hstep⟩ := hrun.of_mem he
    obtain ⟨L, hL⟩ := hkeeps hrun₁
    exact (step_spec hL hstep).2

/-- Two tasks share a lock, one of them waits for the exclusive one, and gets it
    in its loop when the other has ended. -/
def shareThenExclude : List Op :=
  [.flock (0, 2) lockSh 1, .flock (0, 2) lockSh 2, .flock (0, 2) lockEx 1, .retry 1,
    .releaseAll 2, .retry 1]

theorem locks_exclude_shareThenExclude :
    ∃ tr s, Run (step .dev) initial tr s ∧ tr.map Transition.op = shareThenExclude ∧
      tr.map Transition.res = [.ok, .ok, .waits, .waits, .ok, .ok] ∧
      (∀ key st, s.table key = some st → st.Consistent) ∧ ∀ e ∈ tr, Honoured e := by
  have hrun := exec_run (step .dev) initial shareThenExclude rfl
  exact ⟨_, _, hrun, rfl, rfl, locks_exclude .dev hrun⟩

end Locks

end OpenOS.Fs.FileLock
