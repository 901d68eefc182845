/-
  Environment variables: the system calls `sys_env_get` and `sys_env_set`
  (kernel/src/syscall/mod.rs) and the SDK's `env::get` and `env::set` around
  them (sdk/src/lib.rs).

  `env::get` passes a buffer of 1024 bytes and its length, but the kernel does
  not look at the length: it copies the whole value.  Up to that size the pair
  behaves as a map; beyond it the kernel writes past the buffer and the SDK
  panics when it slices it.
-/

import OpenOS.Base.Text
import OpenOS.Syscall.Channel
import OpenOS.Task.Conservation

namespace OpenOS.Env

open Base List Scheduler SysError

/-! ## The environment of a task -/

/-- `BTreeMap::insert`, on the pairs in the order of their keys. -/
def insert : List (String × String) → String → String → List (String × String)
  | [], key, value => [(key, value)]
  | q :: rest, key, value =>
    if key = q.1 then (key, value) :: rest
    else if key < q.1 then (key, value) :: q :: rest
    else q :: insert rest key value

theorem lookup_insert_self (env : List (String × String)) (key value : String) :
    (insert env key value).lookup key = some value := by
  induction env with
  | nil => simp [insert]
  | cons q rest ih =>
    rw [insert]
    split
    · simp
    rename_i hne
    split
    · simp
    · rwa [lookup_cons, show (key == q.1) = false from beq_false_of_ne hne]

theorem lookup_insert_of_ne (env : List (String × String)) (value : String) (hne : key' ≠ key) :
    (insert env key value).lookup key' = env.lookup key' := by
  have hkey : (key' == key) = false := beq_false_of_ne hne
  induction env with
  | nil => simp [insert, hkey]
  | cons q rest ih =>
    rw [insert]
    split
    · rename_i heq
      rw [lookup_cons, lookup_cons, ← heq, hkey]
    · split
      · rw [lookup_cons, hkey]
      · rw [lookup_cons, lookup_cons, ih]

/-! ## The system calls -/

/-- The value returned by a system call, with the user memory it wrote. -/
structure Reply where
  ret : Int
  write : Option UserWrite
deriving DecidableEq

/-- `sys_env_get`; the length of the value buffer is not used. -/
def sysEnvGet (s : Scheduler) (cpu : Cpu) (mem : UserMem) (keyPtr keyLen valPtr _valLen : Word) :
    Reply :=
  match copyFromUser mem keyPtr keyLen with
  | none => ⟨badPointer.code, none⟩
  | some keyBytes =>
    match fromUtf8 keyBytes with
    | none => ⟨invalidArgument.code, none⟩
    | some key =>
      match s.withCurrentTask cpu with
      | none => ⟨notFound.code, none⟩
      | some task =>
        match task.env.lookup key with
        -- not found: the empty value
        | none => ⟨0, none⟩
        | some value =>
          match copyToUser valPtr (utf8Bytes value) with
          | none => ⟨badPointer.code, none⟩
          | some w =>
            ⟨if (utf8Bytes value).length < 2 ^ 63 then ((utf8Bytes value).length : Int) else -1,
              some w⟩

/-- The update `sys_env_set` makes. -/
def setIn (key value : String) (task : Task) : Unit × Task :=
  ((), { task with env := insert task.env key value })

def sysEnvSet (s : Scheduler) (cpu : Cpu) (mem : UserMem) (keyPtr keyLen valPtr valLen : Word) :
    Int × Scheduler :=
  match copyFromUser mem keyPtr keyLen with
  | none => (badPointer.code, s)
  | some keyBytes =>
    match copyFromUser mem valPtr valLen with
    | none => (badPointer.code, s)
    | some valBytes =>
      match fromUtf8 keyBytes with
      | none => (invalidArgument.code, s)
      | some key =>
        match fromUtf8 valBytes with
        | none => (invalidArgument.code, s)
        | some value =>
          match s.withCurrentTaskMut cpu (setIn key value) with
          | none => (notFound.code, s)
          | some (_, s') => (0, s')

/-! ## The SDK -/

/-- How an SDK call ends; an error is the negative value the kernel returned. -/
inductive Ret (α : Type)
  | panicked
  | returned (r : Except Int α)
deriving DecidableEq

/-- User memory after a write. -/
def applyWrite (mem : UserMem) (w : UserWrite) : UserMem := fun a =>
  w.bytes.getD (a - w.dst).toNat (mem a)

/-- The bytes of user memory at an address. -/
def bytesAt (mem : UserMem) (ptr : Word) (len : Nat) : List Byte :=
  (range len).map fun i => mem (ptr + BitVec.ofNat 64 i)

/-- The length of a string, as the SDK passes it. -/
def strLen (s : String) : Word := BitVec.ofNat 64 (utf8Bytes s).length

/-- The size of the buffer of `env::get`. -/
def valBufLen : Nat := 1024

/-- `env::get`, with the addresses of the key and of the buffer: what it
    returns, and the user memory the kernel wrote. -/
def get (s : Scheduler) (cpu : Cpu) (mem : UserMem) (key : String) (keyPtr bufPtr : Word) :
    Ret (Option String) × Option UserWrite :=
  let reply := sysEnvGet s cpu mem keyPtr (strLen key) bufPtr (BitVec.ofNat 64 valBufLen)
  let mem' := match reply.write with
    | none => mem
    | some w => applyWrite mem w
  let r := if reply.ret < 0 then .returned (.error reply.ret)
    else if reply.ret = 0 then .returned (.ok none)
    -- the slice of the buffer
    else if valBufLen < reply.ret.toNat then .panicked
    else
      match fromUtf8 (bytesAt mem' bufPtr reply.ret.toNat) with
      | none => .returned (.error invalidArgument.code)
      | some value => .returned (.ok (some value))
  (r, reply.write)

/-- `env::set`, with the addresses of key and value. -/
def set (s : Scheduler) (cpu : Cpu) (mem : UserMem) (key value : String) (keyPtr valPtr : Word) :
    Ret Unit × Scheduler :=
  let q := sysEnvSet s cpu mem keyPtr (strLen key) valPtr (strLen value)
  (if q.1 < 0 then .returned (.error q.1) else .returned (.ok ()), q.2)

/-! ## Strings in user memory -/

/-- `len` bytes at `ptr` lie in user space. -/
structure InUser (ptr : Word) (len : Nat) : Prop where
  nonnull : ptr ≠ 0
  inside : ptr.toNat + len ≤ userSpaceMax

/-- The string is at this address. -/
structure Holds (mem : UserMem) (ptr : Word) (s : String) : Prop where
  inUser : InUser ptr (utf8Bytes s).length
  bytes : bytesAt mem ptr (utf8Bytes s).length = utf8Bytes s

theorem userRangeOk_iff (h : InUser ptr len) :
    userRangeOk ptr len = true ↔ 1 ≤ len ∧ len ≤ 4096 := by
  obtain ⟨hnull, hinside⟩ := h
  simp only [userRangeOk, ne_eq, hnull, not_false_eq_true, decide_true, Bool.true_and,
    Bool.and_eq_true, decide_eq_true_eq]
  simp only [maxMsgSize] at *
  omega

/-- The length of a string is one the kernel copies. -/
def CopyLen (s : String) : Prop := 1 ≤ (utf8Bytes s).length ∧ (utf8Bytes s).length ≤ 4096

theorem toNat_strLen (h : Holds mem ptr s) : (strLen s).toNat = (utf8Bytes s).length := by
  have hlt := h.inUser.inside
  simp only [userSpaceMax] at hlt
  rw [strLen, BitVec.toNat_ofNat]
  omega

theorem copyFromUser_str (h : Holds mem ptr s)
    (hlen : CopyLen s) : copyFromUser mem ptr (strLen s) = some (utf8Bytes s) := by
  rw [copyFromUser, toNat_strLen h, if_pos ((userRangeOk_iff h.inUser).mpr hlen)]
  exact congrArg some h.bytes

theorem copyFromUser_refused (h : Holds mem ptr s)
    (hlen : ¬ CopyLen s) : copyFromUser mem ptr (strLen s) = none := by
  rw [copyFromUser, toNat_strLen h, if_neg fun hr => hlen ((userRangeOk_iff h.inUser).mp hr)]

theorem bytesAt_applyWrite (mem : UserMem) (ptr : Word) (bytes : List Byte)
    (h : bytes.length < 2 ^ 64) :
    bytesAt (applyWrite mem ⟨ptr, bytes⟩) ptr bytes.length = bytes := by
  apply ext_getElem
  · simp [bytesAt]
  · intro i hi hi'
    have hoff : (ptr + BitVec.ofNat 64 i - ptr).toNat = i := by
      rw [BitVec.add_comm, BitVec.add_sub_cancel]
      exact Nat.mod_eq_of_lt (by omega)
    simp only [bytesAt, applyWrite, getElem_map, getElem_range, hoff]
    rw [getD_eq_getElem _ _ hi']

/-! ## What one call does -/

section Set

variable {s : Scheduler}
  (hkey : Holds mem keyPtr key) (hvalue : Holds mem valPtr value)

include hkey hvalue

theorem set_of_copyLen (hcur : s.withCurrentTask cpu = some t) (hk : CopyLen key)
    (hv : CopyLen value) :
    ∃ s', set s cpu mem key value keyPtr valPtr = (.returned (.ok ()), s') ∧
      s'.withCurrentTask cpu = some { t with env := insert t.env key value } := by
  obtain ⟨s', hmut, hupd⟩ := withCurrentTaskMut_of_current hcur (setIn key value) (fun _ => rfl)
  refine ⟨s', ?_, hupd.after⟩
  simp only [set, sysEnvSet, copyFromUser_str hkey hk, copyFromUser_str hvalue hv,
    fromUtf8_utf8Bytes, hmut]
  rfl

/-- unless one of the strings is empty or longer than 4096 bytes. -/
theorem set_refused (h : ¬ (CopyLen key ∧ CopyLen value)) :
    set s cpu mem key value keyPtr valPtr = (.returned (.error badPointer.code), s) := by
  have hbad : badPointer.code < 0 := code_lt_zero _
  by_cases hk : CopyLen key
  · have hv : ¬ CopyLen value := fun hv => h ⟨hk, hv⟩
    simp [set, sysEnvSet, copyFromUser_str hkey hk, copyFromUser_refused hvalue hv, if_pos hbad]
  · simp [set, sysEnvSet, copyFromUser_refused hkey hk, if_pos hbad]

end Set

section Get

variable {s : Scheduler} (hcur : s.withCurrentTask cpu = some t)
    (bufPtr : Word) (hkey : Holds mem keyPtr key)
  (hlen : CopyLen key)

include hcur hkey hlen

theorem sysEnvGet_eq (valLen : Word) :
    sysEnvGet s cpu mem keyPtr (strLen key) bufPtr valLen =
      match t.env.lookup key with
      | none => ⟨0, none⟩
      | some value =>
        match copyToUser bufPtr (utf8Bytes value) with
        | none => ⟨badPointer.code, none⟩
        | some w =>
          ⟨if (utf8Bytes value).length < 2 ^ 63 then ((utf8Bytes value).length : Int) else -1,
            some w⟩ := by
  simp [sysEnvGet, copyFromUser_str hkey hlen, fromUtf8_utf8Bytes, hcur]

theorem get_of_none (hnone : t.env.lookup key = none) :
    get s cpu mem key keyPtr bufPtr = (.returned (.ok none), none) := by
  simp only [get, sysEnvGet_eq hcur bufPtr hkey hlen, hnone]
  rfl

theorem get_of_fits (hsome : t.env.lookup key = some value) (hbuf : InUser bufPtr valBufLen)
    (hne : value ≠ "") (hfits : (utf8Bytes value).length ≤ valBufLen) :
    get s cpu mem key keyPtr bufPtr =
      (.returned (.ok (some value)), some ⟨bufPtr, utf8Bytes value⟩) := by
  have hpos : 1 ≤ (utf8Bytes value).length := by
    rwa [Nat.one_le_iff_ne_zero, ne_eq, length_eq_zero_iff, utf8Bytes_eq_nil]
  have hsmall : (utf8Bytes value).length ≤ 1024 := hfits
  have hin : InUser bufPtr (utf8Bytes value).length :=
    ⟨hbuf.nonnull, le_trans (by omega) hbuf.inside⟩
  have hcopy : copyToUser bufPtr (utf8Bytes value) = some ⟨bufPtr, utf8Bytes value⟩ := by
    rw [copyToUser, if_pos ((userRangeOk_iff hin).mpr ⟨hpos, by omega⟩)]
  have hret : (if (utf8Bytes value).length < 2 ^ 63 then ((utf8Bytes value).length : Int) else -1) =
      (utf8Bytes value).length := if_pos (by omega)
  simp only [get, sysEnvGet_eq hcur bufPtr hkey hlen, hsome, hcopy, hret]
  rw [if_neg (by omega), if_neg (by omega), Int.toNat_natCast, if_neg (by omega),
    bytesAt_applyWrite _ _ _ (by omega), fromUtf8_utf8Bytes]

/-- A longer one is not: the kernel copies it past the end of the buffer and the
    SDK panics, or the copy leaves user space and fails. -/
theorem get_of_long (hsome : t.env.lookup key = some value)
    (hlong : valBufLen < (utf8Bytes value).length) :
    (get s cpu mem key keyPtr bufPtr).1 = .returned (.error badPointer.code) ∨
      get s cpu mem key keyPtr bufPtr = (.panicked, some ⟨bufPtr, utf8Bytes value⟩) := by
  simp only [get, sysEnvGet_eq hcur bufPtr hkey hlen, hsome]
  by_cases hok : userRangeOk bufPtr (utf8Bytes value).length = true
  · right
    have hmax : (utf8Bytes value).length ≤ 4096 := by
      simp only [userRangeOk, Bool.and_eq_true, decide_eq_true_eq] at hok
      exact hok.1.1.2
    have hret : (if (utf8Bytes value).length < 2 ^ 63 then ((utf8Bytes value).length : Int)
        else -1) = (utf8Bytes value).length := if_pos (by omega)
    simp only [copyToUser, if_pos hok, hret]
    rw [if_neg (by omega), if_neg (by omega), Int.toNat_natCast, if_pos hlong]
  · left
    simp [copyToUser, if_neg hok, if_pos (code_lt_zero _)]

end Get

/-! ## Sequences of calls by one task -/

/-- A call, with the user memory and the addresses it is made with. -/
inductive Op
  | set (mem : UserMem) (key value : String) (keyPtr valPtr : Word)
  | get (mem : UserMem) (key : String) (keyPtr bufPtr : Word)

inductive Res
  | set (r : Ret Unit)
  | get (r : Ret (Option String)) (write : Option UserWrite)

def step (cpu : Cpu) : StepFn Scheduler Op Res
  | s, .set mem key value keyPtr valPtr =>
    let q := set s cpu mem key value keyPtr valPtr
    some (.set q.1, q.2)
  | s, .get mem key keyPtr bufPtr =>
    let q := get s cpu mem key keyPtr bufPtr
    some (.get q.1 q.2, s)

/-- The strings are where the call says, the key has 1 to 4096 bytes, and the
    buffer lies in user space. -/
def Op.Valid : Op → Prop
  | .set mem key value keyPtr valPtr => Holds mem keyPtr key ∧ Holds mem valPtr value
  | .get mem key keyPtr bufPtr =>
    Holds mem keyPtr key ∧ CopyLen key ∧ InUser bufPtr valBufLen

/-- The value of a key after a call, given the one before: an accepted `set`
    changes it, and one to the empty string unsets it. -/
def update (key : String) (value : Option String) (e : Transition Scheduler Op Res) :
    Option String :=
  match e.op, e.res with
  | .set _ key' new _ _, .set (.returned (.ok ())) =>
    if key' = key then if new = "" then none else some new else value
  | _, _ => value

section

variable (env₀ : List (String × String)) (tr : List (Transition Scheduler Op Res))

/-- The value most recently set for a key, from the environment at the start. -/
def lastValue (key : String) : Option String := tr.foldl (update key) (env₀.lookup key)

/-- The write lies within the buffer. -/
def Within (bufPtr : Word) (write : Option UserWrite) : Prop :=
  ∀ w, write = some w → bufPtr.toNat ≤ w.dst.toNat ∧
    w.dst.toNat + w.bytes.length ≤ bufPtr.toNat + valBufLen

/-- Every `get` returns the value most recently set, without a panic, and the
    kernel writes into the buffer only. -/
def BehavesAsMap : Prop :=
  ∀ tr₁ e, tr₁ ++ [e] <+: tr → ∀ mem key keyPtr bufPtr, e.op = .get mem key keyPtr bufPtr →
    ∃ write, e.res = .get (.returned (.ok (lastValue env₀ tr₁ key))) write ∧ Within bufPtr write

/-- The value of a key that is looked up fits the SDK's buffer. -/
def FitsBuffer : Prop :=
  ∀ tr₁ e, tr₁ ++ [e] <+: tr → ∀ mem key keyPtr bufPtr, e.op = .get mem key keyPtr bufPtr →
    ∀ value, lastValue env₀ tr₁ key = some value → (utf8Bytes value).length ≤ valBufLen

end

/-- The values of an environment are not empty. -/
def NoEmpty (env : List (String × String)) : Prop := ∀ key value, env.lookup key = some value →
  value ≠ ""

/-- The environment of the current task is what the calls have made of it. -/
structure Tracks (cpu : Cpu) (env₀ : List (String × String))
    (tr : List (Transition Scheduler Op Res)) (s : Scheduler) : Prop where
  current : ∃ t, s.withCurrentTask cpu = some t ∧ ∀ key, t.env.lookup key = lastValue env₀ tr key
  nonempty : ∀ key value, lastValue env₀ tr key = some value → value ≠ ""

theorem lastValue_concat (env₀ : List (String × String)) (tr : List (Transition Scheduler Op Res))
    (e : Transition Scheduler Op Res) (key : String) :
    lastValue env₀ (tr ++ [e]) key = update key (lastValue env₀ tr key) e := by
  rw [lastValue, foldl_append]
  rfl

theorem tracks_step (h : Tracks cpu env₀ tr s)
    (hstep : step cpu s op = some (r, s')) (hvalid : op.Valid) :
    Tracks cpu env₀ (tr ++ [⟨s, op, r, s'⟩]) s' := by
  obtain ⟨⟨t, hcur, henv⟩, hne⟩ := h
  cases op with
  | get mem key keyPtr bufPtr =>
    cases hstep
    refine ⟨⟨t, hcur, fun key' => ?_⟩, fun key' value => ?_⟩
    · rw [henv, lastValue_concat]
      rfl
    · rw [lastValue_concat]
      exact hne key' value
  | set mem key value keyPtr valPtr =>
    cases hstep
    by_cases hlen : CopyLen key ∧ CopyLen value
    · obtain ⟨s', hok, hcur'⟩ := set_of_copyLen hvalid.1 hvalid.2 hcur hlen.1 hlen.2
      have hvalue : value ≠ "" := by
        rintro rfl
        exact absurd hlen.2.1 (by decide)
      rw [hok]
      -- the key that was set, and the others
      have hlast : ∀ key', lastValue env₀ (tr ++ [⟨s, .set mem key value keyPtr valPtr,
          .set (.returned (.ok ())), s'⟩]) key' =
          if key = key' then some value else lastValue env₀ tr key' := by
        intro key'
        rw [lastValue_concat]
        simp [update, if_neg hvalue]
      refine ⟨⟨_, hcur', fun key' => ?_⟩, fun key' value' => ?_⟩
      · rw [hlast]
        split
        · rename_i heq
          subst heq
          exact lookup_insert_self _ _ _
        · rename_i hne'
          exact (lookup_insert_of_ne _ _ (Ne.symm hne')).trans (henv key')
      · rw [hlast]
        split
        · intro heq
          rwa [← Option.some.inj heq]
        · exact hne key' value'
    · rw [set_refused hvalid.1 hvalid.2 hlen]
      refine ⟨⟨t, hcur, fun key' => ?_⟩, fun key' value' => ?_⟩
      · rw [henv, lastValue_concat]
        rfl
      · rw [lastValue_concat]
        exact hne key' value'

theorem tracks_of_run (hcur : s₀.withCurrentTask cpu = some t)
    (henv : NoEmpty t.env) (hrun : Run (step cpu) s₀ tr s) (hvalid : ∀ e ∈ tr, e.op.Valid) :
    Tracks cpu t.env tr s := by
  refine Run.invariant_of_guard ?_ ?_ hrun
    (Run.guard_of_forall_mem hvalid)
  · exact ⟨⟨t, hcur, fun _ => rfl⟩, henv⟩
  · intro tr s op r s' hI hstep hG
    exact tracks_step hI hstep hG

/-- A `get` behaves exactly when the value, if there is one, fits the buffer. -/
theorem get_lawful_iff (h : Tracks cpu env₀ tr s) (hvalid : (Op.get mem key keyPtr bufPtr).Valid) :
    ((get s cpu mem key keyPtr bufPtr).1 = .returned (.ok (lastValue env₀ tr key)) ∧
        Within bufPtr (get s cpu mem key keyPtr bufPtr).2) ↔
      ∀ value, lastValue env₀ tr key = some value → (utf8Bytes value).length ≤ valBufLen := by
  obtain ⟨⟨t, hcur, henv⟩, hne⟩ := h
  obtain ⟨hkey, hlen, hbuf⟩ := hvalid
  rw [← henv key]
  cases hlookup : t.env.lookup key with
  | none =>
    rw [get_of_none hcur bufPtr hkey hlen hlookup]
    exact ⟨fun _ _ => nofun, fun _ => ⟨rfl, fun _ => nofun⟩⟩
  | some value =>
    have hvalue : value ≠ "" := hne key value (by rw [← henv, hlookup])
    constructor
    · rintro ⟨hres, -⟩ value' hsome
      cases hsome
      by_contra hlong
      rw [Nat.not_le] at hlong
      rcases get_of_long hcur bufPtr hkey hlen hlookup hlong with herr | hpanic
      · rw [herr] at hres
        cases hres
      · rw [hpanic] at hres
        cases hres
    · intro hfits
      rw [get_of_fits hcur bufPtr hkey hlen hlookup hbuf hvalue (hfits value rfl)]
      refine ⟨rfl, fun w hw => ?_⟩
      cases hw
      exact ⟨le_refl _, Nat.add_le_add_left (hfits value rfl) _⟩

/-- The environment behaves as a map in exactly the runs in which no value
    longer than the SDK's buffer is looked up. -/
theorem behavesAsMap_iff_fitsBuffer {cpu : Cpu} {s₀ s : Scheduler} {t : Task}
    {tr : List (Transition Scheduler Op Res)} (hcur : s₀.withCurrentTask cpu = some t)
    (henv : NoEmpty t.env) (hrun : Run (step cpu) s₀ tr s) (hvalid : ∀ e ∈ tr, e.op.Valid) :
    BehavesAsMap t.env tr ↔ FitsBuffer t.env tr := by
  have hget : ∀ tr₁ e, tr₁ ++ [e] <+: tr → ∀ mem key keyPtr bufPtr,
      e.op = .get mem key keyPtr bufPtr →
      ((∃ write, e.res = .get (.returned (.ok (lastValue t.env tr₁ key))) write ∧
        Within bufPtr write) ↔
      ∀ value, lastValue t.env tr₁ key = some value → (utf8Bytes value).length ≤ valBufLen) := by
    intro tr₁ e hpre mem key keyPtr bufPtr hop
    obtain ⟨s₁, hrun₁⟩ := hrun.of_isPrefix hpre
    obtain ⟨hrun₁, hstep, -⟩ := hrun₁.of_concat
    have htracks := tracks_of_run hcur henv hrun₁ fun e' he' =>
      hvalid e' (hpre.subset (mem_append_left _ he'))
    have hop' := hvalid e (hpre.subset (by simp))
    rw [hop] at hstep hop'
    have hres := (Prod.mk.inj (Option.some.inj hstep)).1
    rw [← get_lawful_iff htracks hop', ← hres]
    constructor
    · rintro ⟨write, heq, hwithin⟩
      obtain ⟨h₁, h₂⟩ := Res.get.inj heq
      exact ⟨h₁, h₂ ▸ hwithin⟩
    · rintro ⟨h₁, h₂⟩
      exact ⟨_, by rw [h₁], h₂⟩
  constructor
  · intro h tr₁ e hpre mem key keyPtr bufPtr hop
    exact (hget tr₁ e hpre mem key keyPtr bufPtr hop).mp (h tr₁ e hpre mem key keyPtr bufPtr hop)
  · intro h tr₁ e hpre mem key keyPtr bufPtr hop
    exact (hget tr₁ e hpre mem key keyPtr bufPtr hop).mpr (h tr₁ e hpre mem key keyPtr bufPtr hop)

theorem noEmpty_defaultEnv : NoEmpty defaultEnv := by
  intro key value h
  have hall : ∀ q ∈ defaultEnv, q.2 ≠ "" := by decide
  obtain ⟨l₁, l₂, heq, -⟩ := lookup_eq_some_iff.mp h
  exact hall (key, value) (by rw [heq]; simp)

/-- The booted system, whose idle task is the current one. -/
def booted : Scheduler := empty.init 1 idleContext

/-- User memory with the letter k at 0x1000 and the letter a everywhere else. -/
def letters : UserMem := fun a => if a = 0x1000 then 0x6b else 0x61

theorem utf8Bytes_replicate (n : Nat) :
    utf8Bytes (String.ofList (replicate n 'a')) = replicate n 0x61 := by
  induction n with
  | zero => rfl
  | succ n ih =>
    rw [replicate_succ, String.ofList_cons, utf8Bytes_append, ih]
    rfl

/-- A value of `n` letters. -/
def lettersValue (n : Nat) : String := String.ofList (replicate n 'a')

theorem holds_key : Holds letters 0x1000 "k" := ⟨⟨by decide, by decide⟩, by rfl⟩

theorem holds_lettersValue (hn : n ≤ 4096) : Holds letters 0x2000 (lettersValue n) := by
  have hbytes : utf8Bytes (lettersValue n) = replicate n 0x61 := utf8Bytes_replicate n
  have hptr : (0x2000 : Word).toNat = 0x2000 := by decide
  constructor
  · refine ⟨by decide, ?_⟩
    rw [hbytes, length_replicate, userSpaceMax]
    omega
  · rw [hbytes]
    apply ext_getElem
    · simp [bytesAt]
    · intro i hi hi'
      have hlt : i < n := by simpa [bytesAt] using hi
      have hne : (0x2000 : Word) + BitVec.ofNat 64 i ≠ 0x1000 := by
        intro h
        have hnat := congrArg BitVec.toNat h
        rw [BitVec.toNat_add, BitVec.toNat_ofNat] at hnat
        have hval : (0x1000 : Word).toNat = 0x1000 := by decide
        omega
      simp only [bytesAt, letters, getElem_map, getElem_range, getElem_replicate, if_neg hne]

/-- The key k is set to a value of `n` letters and looked up. -/
def setThenGet (n : Nat) : List Op :=
  [.set letters "k" (lettersValue n) 0x1000 0x2000, .get letters "k" 0x1000 0x8000]

theorem valid_setThenGet (hn : n ≤ 4096) : ∀ op ∈ setThenGet n, op.Valid := by
  simp only [setThenGet, forall_mem_cons]
  refine ⟨⟨holds_key, holds_lettersValue hn⟩,
    ⟨holds_key, ⟨by decide, by decide⟩, by decide, by decide⟩, ?_⟩
  exact fun _ => nofun

/-- The idle task. -/
def idle : Task := { Task.new 1 0 with context := some idleContext }

theorem current_booted : booted.withCurrentTask bootCpu = some idle := rfl

theorem behavesAsMap_iff_fitsBuffer_letters :
    ∃ tr s, Run (step bootCpu) booted tr s ∧ tr.map Transition.op = setThenGet 3 ∧
      (BehavesAsMap idle.env tr ↔ FitsBuffer idle.env tr) := by
  have hrun := exec_run (step bootCpu) booted (setThenGet 3) rfl
  refine ⟨_, _, hrun, rfl, behavesAsMap_iff_fitsBuffer current_booted noEmpty_defaultEnv hrun ?_⟩
  intro e he
  exact valid_setThenGet (by decide) e.op (mem_map_of_mem he)

/-- A value of 1025 bytes is accepted, the kernel writes 1025 bytes into the
    buffer of 1024, and `env::get` panics. -/
theorem get_long_value_panics :
    ∃ s, set booted bootCpu letters "k" (lettersValue 1025) 0x1000 0x2000 =
        (.returned (.ok ()), s) ∧
      get s bootCpu letters "k" 0x1000 0x8000 =
        (.panicked, some ⟨0x8000, replicate 1025 0x61⟩) := by
  have hbytes : utf8Bytes (lettersValue 1025) = replicate 1025 0x61 := utf8Bytes_replicate 1025
  have hlen : CopyLen (lettersValue 1025) := by
    rw [CopyLen, hbytes, length_replicate]
    decide
  have hkey : CopyLen "k" := ⟨by decide, by decide⟩
  obtain ⟨s, hset, hcur⟩ :=
    set_of_copyLen holds_key (holds_lettersValue (by decide)) current_booted hkey hlen
  refine ⟨s, hset, ?_⟩
  simp only [get, sysEnvGet_eq hcur 0x8000 holds_key hkey, lookup_insert_self, hbytes, copyToUser,
    length_replicate]
  rfl

end OpenOS.Env
