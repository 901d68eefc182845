/-
  The list of tasks: `scheduler::list_tasks` and `sys_list_tasks` of the kernel
  (kernel/src/task/scheduler.rs, kernel/src/syscall/mod.rs) and the SDK's
  `process::list_tasks` (sdk/src/lib.rs), which decodes the entries.

  The kernel copies every name to offset 12 of the buffer, not of the entry, so
  only the first entry has a name; the SDK reads 32 bytes of name from an entry
  with room for 28, and so past the end of a buffer that is full.
-/

import OpenOS.Base.Overwrite
import OpenOS.Sdk.Env

namespace OpenOS.TaskList

open Base Env List Option Word Nat SysError
open BitVec (ofNat)

/-! ## The kernel -/

/-- TASK_ENTRY_SIZE -/
def taskEntrySize : Nat := 40

structure TaskInfo where
  id : Word
  /-- `[u8; 32]` -/
  name : List Byte
  nameLen : BitVec 8
  state : TaskState
  priority : BitVec 8
  length_name : name.length = 32
  nameLen_le : nameLen.toNat ≤ 32

/-- The name, cut to 32 bytes and padded with zeros. -/
def taskInfo (t : Task) : TaskInfo where
  id := t.id
  name := padTo 0 32 ((utf8Bytes t.name).take 32)
  nameLen := ofNat 8 (min (utf8Bytes t.name).length 32)
  state := t.state
  priority := t.priority
  length_name := by
    rw [length_padTo, length_take]
    omega
  nameLen_le := by
    rw [BitVec.toNat_ofNat]
    omega

def listTasks (s : Scheduler) : List TaskInfo :=
  ((finRange 8).flatMap fun cpu => (s.cpus cpu).ready.map taskInfo) ++
    s.blocked.map taskInfo ++ s.migration.map taskInfo

/-- `&task.name[..task.name_len]` -/
def TaskInfo.nameBytes (t : TaskInfo) : List Byte := t.name.take t.nameLen.toNat

/-- The state as a number. -/
def stateByte : TaskState → Byte
  | .ready => 0
  | .running => 1
  | .blocked => 2
  | .terminated => 3

/-- One round of the loop of `sys_list_tasks`.  The name goes to offset 12 of the
    buffer, whichever the entry. -/
def encodeEntry (buf : List Byte) (i : Nat) (t : TaskInfo) : Option (List Byte) :=
  let base := i * taskEntrySize
  (copyAt buf base (toLeBytes t.id)).bind fun buf =>
    (copyAt buf (base + 8) [stateByte t.state]).bind fun buf =>
      (copyAt buf (base + 9) [t.priority]).bind fun buf => copyAt buf 12 t.nameBytes

/-- The loop of `sys_list_tasks`, from entry `i` on. -/
def encodeFrom : List Byte → Nat → List TaskInfo → Option (List Byte)
  | buf, _, [] => some buf
  | buf, i, t :: ts => (encodeEntry buf i t).bind fun buf => encodeFrom buf (i + 1) ts

/-- The buffer of `sys_list_tasks` after the loop. -/
def encodeTasks (ts : List TaskInfo) : Option (List Byte) :=
  encodeFrom (replicate (ts.length * taskEntrySize) 0) 0 ts

/-- `sys_list_tasks`; `none` when it panics. -/
def sysListTasks (s : Scheduler) (bufPtr bufLen : Word) : Option Reply :=
  if bufPtr = 0 ∨ userSpaceMax ≤ bufPtr.toNat then some ⟨badPointer.code, none⟩
  else if userSpaceMax < min (bufPtr.toNat + bufLen.toNat) (2 ^ 64 - 1) then
    some ⟨badPointer.code, none⟩
  else
    let tasks := listTasks s
    let required := tasks.length * taskEntrySize
    if bufLen.toNat < required then some ⟨tasks.length, none⟩
    else
      (encodeFrom (replicate required 0) 0 tasks).map fun buf =>
        match copyToUser bufPtr buf with
        | some w => ⟨tasks.length, some w⟩
        | none => ⟨badPointer.code, none⟩

/-! ## The SDK -/

/-- `process::TaskInfo` -/
structure Info where
  id : Word
  state : TaskState
  priority : BitVec 8
  name : String
deriving DecidableEq

/-- The number as a state; every other one is `Ready`. -/
def stateOf (b : Byte) : TaskState :=
  if b = 0 then .ready
  else if b = 1 then .running
  else if b = 2 then .blocked
  else if b = 3 then .terminated
  else .ready

/-- The name in a field that is padded with zeros, or "?". -/
def decodeName (field : List Byte) : String :=
  (fromUtf8 (field.takeWhile fun b => decide (b ≠ 0))).getD "?"

/-- The task in entry `i`, when the ranges are inside the buffer. -/
def infoAt (buf : List Byte) (i : Nat) : Info where
  id := fromLeBytes (window buf (i * taskEntrySize) 8)
  state := stateOf (buf.getD (i * taskEntrySize + 8) 0)
  priority := buf.getD (i * taskEntrySize + 9) 0
  name := decodeName (window buf (i * taskEntrySize + 12) 32)

/-- One round of the loop of `parse_task_entries`, for an entry inside the buffer.
    The slice of 32 bytes for the name panics when it is not. -/
def decodeEntry (buf : List Byte) (i : Nat) : Option Info :=
  if i * taskEntrySize + 44 ≤ buf.length then some (infoAt buf i) else none

/-- The loop of `parse_task_entries`: so many more entries, from `i` on. -/
def parseFrom (buf : List Byte) : Nat → Nat → Option (List Info)
  | _, 0 => some []
  | i, n + 1 =>
    if buf.length < i * taskEntrySize + taskEntrySize then some []
    else
      match decodeEntry buf i with
      | none => none
      | some info => (parseFrom buf (i + 1) n).map (info :: ·)

def parseTaskEntries (buf : List Byte) (count : Nat) : Ret (List Info) :=
  match parseFrom buf 0 count with
  | none => .panicked
  | some infos => .returned (.ok infos)

/-- A new buffer of zeros, after the system call. -/
def received (mem : UserMem) (ptr : Word) (len : Nat) (write : Option UserWrite) : List Byte :=
  let mem := applyWrite mem ⟨ptr, replicate len 0⟩
  let mem := match write with
    | none => mem
    | some w => applyWrite mem w
  bytesAt mem ptr len

/-- The size of the first buffer: 64 entries. -/
def firstBufLen : Nat := 64 * taskEntrySize

/-- `process::list_tasks`, with the addresses of its two buffers. -/
def processListTasks (s : Scheduler) (mem : UserMem) (bufPtr bigPtr : Word) : Ret (List Info) :=
  match sysListTasks s bufPtr (ofNat 64 firstBufLen) with
  | none => .panicked
  | some reply =>
    if reply.ret < 0 then .returned (.error reply.ret)
    else
      let needed := reply.ret.toNat * taskEntrySize
      if firstBufLen < needed then
        match sysListTasks s bigPtr (ofNat 64 needed) with
        | none => .panicked
        | some reply' =>
          if reply'.ret < 0 then .returned (.error reply'.ret)
          else parseTaskEntries (received mem bigPtr needed reply'.write) reply'.ret.toNat
      else parseTaskEntries (received mem bufPtr firstBufLen reply.write) reply.ret.toNat

/-! ## What the kernel writes -/

theorem TaskInfo.length_nameBytes (t : TaskInfo) : t.nameBytes.length = t.nameLen.toNat := by
  rw [TaskInfo.nameBytes, length_take, t.length_name, min_eq_left t.nameLen_le]

theorem encodeEntry_eq_some (h : encodeEntry buf i t = some b) :
    ∃ b₁ b₂ b₃, copyAt buf (i * taskEntrySize) (toLeBytes t.id) = some b₁ ∧
      copyAt b₁ (i * taskEntrySize + 8) [stateByte t.state] = some b₂ ∧
      copyAt b₂ (i * taskEntrySize + 9) [t.priority] = some b₃ ∧
      copyAt b₃ 12 t.nameBytes = some b := by
  obtain ⟨b₁, h₁, hrest⟩ := bind_eq_some_iff.mp h
  obtain ⟨b₂, h₂, hrest⟩ := bind_eq_some_iff.mp hrest
  obtain ⟨b₃, h₃, h₄⟩ := bind_eq_some_iff.mp hrest
  exact ⟨b₁, b₂, b₃, h₁, h₂, h₃, h₄⟩

theorem length_encodeEntry (h : encodeEntry buf i t = some b) : b.length = buf.length := by
  obtain ⟨b₁, b₂, b₃, h₁, h₂, h₃, h₄⟩ := encodeEntry_eq_some h
  rw [length_of_copyAt h₄, length_of_copyAt h₃, length_of_copyAt h₂, length_of_copyAt h₁]

/-- The name of the entry does not reach into the window. -/
def NameBeside (t : TaskInfo) (p n : Nat) : Prop :=
  t.nameBytes = [] ∨ p + n ≤ 12 ∨ 12 + t.nameBytes.length ≤ p

theorem window_copyName (h : copyAt buf 12 t.nameBytes = some b) (hname : NameBeside t p n) :
    window b p n = window buf p n := by
  rcases hname with hnil | hdisj
  · rw [hnil] at h
    rw [eq_of_copyAt_nil h]
  · exact window_copyAt_of_disjoint h hdisj

/-- An entry writes its first ten bytes and the name at offset 12. -/
theorem window_encodeEntry_of_disjoint (h : encodeEntry buf i t = some b)
    (hbase : p + n ≤ i * taskEntrySize ∨ i * taskEntrySize + 10 ≤ p) (hname : NameBeside t p n) :
    window b p n = window buf p n := by
  obtain ⟨b₁, b₂, b₃, h₁, h₂, h₃, h₄⟩ := encodeEntry_eq_some h
  have hid := t.id.length_toLeBytes
  rw [window_copyName h₄ hname, window_copyAt_of_disjoint h₃ (by rw [length_singleton]; omega),
    window_copyAt_of_disjoint h₂ (by rw [length_singleton]; omega),
    window_copyAt_of_disjoint h₁ (by rw [hid]; omega)]

/-- The numbers of a task are in the first ten bytes of its entry. -/
structure Header (buf : List Byte) (i : Nat) (t : TaskInfo) : Prop where
  id : window buf (i * taskEntrySize) 8 = toLeBytes t.id
  state : window buf (i * taskEntrySize + 8) 1 = [stateByte t.state]
  priority : window buf (i * taskEntrySize + 9) 1 = [t.priority]

/-- A header is in every buffer with the same ten bytes. -/
theorem Header.congr (h : Header buf i t) (hsame : ∀ p n, i * taskEntrySize ≤ p →
    p + n ≤ i * taskEntrySize + 10 → window b p n = window buf p n) : Header b i t :=
  ⟨(hsame _ _ (by omega) (by omega)).trans h.id, (hsame _ _ (by omega) (by omega)).trans h.state,
    (hsame _ _ (by omega) (by omega)).trans h.priority⟩

theorem header_encodeEntry (h : encodeEntry buf i t = some b)
    (hname : t.nameBytes = [] ∨ i = 0 ∨ 2 ≤ i) : Header b i t := by
  obtain ⟨b₁, b₂, b₃, h₁, h₂, h₃, h₄⟩ := encodeEntry_eq_some h
  have hbase : i * taskEntrySize = i * 40 := rfl
  have hle : t.nameBytes.length ≤ 32 := t.length_nameBytes ▸ t.nameLen_le
  have hbeside : ∀ p n, i * taskEntrySize ≤ p → p + n ≤ i * taskEntrySize + 10 →
      NameBeside t p n := by
    intro p n hlo hhi
    rw [NameBeside]
    rcases hname with hnil | rfl | htwo
    · exact .inl hnil
    · omega
    · omega
  refine ⟨?_, ?_, ?_⟩
  · rw [window_copyName h₄ (hbeside _ _ (by omega) (by omega)),
      window_copyAt_of_disjoint h₃ (by omega), window_copyAt_of_disjoint h₂ (by omega)]
    exact window_copyAt_self h₁
  · rw [window_copyName h₄ (hbeside _ _ (by omega) (by omega)),
      window_copyAt_of_disjoint h₃ (by omega)]
    exact window_copyAt_self h₂
  · rw [window_copyName h₄ (hbeside _ _ (by omega) (by omega))]
    exact window_copyAt_self h₃

theorem window_name_encodeEntry (h : encodeEntry buf i t = some b) :
    window b 12 t.nameBytes.length = t.nameBytes := by
  obtain ⟨b₁, b₂, b₃, -, -, -, h₄⟩ := encodeEntry_eq_some h
  exact window_copyAt_self h₄

theorem exists_encodeEntry (hbase : i * taskEntrySize + 10 ≤ buf.length)
    (hname : 12 + t.nameBytes.length ≤ buf.length) : ∃ b, encodeEntry buf i t = some b := by
  have hid := t.id.length_toLeBytes
  obtain ⟨b₁, h₁⟩ : ∃ b₁, copyAt buf (i * taskEntrySize) (toLeBytes t.id) = some b₁ :=
    exists_copyAt (by omega)
  have hlen₁ := length_of_copyAt h₁
  obtain ⟨b₂, h₂⟩ : ∃ b₂, copyAt b₁ (i * taskEntrySize + 8) [stateByte t.state] = some b₂ :=
    exists_copyAt (by rw [length_singleton]; omega)
  have hlen₂ := length_of_copyAt h₂
  obtain ⟨b₃, h₃⟩ : ∃ b₃, copyAt b₂ (i * taskEntrySize + 9) [t.priority] = some b₃ :=
    exists_copyAt (by rw [length_singleton]; omega)
  have hlen₃ := length_of_copyAt h₃
  obtain ⟨b, h₄⟩ : ∃ b, copyAt b₃ 12 t.nameBytes = some b := exists_copyAt (by omega)
  refine ⟨b, ?_⟩
  simp [encodeEntry, h₁, h₂, h₃, h₄]

/-- A name that is longer than the buffer has room for panics. -/
theorem encodeEntry_eq_none (hname : buf.length < 12 + t.nameBytes.length) :
    encodeEntry buf i t = none := by
  rw [eq_none_iff_forall_ne_some]
  intro b h
  obtain ⟨b₁, b₂, b₃, h₁, h₂, h₃, h₄⟩ := encodeEntry_eq_some h
  have hlen : b₃.length = buf.length := by
    rw [length_of_copyAt h₃, length_of_copyAt h₂, length_of_copyAt h₁]
  rw [copyAt, if_neg (by omega)] at h₄
  cases h₄

theorem encodeFrom_cons (h : encodeFrom buf i (t :: ts) = some b) :
    ∃ b₁, encodeEntry buf i t = some b₁ ∧ encodeFrom b₁ (i + 1) ts = some b :=
  bind_eq_some_iff.mp h

theorem length_encodeFrom (h : encodeFrom buf i ts = some b) : b.length = buf.length := by
  induction ts generalizing buf i with
  | nil =>
    cases h
    rfl
  | cons t ts ih =>
    obtain ⟨b₁, hentry, hrest⟩ := encodeFrom_cons h
    rw [ih hrest, length_encodeEntry hentry]

theorem window_encodeFrom_of_disjoint (h : encodeFrom buf i ts = some b)
    (hbase : ∀ j, i ≤ j → p + n ≤ j * taskEntrySize ∨ j * taskEntrySize + 10 ≤ p)
    (hname : ∀ t ∈ ts, NameBeside t p n) : window b p n = window buf p n := by
  induction ts generalizing buf i with
  | nil =>
    cases h
    rfl
  | cons t ts ih =>
    obtain ⟨b₁, hentry, hrest⟩ := encodeFrom_cons h
    rw [ih hrest (fun j hj => hbase j (by omega)) fun u hu => hname u (mem_cons_of_mem t hu),
      window_encodeEntry_of_disjoint hentry (hbase i (le_refl i)) (hname t mem_cons_self)]

theorem exists_encodeFrom (hlen : (i + ts.length) * taskEntrySize ≤ buf.length)
    (hname : ∀ t ∈ ts, 12 + t.nameBytes.length ≤ buf.length) :
    ∃ b, encodeFrom buf i ts = some b := by
  have hsize : taskEntrySize = 40 := rfl
  induction ts generalizing buf i with
  | nil => exact ⟨buf, rfl⟩
  | cons t ts ih =>
    rw [length_cons, hsize] at hlen
    obtain ⟨b₁, hentry⟩ := exists_encodeEntry (i := i) (by rw [hsize]; omega)
      (hname t mem_cons_self)
    have hb₁ := length_encodeEntry hentry
    obtain ⟨b, hrest⟩ : ∃ b, encodeFrom b₁ (i + 1) ts = some b := by
      apply ih
      · rw [hsize]
        omega
      · intro u hu
        rw [hb₁]
        exact hname u (mem_cons_of_mem t hu)
    exact ⟨b, bind_eq_some_iff.mpr ⟨b₁, hentry, hrest⟩⟩

/-- The entries of tasks with no name, from `i` on. -/
theorem header_encodeFrom (h : encodeFrom buf i ts = some b) (hname : ∀ t ∈ ts, t.nameBytes = [])
    (hj : j < ts.length) : Header b (i + j) ts[j] := by
  induction ts generalizing buf i j with
  | nil => cases hj
  | cons t ts ih =>
    obtain ⟨b₁, hentry, hrest⟩ := encodeFrom_cons h
    have hts : ∀ u ∈ ts, u.nameBytes = [] := fun u hu => hname u (mem_cons_of_mem t hu)
    cases j with
    | zero =>
      -- the later entries are behind this one
      refine (header_encodeEntry hentry (.inl (hname t mem_cons_self))).congr ?_
      intro p n _ hp
      apply window_encodeFrom_of_disjoint hrest
      · intro j hj
        have hle : (i + 1) * taskEntrySize ≤ j * taskEntrySize := mul_le_mul_right _ hj
        have hsize : taskEntrySize = 40 := rfl
        rw [add_mul] at hle
        omega
      · intro u hu
        exact .inl (hts u hu)
    | succ j =>
      have hlater := ih hrest hts (lt_of_succ_lt_succ hj)
      rwa [add_assoc, add_comm 1 j] at hlater

/-! ## What the SDK reads -/

section Decode

variable {count : Nat}

/-- The slice for a name that goes past the end of the buffer panics. -/
theorem parseFrom_eq_none (hlo : i ≤ j) (hhi : j < i + count)
    (hin : j * taskEntrySize + taskEntrySize ≤ buf.length)
    (hout : buf.length < j * taskEntrySize + 44) : parseFrom buf i count = none := by
  induction count generalizing i with
  | zero => omega
  | succ count ih =>
    have hle : i * taskEntrySize ≤ j * taskEntrySize := mul_le_mul_right _ hlo
    rw [parseFrom, if_neg (by omega)]
    by_cases heq : i = j
    · subst heq
      rw [decodeEntry, if_neg (by omega)]
    split
    · rfl
    · rw [ih (by omega) (by omega)]
      rfl

theorem parseFrom_eq_some (h : ∀ j, j < count → (i + j) * taskEntrySize + 44 ≤ buf.length) :
    parseFrom buf i count = some ((range count).map fun j => infoAt buf (i + j)) := by
  have hsize : taskEntrySize = 40 := rfl
  induction count generalizing i with
  | zero => rfl
  | succ count ih =>
    have hfirst : i * taskEntrySize + 44 ≤ buf.length := h 0 (by omega)
    have hrest : ∀ j, j < count → (i + 1 + j) * taskEntrySize + 44 ≤ buf.length := by
      intro j hj
      have hnext := h (j + 1) (by omega)
      rwa [add_comm j 1, ← add_assoc] at hnext
    rw [parseFrom, if_neg (by omega), decodeEntry, if_pos hfirst, ih hrest,
      range_succ_eq_map, map_cons, List.map_map]
    simp only [map_some, add_zero, some.injEq, cons.injEq, true_and]
    apply map_congr_left
    intro j _
    rw [Function.comp_apply, succ_eq_add_one, add_comm j 1, add_assoc]

/-- The kernel's bytes, and zeros behind them. -/
theorem received_eq (mem : UserMem) (ptr : Word) (bytes : List Byte) (hlen : bytes.length ≤ len)
    (hlt : len < 2 ^ 64) :
    received mem ptr len (some ⟨ptr, bytes⟩) = bytes ++ replicate (len - bytes.length) 0 := by
  apply ext_getElem
  · simp only [received, bytesAt, length_map, length_range, length_append, length_replicate]
    omega
  · intro j hj hj'
    have hjlen : j < len := by
      simpa only [received, bytesAt, length_map, length_range] using hj
    have hoff : (ptr + ofNat 64 j - ptr).toNat = j := by
      rw [BitVec.add_comm, BitVec.add_sub_cancel]
      exact mod_eq_of_lt (by omega)
    simp only [received, bytesAt, applyWrite, getElem_map, getElem_range, hoff]
    by_cases hin : j < bytes.length
    · rw [getElem_append_left hin, getD_eq_getElem _ _ hin]
    rw [getElem_append_right (by omega), getElem_replicate, getD_eq_default _ _ (by omega),
      getD_eq_getElem _ _ (by rw [length_replicate]; exact hjlen), getElem_replicate]

theorem stateOf_stateByte (state : TaskState) : stateOf (stateByte state) = state := by
  cases state <;> rfl

/-- The name field starts with `x`, and with a zero behind it if there is room: it
    reads as `x` if that is a text with no zero, and nothing follows it. -/
theorem utf8Bytes_decodeName_iff (hshort : x.length < 28 → ∃ tail, rest = 0 :: tail) :
    utf8Bytes (decodeName (x ++ rest)) = x ↔
      0 ∉ x ∧ (fromUtf8 x).isSome ∧ (rest.takeWhile fun b => decide (b ≠ 0)) = [] := by
  have hcut : 0 ∉ x → (x ++ rest).takeWhile (fun b => decide (b ≠ 0)) =
      x ++ rest.takeWhile fun b => decide (b ≠ 0) := by
    intro hx
    apply takeWhile_append_of_pos
    intro b hb
    rw [decide_eq_true_eq]
    rintro rfl
    exact hx hb
  constructor
  · intro h
    cases hutf : fromUtf8 ((x ++ rest).takeWhile fun b => decide (b ≠ 0)) with
    | some s =>
      rw [decodeName, hutf, getD_some, utf8Bytes_of_fromUtf8 hutf] at h
      have hzero : 0 ∉ x := by
        intro hmem
        rw [← h] at hmem
        have hne := all_eq_true.mp all_takeWhile 0 hmem
        exact absurd rfl (of_decide_eq_true hne)
      rw [h] at hutf
      rw [hcut hzero] at h
      exact ⟨hzero, by rw [hutf, isSome_some], append_right_eq_self.mp h⟩
    | none =>
      -- a name that reads as "?" is that text
      rw [decodeName, hutf] at h
      have hx : x = [0x3f] := by
        rw [← h]
        decide +kernel
      subst hx
      obtain ⟨tail, rfl⟩ := hshort (by decide)
      have htake : (([0x3f] ++ 0 :: tail : List Byte).takeWhile fun b => decide (b ≠ 0)) =
          [0x3f] := rfl
      rw [htake] at hutf
      cases hutf
  · rintro ⟨hzero, hutf, hrest⟩
    obtain ⟨s, hs⟩ := isSome_iff_exists.mp hutf
    rw [decodeName, hcut hzero, hrest, append_nil, hs, getD_some, utf8Bytes_of_fromUtf8 hs]

end Decode

/-! ## The round trip -/

/-- The SDK's record says of the task what the entry has room for. -/
def Matches (t : TaskInfo) (info : Info) : Prop :=
  info.id = t.id ∧ info.state = t.state ∧ info.priority = t.priority ∧
    utf8Bytes info.name = t.nameBytes.take 28

/-- The call returns the tasks of the kernel's list, in order. -/
def RoundTrip (s : Scheduler) (res : Ret (List Info)) : Prop :=
  ∃ infos, res = .returned (.ok infos) ∧ List.Forall₂ Matches (listTasks s) infos

/-- The name of the first task is read back: it is a text of at most 28 bytes with no
    zero, or cut to that, and the entry behind it, if any, then starts with a zero byte.
    -/
def NameFits (t : TaskInfo) (next : Option TaskInfo) : Prop :=
  0 ∉ t.nameBytes.take 28 ∧ (fromUtf8 (t.nameBytes.take 28)).isSome ∧
    match next with
    | none => t.nameBytes.length ≤ 28
    | some u => 28 ≤ t.nameBytes.length → u.id.toNat % 256 = 0

/-- The lists that come back whole. -/
def Fits : List TaskInfo → Prop
  | [] => False
  | t :: rest => rest.length ≤ 62 ∧ (∀ u ∈ rest, u.nameBytes = []) ∧ NameFits t rest.head?

theorem length_encoded (h : encodeTasks ts = some b) : b.length = ts.length * 40 := by
  rw [length_encodeFrom h, length_replicate]
  rfl

/-- No name is written to an entry but the first. -/
theorem name_of_later (h : encodeTasks ts = some b)
    (hpos : 1 ≤ i) (hi : i < ts.length) (tail : List Byte) : (infoAt (b ++ tail) i).name = "" := by
  have hsize : ∀ j, j * taskEntrySize = j * 40 := fun _ => rfl
  have hlen := length_encoded h
  have hzero : window b (i * taskEntrySize + 12) 1 = [0] := by
    rw [window_encodeFrom_of_disjoint h, window_replicate]
    · rfl
    · rw [hsize, hsize]
      omega
    · intro j _
      rw [hsize, hsize]
      omega
    · intro u _
      have hle : u.nameBytes.length ≤ 32 := u.length_nameBytes ▸ u.nameLen_le
      refine .inr (.inr ?_)
      rw [hsize]
      omega
  have hfield : window (b ++ tail) (i * taskEntrySize + 12) 32 =
      [0] ++ window (b ++ tail) (i * taskEntrySize + 12 + 1) 31 := by
    rw [window_add _ _ 1 31, window_append_left, hzero]
    rw [hsize]
    omega
  have hempty : fromUtf8 [] = some "" := by decide +kernel
  show decodeName (window (b ++ tail) (i * taskEntrySize + 12) 32) = ""
  rw [hfield, decodeName]
  have htake : (([0] ++ window (b ++ tail) (i * taskEntrySize + 12 + 1) 31 : List Byte).takeWhile
      fun b => decide (b ≠ 0)) = [] := rfl
  rw [htake, hempty, getD_some]

theorem Header.append (h : Header b i t) (hi : i * taskEntrySize + 10 ≤ b.length)
    (tail : List Byte) : Header (b ++ tail) i t :=
  h.congr fun _ _ _ _ => window_append_left (by omega)

theorem Header.infoAt (h : Header b i t) :
    (infoAt b i).id = t.id ∧ (infoAt b i).state = t.state ∧ (infoAt b i).priority = t.priority := by
  refine ⟨?_, ?_, ?_⟩
  · show fromLeBytes (window b (i * taskEntrySize) 8) = t.id
    rw [h.id, fromLeBytes, leNat_toLeBytes, BitVec.ofNat_toNat, BitVec.setWidth_eq]
  · show stateOf (b.getD (i * taskEntrySize + 8) 0) = t.state
    rw [getD_of_window h.state, stateOf_stateByte]
  · exact getD_of_window h.priority

section FirstName

variable (h : encodeTasks (t :: rest) = some b) (hrest : ∀ u ∈ rest, u.nameBytes = [])

include h hrest

/-- The entries behind the first leave it as it was written. -/
theorem window_first :
    ∃ b₁, encodeEntry (replicate ((t :: rest).length * taskEntrySize) 0) 0 t = some b₁ ∧
      ∀ p n, p + n ≤ 40 → window b p n = window b₁ p n := by
  obtain ⟨b₁, hentry, hlater⟩ := encodeFrom_cons h
  refine ⟨b₁, hentry, fun p n hp => ?_⟩
  apply window_encodeFrom_of_disjoint hlater
  · intro j hj
    have hsize : j * taskEntrySize = j * 40 := rfl
    omega
  · intro u hu
    exact .inl (hrest u hu)

theorem header_first : Header b 0 t := by
  obtain ⟨b₁, hentry, hsame⟩ := window_first h hrest
  have hhead := header_encodeEntry hentry (.inr (.inl rfl))
  exact hhead.congr fun _ _ _ _ => hsame _ _ (by omega)

theorem window_firstName :
    window b 12 28 = t.nameBytes.take 28 ++ replicate (28 - (t.nameBytes.take 28).length) 0 := by
  obtain ⟨b₁, hentry, hsame⟩ := window_first h hrest
  have hlen : (t.nameBytes.take 28).length = min 28 t.nameBytes.length := length_take
  have hname : window b₁ 12 (t.nameBytes.take 28).length = t.nameBytes.take 28 := by
    rw [hlen, ← take_window, window_name_encodeEntry hentry]
  have hpad : window b₁ (12 + (t.nameBytes.take 28).length)
      (28 - (t.nameBytes.take 28).length) =
        replicate (28 - (t.nameBytes.take 28).length) 0 := by
    by_cases hlong : 28 ≤ t.nameBytes.length
    · -- there is nothing left to pad
      have hfull : 28 - (t.nameBytes.take 28).length = 0 := by omega
      rw [hfull, window, take_zero, replicate_zero]
    have hsize : (t :: rest).length * taskEntrySize = (rest.length + 1) * 40 := rfl
    rw [window_encodeEntry_of_disjoint hentry (by omega) (.inr (.inr (by omega))),
      window_replicate (by omega)]
  have hsplit : 28 = (t.nameBytes.take 28).length + (28 - (t.nameBytes.take 28).length) := by
    omega
  rw [hsame _ _ (by omega)]
  nth_rewrite 1 [hsplit]
  rw [window_add, hname, hpad]

/-- The four bytes behind the first entry. -/
theorem window_behind (hz : 4 ≤ z) :
    window (b ++ replicate z 0) 40 4 =
      match rest.head? with
      | none => replicate 4 0
      | some u => (toLeBytes u.id).take 4 := by
  have hlen := length_encoded h
  cases rest with
  | nil =>
    have hcut : b.length = 40 := hlen
    rw [window, drop_append_of_le_length (by omega), ← hcut, drop_length,
      nil_append, take_replicate, min_eq_left hz]
    rfl
  | cons u us =>
    have hhead := header_encodeFrom (encodeFrom_cons h).choose_spec.2 hrest
      (zero_lt_succ us.length)
    rw [length_cons, length_cons] at hlen
    have hid : window b 40 8 = toLeBytes u.id := hhead.id
    show window _ 40 4 = (toLeBytes u.id).take 4
    rw [window_append_left (by omega), ← hid, take_window]
    rfl

/-- The name of the first task is read back exactly if it fits. -/
theorem firstName_iff (hz : 4 ≤ z) (hfits : rest = [] → t.nameBytes.length ≤ 28) :
    utf8Bytes (infoAt (b ++ replicate z 0) 0).name = t.nameBytes.take 28 ↔
      NameFits t rest.head? := by
  have hlen := length_encoded h
  have hfield : window (b ++ replicate z 0) (0 * taskEntrySize + 12) 32 =
      t.nameBytes.take 28 ++ (replicate (28 - (t.nameBytes.take 28).length) 0 ++
        window (b ++ replicate z 0) 40 4) := by
    rw [length_cons] at hlen
    rw [zero_mul, window_add _ _ 28 4, window_append_left (by omega),
      window_firstName h hrest, append_assoc]
  have hpad : t.nameBytes.length < 28 → ∃ tail,
      replicate (28 - (t.nameBytes.take 28).length) 0 ++
        window (b ++ replicate z 0) 40 4 = 0 :: tail := by
    intro hshort
    obtain ⟨m, hm⟩ : ∃ m, 28 - (t.nameBytes.take 28).length = m + 1 := by
      rw [length_take]
      exact ⟨27 - t.nameBytes.length, by omega⟩
    rw [hm]
    exact ⟨_, cons_append⟩
  show utf8Bytes (decodeName (window _ (0 * taskEntrySize + 12) 32)) = _ ↔ _
  rw [hfield, utf8Bytes_decodeName_iff fun hshort => hpad (by rw [length_take] at hshort; omega)]
  apply and_congr_right
  intro _
  apply and_congr_right
  intro _
  by_cases hshort : t.nameBytes.length < 28
  · -- a zero follows the name within its entry
    obtain ⟨tail, htail⟩ := hpad hshort
    rw [htail]
    apply iff_of_true rfl
    split
    · omega
    · omega
  · have hfull : 28 - (t.nameBytes.take 28).length = 0 := by
      rw [length_take]
      omega
    rw [hfull, window_behind h hrest hz]
    cases rest with
    | nil => exact iff_of_true rfl (hfits rfl)
    | cons u us =>
      -- the first byte of the id of the next task
      show ((toLeBytes u.id).take 4).takeWhile (fun b => decide (b ≠ 0)) = [] ↔
        (28 ≤ t.nameBytes.length → u.id.toNat % 256 = 0)
      have hbyte : ofNat 8 u.id.toNat = 0 ↔ u.id.toNat % 256 = 0 := by
        rw [← BitVec.toNat_inj]
        rfl
      rw [forall_prop_of_true (by omega), ← hbyte, toLeBytes_eq, leBytes,
        take_succ_cons, takeWhile_cons]
      by_cases hzero : ofNat 8 u.id.toNat = 0
      · rw [hzero]
        exact iff_of_true rfl rfl
      · rw [if_pos (decide_eq_true hzero)]
        exact iff_of_false (cons_ne_nil _ _) hzero

end FirstName

/-- What the SDK makes of a list that fits its first buffer. -/
theorem matches_iff_fits (hne : ts ≠ []) (hlen : ts.length ≤ 63) (h : encodeTasks ts = some b)
    (hz : 4 ≤ z) (hfits : ts.length = 1 → ∀ t ∈ ts, t.nameBytes.length ≤ 28) :
    List.Forall₂ Matches ts
        ((range ts.length).map fun j => infoAt (b ++ replicate z 0) (0 + j)) ↔ Fits ts := by
  have hsize : ∀ j, j * taskEntrySize = j * 40 := fun _ => rfl
  have hb := length_encoded h
  rw [forall₂_iff_get]
  simp only [length_map, length_range, get_eq_getElem, getElem_map,
    getElem_range, zero_add, true_and]
  obtain ⟨t, rest, rfl⟩ := exists_cons_of_ne_nil hne
  rw [length_cons] at hb hlen
  have hshort : rest = [] → t.nameBytes.length ≤ 28 := by
    rintro rfl
    exact hfits rfl t mem_cons_self
  constructor
  · intro hall
    have hrest : ∀ u ∈ rest, u.nameBytes = [] := by
      intro u hu
      obtain ⟨j, hj, rfl⟩ := getElem_of_mem hu
      have hlt : j + 1 < (t :: rest).length := succ_lt_succ hj
      have hname := (hall (j + 1) hlt hlt).2.2.2
      rw [name_of_later h (succ_pos j) hlt] at hname
      have hempty : (rest[j].nameBytes.take 28) = [] := hname.symm
      have hnil := take_eq_nil_iff.mp hempty
      exact hnil.resolve_left (by decide)
    have hfirst := (hall 0 (succ_pos _) (succ_pos _)).2.2.2
    exact ⟨by omega, hrest, (firstName_iff h hrest hz hshort).mp hfirst⟩
  · rintro ⟨-, hrest, hname⟩ j hj -
    cases j with
    | zero =>
      have hhead := ((header_first h hrest).append (by rw [hsize]; omega) (replicate z 0)).infoAt
      exact ⟨hhead.1, hhead.2.1, hhead.2.2, (firstName_iff h hrest hz hshort).mpr hname⟩
    | succ j =>
      have hjrest : j < rest.length := lt_of_succ_lt_succ hj
      obtain ⟨b₁, -, hlater⟩ := encodeFrom_cons h
      have hhead := header_encodeFrom hlater hrest hjrest
      rw [add_comm 1 j] at hhead
      have hinfo := (hhead.append (by rw [hsize]; omega) (replicate z 0)).infoAt
      refine ⟨hinfo.1, hinfo.2.1, hinfo.2.2, ?_⟩
      rw [name_of_later h (succ_pos j) hj, getElem_cons_succ, hrest _ (getElem_mem hjrest)]
      decide +kernel

theorem sysListTasks_eq (h : InUser ptr len) (hlen : 0 < len) :
    sysListTasks s ptr (ofNat 64 len) =
      if len < (listTasks s).length * taskEntrySize then some ⟨(listTasks s).length, none⟩
      else
        (encodeTasks (listTasks s)).map fun buf =>
          match copyToUser ptr buf with
          | some w => ⟨(listTasks s).length, some w⟩
          | none => ⟨badPointer.code, none⟩ := by
  obtain ⟨hnull, hinside⟩ := h
  have hmax : userSpaceMax < 2 ^ 64 - 1 := by decide
  have hword : (ofNat 64 len).toNat = len := by
    exact mod_eq_of_lt (by omega)
  have hptr : ¬ (ptr = 0 ∨ userSpaceMax ≤ ptr.toNat) := by
    rintro (hzero | hhigh)
    · exact hnull hzero
    · omega
  rw [sysListTasks, if_neg hptr, hword, if_neg (by omega)]
  rfl

theorem exists_encoded (h : 2 ≤ ts.length ∨ ∀ t ∈ ts, t.nameBytes.length ≤ 28) :
    ∃ b, encodeTasks ts = some b := by
  apply exists_encodeFrom
  · rw [length_replicate, zero_add]
  · intro t ht
    have hpos := length_pos_of_mem ht
    have hle : t.nameBytes.length ≤ 32 := t.length_nameBytes ▸ t.nameLen_le
    have hsize : ts.length * taskEntrySize = ts.length * 40 := rfl
    rw [length_replicate]
    rcases h with htwo | hshort
    · omega
    · have hname := hshort t ht
      omega

theorem length_received (mem : UserMem) (ptr : Word) (len : Nat) (write : Option UserWrite) :
    (received mem ptr len write).length = len := by
  simp [received, bytesAt]

/-- The name of the last entry of a full buffer ends four bytes behind it. -/
theorem parse_full_panics (hpos : 1 ≤ n) (hlen : buf.length = n * taskEntrySize) :
    parseTaskEntries buf n = .panicked := by
  have hsize : ∀ j, j * taskEntrySize = j * 40 := fun _ => rfl
  have hentry : taskEntrySize = 40 := rfl
  have hnone : parseFrom buf 0 n = none := by
    rw [hsize] at hlen
    apply parseFrom_eq_none (zero_le (n - 1))
    · omega
    · rw [hsize]
      omega
    · rw [hsize]
      omega
  rw [parseTaskEntries, hnone]

theorem not_roundTrip_panicked (s : Scheduler) : ¬ RoundTrip s .panicked := by
  rintro ⟨infos, h, -⟩
  cases h

theorem not_roundTrip_error (s : Scheduler) (e : Int) : ¬ RoundTrip s (.returned (.error e)) := by
  rintro ⟨infos, h, -⟩
  cases h

/-- The call for tasks whose entries fit the first buffer. -/
theorem processListTasks_of_le (hbuf : InUser bufPtr firstBufLen) (hpos : 1 ≤ (listTasks s).length)
    (hle : (listTasks s).length ≤ 64) :
    processListTasks s mem bufPtr bigPtr =
      match encodeTasks (listTasks s) with
      | none => .panicked
      | some b => parseTaskEntries (b ++ replicate (firstBufLen - b.length) 0)
          (listTasks s).length := by
  have hfirst : firstBufLen = 2560 := rfl
  have hsize : (listTasks s).length * taskEntrySize = (listTasks s).length * 40 := rfl
  have hcall := sysListTasks_eq (s := s) hbuf (by decide)
  rw [if_neg (by omega)] at hcall
  unfold processListTasks
  rw [hcall]
  cases hb : encodeTasks (listTasks s) with
  | none => rfl
  | some b =>
    have hlen := length_encoded hb
    have hin : InUser bufPtr b.length := ⟨hbuf.nonnull, by have := hbuf.inside; omega⟩
    have hcopy : copyToUser bufPtr b = some ⟨bufPtr, b⟩ := by
      rw [copyToUser, if_pos ((userRangeOk_iff hin).mpr (by omega))]
    have hnonneg : ¬ ((listTasks s).length : Int) < 0 := by omega
    simp only [map_some, hcopy, if_neg hnonneg, Int.toNat_natCast]
    rw [if_neg (by omega), received_eq mem bufPtr b (by omega) (by decide)]

/-- The call for tasks that need a second buffer, which is then full. -/
theorem not_roundTrip_of_gt (hbuf : InUser bufPtr firstBufLen)
    (hbig : InUser bigPtr ((listTasks s).length * taskEntrySize))
    (hgt : 64 < (listTasks s).length) : ¬ RoundTrip s (processListTasks s mem bufPtr bigPtr) := by
  have hfirst : firstBufLen = 2560 := rfl
  have hsize : (listTasks s).length * taskEntrySize = (listTasks s).length * 40 := rfl
  have hcall := sysListTasks_eq (s := s) hbuf (by decide)
  rw [if_pos (by omega)] at hcall
  have hcall' := sysListTasks_eq (s := s) hbig (by omega)
  rw [if_neg (lt_irrefl _)] at hcall'
  obtain ⟨b, hb⟩ : ∃ b, encodeTasks (listTasks s) = some b := exists_encoded (.inl (by omega))
  rw [hb, map_some] at hcall'
  have hnonneg : ¬ ((listTasks s).length : Int) < 0 := by omega
  unfold processListTasks
  rw [hcall]
  simp only [if_neg hnonneg, Int.toNat_natCast]
  rw [if_pos (by omega), hcall']
  cases copyToUser bigPtr b with
  | none =>
    exact not_roundTrip_error s _
  | some w =>
    simp only [Int.toNat_natCast]
    rw [parse_full_panics (by omega) (length_received mem bigPtr _ (some w))]
    exact not_roundTrip_panicked s

/-- No tasks: the kernel does not copy an empty list. -/
theorem not_roundTrip_of_nil (hbuf : InUser bufPtr firstBufLen) (hnil : listTasks s = []) :
    ¬ RoundTrip s (processListTasks s mem bufPtr bigPtr) := by
  have hcall := sysListTasks_eq (s := s) hbuf (by decide)
  have hempty : encodeTasks [] = some [] := rfl
  have hcopy : copyToUser bufPtr [] = none := by
    have hin : InUser bufPtr 0 := ⟨hbuf.nonnull, by have := hbuf.inside; omega⟩
    rw [copyToUser, if_neg]
    intro hok
    have hle := ((userRangeOk_iff hin).mp hok).1
    omega
  rw [hnil, hempty, map_some, hcopy] at hcall
  unfold processListTasks
  rw [hcall]
  exact not_roundTrip_error s _

/-- The SDK's list is the kernel's exactly for one to 63 tasks of which only the
    first has a name, and one that is read back. -/
theorem roundTrip_iff_fits {s : Scheduler} {mem : UserMem} {bufPtr bigPtr : Word}
    (hbuf : InUser bufPtr firstBufLen)
    (hbig : InUser bigPtr ((listTasks s).length * taskEntrySize)) :
    RoundTrip s (processListTasks s mem bufPtr bigPtr) ↔ Fits (listTasks s) := by
  have hsize : ∀ j, j * taskEntrySize = j * 40 := fun _ => rfl
  have hfirst : firstBufLen = 2560 := rfl
  by_cases hnil : listTasks s = []
  · rw [hnil]
    exact iff_of_false (not_roundTrip_of_nil hbuf hnil) id
  have hpos := length_pos_iff.mpr hnil
  have hlong : 64 ≤ (listTasks s).length → ¬ Fits (listTasks s) := by
    intro hge
    cases hts : listTasks s with
    | nil => exact absurd hts hnil
    | cons t rest =>
      rintro ⟨hle, -⟩
      rw [hts, length_cons] at hge
      omega
  by_cases hgt : 64 < (listTasks s).length
  · exact iff_of_false (not_roundTrip_of_gt hbuf hbig hgt) (hlong (by omega))
  rw [processListTasks_of_le hbuf hpos (by omega)]
  by_cases hone : (listTasks s).length = 1 ∧ ∃ t ∈ listTasks s, 28 < t.nameBytes.length
  · -- the only name is longer than the buffer
    obtain ⟨hone, t, ht, hname⟩ := hone
    obtain ⟨t', hts⟩ := length_eq_one_iff.mp hone
    rw [hts] at ht ⊢
    obtain rfl := mem_singleton.mp ht
    have hnone : encodeTasks [t] = none := by
      rw [encodeTasks, encodeFrom, encodeEntry_eq_none, bind_none]
      rw [length_replicate, hsize, length_singleton]
      omega
    rw [hnone]
    apply iff_of_false (not_roundTrip_panicked s)
    rintro ⟨-, -, -, -, hfits⟩
    have hfits' : t.nameBytes.length ≤ 28 := hfits
    omega
  have hshort : (listTasks s).length = 1 → ∀ t ∈ listTasks s, t.nameBytes.length ≤ 28 := by
    intro h1 t ht
    by_contra hname
    exact hone ⟨h1, t, ht, by omega⟩
  obtain ⟨b, hb⟩ : ∃ b, encodeTasks (listTasks s) = some b := by
    apply exists_encoded
    by_cases h1 : (listTasks s).length = 1
    · exact .inr (hshort h1)
    · exact .inl (by omega)
  have hlen := length_encoded hb
  rw [hb]
  by_cases hfull : (listTasks s).length = 64
  · have hend : (b ++ replicate (firstBufLen - b.length) 0).length =
        (listTasks s).length * taskEntrySize := by
      rw [length_append, length_replicate, hsize]
      omega
    show RoundTrip s (parseTaskEntries _ _) ↔ _
    rw [parse_full_panics hpos hend]
    exact iff_of_false (not_roundTrip_panicked s) (hlong (by omega))
  · have hparse : parseFrom (b ++ replicate (firstBufLen - b.length) 0) 0
        (listTasks s).length = some ((range (listTasks s).length).map fun j =>
          infoAt (b ++ replicate (firstBufLen - b.length) 0) (0 + j)) := by
      apply parseFrom_eq_some
      intro j hj
      rw [length_append, length_replicate, hsize]
      omega
    show RoundTrip s (parseTaskEntries _ _) ↔ _
    have hroom : 4 ≤ firstBufLen - b.length := by omega
    rw [parseTaskEntries, hparse, ← matches_iff_fits hnil (by omega) hb hroom hshort]
    constructor
    · rintro ⟨infos, hinfos, hall⟩
      cases hinfos
      exact hall
    · intro hall
      exact ⟨_, rfl, hall⟩

/-! ### Blocked tasks -/

/-- Two blocked tasks, the first of the name "init". -/
def twoTasks (second : String) : Scheduler :=
  { Scheduler.empty with
    blocked := [{ Task.new 1 5 with name := "init", state := .blocked },
      { Task.new 2 7 with name := second, state := .blocked }] }

/-- The second task has no name. -/
theorem roundTrip_iff_fits_twoTasks :
    RoundTrip (twoTasks "") (processListTasks (twoTasks "") (fun _ => 0) 0x1000 0x2000) := by
  have hbuf : InUser 0x1000 firstBufLen := ⟨by decide, by decide⟩
  have hbig : InUser 0x2000 ((listTasks (twoTasks "")).length * taskEntrySize) :=
    ⟨by decide, by decide⟩
  refine (roundTrip_iff_fits hbuf hbig).mpr ⟨by decide, ?_, ?_, ?_, ?_⟩
  · decide +kernel
  · decide +kernel
  · decide +kernel
  · show 28 ≤ (taskInfo _).nameBytes.length → _
    decide +kernel

/-- Of the tasks "init" and "shell" the SDK reports the first as "shell" and the
    second with no name. -/
theorem list_tasks_mixes_names :
    processListTasks (twoTasks "shell") (fun _ => 0) 0x1000 0x2000 = .returned (.ok
      [{ id := 1, state := .blocked, priority := 5, name := "shell" },
        { id := 2, state := .blocked, priority := 7, name := "" }]) := by
  decide +kernel

end OpenOS.TaskList
