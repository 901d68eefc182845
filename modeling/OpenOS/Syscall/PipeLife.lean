/-
  The life of pipe ends over runs of `sys_pipe`, `sys_fs_open`, `sys_dup2`,
  `sys_fs_close`, `sys_fs_read` and `sys_fs_write` by any tasks: which handles and
  descriptors refer to them, and when the other side sees that they are gone.

  None of the calls removes a handle, so an end that lost its last descriptor is
  still open; closing the descriptor of a pipe panics.
-/

import OpenOS.Fs.Ramfs
import OpenOS.Syscall.File
import OpenOS.Task.Conservation

namespace OpenOS.Fs.PipeLife

open Function Base FileKernel List Option Scheduler HandleTable Word PipeBuffer Nat Handle Int
open Multiset (mem_cons_of_mem mem_cons_self)

variable
  {s : Scheduler} {ops : Nat → FileSystem F} {mem : UserMem} {b : Ref} {k : FileKernel F}
  {op : PipeOp}

/-! ## Handles and descriptors -/

/-- An end of a pipe or FIFO. -/
def IsEnd : KernelObject → Prop
  | .pipeReader _ | .pipeWriter _ => True
  | _ => False

/-- The object is referenced from the handle table of the task. -/
def Refers (t : Task) (obj : KernelObject) : Prop :=
  ∃ slot entry, t.handleTable.slots slot = some entry ∧ entry.object = obj

/-- The descriptor of the task denotes the object. -/
def Denotes (t : Task) (fd : Word) (obj : KernelObject) : Prop :=
  ∃ entry, t.fdTable fd = some entry ∧ isPipePath entry.path = true ∧
    t.handleTable.get (fromRaw entry.ino) = some obj

variable {new : List KernelObject}

theorem refers_of_get (h : t.handleTable.get handle = some obj) : Refers t obj := by
  rw [get_eq_resolve, map_eq_some_iff] at h
  obtain ⟨entry, hres, hobj⟩ := h
  exact ⟨_, entry, (resolve_eq_some.mp hres).1, hobj⟩

theorem Denotes.refers (h : Denotes t fd obj) : Refers t obj := by
  obtain ⟨entry, -, -, hget⟩ := h
  exact refers_of_get hget

/-- The slots of a handle table in use are below its counter. -/
def SlotsBelow (table : HandleTable) : Prop :=
  ∀ slot entry, table.slots slot = some entry → slot.toNat < table.nextSlot.toNat

/-- A task all of whose pipe ends have a descriptor. -/
structure TaskOk (t : Task) : Prop where
  below : SlotsBelow t.handleTable
  denoted : ∀ obj, IsEnd obj → Refers t obj → ∃ fd, Denotes t fd obj

section Insert

variable {table : HandleTable} {r : Rights}

/-- The number of handles a table can make whose tokens name their slots. -/
def slotLimit : Nat := 2 ^ 28

section

variable (hins : table.insert p obj r = some (h, table')) (hlt : table.nextSlot.toNat < slotLimit)
include hins hlt

theorem nextSlot_of_insert : table'.nextSlot.toNat = table.nextSlot.toNat + 1 := by
  obtain ⟨-, rfl⟩ := push_eq_some hins
  have hlimit : slotLimit < 2 ^ 32 := by decide
  exact mod_eq_of_lt (by have := (by decide : (1 : BitVec 32).toNat = 1); omega)

theorem slotsBelow_insert (hbelow : SlotsBelow table) : SlotsBelow table' := by
  have hnext := nextSlot_of_insert hins hlt
  intro slot entry hslot
  rcases (push_slots hins).mp hslot with ⟨rfl, -⟩ | ⟨-, hold⟩
  · omega
  · have hold := hbelow slot entry hold
    omega

theorem get_insert_self : table'.get h = some obj := by
  have hslot : h.slotId = table.nextSlot := by
    obtain ⟨rfl, -⟩ := push_eq_some hins
    apply BitVec.eq_of_toNat_eq
    rw [slotId_new_toNat]
    exact mod_eq_of_lt hlt
  rw [get_eq_resolve, map_eq_some_iff]
  refine ⟨⟨h, obj⟩, resolve_eq_some.mpr ⟨?_, rfl⟩, rfl⟩
  exact (push_slots hins).mpr (.inl ⟨hslot, rfl⟩)

end

theorem get_insert_of_get (hins : table.insert p obj r = some (h, table'))
    (hbelow : SlotsBelow table) (hget : table.get h' = some obj') : table'.get h' = some obj' := by
  rw [get_eq_resolve, map_eq_some_iff] at hget ⊢
  obtain ⟨entry, hres, hobj⟩ := hget
  obtain ⟨hslot, hgen⟩ := resolve_eq_some.mp hres
  refine ⟨entry, resolve_eq_some.mpr ⟨?_, hgen⟩, hobj⟩
  refine (push_slots hins).mpr (.inr ⟨?_, hslot⟩)
  intro heq
  have hlt := hbelow _ entry hslot
  rw [heq] at hlt
  omega

end Insert

/-! ## What a step does to a task -/

/-- The task keeps its handles and what its descriptors denote, and has handles and
    descriptors for the new objects. -/
structure Grows (t : Task) (new : List KernelObject) (t' : Task) : Prop where
  below : SlotsBelow t'.handleTable
  kept : ∀ {obj}, Refers t obj → Refers t' obj
  back : ∀ {obj}, Refers t' obj → Refers t obj ∨ obj ∈ new
  denotes : ∀ {obj}, IsEnd obj → (∃ fd, Denotes t fd obj) → ∃ fd, Denotes t' fd obj
  denoted : ∀ {obj}, obj ∈ new → ∃ fd, Denotes t' fd obj

theorem TaskOk.grows (h : TaskOk t) (hgrows : Grows t new t') : TaskOk t' := by
  refine ⟨hgrows.below, fun obj hend href => ?_⟩
  rcases hgrows.back href with hold | hnew
  · exact hgrows.denotes hend (h.denoted obj hend hold)
  · exact hgrows.denoted hnew

/-- A change of descriptors only. -/
theorem grows_of_fds (hbelow : SlotsBelow t.handleTable) (htable : t'.handleTable = t.handleTable)
    (hfds : ∀ fd entry obj, t.fdTable fd = some entry → isPipePath entry.path = true →
      IsEnd obj → t.handleTable.get (fromRaw entry.ino) = some obj →
      ∃ fd' entry', t'.fdTable fd' = some entry' ∧ isPipePath entry'.path = true ∧
        t.handleTable.get (fromRaw entry'.ino) = some obj) : Grows t [] t' := by
  have hrefers : ∀ obj, Refers t' obj ↔ Refers t obj := by
    intro obj
    rw [Refers, Refers, htable]
  refine ⟨by rwa [htable], fun h => (hrefers _).mpr h, fun h => .inl ((hrefers _).mp h), ?_, ?_⟩
  · rintro obj hend ⟨fd, entry, hfd, hpipe, hget⟩
    obtain ⟨fd', entry', hfd', hpipe', hget'⟩ := hfds fd entry obj hfd hpipe hend hget
    exact ⟨fd', entry', hfd', hpipe', by rwa [htable]⟩
  · intro obj hnew
    cases hnew

theorem grows_refl (h : SlotsBelow t.handleTable) : Grows t [] t :=
  grows_of_fds h rfl fun fd entry _ hfd hpipe _ hget => ⟨fd, entry, hfd, hpipe, hget⟩

theorem Grows.trans (h : Grows t new t₁)
    (h' : Grows t₁ new' t₂) (hend : ∀ obj ∈ new, IsEnd obj) : Grows t (new ++ new') t₂ := by
  refine ⟨h'.below, fun href => h'.kept (h.kept href), ?_, ?_, ?_⟩
  · intro obj href
    rcases h'.back href with hmid | hnew
    · rcases h.back hmid with hold | hnew
      · exact .inl hold
      · exact .inr (mem_append_left _ hnew)
    · exact .inr (mem_append_right _ hnew)
  · intro obj hobj hden
    exact h'.denotes hobj (h.denotes hobj hden)
  · intro obj hnew
    rcases mem_append.mp hnew with hnew | hnew
    · exact h'.denotes (hend obj hnew) (h.denoted hnew)
    · exact h'.denoted hnew

/-- A handle on a new end, with a descriptor for it. -/
theorem grows_insert (hbelow : SlotsBelow t.handleTable)
    (hlt : t.handleTable.nextSlot.toNat < slotLimit)
    (hins : t.handleTable.insert p obj r = some (h, table))
    (hfree : t.fdTable (BitVec.ofNat 64 fd) = none) (hpath : isPipePath path = true) :
    Grows t [obj] (putFd { t with handleTable := table } fd ⟨path, h.asU64, 0⟩) := by
  refine ⟨slotsBelow_insert hins hlt hbelow, ?_, ?_, ?_, ?_⟩
  · rintro obj' ⟨slot, entry, hslot, hobj⟩
    refine ⟨slot, entry, (push_slots hins).mpr (.inr ⟨?_, hslot⟩), hobj⟩
    rintro rfl
    exact absurd (hbelow _ entry hslot) (lt_irrefl _)
  · rintro obj' ⟨slot, entry, hslot, hobj⟩
    rcases (push_slots hins).mp hslot with ⟨-, rfl⟩ | ⟨-, hold⟩
    · exact .inr (mem_singleton.mpr hobj.symm)
    · exact .inl ⟨slot, entry, hold, hobj⟩
  · rintro obj' - ⟨fd', entry, hfd, hpipe, hget⟩
    refine ⟨fd', entry, ?_, hpipe, get_insert_of_get hins hbelow hget⟩
    have hne : fd' ≠ BitVec.ofNat 64 fd := by
      rintro rfl
      rw [hfree] at hfd
      cases hfd
    exact (update_of_ne hne _ _).trans hfd
  · intro obj' hnew
    obtain rfl := mem_singleton.mp hnew
    exact ⟨BitVec.ofNat 64 fd, _, update_self .., hpath, get_insert_self hins hlt⟩

theorem grows_updateFd (hbelow : SlotsBelow t.handleTable) (fd offset : Word) :
    Grows t [] (updateFd fd (fun e => { e with offset := offset }) t).2 := by
  refine grows_of_fds hbelow (by rfl) ?_
  intro fd' entry obj hfd hpipe _ hget
  by_cases heq : fd' = fd
  · subst heq
    refine ⟨fd', { entry with offset := offset }, ?_, hpipe, hget⟩
    show update t.fdTable fd' _ fd' = _
    rw [update_self, hfd, map_some]
  · exact ⟨fd', entry, (update_of_ne heq _ _).trans hfd, hpipe, hget⟩

/-- A descriptor that is none of a pipe is removed or replaced. -/
theorem grows_update (hbelow : SlotsBelow t.handleTable) (new : Option FdEntry)
    (hfile : ∀ entry, t.fdTable fd = some entry → isPipePath entry.path = false) :
    Grows t [] { t with fdTable := update t.fdTable fd new } := by
  refine grows_of_fds hbelow (by rfl) ?_
  intro fd' entry obj hfd hpipe _ hget
  refine ⟨fd', entry, ?_, hpipe, hget⟩
  have hne : fd' ≠ fd := by
    rintro rfl
    rw [hfile entry hfd] at hpipe
    cases hpipe
  exact (update_of_ne hne _ _).trans hfd

theorem grows_openFile (hbelow : SlotsBelow t.handleTable) (path : String) (ino : Word) :
    Grows t [] (openFile path ino t).2 := by
  rw [openFile]
  cases hfree : firstFreeFd t with
  | none => exact grows_refl hbelow
  | some fd =>
    refine grows_update hbelow _ fun entry hfd => ?_
    rw [(freeFd_spec hfree).1] at hfd
    cases hfd

/-- A pipe end loses no last descriptor when `new_fd` is overwritten. -/
def CopySafe (t : Task) (newFd : Word) : Prop :=
  ∀ obj, IsEnd obj → Denotes t newFd obj → ∃ fd, fd ≠ newFd ∧ Denotes t fd obj

theorem grows_copyFd (hbelow : SlotsBelow t.handleTable) (hsafe : CopySafe t newFd) :
    Grows t [] (copyFd oldFd newFd t).2 := by
  rw [copyFd]
  cases hold : t.fdTable oldFd with
  | none => exact grows_refl hbelow
  | some old =>
    refine grows_of_fds hbelow (by rfl) ?_
    intro fd entry obj hfd hpipe hend hget
    obtain ⟨fd', hne, entry', hfd', hpipe', hget'⟩ :
        ∃ fd', fd' ≠ newFd ∧ Denotes t fd' obj := by
      by_cases heq : fd = newFd
      · subst heq
        exact hsafe obj hend ⟨entry, hfd, hpipe, hget⟩
      · exact ⟨fd, heq, entry, hfd, hpipe, hget⟩
    exact ⟨fd', entry', (update_of_ne hne _ _).trans hfd', hpipe', hget'⟩

theorem isPipePath_fifo (path : String) : isPipePath ("<fifo:" ++ path ++ ">") = true := by
  have hpre : "<fifo:".toList.isPrefixOf ("<fifo:" ++ path ++ ">").toList = true := by
    rw [ isPrefixOf_iff_prefix, String.append_assoc, String.toList_append]
    exact prefix_append _ _
  rw [isPipePath, hpre, Bool.or_true]

/-- A FIFO is opened for reading: there is a descriptor for the reader, or the task
    is as it was. -/
theorem grows_openFifo (hbelow : SlotsBelow t.handleTable)
    (hlt : t.handleTable.nextSlot.toNat < slotLimit)
    (h : (openFifo p path OpenFlags.READ pr pw t).1 = some res) :
    (∃ fd, res = some fd ∧
        Grows t [.pipeReader pr] (openFifo p path OpenFlags.READ pr pw t).2) ∨
      (res = none ∧ (openFifo p path OpenFlags.READ pr pw t).2 = t) := by
  rw [openFifo] at h ⊢
  cases hfree : firstFreeFd t with
  | none =>
    rw [hfree] at h
    cases h
    exact .inr ⟨rfl, rfl⟩
  | some fd =>
    simp only [hfree] at h ⊢
    cases hins : t.handleTable.insert p (.pipeReader pr) Rights.read with
    | none =>
      rw [hins] at h
      cases h
    | some q =>
      obtain ⟨reader, table⟩ := q
      rw [hins] at h
      cases h
      exact .inl ⟨fd, rfl,
        grows_insert hbelow hlt hins (freeFd_spec hfree).1 (isPipePath_fifo path)⟩

/-- The search for a free descriptor looks only at which are in use. -/
theorem freeFd_congr (h : ∀ fd, (table fd).isSome = (table' fd).isSome) (fuel start : Nat) :
    freeFd table fuel start = freeFd table' fuel start := by
  induction fuel generalizing start with
  | zero => rfl
  | succ fuel ih => rw [freeFd, freeFd, h, ih]

/-- There are two free descriptors for a new pipe. -/
def TwoFree (t : Task) : Prop :=
  ∃ readFd writeFd, firstFreeFd t = some readFd ∧
    freeFd (update t.fdTable (BitVec.ofNat 64 readFd) (some ⟨"", 0, 0⟩)) fdLimit
      (readFd + 1) = some writeFd

theorem isPipePath_pipe : isPipePath "<pipe:r>" = true ∧ isPipePath "<pipe:w>" = true := by
  decide +kernel

theorem grows_openPipe (hbelow : SlotsBelow t.handleTable)
    (hlt : t.handleTable.nextSlot.toNat + 1 < slotLimit) (htwo : TwoFree t)
    (h : (openPipe p pr pw t).1 = some res) :
    (∃ fds, res = some fds) ∧ Grows t [.pipeReader pr, .pipeWriter pw] (openPipe p pr pw t).2 := by
  obtain ⟨readFd, writeFd, hfirst, hsecond⟩ := htwo
  cases hins : t.handleTable.insert p (.pipeReader pr) Rights.read with
  | none =>
    rw [openPipe, hins] at h
    cases h
  | some q =>
    obtain ⟨reader, table⟩ := q
    have hread := grows_insert hbelow (by omega) hins (freeFd_spec hfirst).1 isPipePath_pipe.1
    have hnext := nextSlot_of_insert hins (by omega)
    cases hins' : table.insert p (.pipeWriter pw) Rights.write with
    | none =>
      simp only [openPipe, hins, hins'] at h
      cases h
    | some q' =>
      obtain ⟨writer, table'⟩ := q'
      have hsearch : freeFd (update t.fdTable (BitVec.ofNat 64 readFd)
          (some ⟨"<pipe:r>", reader.asU64, 0⟩)) fdLimit (readFd + 1) = some writeFd := by
        rw [← hsecond]
        apply freeFd_congr
        intro fd
        by_cases heq : fd = BitVec.ofNat 64 readFd
        · rw [heq, update_self, update_self]
          rfl
        · rw [update_of_ne heq, update_of_ne heq]
      have hwrite := grows_insert hread.below (by show table.nextSlot.toNat < _; omega)
        hins' (freeFd_spec hsearch).1 isPipePath_pipe.2
      have hfirst' : firstFreeFd { t with handleTable := table' } = some readFd := hfirst
      simp only [openPipe, hins, hins', hfirst', putFd, hsearch] at h ⊢
      cases h
      refine ⟨⟨_, rfl⟩, hread.trans hwrite ?_⟩
      intro obj hobj
      rw [mem_singleton.mp hobj]
      trivial

/-! ## What a step does -/

/-- The effect of a step on handles, descriptors and pipes: `new` are the ends that
    were made, a writer always together with a reader of the same buffer. -/
structure Effect (k : FileKernel F) (new : List KernelObject) (k' : FileKernel F) : Prop where
  mounts : k'.mounts = k.mounts
  tasks : (new = [] ∧ k'.sched.tasks = k.sched.tasks) ∨
    ∃ t t', k.sched.Replaces t t' k'.sched ∧ (TaskOk t → Grows t new t')
  next : k.pipes.next ≤ k'.pipes.next
  inner : ∀ r, r < k.pipes.next → k'.pipes.inner r = k.pipes.inner r
  readerOpen : ∀ b, b < k.pipes.next →
    (k'.pipes.buffers b).readerOpen = (k.pipes.buffers b).readerOpen
  pairs : ∀ w, .pipeWriter w ∈ new → w < k'.pipes.next ∧ k'.pipes.inner w < k'.pipes.next ∧
    (k'.pipes.bufferOf w).readerOpen = true ∧
    ∃ r, .pipeReader r ∈ new ∧ r < k'.pipes.next ∧ k'.pipes.inner r = k'.pipes.inner w

theorem effect_of_same (hmounts : k'.mounts = k.mounts)
    (htasks : k'.sched.tasks = k.sched.tasks) (hpipes : k'.pipes = k.pipes) : Effect k [] k' := by
  refine ⟨hmounts, .inl ⟨rfl, htasks⟩, ?_, ?_, ?_, nofun⟩
  · rw [hpipes]
  · intro r _
    rw [hpipes]
  · intro b _
    rw [hpipes]

theorem effect_refl (k : FileKernel F) : Effect k [] k := effect_of_same rfl rfl rfl

theorem effect_setFs (k : FileKernel F) (n : Nat) (f : F) : Effect k [] (k.setFs n f) :=
  effect_of_same rfl rfl rfl

/-- The file systems have no part in the effect. -/
theorem Effect.of_setFs (h : Effect (k.setFs n f) new k') : Effect k new k' :=
  ⟨h.mounts, h.tasks, h.next, h.inner, h.readerOpen, h.pairs⟩

/-- A buffer is replaced by one with the same flag. -/
theorem effect_setBufferOf (theEnd : Ref) (buf : PipeBuffer)
    (h : buf.readerOpen = (k.pipes.bufferOf theEnd).readerOpen) :
    Effect k [] { k with pipes := k.pipes.setBufferOf theEnd buf } := by
  refine ⟨rfl, .inl ⟨rfl, rfl⟩, le_refl _, fun _ _ => rfl, fun b _ => ?_, nofun⟩
  show (update k.pipes.buffers (k.pipes.inner theEnd) buf b).readerOpen = _
  by_cases hb : b = k.pipes.inner theEnd
  · rwa [hb, update_self]
  · rw [update_of_ne hb]

/-- The current task is changed, and no end is made. -/
theorem effect_of_current (h : k.sched.withCurrentTaskMut cpu f = some (res, s))
    (hgrows : ∀ t, k.sched.withCurrentTask cpu = some t → SlotsBelow t.handleTable →
      Grows t [] (f t).2)
    (hmounts : k'.mounts = k.mounts) (hsched : k'.sched = s) (hpipes : k'.pipes = k.pipes) :
    Effect k [] k' := by
  obtain ⟨t, hcur, -, hrep⟩ := replaces_of_withCurrentTaskMut h
  refine ⟨hmounts, .inr ⟨t, (f t).2, hsched ▸ hrep, fun hok => hgrows t hcur hok.below⟩,
    ?_, ?_, ?_, nofun⟩
  · rw [hpipes]
  · intro r _
    rw [hpipes]
  · intro b _
    rw [hpipes]

theorem effect_setOffset (fd offset : Word) : Effect k [] (k.setOffset cpu fd offset) := by
  rw [setOffset]
  split
  · exact effect_of_same rfl rfl rfl
  · rename_i s h
    exact effect_of_current h (fun t _ hbelow => grows_updateFd hbelow fd offset) rfl rfl rfl

/-- Bytes leave the buffer. -/
theorem effect_readPipe (handle : Handle) (bufPtr : Word) (len : Nat) :
    Effect k [] (k.readPipe cpu handle bufPtr len).2 := by
  rw [readPipe]
  split
  · rename_i pr hget
    have hread := effect_setBufferOf pr ((k.pipes.bufferOf pr).read len).2 rfl
    dsimp only
    split
    · exact hread
    · split <;> exact hread
  · exact effect_refl k

theorem effect_read :
    k.sysFsRead ops p cpu fd bufPtr bufLen = some (r, k') → Effect k [] k' := by
  fun_cases sysFsRead ops p k cpu fd bufPtr bufLen <;>
    grind [effect_refl, effect_readPipe, effect_setOffset]

theorem readerOpen_write (buf : PipeBuffer) (data : List Byte) :
    (buf.write data).2.readerOpen = buf.readerOpen := by
  grind [write]

/-- Bytes are added to the buffer. -/
theorem effect_writePipe (handle : Handle) (data : List Byte) :
    Effect k [] (k.writePipe cpu handle data).2 := by
  rw [writePipe]
  split
  · rename_i pw hget
    have hflag := readerOpen_write (k.pipes.bufferOf pw) data
    split
    · exact effect_refl k
    · rename_i n buf hwrite
      rw [hwrite] at hflag
      exact effect_setBufferOf pw buf hflag
  · exact effect_refl k

theorem effect_write :
    k.sysFsWrite ops p cpu mem fd dataPtr dataLen = some (r, k') → Effect k [] k' := by
  fun_cases sysFsWrite ops p k cpu mem fd dataPtr dataLen <;>
    grind [effect_refl, effect_setFs, effect_writePipe, effect_setOffset, Effect.of_setFs]

/-- Only a descriptor that is none of a pipe can be closed; the others panic. -/
theorem effect_close (habs : AbsoluteMounts k.mounts) (h : k.sysFsClose ops cpu fd = some (r, k')) :
    Effect k [] k' := by
  unfold sysFsClose at h
  split at h
  · cases h
    exact effect_of_same rfl rfl rfl
  split at h
  · cases h
    exact effect_of_same rfl rfl rfl
  · rename_i s hmut
    obtain ⟨t, hcur, hres, -⟩ := replaces_of_withCurrentTaskMut hmut
    cases h
    refine effect_of_current hmut (fun t' hcur' hbelow => grows_update hbelow _ ?_) rfl rfl rfl
    intro entry hentry
    cases hcur.symm.trans hcur'
    cases hres.trans hentry
  · rename_i entry s hmut
    obtain ⟨t, hcur, hres, -⟩ := replaces_of_withCurrentTaskMut hmut
    split at h
    · cases h
    rename_i n rel hfs
    cases h
    refine effect_of_current hmut (fun t' hcur' hbelow => grows_update hbelow _ ?_) rfl rfl rfl
    intro entry' hentry
    cases hcur.symm.trans hcur'
    cases hres.trans hentry
    exact isPipePath_of_resolveFs habs hfs

theorem effect_dup2
    (hsafe : oldFd ≠ newFd → ∀ t, k.sched.withCurrentTask cpu = some t → CopySafe t newFd) :
    Effect k [] (k.sysDup2 cpu oldFd newFd).2 := by
  have hcopy : ∀ fd s, oldFd ≠ newFd →
      k.sched.withCurrentTaskMut cpu (copyFd oldFd newFd) = some (fd, s) →
      Effect k [] { k with sched := s } := fun _ _ hne hmut => effect_of_current hmut
    (fun t hcur hbelow => grows_copyFd hbelow (hsafe hne t hcur)) rfl rfl rfl
  fun_cases sysDup2 k cpu oldFd newFd <;> grind [effect_refl]

/-- The pipes after `create_pipe`. -/
def withPipe (pipes : Pipes) : Pipes :=
  ((pipes.newBuffer.2.newEnd pipes.newBuffer.1).2.newEnd pipes.newBuffer.1).2

/-- A number below a counter is none of the next three. -/
theorem ne_of_below (h : i < m) : i ≠ m ∧ i ≠ m + 1 ∧ i ≠ m + 2 := by omega

section WithPipe

variable (pipes : Pipes)

theorem inner_withPipe (r : Ref) :
    (withPipe pipes).inner r = update (update pipes.inner (pipes.next + 1) pipes.next)
        (pipes.next + 2) pipes.next r := rfl

theorem inner_writer : (withPipe pipes).inner (pipes.next + 2) = pipes.next := update_self ..

theorem inner_reader : (withPipe pipes).inner (pipes.next + 1) = pipes.next := by
  have hne : pipes.next + 1 ≠ pipes.next + 2 := Nat.ne_of_lt (Nat.lt_succ_self _)
  rw [inner_withPipe, update_of_ne hne, update_self]

theorem inner_withPipe_of_lt (h : r < pipes.next) : (withPipe pipes).inner r = pipes.inner r := by
  obtain ⟨-, hr, hw⟩ := ne_of_below h
  rw [inner_withPipe, update_of_ne hw, update_of_ne hr]

theorem buffers_withPipe : (withPipe pipes).buffers pipes.next = PipeBuffer.new := update_self ..

theorem buffers_withPipe_of_lt (h : b < pipes.next) :
    (withPipe pipes).buffers b = pipes.buffers b :=
  update_of_ne (ne_of_below h).1 ..

theorem next_withPipe (h : i ≤ 2) : pipes.next + i < (withPipe pipes).next :=
  Nat.add_lt_add_left (Nat.lt_succ_of_le h) pipes.next

end WithPipe

theorem effect_newPipe (hrep : k.sched.Replaces t t' s)
    (hgrows : Grows t [.pipeReader (k.pipes.next + 1), .pipeWriter (k.pipes.next + 2)] t') :
    Effect k [.pipeReader (k.pipes.next + 1), .pipeWriter (k.pipes.next + 2)]
      { k with sched := s, pipes := withPipe k.pipes } := by
  refine ⟨rfl, .inr ⟨t, t', hrep, fun _ => hgrows⟩,
    le_of_lt (next_withPipe k.pipes (zero_le 2)),
    fun r hr => inner_withPipe_of_lt k.pipes hr, fun b hb => ?_, fun w hw => ?_⟩
  · rw [buffers_withPipe_of_lt k.pipes hb]
  · have hw' : w = k.pipes.next + 2 := by
      simpa using hw
    subst hw'
    refine ⟨next_withPipe k.pipes (le_refl 2), ?_, ?_, k.pipes.next + 1, mem_cons_self,
      next_withPipe k.pipes (le_succ 1),
      (inner_reader k.pipes).trans (inner_writer k.pipes).symm⟩
    · rw [inner_writer]
      exact next_withPipe k.pipes (zero_le 2)
    · rw [Pipes.bufferOf, inner_writer, buffers_withPipe]
      rfl

/-- The pointer was checked before, so the descriptors are copied. -/
theorem copy_fds (hnull : fdsPtr ≠ 0) (hend : ¬ userSpaceMax < min (fdsPtr.toNat + 16) (2 ^ 64 - 1))
    (readFd writeFd : Word) :
    copyToUser fdsPtr (toLeBytes readFd ++ toLeBytes writeFd) =
      some ⟨fdsPtr, toLeBytes readFd ++ toLeBytes writeFd⟩ := by
  have hmax : userSpaceMax < 2 ^ 64 - 1 := by decide
  have hlen : (toLeBytes readFd ++ toLeBytes writeFd).length = 16 := by
    rw [length_append, length_toLeBytes, length_toLeBytes]
  apply copyToUser_of_fits hnull
  · intro hnil
    rw [hnil] at hlen
    cases hlen
  · rw [hlen]
    decide
  · rw [hlen]
    omega

theorem effect_pipe (hok : ∀ t ∈ k.sched.tasks, TaskOk t)
    (hsafe : ∀ t, k.sched.withCurrentTask cpu = some t →
      TwoFree t ∧ t.handleTable.nextSlot.toNat + 1 < slotLimit)
    (h : k.sysPipe p cpu fdsPtr = some (r, k')) :
    ∃ new, Effect k new k' ∧ (r.ret < 0 → k'.sched.tasks = k.sched.tasks) := by
  have hsame := effect_refl k
  unfold sysPipe at h
  split at h
  · cases h
    exact ⟨[], hsame, fun _ => rfl⟩
  rename_i hptr
  split at h
  · cases h
    exact ⟨[], hsame, fun _ => rfl⟩
  rename_i hend
  dsimp only at h
  split at h
  · cases h
    exact ⟨[], hsame, fun _ => rfl⟩
  · cases h
  · -- no free descriptor, which the step rules out
    rename_i s hmut
    obtain ⟨t, hcur, hres, hrep⟩ := replaces_of_withCurrentTaskMut hmut
    obtain ⟨htwo, hlt⟩ := hsafe t hcur
    obtain ⟨⟨fds, hfds⟩, -⟩ := grows_openPipe (hok t hrep.mem).below hlt htwo hres.symm
    cases hfds
  · rename_i readFd writeFd s hmut
    obtain ⟨t, hcur, hres, hrep⟩ := replaces_of_withCurrentTaskMut hmut
    obtain ⟨htwo, hlt⟩ := hsafe t hcur
    have hgrows := (grows_openPipe (hok t hrep.mem).below hlt htwo hres.symm).2
    have heffect := effect_newPipe hrep hgrows
    rw [not_or] at hptr
    rw [copy_fds hptr.1 hend] at h
    cases h
    exact ⟨_, heffect, fun hneg => absurd hneg (lt_irrefl 0)⟩

/-- A FIFO is opened for reading: one end is made and has the descriptor. -/
theorem effect_openFifoAt (hok : ∀ t ∈ k.sched.tasks, TaskOk t)
    (hlt : ∀ t, k.sched.withCurrentTask cpu = some t → t.handleTable.nextSlot.toNat < slotLimit)
    (h : openFifoAt ops p k cpu path n ino OpenFlags.READ = some (r, k')) :
    ∃ new, Effect k new k' ∧ (r.ret < 0 → k'.sched.tasks = k.sched.tasks) := by
  unfold openFifoAt at h
  dsimp only at h
  split at h
  · cases h
    exact ⟨[], effect_setFs .., fun _ => rfl⟩
  split at h
  · cases h
    exact ⟨[], effect_setFs .., fun _ => rfl⟩
  · cases h
  · rename_i s hmut
    obtain ⟨t, hcur, hres, hrep⟩ := replaces_of_withCurrentTaskMut hmut
    have hbelow := (hok t hrep.mem).below
    rcases grows_openFifo hbelow (hlt t hcur) hres.symm with ⟨fd, hfd, -⟩ | ⟨-, hsame⟩
    · cases hfd
    rw [hsame] at hrep
    cases h
    have htasks := hrep.tasks_self
    exact ⟨[], effect_of_same rfl htasks rfl, fun _ => htasks⟩
  · rename_i fd s hmut
    obtain ⟨t, hcur, hres, hrep⟩ := replaces_of_withCurrentTaskMut hmut
    have hbelow := (hok t hrep.mem).below
    rcases grows_openFifo hbelow (hlt t hcur) hres.symm with ⟨fd', -, hgrows⟩ | ⟨hnone, -⟩
    · cases h
      refine ⟨[.pipeReader k.pipes.next], ⟨rfl, .inr ⟨t, _, hrep, fun _ => hgrows⟩, ?_, ?_, ?_,
        ?_⟩, fun hneg => ?_⟩
      · exact le_add_right _ 2
      · intro r hr
        obtain ⟨hreader, hwriter, -⟩ := ne_of_below hr
        exact (update_of_ne hwriter _ _).trans (update_of_ne hreader _ _)
      · intro b _
        rfl
      · intro w hw
        cases mem_singleton.mp hw
      · exact absurd hneg (not_lt.mpr (natCast_nonneg fd))
    · cases hnone

/-- The path of the call is that of a FIFO. -/
def OpensFifo (ops : Nat → FileSystem F) (k : FileKernel F) (cpu : Cpu) (mem : UserMem)
    (namePtr nameLen flags : Word) : Prop :=
  ∃ bytes name n rel ino f info, copyFromUser mem namePtr nameLen = some bytes ∧
    fromUtf8 bytes = some name ∧ resolveFs k.mounts (k.resolvePath cpu name) = some (n, rel) ∧
    (ops n).fsOpen (k.fs n) rel (openFlags flags) = some (.ok ino, f) ∧
    (ops n).fsStat f ino = .ok info ∧ info.isFifo = true

theorem effect_openFile (h : k.sched.withCurrentTaskMut cpu (openFile path ino) = some (fd, s)) :
    Effect k [] { k with sched := s } ∧
      ((fdReply fd).ret < 0 → s.tasks = k.sched.tasks) := by
  refine ⟨effect_of_current h (fun t _ hbelow => grows_openFile hbelow path ino) rfl rfl rfl, ?_⟩
  intro hneg
  obtain ⟨t, -, hres, hrep⟩ := replaces_of_withCurrentTaskMut h
  cases hfree : firstFreeFd t with
  | none =>
    have hsame : (openFile path ino t).2 = t := by
      rw [openFile, hfree]
    rw [hsame] at hrep
    exact hrep.tasks_self
  | some m =>
    rw [openFile, hfree] at hres
    rw [hres] at hneg
    exact absurd hneg (not_lt.mpr (natCast_nonneg m))

theorem effect_open (hok : ∀ t ∈ k.sched.tasks, TaskOk t)
    (hsafe : OpensFifo ops k cpu mem namePtr nameLen flags → flags = 0 ∧
      ∀ t, k.sched.withCurrentTask cpu = some t → t.handleTable.nextSlot.toNat < slotLimit)
    (h : k.sysFsOpen ops p cpu mem namePtr nameLen flags = some (r, k')) :
    ∃ new, Effect k new k' ∧ (r.ret < 0 → k'.sched.tasks = k.sched.tasks) := by
  have hsame : ∃ new, Effect k new k ∧ (r.ret < 0 → k.sched.tasks = k.sched.tasks) :=
    ⟨[], effect_refl k, fun _ => rfl⟩
  unfold sysFsOpen at h
  split at h
  · cases h
    exact hsame
  split at h
  · cases h
    exact hsame
  rename_i bytes hcopy
  split at h
  · cases h
    exact hsame
  rename_i name hutf
  unfold openPath at h
  dsimp only at h
  split at h
  · cases h
  rename_i n rel hfs
  split at h
  · cases h
  · cases h
    exact ⟨[], effect_setFs .., fun _ => rfl⟩
  rename_i ino f hopen
  split at h
  · rename_i i d l z hstat
    obtain ⟨rfl, hlt⟩ := hsafe ⟨bytes, name, n, rel, ino, f, _, hcopy, hutf, hfs, hopen, hstat, rfl⟩
    obtain ⟨new, heffect, herr⟩ := effect_openFifoAt (k := k.setFs n f) hok hlt h
    exact ⟨new, heffect.of_setFs, herr⟩
  · split at h
    · cases h
      exact ⟨[], effect_setFs .., fun _ => rfl⟩
    rename_i fd s hmut
    obtain ⟨heffect, herr⟩ := effect_openFile hmut
    cases h
    exact ⟨[], heffect.of_setFs, herr⟩

/-! ## Steps of any tasks -/

/-- The calls of a run. -/
inductive Call
  | pipe (fdsPtr : Word)
  | fsOpen (mem : UserMem) (namePtr nameLen flags : Word)
  | dup2 (oldFd newFd : Word)
  | close (fd : Word)
  | read (fd bufPtr bufLen : Word)
  | write (mem : UserMem) (fd dataPtr dataLen : Word)

/-- A task runs on a CPU and makes a call. -/
structure PipeOp where
  cpu : Cpu
  task : TaskId
  call : Call

/-- The task is made the current one. -/
def dispatch (k : FileKernel F) (op : PipeOp) : FileKernel F :=
  { k with sched := k.sched.setCurrentTask op.cpu op.task }

/-- The system call of the task; one that panics is no step of a run. -/
def pipeStep (ops : Nat → FileSystem F) (p : Profile) :
    StepFn (FileKernel F) PipeOp FileReply := fun k op =>
  match op.call with
  | .pipe fdsPtr => (dispatch k op).sysPipe p op.cpu fdsPtr
  | .fsOpen mem namePtr nameLen flags =>
    (dispatch k op).sysFsOpen ops p op.cpu mem namePtr nameLen flags
  | .dup2 oldFd newFd => some ((dispatch k op).sysDup2 op.cpu oldFd newFd)
  | .close fd => (dispatch k op).sysFsClose ops op.cpu fd
  | .read fd bufPtr bufLen => (dispatch k op).sysFsRead ops p op.cpu fd bufPtr bufLen
  | .write mem fd dataPtr dataLen =>
    (dispatch k op).sysFsWrite ops p op.cpu mem fd dataPtr dataLen

/-- The task that makes the call. -/
def caller (k : FileKernel F) (op : PipeOp) : Option Task :=
  (dispatch k op).sched.withCurrentTask op.cpu

/-- A step that leaves no pipe end without a descriptor: a pipe is made only when two
    descriptors are free, a FIFO opened only for reading, no copy put over the last
    descriptor of an end; and the handle table has numbers left. -/
def Safe (ops : Nat → FileSystem F) (k : FileKernel F) (op : PipeOp) : Prop :=
  match op.call with
  | .pipe _ => ∀ t, caller k op = some t →
    TwoFree t ∧ t.handleTable.nextSlot.toNat + 1 < slotLimit
  | .fsOpen mem namePtr nameLen flags =>
    OpensFifo ops (dispatch k op) op.cpu mem namePtr nameLen flags →
      flags = 0 ∧ ∀ t, caller k op = some t → t.handleTable.nextSlot.toNat < slotLimit
  | .dup2 oldFd newFd => oldFd ≠ newFd → ∀ t, caller k op = some t → CopySafe t newFd
  | .close _ | .read .. | .write .. => True

theorem tasks_dispatch (k : FileKernel F) (op : PipeOp) :
    (dispatch k op).sched.tasks = k.sched.tasks :=
  k.sched.tasks_setCurrentTask op.cpu op.task

/-- Which task is current has no part in the effect. -/
theorem Effect.of_dispatch (h : Effect (dispatch k op) new k') : Effect k new k' := by
  refine ⟨h.mounts, ?_, h.next, h.inner, h.readerOpen, h.pairs⟩
  rcases h.tasks with ⟨hnew, htasks⟩ | ⟨t, t', ⟨rest, hrest, hrest'⟩, hgrows⟩
  · exact .inl ⟨hnew, htasks.trans (tasks_dispatch k op)⟩
  · exact .inr ⟨t, t', ⟨rest, (tasks_dispatch k op).symm.trans hrest, hrest'⟩, hgrows⟩

/-- The call makes or opens. -/
def Call.Makes : Call → Prop
  | .pipe _ | .fsOpen .. => True
  | _ => False

/-- Every safe step has an effect, and makes nothing when it fails. -/
theorem effect_of_step (habs : AbsoluteMounts k.mounts) (hok : ∀ t ∈ k.sched.tasks, TaskOk t)
    (hsafe : Safe ops k op) (h : pipeStep ops p k op = some (r, k')) :
    ∃ new, Effect k new k' ∧ (op.call.Makes → r.ret < 0 → k'.sched.tasks = k.sched.tasks) := by
  obtain ⟨cpu, task, call⟩ := op
  have htasks := tasks_dispatch k ⟨cpu, task, call⟩
  have hok' : ∀ t ∈ (dispatch k ⟨cpu, task, call⟩).sched.tasks, TaskOk t := by
    rwa [htasks]
  cases call with
  | pipe fdsPtr =>
    obtain ⟨new, heffect, herr⟩ := effect_pipe hok' hsafe h
    exact ⟨new, heffect.of_dispatch, fun _ hneg => (herr hneg).trans htasks⟩
  | fsOpen mem namePtr nameLen flags =>
    obtain ⟨new, heffect, herr⟩ := effect_open hok' hsafe h
    exact ⟨new, heffect.of_dispatch, fun _ hneg => (herr hneg).trans htasks⟩
  | dup2 oldFd newFd =>
    have heffect := effect_dup2 hsafe
    have hpost := congrArg Prod.snd (some.inj h)
    rw [hpost] at heffect
    exact ⟨[], heffect.of_dispatch, fun hmakes => hmakes.elim⟩
  | close fd =>
    have habs' : AbsoluteMounts (dispatch k ⟨cpu, task, .close fd⟩).mounts := habs
    have heffect := effect_close habs' h
    exact ⟨[], heffect.of_dispatch, fun hmakes => hmakes.elim⟩
  | read fd bufPtr bufLen =>
    have heffect := effect_read h
    exact ⟨[], heffect.of_dispatch, fun hmakes => hmakes.elim⟩
  | write mem fd dataPtr dataLen =>
    have heffect := effect_write h
    exact ⟨[], heffect.of_dispatch, fun hmakes => hmakes.elim⟩

/-! ## The invariant -/

/-- Every pipe end has a descriptor, and every writer a reader of the same buffer. -/
structure Inv (k : FileKernel F) : Prop where
  mounts : AbsoluteMounts k.mounts
  tasks : ∀ t ∈ k.sched.tasks, TaskOk t
  paired : ∀ t ∈ k.sched.tasks, ∀ w, Refers t (.pipeWriter w) →
    w < k.pipes.next ∧ k.pipes.inner w < k.pipes.next ∧
      (k.pipes.bufferOf w).readerOpen = true ∧
      ∃ t' ∈ k.sched.tasks, ∃ r, Refers t' (.pipeReader r) ∧ r < k.pipes.next ∧
        k.pipes.inner r = k.pipes.inner w

section

variable (h : Effect k new k') (hok : ∀ t ∈ k.sched.tasks, TaskOk t)
include h hok

theorem Effect.kept
    (ht : t ∈ k.sched.tasks) (href : Refers t obj) : ∃ t' ∈ k'.sched.tasks, Refers t' obj := by
  rcases h.tasks with ⟨-, htasks⟩ | ⟨a, a', ⟨rest, hs, hs'⟩, hgrows⟩
  · exact ⟨t, by rwa [htasks], href⟩
  have hgrows' := hgrows (hok a (by rw [hs]; exact mem_cons_self a rest))
  rw [hs, Multiset.mem_cons] at ht
  rw [hs']
  rcases ht with rfl | ht
  · exact ⟨a', mem_cons_self a' rest, hgrows'.kept href⟩
  · exact ⟨t, mem_cons_of_mem ht, href⟩

theorem Effect.back (ht' : t' ∈ k'.sched.tasks) (href : Refers t' obj) :
    (∃ t ∈ k.sched.tasks, Refers t obj) ∨
      (obj ∈ new ∧ ∀ obj' ∈ new, ∃ t ∈ k'.sched.tasks, Refers t obj') := by
  rcases h.tasks with ⟨-, htasks⟩ | ⟨a, a', ⟨rest, hs, hs'⟩, hgrows⟩
  · exact .inl ⟨t', by rwa [htasks] at ht', href⟩
  have ha : a ∈ k.sched.tasks := by rw [hs]; exact mem_cons_self a rest
  have hgrows' := hgrows (hok a ha)
  rw [hs', Multiset.mem_cons] at ht'
  rcases ht' with rfl | ht'
  · rcases hgrows'.back href with hold | hnew
    · exact .inl ⟨a, ha, hold⟩
    refine .inr ⟨hnew, fun obj' hobj' => ⟨t', ?_, ?_⟩⟩
    · rw [hs']
      exact mem_cons_self t' rest
    · obtain ⟨fd, hden⟩ := hgrows'.denoted hobj'
      exact hden.refers
  · exact .inl ⟨t', by rw [hs]; exact mem_cons_of_mem ht', href⟩

theorem Effect.tasksOk : ∀ t ∈ k'.sched.tasks, TaskOk t := by
  rcases h.tasks with ⟨-, htasks⟩ | ⟨a, a', ⟨rest, hs, hs'⟩, hgrows⟩
  · rwa [htasks]
  intro t ht
  have hoka := hok a (by rw [hs]; exact mem_cons_self a rest)
  rw [hs', Multiset.mem_cons] at ht
  rcases ht with rfl | ht
  · exact hoka.grows (hgrows hoka)
  · exact hok t (by rw [hs]; exact mem_cons_of_mem ht)

end

theorem Inv.effect (hinv : Inv k) (h : Effect k new k') : Inv k' := by
  refine ⟨by rw [h.mounts]; exact hinv.mounts, h.tasksOk hinv.tasks, fun t' ht' w href => ?_⟩
  rcases h.back hinv.tasks ht' href with ⟨t, ht, hold⟩ | ⟨hnew, hall⟩
  · -- an old writer, whose reader is still there
    obtain ⟨hw, hb, hopen, a, ha, r, hreader, hr, hsame⟩ := hinv.paired t ht w hold
    obtain ⟨a', ha', hreader'⟩ := h.kept hinv.tasks ha hreader
    refine ⟨lt_of_lt_of_le hw h.next, ?_, ?_, a', ha', r, hreader',
      lt_of_lt_of_le hr h.next, ?_⟩
    · rw [h.inner w hw]
      exact lt_of_lt_of_le hb h.next
    · rwa [Pipes.bufferOf, h.inner w hw, h.readerOpen _ hb]
    · rw [h.inner r hr, h.inner w hw, hsame]
  · obtain ⟨hw, hb, hopen, r, hreader, hr, hsame⟩ := h.pairs w hnew
    obtain ⟨a, ha, href'⟩ := hall _ hreader
    exact ⟨hw, hb, hopen, a, ha, r, href', hr, hsame⟩

/-! ## The laws -/

/-- Some task has a descriptor for the write side of the buffer. -/
def WriteSide (k : FileKernel F) (b : Ref) : Prop :=
  ∃ t ∈ k.sched.tasks, ∃ fd w, Denotes t fd (.pipeWriter w) ∧ k.pipes.inner w = b

/-- Some task has a descriptor for the read side of the buffer. -/
def ReadSide (k : FileKernel F) (b : Ref) : Prop :=
  ∃ t ∈ k.sched.tasks, ∃ fd r, Denotes t fd (.pipeReader r) ∧ k.pipes.inner r = b

abbrev Steps (F : Type) := List (Transition (FileKernel F) PipeOp FileReply)

/-- A pipe end is referenced from a handle table exactly while some descriptor of
    that task denotes it. -/
def EndsDenoted (k : FileKernel F) : Prop :=
  ∀ t ∈ k.sched.tasks, ∀ obj, IsEnd obj → (Refers t obj ↔ ∃ fd, Denotes t fd obj)

/-- A buffer that had a writer, and has none now, is at its end once it is empty. -/
def SeesEof (tr : Steps F) (k : FileKernel F) : Prop :=
  ∀ e ∈ tr, ∀ b, WriteSide e.pre b → ¬ WriteSide k b → (k.pipes.buffers b).buffer = [] →
    (k.pipes.buffers b).isEof = true

/-- A write to a pipe fails with EPIPE exactly when no task can read from it. -/
def WriteLaw (e : Transition (FileKernel F) PipeOp FileReply) : Prop :=
  ∀ mem fd dataPtr dataLen, e.op.call = .write mem fd dataPtr dataLen →
    ∀ t w, caller e.pre e.op = some t → Denotes t fd (.pipeWriter w) →
      (e.res.ret = PipeBuffer.EPIPE ↔ ¬ ReadSide e.pre (e.pre.pipes.inner w))

/-- A failed call leaves every handle table and descriptor table. -/
def ErrorLaw (e : Transition (FileKernel F) PipeOp FileReply) : Prop :=
  e.op.call.Makes → e.res.ret < 0 → e.post.sched.tasks = e.pre.sched.tasks

/-- The life of pipes and FIFOs as it should be. -/
structure Lifecycle (tr : Steps F) (k : FileKernel F) : Prop where
  ends : EndsDenoted k
  eof : SeesEof tr k
  writes : ∀ e ∈ tr, WriteLaw e
  errors : ∀ e ∈ tr, ErrorLaw e

/-- The tasks have no pipe ends yet. -/
def NoPipes (k : FileKernel F) : Prop :=
  ∀ t ∈ k.sched.tasks, SlotsBelow t.handleTable ∧ ∀ obj, IsEnd obj → ¬ Refers t obj

theorem inv_of_noPipes (habs : AbsoluteMounts k.mounts) (h : NoPipes k) : Inv k := by
  refine ⟨habs, fun t ht => ⟨(h t ht).1, fun obj hend href => ?_⟩, fun t ht w href => ?_⟩
  · exact absurd href ((h t ht).2 obj hend)
  · exact absurd href ((h t ht).2 _ trivial)

theorem Inv.endsDenoted (h : Inv k) : EndsDenoted k := by
  intro t ht obj hend
  constructor
  · exact (h.tasks t ht).denoted obj hend
  · rintro ⟨fd, hden⟩
    exact hden.refers

theorem WriteSide.effect (h : WriteSide k b) (hinv : Inv k) (heffect : Effect k new k') :
    WriteSide k' b := by
  obtain ⟨t, ht, fd, w, hden, rfl⟩ := h
  obtain ⟨hw, -⟩ := hinv.paired t ht w hden.refers
  obtain ⟨t', ht', href⟩ := heffect.kept hinv.tasks ht hden.refers
  obtain ⟨fd', hden'⟩ := ((hinv.effect heffect).tasks t' ht').denoted (.pipeWriter w) trivial href
  exact ⟨t', ht', fd', w, hden', heffect.inner w hw⟩

theorem Inv.readSide (h : Inv k) (ht : t ∈ k.sched.tasks)
    (href : Refers t (.pipeWriter w)) : ReadSide k (k.pipes.inner w) := by
  obtain ⟨-, -, -, t', ht', r, hreader, -, hsame⟩ := h.paired t ht w href
  obtain ⟨fd, hden⟩ := (h.tasks t' ht').denoted (.pipeReader r) trivial hreader
  exact ⟨t', ht', fd, r, hden, hsame⟩

theorem write_ne_epipe (hcur : k.sched.withCurrentTask cpu = some t)
    (hden : Denotes t fd (.pipeWriter w)) (hopen : (k.pipes.bufferOf w).readerOpen = true)
    (h : k.sysFsWrite ops p cpu mem fd dataPtr dataLen = some (r, k')) :
    r.ret ≠ PipeBuffer.EPIPE := by
  obtain ⟨entry, hfd, hpipe, hget⟩ := hden
  have hentry : k.fdEntry cpu fd = some entry := by
    rw [fdEntry, hcur, bind_some, hfd]
  have hobj : ((k.sched.withCurrentTask cpu).bind fun task =>
      task.handleTable.get (fromRaw entry.ino)) = some (.pipeWriter w) := by
    rw [hcur, bind_some, hget]
  unfold sysFsWrite at h
  split at h
  · split at h
    · cases h
      decide
    cases h
    show (if dataLen.toNat < 2 ^ 63 then (dataLen.toNat : Int) else -1) ≠ -32
    split
    · omega
    · decide
  · split at h
    · cases h
      decide
    split at h
    · cases h
      decide
    rename_i data hcopy
    rw [hentry] at h
    simp only [hpipe, if_true, writePipe, hobj] at h
    have hok : ∃ n, ((k.pipes.bufferOf w).write data).1 = .ok n := by
      rw [write]
      split
      · exact ⟨0, rfl⟩
      · rw [hopen]
        exact ⟨_, rfl⟩
    obtain ⟨n, hn⟩ := hok
    split at h
    · rename_i e buf hwrite
      rw [hwrite] at hn
      cases hn
    · cases h
      show ((_ : Nat) : Int) ≠ -32
      omega

/-- What holds along a run of safe steps: a write side that was open is open. -/
structure Tracks (tr : Steps F) (k : FileKernel F) : Prop where
  inv : Inv k
  writeSide : ∀ e ∈ tr, ∀ b, WriteSide e.pre b → WriteSide k b
  writes : ∀ e ∈ tr, WriteLaw e
  errors : ∀ e ∈ tr, ErrorLaw e

theorem tracks_step (h : Tracks tr k)
    (hstep : pipeStep ops p k op = some (r, k')) (hsafe : Safe ops k op) :
    Tracks (tr ++ [⟨k, op, r, k'⟩]) k' := by
  obtain ⟨new, heffect, herr⟩ := effect_of_step h.inv.mounts h.inv.tasks hsafe hstep
  refine ⟨h.inv.effect heffect, ?_, ?_, ?_⟩
  · rw [forall_mem_append, forall_mem_singleton]
    exact ⟨fun e he b hside => (h.writeSide e he b hside).effect h.inv heffect,
      fun b hside => hside.effect h.inv heffect⟩
  · rw [forall_mem_append, forall_mem_singleton]
    refine ⟨h.writes, ?_⟩
    intro mem fd dataPtr dataLen hcall t w hcur hden
    have ht : t ∈ k.sched.tasks := by
      rw [← tasks_dispatch k op]
      exact (mem_tasks_of_withCurrentTask hcur).2
    have hwrite : (dispatch k op).sysFsWrite ops p op.cpu mem fd dataPtr dataLen =
        some (r, k') := by
      rwa [pipeStep, hcall] at hstep
    -- there is a reader, and its flag was never cleared
    have hopen := (h.inv.paired t ht w hden.refers).2.2.1
    exact iff_of_false (write_ne_epipe hcur hden hopen hwrite)
      (not_not_intro (h.inv.readSide ht hden.refers))
  · rw [forall_mem_append, forall_mem_singleton]
    exact ⟨h.errors, herr⟩

theorem tracks_of_run (habs : AbsoluteMounts k₀.mounts) (hnone : NoPipes k₀)
    (hrun : Run (pipeStep ops p) k₀ tr k) (hsafe : ∀ e ∈ tr, Safe ops e.pre e.op) :
    Tracks tr k := by
  refine Run.invariant_of_guard (G := fun _ e => Safe ops e.pre e.op) ?_ ?_ hrun ?_
  · exact ⟨inv_of_noPipes habs hnone, fun _ he => (not_mem_nil he).elim,
      fun _ he => (not_mem_nil he).elim, fun _ he => (not_mem_nil he).elim⟩
  · intro tr s a r s' h hstep hs
    exact tracks_step h hstep hs
  · exact Run.guard_of_forall_mem hsafe

/-- In every run of safe steps, from tasks without pipes, every state reached keeps
    the laws. -/
theorem lifecycle_of_safe {ops : Nat → FileSystem F} {p : Profile} {k₀ k : FileKernel F}
    {tr : Steps F} (habs : AbsoluteMounts k₀.mounts) (hnone : NoPipes k₀)
    (hrun : Run (pipeStep ops p) k₀ tr k) (hsafe : ∀ e ∈ tr, Safe ops e.pre e.op) :
    Lifecycle tr k := by
  have h := tracks_of_run habs hnone hrun hsafe
  refine ⟨h.inv.endsDenoted, ?_, h.writes, h.errors⟩
  intro e he b hside hclosed
  exact absurd (h.writeSide e he b hside) hclosed

/-! ### One task -/

/-- One task, and an in-memory file system at the root. -/
def oneTask : FileKernel Ramfs where
  sched := { empty with blocked := [Task.new 2 5] }
  mounts := [("/", 0)]
  fs := fun _ => Ramfs.new
  pipes := ⟨fun _ => .new, fun _ => 0, 0⟩

def ramfsOps : Nat → FileSystem Ramfs := fun _ => Ramfs.vfs .dev

/-- The task makes a pipe, with the descriptors 2 and 3. -/
def makePipe : PipeOp := ⟨bootCpu, 2, .pipe 0x1000⟩

/-- The task copies its read descriptor over the write descriptor. -/
def copyOver : PipeOp := ⟨bootCpu, 2, .dup2 2 3⟩

/-- The task with the pipe, and after the copy. -/
def withPipeFds : Task := (openPipe .dev 1 2 (Task.new 2 5)).2
def withCopy : Task := (copyFd 2 3 withPipeFds).2

/-- The kernel with the pipe, and after the copy. -/
def piped : FileKernel Ramfs :=
  { oneTask with
    sched := { (dispatch oneTask makePipe).sched with blocked := [withPipeFds] }
    pipes := withPipe oneTask.pipes }
def copied : FileKernel Ramfs :=
  { piped with sched := { (dispatch piped copyOver).sched with blocked := [withCopy] } }

theorem step_makePipe : ∃ r, pipeStep ramfsOps .dev oneTask makePipe = some (r, piped) := ⟨_, rfl⟩

theorem step_copyOver : ∃ r, pipeStep ramfsOps .dev piped copyOver = some (r, copied) := ⟨_, rfl⟩

theorem ready_setCurrentTask (s : Scheduler) (cpu c : Cpu) (id : TaskId) :
    ((s.setCurrentTask cpu id).cpus c).ready = (s.cpus c).ready := by
  show (update s.cpus cpu _ c).ready = _
  by_cases hc : c = cpu
  · rw [hc, update_self]
  · rw [update_of_ne hc]

/-- The tasks of a scheduler with one blocked task and no other. -/
theorem mem_tasks_of_blocked (hready : ∀ c, (s.cpus c).ready = []) (hblocked : s.blocked = [t])
    (hmigration : s.migration = []) : a ∈ s.tasks ↔ a = t := by
  rw [mem_tasks, mem_readyTasks, hblocked, hmigration]
  simp [hready]

theorem mem_tasks_oneTask : t ∈ oneTask.sched.tasks ↔ t = Task.new 2 5 :=
  mem_tasks_of_blocked (fun _ => rfl) rfl rfl

theorem mem_tasks_piped : t ∈ piped.sched.tasks ↔ t = withPipeFds :=
  mem_tasks_of_blocked (fun c => ready_setCurrentTask oneTask.sched bootCpu c 2) rfl rfl

theorem mem_tasks_copied : t ∈ copied.sched.tasks ↔ t = withCopy :=
  mem_tasks_of_blocked (fun c => (ready_setCurrentTask piped.sched bootCpu c 2).trans
    (ready_setCurrentTask oneTask.sched bootCpu c 2)) rfl rfl

theorem absoluteMounts_oneTask : AbsoluteMounts oneTask.mounts := by
  intro mp hmp
  obtain rfl := mem_singleton.mp hmp
  decide +kernel

theorem noPipes_oneTask : NoPipes oneTask := by
  intro t ht
  obtain rfl := mem_tasks_oneTask.mp ht
  refine ⟨nofun, ?_⟩
  rintro obj - ⟨slot, entry, hslot, -⟩
  cases hslot

theorem safe_makePipe : Safe ramfsOps oneTask makePipe := by
  intro t ht
  have ht' : t = Task.new 2 5 := (some.inj ht).symm
  subst ht'
  exact ⟨⟨2, 3, rfl, rfl⟩, by decide⟩

/-- Two bytes go through a pipe, its read descriptor is copied to a free one, and a file
    that is not there is opened. -/
theorem lifecycle_of_safe_makePipe : ∃ tr k, Run (pipeStep ramfsOps .dev) oneTask tr k ∧
    tr.map Transition.op = [makePipe, ⟨bootCpu, 2, .write (fun _ => 0x61) 3 0x3000 2⟩,
      ⟨bootCpu, 2, .read 2 0x2000 4⟩, ⟨bootCpu, 2, .dup2 2 5⟩,
      ⟨bootCpu, 2, .fsOpen (fun _ => 0x61) 0x3000 1 0⟩] ∧
    (tr.map fun e => e.res.ret) = [0, 2, 2, 5, -2] ∧ Lifecycle tr k := by
  obtain ⟨tr, k, hrun, hops, hval⟩ := exists_run_of_exec (pipeStep ramfsOps .dev) oneTask
    [makePipe, ⟨bootCpu, 2, .write (fun _ => 0x61) 3 0x3000 2⟩, ⟨bootCpu, 2, .read 2 0x2000 4⟩,
      ⟨bootCpu, 2, .dup2 2 5⟩, ⟨bootCpu, 2, .fsOpen (fun _ => 0x61) 0x3000 1 0⟩]
    (fun tr _ => decide ((tr.map fun e => e.res.ret) = [0, 2, 2, 5, -2] ∧
      (∀ e ∈ (tr.drop 3).head?, ∀ t ∈ caller e.pre e.op, t.fdTable 5 = none) ∧
      ∀ e ∈ (tr.drop 4).head?, ∀ t ∈ caller e.pre e.op, t.handleTable.nextSlot.toNat < slotLimit))
    (by decide +kernel)
  obtain ⟨hret, hfree, hlt⟩ := of_decide_eq_true hval
  refine ⟨tr, k, hrun, hops, hret, lifecycle_of_safe absoluteMounts_oneTask noPipes_oneTask hrun ?_⟩
  simp only [map_eq_cons_iff, map_eq_nil_iff] at hops
  obtain ⟨e₁, _, rfl, hop₁, e₂, _, rfl, hop₂, e₃, _, rfl, hop₃, e₄, _, rfl, hop₄, e₅, _, rfl, hop₅,
    rfl⟩ := hops
  obtain ⟨hpre, -⟩ := hrun.of_cons
  replace hfree := hfree e₄ rfl
  replace hlt := hlt e₅ rfl
  simp only [forall_mem_cons, hop₁, hop₂, hop₃, hop₄, hop₅] at hfree hlt ⊢
  refine ⟨?_, trivial, trivial, ?_, fun _ => ⟨rfl, hlt⟩, forall_mem_nil _⟩
  · rw [hpre]
    exact safe_makePipe
  · rintro - t ht obj - ⟨entry, hfd, -⟩
    cases (hfree t ht).symm.trans hfd

theorem fdTable_withCopy (fd : Word) :
    withCopy.fdTable fd = if fd = 3 ∨ fd = 2 then withPipeFds.fdTable 2 else none := by
  have hcopy : withCopy.fdTable =
      update withPipeFds.fdTable 3 (withPipeFds.fdTable 2) := rfl
  rw [hcopy]
  by_cases h3 : fd = 3
  · rw [h3, update_self, if_pos (.inl rfl)]
  rw [update_of_ne h3]
  by_cases h2 : fd = 2
  · rw [h2, if_pos (.inr rfl)]
  rw [if_neg (not_or.mpr ⟨h3, h2⟩)]
  have hpipe : withPipeFds.fdTable fd = update (update (fun _ => none) 2
    (withPipeFds.fdTable 2)) 3 (withPipeFds.fdTable 3) fd := rfl
  rw [hpipe, update_of_ne h3, update_of_ne h2]

theorem not_denotes_writer (fd : Word) (w : Ref) : ¬ Denotes withCopy fd (.pipeWriter w) := by
  rintro ⟨entry, hfd, -, hget⟩
  rw [fdTable_withCopy] at hfd
  split at hfd
  · have hreader : (withPipeFds.fdTable 2).bind (fun e =>
        withCopy.handleTable.get (fromRaw e.ino)) = some (.pipeReader 1) := by
      decide +kernel
    rw [hfd, bind_some, hget] at hreader
    cases hreader
  · cases hfd

/-- With the read descriptor of a pipe copied over the write descriptor, the writer is
    referenced and has no descriptor; no task can write to the empty pipe, and a reader
    does not see its end. Closing the write descriptor instead panics. -/
theorem overwritten_writer_stays_open :
    (∃ tr, Run (pipeStep ramfsOps .dev) oneTask tr copied ∧
      tr.map Transition.op = [makePipe, copyOver] ∧ ¬ EndsDenoted copied ∧ ¬ SeesEof tr copied) ∧
    pipeStep ramfsOps .dev piped ⟨bootCpu, 2, .close 3⟩ = none := by
  obtain ⟨r₁, hstep₁⟩ := step_makePipe
  obtain ⟨r₂, hstep₂⟩ := step_copyOver
  have hrun : Run (pipeStep ramfsOps .dev) oneTask
      ([] ++ [⟨oneTask, makePipe, r₁, piped⟩] ++ [⟨piped, copyOver, r₂, copied⟩]) copied :=
    Run.snoc (Run.snoc Run.nil hstep₁) hstep₂
  have hrefers : Refers withCopy (.pipeWriter 2) := ⟨1, _, rfl, rfl⟩
  refine ⟨⟨_, hrun, rfl, ?_, ?_⟩, rfl⟩
  · intro h
    obtain ⟨fd, hden⟩ := (h withCopy (mem_tasks_copied.mpr rfl) (.pipeWriter 2) trivial).mp hrefers
    exact not_denotes_writer fd 2 hden
  · intro h
    have hopen : WriteSide piped 0 :=
      ⟨withPipeFds, mem_tasks_piped.mpr rfl, 3, 2, ⟨_, rfl, by decide +kernel, rfl⟩, rfl⟩
    have hclosed : ¬ WriteSide copied 0 := by
      rintro ⟨t, ht, fd, w, hden, -⟩
      obtain rfl := mem_tasks_copied.mp ht
      exact not_denotes_writer fd w hden
    have heof := h ⟨piped, copyOver, r₂, copied⟩ (mem_append_right _ mem_cons_self) 0
      hopen hclosed rfl
    cases heof

end OpenOS.Fs.PipeLife
