/-
  The memory system calls and the kernel half of the address space.

  A call should return, and leave the translation and the permissions of every
  kernel address as they were.  sys_mmap maps below USER_SPACE_MAX, so it only
  has to return; sys_munmap takes any range, and sys_mprotect any that starts
  below USER_SPACE_MAX, so for those the range and the tables decide.
-/

import OpenOS.Memory.Protection
import OpenOS.Syscall.MemoryRun
import OpenOS.Task.Conservation

namespace OpenOS

open Base ProcState List Memory.FrameAlloc Memory.PageTable Space

/-- The addresses that the processor accepts: bits 48 to 63 are as bit 47. -/
def Canonical (v : Word) : Prop := v.toNat < 2 ^ 47 ∨ 2 ^ 64 - 2 ^ 47 ≤ v.toNat
deriving Decidable

/-- The addresses at or above USER_SPACE_MAX. -/
def KernelHalf (v : Word) : Prop := Canonical v ∧ userSpaceMax ≤ v.toNat
deriving Decidable

/-- A page of the user half and a kernel address share no entry. -/
theorem KernelHalf.level_ne (hv : KernelHalf v) (hw : w.toNat < userSpaceMax) (hj : 1 ≤ j)
    (hj4 : j ≤ 4) (hm : 1 ≤ m) (hm4 : m ≤ 4) : level v j ≠ level w m := by
  intro heq
  obtain rfl := eq_of_level_eq hj4 hm4 heq
  have hroot : p4Idx v = p4Idx w := by
    have hone := level_eq_of_le hj heq
    exact head_eq_of_cons_eq hone
  have hval := congrArg Fin.val hroot
  rw [p4Idx, p4Idx, index_val, index_val] at hval
  have hmax : userSpaceMax = 2 ^ 47 := rfl
  obtain ⟨hcanonical | hcanonical, habove⟩ := hv
  · omega
  · have hlt := v.isLt
    omega

/-! ## The calls -/

inductive MemCall
  | mmap (addr length prot flags fd : Word)
  | munmap (virtAddr size : Word)
  | mprotect (virtAddr size protFlags : Word)
deriving DecidableEq

namespace MemCall

def run (p : Profile) (cpu : Cpu) : MemCall → ProcState.CallM Word
  | .mmap addr length prot flags fd => sysMmap p cpu addr length prot flags fd
  | .munmap virtAddr size => sysMunmap p cpu virtAddr size
  | .mprotect virtAddr size protFlags => sysMprotect p cpu virtAddr size protFlags

/-- The call returns, with a value or an error and hence without overflow, and
    every kernel address has the translation and the permissions it had. -/
def KeepsKernelHalf (cpu : Cpu) (k : ProcState) (call : MemCall) : Prop :=
  ∃ k', ((∃ r, call.run .dev cpu k = .ok r k') ∨ ∃ e, call.run .dev cpu k = .error (.err e) k') ∧
    ∀ v, KernelHalf v →
      Memory.PageTable.translate (k'.cr3 cpu) k'.vm.mem v =
        Memory.PageTable.translate (k.cr3 cpu) k.vm.mem v ∧
      (entryAt (k'.cr3 cpu) k'.vm.mem).perm v = (entryAt (k.cr3 cpu) k.vm.mem).perm v

variable {call : MemCall}

theorem not_keeps_of_panic (h : ∃ k', call.run .dev cpu k = .error .panic k') :
    ¬ call.KeepsKernelHalf cpu k := by
  obtain ⟨k₁, hrun⟩ := h
  rintro ⟨k', ⟨r, hr⟩ | ⟨e, he⟩, -⟩
  · rw [hrun] at hr
    cases hr
  · rw [hrun] at he
    cases he

theorem keeps_of_unchanged (h : call.run .dev cpu k = .error (.err e) k) :
    call.KeepsKernelHalf cpu k :=
  ⟨k, .inr ⟨e, h⟩, fun _ _ => ⟨rfl, rfl⟩⟩

/-- The kernel addresses of two address spaces agree. -/
def SameKernelHalf (S S' : Space) : Prop :=
  ∀ v, KernelHalf v → S'.entry.phys v = S.entry.phys v ∧ S'.entry.perm v = S.entry.perm v

theorem keeps_iff_of_reaches (call : MemCall) (hreach : k.Reaches cpu S' k')
    (hrun : (∃ r, call.run .dev cpu k = .ok r k') ∨ ∃ e, call.run .dev cpu k = .error (.err e) k') :
    call.KeepsKernelHalf cpu k ↔ SameKernelHalf (k.space cpu) S' := by
  have hsame : (∀ v, KernelHalf v →
      Memory.PageTable.translate (k'.cr3 cpu) k'.vm.mem v =
        Memory.PageTable.translate (k.cr3 cpu) k.vm.mem v ∧
      (entryAt (k'.cr3 cpu) k'.vm.mem).perm v = (entryAt (k.cr3 cpu) k.vm.mem).perm v) ↔
      SameKernelHalf (k.space cpu) S' := by
    rw [← hreach.space]
    refine forall_congr' fun v => imp_congr_right fun _ => ?_
    rw [translate_eq_phys, translate_eq_phys]
    rfl
  rw [← hsame]
  constructor
  · rintro ⟨k₁, hrun₁, hkeeps⟩
    obtain rfl : k₁ = k' := by
      rcases hrun with ⟨r, hr⟩ | ⟨e, he⟩ <;> rcases hrun₁ with ⟨r₁, hr₁⟩ | ⟨e₁, he₁⟩
      · exact (EStateM.Result.ok.inj (hr.symm.trans hr₁)).2.symm
      · cases hr.symm.trans he₁
      · cases he.symm.trans hr₁
      · exact (EStateM.Result.error.inj (he.symm.trans he₁)).2.symm
    exact hkeeps
  · exact fun hkeeps => ⟨k', hrun, hkeeps⟩

/-! ## What each call needs -/

/-- The size can be rounded up, and the range ends below 2^64. -/
structure Fits (virt size : Word) : Prop where
  round : size.toNat + 4096 < 2 ^ 64
  stop : virt.toNat + numPages size * 4096 < 2 ^ 64

/-- The pages can be unmapped without touching the kernel half: the tables they lack can
    be made, and a mapped kernel address is in no page, nor closed to user mode only by
    entries on the way to one. -/
structure UnmapSafe (S : Space) (ws : List Word) : Prop where
  unblocked : ∀ ρ ∈ levelsOf ws, ¬ S.Blocked ρ
  frames : S.used ws ≤ S.free.card
  apart : ∀ v, KernelHalf v → S.entry.Mapped v → path v ∉ pathsOf ws ∧
    (S.entry.UserVia ↑(levelsOf ws) v → S.entry.UserVia ∅ v)

/-- The kernel pages of the range allow as much with the new flags. -/
def ProtectSafe (S : Space) (flags : PageTableFlags) (ws : List Word) : Prop :=
  ∀ v, KernelHalf v → path v ∈ pathsOf ws → ∀ e, S.entry (path v) = some e →
    e.isPresent = true →
    (S.entry.tablePerm v).and flags.perm = (S.entry.tablePerm v).and e.flags.perm

/-- The search for a range ends; the page loop does not run out of frames for
    tables; and if it gets to its end, comparing the regions does not overflow. -/
structure MmapSafe (k : ProcState) (cpu : Cpu) (t : Task) (addr length flags : Word) : Prop where
  hint : (mmapHint addr).toNat + 4096 < 2 ^ 64
  scan : ¬ ScanFails (t.pageTable.getD 0) k.vm.mem (mmapHint addr) (numPages length)
  pages : ∀ v, FirstFree (t.pageTable.getD 0) k.vm.mem (mmapHint addr)
      (numPages length) v →
    (k.space cpu).Suffices (pages v (numPages length)) ∧
    ((k.space cpu).used (pages v (numPages length)) + numPages length ≤ (k.space cpu).free.card →
      (t.vmaList.anyOverlap .dev (mmapRegion v (alignedSize length) (flags &&& 1 ≠ 0)
        (flags &&& 2 ≠ 0))).isSome)

/-- The calls that keep the kernel half. -/
def Safe (cpu : Cpu) (k : ProcState) : MemCall → Prop
  | .mmap addr length _ flags _ => length = 0 ∨ (length.toNat + 4096 < 2 ^ 64 ∧
      ∀ t, k.sched.withCurrentTask cpu = some t → MmapSafe k cpu t addr length flags)
  | .munmap virt size => (virt % pageSize ≠ 0 ∨ size = 0) ∨
      (Fits virt size ∧ UnmapSafe (k.space cpu) (pages virt (numPages size)))
  | .mprotect virt size prot => (virt % pageSize ≠ 0 ∨ size = 0 ∨ userSpaceMax ≤ virt.toNat) ∨
      (Fits virt size ∧
        ProtectSafe (k.space cpu) (mprotectFlags prot) (pages virt (numPages size)))

theorem overflow_of_not_fits (h : ¬ Fits virt size) :
    2 ^ 64 ≤ size.toNat + 4096 ∨ 2 ^ 64 ≤ virt.toNat + numPages size * 4096 := by
  by_contra hno
  rw [not_or, Nat.not_le, Nat.not_le] at hno
  exact h ⟨hno.1, hno.2⟩

theorem munmap_keeps_iff (hok : k.vm.Ok (k.cr3 cpu)) (virt size : Word) :
    (munmap virt size).KeepsKernelHalf cpu k ↔ (munmap virt size).Safe cpu k := by
  by_cases hinvalid : virt % pageSize ≠ 0 ∨ size = 0
  · exact iff_of_true (keeps_of_unchanged (sysMunmap_invalid hinvalid)) (.inl hinvalid)
  by_cases hfits : Fits virt size
  · have hvalid : (k.space cpu).Valid := hok.valid
    have hsome : (mapAll 0#64 (pages virt (numPages size)) (k.space cpu)).isSome = true ↔ _ :=
      isSome_mapAll hvalid
    have hsafe : (munmap virt size).Safe cpu k ↔
        UnmapSafe (k.space cpu) (pages virt (numPages size)) :=
      ⟨fun h => (h.resolve_left hinvalid).2, fun h => .inr ⟨hfits, h⟩⟩
    rw [hsafe]
    cases hmap : mapAll 0#64 (pages virt (numPages size)) (k.space cpu) with
    | none =>
      rw [hmap] at hsome
      refine iff_of_false (not_keeps_of_panic ?_) fun h => ?_
      · exact sysMunmap_of_none hinvalid hfits.round hfits.stop hok hmap
      · cases hsome.mpr ⟨h.unblocked, h.frames⟩
    | some S' =>
      rw [hmap] at hsome
      obtain ⟨hfree, hframes⟩ := hsome.mp rfl
      obtain ⟨k', hrun, hreach, -⟩ := sysMunmap_of_some hinvalid hfits.round hfits.stop hok hmap
      rw [keeps_iff_of_reaches (munmap virt size) hreach (.inl ⟨0, hrun⟩)]
      constructor
      · intro hsame
        exact ⟨hfree, hframes, fun v hv => (unmapAll_same_iff hvalid hmap).mp (hsame v hv)⟩
      · intro h v hv
        exact (unmapAll_same_iff hvalid hmap).mpr (h.apart v hv)
  · refine iff_of_false (not_keeps_of_panic ?_) fun h => hfits (h.resolve_left hinvalid).1
    exact sysMunmap_overflow hinvalid (overflow_of_not_fits hfits)

theorem mprotect_keeps_iff (hok : k.vm.Ok (k.cr3 cpu))
    (hroot : ∀ v, ¬ (k.space cpu).Blocked (level v 1)) (virt size prot : Word) :
    (mprotect virt size prot).KeepsKernelHalf cpu k ↔ (mprotect virt size prot).Safe cpu k := by
  by_cases hinvalid : virt % pageSize ≠ 0 ∨ size = 0 ∨ userSpaceMax ≤ virt.toNat
  · exact iff_of_true (keeps_of_unchanged (sysMprotect_invalid hinvalid))
      (.inl hinvalid)
  by_cases hfits : Fits virt size
  · obtain ⟨k', hrun, -, hreach⟩ := sysMprotect_run hinvalid .dev prot hfits.round
      hfits.stop hok hroot
    have hsame := fun v => protectAll_same_iff (S := k.space cpu) (v := v)
      (userFlags_present (prot &&& 2 ≠ 0) (prot &&& 4 ≠ 0)) (pages virt (numPages size))
    rw [keeps_iff_of_reaches (mprotect virt size prot) hreach (.inl ⟨0, hrun⟩)]
    constructor
    · intro h
      exact .inr ⟨hfits, fun v hv => (hsame v).mp (h v hv)⟩
    · intro h v hv
      exact (hsame v).mpr ((h.resolve_left hinvalid).2 v hv)
  · refine iff_of_false (not_keeps_of_panic ?_) fun h => hfits (h.resolve_left hinvalid).1
    exact sysMprotect_overflow hinvalid (overflow_of_not_fits hfits)

theorem sameKernelHalf_of_user (h : S.Changed (levelsOf ws) (pathsOf ws) n S')
    (hws : ∀ w ∈ ws, w.toNat < userSpaceMax) : SameKernelHalf S S' := by
  intro v hv
  refine h.same_of_apart ?_ ?_
  · rintro ⟨w, hw, hpath⟩
    exact hv.level_ne (hws w hw) (by decide) (by decide) (by decide) (by decide)
      ((level_four v).trans (hpath.trans (level_four w).symm))
  · intro j hj hj4 hmem
    obtain ⟨w, hw, m, hm, hm3, heq⟩ := mem_levelsOf.mp hmem
    exact hv.level_ne (hws w hw) hj hj4 hm (by omega) heq

theorem anyOverlap_isSome_iff {regions : Memory.VmaList} :
    (regions.anyOverlap p region).isSome ↔ ∃ r regions', regions.add p region = some (r, regions') := by
  unfold Memory.VmaList.add
  cases regions.anyOverlap p region with
  | none => exact iff_of_false (by simp) fun ⟨_, _, h⟩ => nomatch h
  | some b => cases b <;> exact iff_of_true rfl ⟨_, _, rfl⟩

theorem mem_pages_lt (h : v.toNat + n * 4096 ≤ userSpaceMax) (hw : w ∈ pages v n) :
    w.toNat < userSpaceMax := by
  have hmax : userSpaceMax = 2 ^ 47 := rfl
  obtain ⟨i, hi, heq⟩ := (mem_pages (by omega)).mp hw
  omega

section Mmap

variable {length : Word}

/-- With a range found, the call returns exactly if the page loop does not
    panic and the region can be compared. -/
theorem mmap_found_keeps_iff (hok : k.vm.Ok (k.cr3 cpu)) (hlength : length ≠ 0)
    (hround : length.toNat + 4096 < 2 ^ 64) (hcurrent : k.sched.withCurrentTask cpu = some t)
    (hhint : (mmapHint addr).toNat + 4096 < 2 ^ 64)
    (hfree : FirstFree (t.pageTable.getD 0) k.vm.mem (mmapHint addr)
      (numPages length) v) :
    (mmap addr length prot flags fd).KeepsKernelHalf cpu k ↔
      (k.space cpu).Suffices (pages v (numPages length)) ∧
      ((k.space cpu).used (pages v (numPages length)) + numPages length ≤
          (k.space cpu).free.card →
        (t.vmaList.anyOverlap .dev (mmapRegion v (alignedSize length) (flags &&& 1 ≠ 0)
          (flags &&& 2 ≠ 0))).isSome) := by
  have hvalid : (k.space cpu).Valid := hok.valid
  have hlen : (pages v (numPages length)).length = numPages length := by
    rw [pages, length_map, length_range]
  have huser : ∀ w ∈ pages v (numPages length), w.toNat < userSpaceMax :=
    fun w hw => mem_pages_lt hfree.below hw
  have hpanic : fill (mmapFlags flags) (pages v (numPages length)) (k.space cpu) ≠
      .panic ↔ _ := fill_ne_panic_iff hvalid
  obtain ⟨hdone, hstop⟩ : (∀ S', fill (mmapFlags flags) (pages v (numPages length))
      (k.space cpu) = .done S' → _) ∧ _ := fill_changed hvalid
  by_cases hsuff : (k.space cpu).Suffices (pages v (numPages length))
  · have hend : (∃ S', fill (mmapFlags flags) _ _ = .done S') ↔ _ :=
      fill_done_iff hvalid hsuff
    rw [hlen] at hend
    rw [and_iff_right hsuff, ← hend]
    cases hfill : fill (mmapFlags flags) (pages v (numPages length))
      (k.space cpu) with
    | panic => exact absurd hfill (hpanic.mpr hsuff)
    | outOfMemory S' =>
      obtain ⟨k', hrun, -, hreach⟩ := sysMmap_of_outOfMemory prot fd hlength hround
        hcurrent hhint hfree hok hfill
      obtain ⟨-, i, -, hchanged⟩ := hstop S' hfill
      refine iff_of_true ?_ fun h => by cases h.choose_spec
      rw [keeps_iff_of_reaches (mmap addr length prot flags fd) hreach (.inr ⟨_, hrun⟩)]
      exact sameKernelHalf_of_user hchanged fun w hw => huser w (mem_of_mem_take hw)
    | done S' =>
      obtain ⟨vm, hreach, -, -, hrest⟩ := sysMmap_of_done prot fd hlength hround
        hcurrent hhint hfree hok hfill
      rw [forall_prop_of_true ⟨S', rfl⟩, anyOverlap_isSome_iff]
      cases hadd : t.vmaList.add .dev (mmapRegion v (alignedSize length)
        (flags &&& 1 ≠ 0) (flags &&& 2 ≠ 0)) with
      | none =>
        refine iff_of_false (not_keeps_of_panic ⟨{ k with vm := vm }, ?_⟩) (by simp)
        refine hrest.trans (Comp.bind_of_error ?_ _)
        exact addVma_of_none hcurrent hadd
      | some q =>
        obtain ⟨r, regions⟩ := q
        refine iff_of_true ?_ ⟨r, regions, rfl⟩
        obtain ⟨sched, hvma, -⟩ := addVma_of_some (k := { k with vm := vm }) hcurrent hadd
        have hrun := hrest.trans (Comp.bind_of_ok hvma _)
        have hreach' : k.Reaches cpu S' { k with sched := sched, vm := vm } :=
          ⟨rfl, hreach.ok, hreach.space⟩
        rw [keeps_iff_of_reaches (mmap addr length prot flags fd) hreach' (.inl ⟨v, hrun⟩)]
        exact sameKernelHalf_of_user (hdone S' hfill) huser
  · refine iff_of_false (not_keeps_of_panic ?_) fun h => hsuff h.1
    refine sysMmap_of_panic prot fd hlength hround hcurrent hhint hfree hok ?_
    by_contra hne
    exact hsuff (hpanic.mp hne)

theorem mmap_keeps_iff (hok : k.vm.Ok (k.cr3 cpu)) (addr length prot flags fd : Word) :
    (mmap addr length prot flags fd).KeepsKernelHalf cpu k ↔
      (mmap addr length prot flags fd).Safe cpu k := by
  by_cases hlength : length = 0
  · refine iff_of_true (keeps_of_unchanged (e := .invalidArgument) ?_) (.inl hlength)
    exact sysMmap_invalid prot fd hlength
  by_cases hround : length.toNat + 4096 < 2 ^ 64
  · have hsafe : (mmap addr length prot flags fd).Safe cpu k ↔ ∀ t,
        k.sched.withCurrentTask cpu = some t → MmapSafe k cpu t addr length flags :=
      ⟨fun h => (h.resolve_left hlength).2, fun h => .inr ⟨hround, h⟩⟩
    rw [hsafe]
    cases hcurrent : k.sched.withCurrentTask cpu with
    | none =>
      refine iff_of_true (keeps_of_unchanged (e := .outOfMemory) ?_) fun t h => nomatch h
      exact sysMmap_noTask prot fd hlength hround hcurrent
    | some t =>
      have hone : (∀ t', some t = some t' → MmapSafe k cpu t' addr length flags) ↔
          MmapSafe k cpu t addr length flags :=
        ⟨fun h => h t rfl, fun h t' ht' => Option.some.inj ht' ▸ h⟩
      rw [hone]
      by_cases hhint : (mmapHint addr).toNat + 4096 < 2 ^ 64
      · by_cases hscan : ScanFails (t.pageTable.getD 0) k.vm.mem (mmapHint addr)
          (numPages length)
        · refine iff_of_false (not_keeps_of_panic ⟨k, ?_⟩) fun h => h.scan hscan
          exact sysMmap_of_find_eq_none prot fd hlength hround hcurrent
            ((findFreeRange_eq_none_iff hhint (numPages_pos hlength)).mpr hscan)
        by_cases hrange : ∃ v, FirstFree (t.pageTable.getD 0) k.vm.mem
          (mmapHint addr) (numPages length) v
        · obtain ⟨v, hfree⟩ := hrange
          rw [mmap_found_keeps_iff hok hlength hround hcurrent hhint hfree]
          refine ⟨fun h => ⟨hhint, hscan, fun u hu => ?_⟩, fun h => h.pages v hfree⟩
          obtain rfl : u = v := BitVec.eq_of_toNat_eq
            (Nat.le_antisymm (hu.first v hfree.toFreeAt) (hfree.first u hu.toFreeAt))
          exact h
        · rw [not_exists] at hrange
          refine iff_of_true (keeps_of_unchanged (e := .outOfMemory) ?_)
            ⟨hhint, hscan, fun v hv => absurd hv (hrange v)⟩
          exact sysMmap_noRange prot fd hlength hround hcurrent hhint hscan hrange
      · refine iff_of_false (not_keeps_of_panic ⟨k, ?_⟩) fun h => hhint h.hint
        exact sysMmap_of_find_eq_none prot fd hlength hround hcurrent
          (findFreeRange_dev_eq_none (Nat.not_lt.mp hhint))
  · refine iff_of_false (not_keeps_of_panic ⟨k, ?_⟩) fun h => hround (h.resolve_left hlength).1
    exact sysMmap_overflow prot fd hlength (Nat.not_lt.mp hround)

end Mmap

/-- Which memory system calls return and leave the kernel half alone, for every page
    table that is a tree of allocated frames without huge P4 entries. -/
theorem keepsKernelHalf_iff (k : ProcState) (cpu : Cpu) (call : MemCall)
    (hok : k.vm.Ok (k.cr3 cpu)) (hroot : ∀ v, ¬ (k.space cpu).Blocked (level v 1)) :
    call.KeepsKernelHalf cpu k ↔ call.Safe cpu k := by
  cases call with
  | mmap addr length prot flags fd => exact mmap_keeps_iff hok addr length prot flags fd
  | munmap virt size => exact munmap_keeps_iff hok virt size
  | mprotect virt size prot => exact mprotect_keeps_iff hok hroot virt size prot

/-! ## A page table with a user page and a kernel page -/

/-- The user page is at 0x401000, in frame 0x5000, and the kernel page at
    0xFFFF800000000000, in frame 0x9000. -/
def twoPageEntries : List (Word × Fin 512 × Entry) :=
  [(0x1000#64, 0, 0x2007#64), (0x2000#64, 0, 0x3007#64), (0x3000#64, 2, 0x4007#64),
    (0x4000#64, 1, 0x5007#64), (0x1000#64, 256, 0x6003#64), (0x6000#64, 0, 0x7003#64),
    (0x7000#64, 0, 0x8003#64), (0x8000#64, 0, 0x9003#64)]

def twoPageState : ProcState where
  sched := Scheduler.empty
  vm := ⟨Vm.ofEntries twoPageEntries, bootInit⟩
  cr3 := fun _ => 0x1000#64

theorem bootInit_ready : bootInit.Ready :=
  ⟨⟨rfl, by unfold Memory.FrameAlloc.RegionSized; decide⟩, by decide, by decide⟩

theorem three_le_available : 3 ≤ bootInit.available.card := by
  have hframe : ∀ j, 256 ≤ j → j < 8192 → bootInit.frameAddr j ∈ bootInit.available := by
    intro j hj hj'
    refine (frameAddr_mem_framesWith bootInit_ready.sized hj').mpr ?_
    exact (Bitmap.bit_fillPrefix (by decide) j).trans (decide_eq_false (by omega))
  exact Finset.two_lt_card.mpr ⟨_, hframe 256 (by decide) (by decide),
    _, hframe 257 (by decide) (by decide), _, hframe 258 (by decide) (by decide),
    by decide, by decide, by decide⟩

theorem twoPageState_ok : twoPageState.vm.Ok 0x1000#64 :=
  Vm.ok_of_entries bootInit_ready (by decide +kernel) (by decide +kernel)

theorem twoPageState_unblocked (q : List (Fin 512)) : ¬ (twoPageState.space 0).Blocked q := by
  have hsmall : twoPageEntries.all (fun x => !x.2.2.isHuge) = true := by decide +kernel
  rintro ⟨e, he, hpresent, hhuge, -⟩
  rcases Vm.entry_ofEntries he with rfl | ⟨a, i, hmem⟩
  · cases hpresent
  · have hnot := List.all_eq_true.mp hsmall _ hmem
    rw [hhuge] at hnot
    cases hnot

/-- Unmapping the user page keeps the kernel page, and so does protecting a range that
    runs into the kernel half: user mode is still shut out above the entry it sets. -/
theorem keepsKernelHalf_twoPages :
    Memory.PageTable.translate 0x1000#64 twoPageState.vm.mem 0xFFFF800000000123#64 =
        some (some 0x9123#64) ∧
      (munmap 0x401000#64 0x1000#64).KeepsKernelHalf 0 twoPageState ∧
      (mprotect 0x00007FFFFFFFF000#64 0x2000#64 7#64).KeepsKernelHalf 0 twoPageState := by
  have hroot := fun v => twoPageState_unblocked (level v 1)
  have hpages : pages 0x401000#64 (numPages 0x1000#64) = [0x401000#64] := by decide
  have hrange : pages 0x00007FFFFFFFF000#64 (numPages 0x2000#64) =
      [0x00007FFFFFFFF000#64, 0x0000800000000000#64] := by decide
  refine ⟨by decide, ?_, ?_⟩
  · refine (keepsKernelHalf_iff twoPageState 0 _ twoPageState_ok hroot).mpr (.inr ⟨⟨?_, ?_⟩, ?_⟩)
    · decide
    · decide
    rw [hpages]
    refine ⟨fun ρ _ => twoPageState_unblocked ρ, ?_, fun v hv _ => ⟨?_, fun huser => ?_⟩⟩
    · calc _ ≤ (levelsOf [0x401000#64]).card := Finset.card_filter_le _ _
        _ = 3 := by decide
        _ ≤ _ := three_le_available
    · rintro ⟨w, hw, hpath⟩
      obtain rfl := mem_singleton.mp hw
      exact hv.level_ne (j := 4) (m := 4) (by decide) (by decide) (by decide) (by decide)
        (by decide) ((level_four v).trans (hpath.trans (level_four _).symm))
    · refine huser.of_disjoint fun j hj hj4 hmem => ?_
      obtain ⟨w, hw, m, hm, hm3, heq⟩ := mem_levelsOf.mp hmem
      obtain rfl := mem_singleton.mp hw
      exact hv.level_ne (by decide) hj hj4 hm (by omega) heq
  · refine (keepsKernelHalf_iff twoPageState 0 _ twoPageState_ok hroot).mpr (.inr ⟨⟨?_, ?_⟩, ?_⟩)
    · decide
    · decide
    rw [hrange]
    rintro v hv ⟨w, hw, hpath⟩ e he -
    rcases mem_cons.mp hw with rfl | hw
    · refine absurd ((level_four v).trans (hpath.trans (level_four _).symm)) ?_
      exact hv.level_ne (by decide) (by decide) (by decide) (by decide) (by decide)
    · obtain rfl := mem_singleton.mp hw
      have htables : (twoPageState.space 0).entry.tablePerm v =
          (twoPageState.space 0).entry.tablePerm 0x0000800000000000#64 := by
        simp only [Entries.tablePerm, Entries.passedTables, level, hpath]
      obtain rfl : e = 0x9003#64 := by
        rw [hpath] at he
        exact (Option.some.inj (he.symm.trans (by decide)))
      rw [htables]
      decide

/-! ## A kernel page that sys_munmap takes away -/

/-- A kernel page at 0xFFFF800000000000, in frame 0x5000. -/
def kernelPageMem : Memory.PageTable.PhysMem := fun a i =>
  if a = 0x1000#64 ∧ i = 256 then 0x2003#64
  else if a = 0x2000#64 ∧ i = 0 then 0x3003#64
  else if a = 0x3000#64 ∧ i = 0 then 0x4003#64
  else if a = 0x4000#64 ∧ i = 0 then 0x5003#64
  else 0#64

def kernelPageState : ProcState where
  sched := Scheduler.empty
  vm := ⟨kernelPageMem, bootInit⟩
  cr3 := fun _ => 0x1000#64

/-- `sys_munmap(0xFFFF800000000000, 4096)` unmaps the kernel page. -/
theorem munmap_kernel_page :
    ¬ (munmap 0xFFFF800000000000#64 0x1000#64).KeepsKernelHalf 0 kernelPageState := by
  obtain ⟨k', hrun, hcr3, hafter⟩ : ∃ k',
      (munmap 0xFFFF800000000000#64 0x1000#64).run .dev 0 kernelPageState = .ok 0 k' ∧
      k'.cr3 0 = 0x1000#64 ∧
      Memory.PageTable.translate 0x1000#64 k'.vm.mem 0xFFFF800000000000#64 = some none := by
    refine ⟨_, rfl, rfl, ?_⟩
    decide
  rintro ⟨k₁, hrun₁, hkeeps⟩
  obtain rfl : k' = k₁ := by
    rcases hrun₁ with ⟨r, hr⟩ | ⟨e, he⟩
    · exact (EStateM.Result.ok.inj (hrun.symm.trans hr)).2
    · cases hrun.symm.trans he
  have hsame := (hkeeps 0xFFFF800000000000#64 (by decide)).1
  rw [hcr3, hafter]
    at hsame
  cases hsame

end MemCall

end OpenOS
