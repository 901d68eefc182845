/-
  How the memory system calls end, case by case: the argument checks, the
  arithmetic that overflows, and the page loop as an operation on the address
  space of the CPU.
-/

import OpenOS.Memory.FreeRange
import OpenOS.Syscall.MemoryLoop

namespace OpenOS.Memory.PageTable

open OpenOS.Base

/-- The size rounded up to whole pages. -/
def alignedSize (size : Word) : Word := BitVec.ofNat 64 (numPages size * 4096)

section Aligned

variable {size : Word} (h : size.toNat + 4096 < 2 ^ 64)
include h

theorem toNat_alignedSize : (alignedSize size).toNat = numPages size * 4096 := by
  have hlt : numPages size * 4096 < 2 ^ 64 := by
    rw [numPages]
    omega
  exact (BitVec.toNat_ofNat _ _).trans (Nat.mod_eq_of_lt hlt)

theorem alignUp_eq (p : Profile) : alignUp p size = some (alignedSize size) := by
  obtain ⟨y, halign, hy⟩ := alignUp_eq_some h p
  have heq : y = alignedSize size := BitVec.eq_of_toNat_eq (hy.trans (toNat_alignedSize h).symm)
  exact halign.trans (congrArg some heq)

theorem alignedSize_div : (alignedSize size / pageSize).toNat = numPages size := by
  rw [BitVec.toNat_udiv, toNat_alignedSize h]
  exact Nat.mul_div_cancel _ (by decide)

end Aligned

theorem numPages_pos (h : size ≠ 0) : 0 < numPages size := by
  have hpos : size.toNat ≠ 0 := fun hzero => h (BitVec.eq_of_toNat_eq hzero)
  rw [numPages]
  omega

namespace Vm

theorem noErr_forPages (p : Profile) (virt : Word) (n : Nat) (hbody : ∀ w, Comp.NoErr (body w)) :
    Comp.NoErr (forPages p virt n body) := by
  refine Comp.NoErr.forM (fun i => ?_) _
  refine Comp.NoErr.bind ?_ hbody
  exact (noErr_unwrap _).bind fun _ => noErr_unwrap _

end Vm

end OpenOS.Memory.PageTable

namespace OpenOS

open Base
open Memory.PageTable

namespace Profile

theorem add_dev_eq_none {y : Word} (h : 2 ^ 64 ≤ x.toNat + y.toNat) :
    Profile.dev.add x y = none := by
  rw [Profile.add, Profile.checked, if_neg]
  exact Nat.not_lt.mpr h

end Profile

theorem userFlags_present (writable executable : Bool) :
    (userFlags writable executable).contains .present = true := by
  cases writable <;> cases executable <;> decide

namespace ProcState

variable {k : ProcState} {vm : Vm}

/-- The address space that the CPU runs in. -/
def space (k : ProcState) (cpu : Cpu) : Space := k.vm.space (k.cr3 cpu)

theorem onVm_of_ok (h : x k.vm = .ok a vm) : onVm x k = .ok a { k with vm := vm } := by
  rw [onVm, h]

theorem onVm_of_error (h : x k.vm = .error e vm) : onVm x k = .error e { k with vm := vm } := by
  rw [onVm, h]

theorem noErr_onVm (h : Comp.NoErr x) : Comp.NoErr (onVm x) := by
  intro k e k' hrun
  unfold onVm at hrun
  split at hrun
  · cases hrun
  · rename_i hx
    cases hrun
    exact h _ _ _ hx

/-! ## The region list -/

theorem id_addTo (p : Profile) (region : Memory.VmaRegion) (t : Task) :
    (addTo p region t).2.id = t.id := by
  unfold addTo
  split <;> rfl

theorem removeVma_apply (k : ProcState) (cpu : Cpu) (virt : Word) :
    ∃ sched, removeVma cpu virt k = .ok () { k with sched := sched } ∧
      sched.withCurrentTask cpu = (k.sched.withCurrentTask cpu).map fun t =>
        (removeFrom virt t).2 := by
  unfold removeVma
  cases hcurrent : k.sched.withCurrentTask cpu with
  | none =>
    rw [Scheduler.withCurrentTaskMut_of_none hcurrent (removeFrom virt) fun _ => rfl]
    exact ⟨k.sched, rfl, hcurrent⟩
  | some t =>
    obtain ⟨sched, hmut, hupd⟩ := Scheduler.withCurrentTaskMut_of_current hcurrent
      (removeFrom virt) fun _ => rfl
    rw [hmut]
    exact ⟨sched, rfl, hupd.after⟩

theorem addVma_of_some (hcurrent : k.sched.withCurrentTask cpu = some t)
    (hadd : t.vmaList.add p region = some (r, regions)) :
    ∃ sched, addVma p cpu region k = .ok () { k with sched := sched } ∧
      sched.withCurrentTask cpu = some { t with vmaList := regions } := by
  obtain ⟨sched, hmut, hupd⟩ := Scheduler.withCurrentTaskMut_of_current hcurrent
    (addTo p region) (id_addTo p region)
  have hto : addTo p region t = (true, { t with vmaList := regions }) := by
    rw [addTo, hadd]
  rw [hto] at hmut hupd
  refine ⟨sched, ?_, hupd.after⟩
  rw [addVma, hmut]

theorem addVma_of_none (hcurrent : k.sched.withCurrentTask cpu = some t)
    (hadd : t.vmaList.add p region = none) : addVma p cpu region k = .error .panic k := by
  obtain ⟨sched, hmut, -⟩ := Scheduler.withCurrentTaskMut_of_current hcurrent
    (addTo p region) (id_addTo p region)
  have hto : addTo p region t = (false, t) := by
    rw [addTo, hadd]
  rw [hto] at hmut
  rw [addVma, hmut]

/-! ## Calls as operations on the address space -/

/-- The call has left the CPU in the address space `S'`. -/
structure Reaches (k : ProcState) (cpu : Cpu) (S' : Space) (k' : ProcState) : Prop where
  cr3 : k'.cr3 = k.cr3
  ok : k'.vm.Ok (k.cr3 cpu)
  space : k'.space cpu = S'

theorem orPanic_some (a : α) : (orPanic (some a) : CallM α) = pure a := rfl

theorem get_bind (f : ProcState → CallM α) (k : ProcState) :
    ((get : CallM ProcState) >>= f) k = f k k := rfl

/-! ### sys_munmap -/

section Munmap

variable {size : Word}

theorem sysMunmap_invalid (h : virt % pageSize ≠ 0 ∨ size = 0) :
    sysMunmap p cpu virt size k = .error (.err .invalidArgument) k := by
  rw [sysMunmap, if_pos h]
  rfl

variable (h : ¬ (virt % pageSize ≠ 0 ∨ size = 0))
include h

theorem sysMunmap_eq (hround : size.toNat + 4096 < 2 ^ 64) : sysMunmap p cpu virt size = (do
    removeVma cpu virt
    let k ← get
    onVm (Vm.forPages p virt (numPages size) (Vm.munmapPage p (k.cr3 cpu)))
    let _ ← orPanic (p.add virt (alignedSize size))
    return 0) := by
  rw [sysMunmap, if_neg h, alignUp_eq hround, orPanic_some, pure_bind, alignedSize_div hround]

/-- Rounding the size up, or the end of the range, overflows. -/
theorem sysMunmap_overflow (hover : 2 ^ 64 ≤ size.toNat + 4096 ∨
    2 ^ 64 ≤ virt.toNat + numPages size * 4096) :
    ∃ k', sysMunmap .dev cpu virt size k = .error .panic k' := by
  by_cases hround : size.toNat + 4096 < 2 ^ 64
  · have hend := hover.resolve_left (Nat.not_le.mpr hround)
    obtain ⟨sched, hremove, -⟩ := removeVma_apply k cpu virt
    have hadd : Profile.dev.add virt (alignedSize size) = none := by
      apply Profile.add_dev_eq_none
      rwa [toNat_alignedSize hround]
    rw [sysMunmap_eq h hround, Comp.bind_of_ok hremove, hadd]
    refine Comp.NoErr.bind_panics (noErr_onVm (Vm.noErr_forPages _ _ _ ?_)) ?_ _
    · exact fun w => Vm.noErr_mapPageUser _ _ _ _ _
    · exact fun _ k' => ⟨k', rfl⟩
  · rw [sysMunmap, if_neg h, alignUp_dev_eq_none (Nat.not_lt.mp hround)]
    exact ⟨k, rfl⟩

variable (hround : size.toNat + 4096 < 2 ^ 64) (hend : virt.toNat + numPages size * 4096 < 2 ^ 64)
  (hok : k.vm.Ok (k.cr3 cpu))
include hround hend hok

theorem sysMunmap_of_none
    (hmap : Space.mapAll 0#64 (pages virt (numPages size)) (k.space cpu) = none) :
    ∃ k', sysMunmap p cpu virt size k = .error .panic k' := by
  obtain ⟨sched, hremove, -⟩ := removeVma_apply k cpu virt
  have hsim := Vm.munmapPages_simulates (p := p) hok (pages virt (numPages size))
  rw [show Vm.space _ _ = k.space cpu from rfl, hmap] at hsim
  obtain ⟨vm, hrun⟩ := hsim
  refine ⟨{ k with sched := sched, vm := vm }, ?_⟩
  rw [sysMunmap_eq h hround, Comp.bind_of_ok hremove, get_bind, Vm.forPages_eq (Nat.le_of_lt hend)]
  exact Comp.bind_of_error (onVm_of_error (k := { k with sched := sched }) hrun) _

theorem sysMunmap_of_some
    (hmap : Space.mapAll 0#64 (pages virt (numPages size)) (k.space cpu) = some S') :
    ∃ k', sysMunmap p cpu virt size k = .ok 0 k' ∧ k.Reaches cpu S' k' ∧
      Vm.Writes (tables (k.cr3 cpu) k.vm.mem) k.vm k'.vm ∧
      k'.sched.withCurrentTask cpu = (k.sched.withCurrentTask cpu).map fun t =>
        (removeFrom virt t).2 := by
  obtain ⟨sched, hremove, hcurrent⟩ := removeVma_apply k cpu virt
  have hsim := Vm.munmapPages_simulates (p := p) hok (pages virt (numPages size))
  rw [show Vm.space _ _ = k.space cpu from rfl, hmap] at hsim
  obtain ⟨⟨⟩, vm, hrun, hok', hspace, hwrites, -⟩ := hsim
  have hadd : p.add virt (alignedSize size) = some (virt + alignedSize size) := by
    apply p.add_eq_some_of_lt
    rwa [toNat_alignedSize hround]
  refine ⟨{ k with sched := sched, vm := vm }, ?_, ⟨rfl, hok', hspace⟩, hwrites, hcurrent⟩
  rw [sysMunmap_eq h hround, Comp.bind_of_ok hremove, get_bind, Vm.forPages_eq (Nat.le_of_lt hend),
    hadd]
  exact Comp.bind_of_ok (onVm_of_ok (k := { k with sched := sched }) hrun) _

end Munmap

/-! ### sys_mprotect -/

section Mprotect

variable {size : Word}

/-- The flags that sys_mprotect writes. -/
def mprotectFlags (prot : Word) : PageTableFlags := userFlags (prot &&& 2 ≠ 0) (prot &&& 4 ≠ 0)

theorem sysMprotect_invalid (h : virt % pageSize ≠ 0 ∨ size = 0 ∨ userSpaceMax ≤ virt.toNat) :
    sysMprotect p cpu virt size prot k = .error (.err .invalidArgument) k := by
  rw [sysMprotect]
  by_cases hfirst : virt % pageSize ≠ 0 ∨ size = 0
  · rw [if_pos hfirst]
    rfl
  · rw [if_neg hfirst, if_pos ((or_assoc.mpr h).resolve_left hfirst)]
    rfl

variable (h : ¬ (virt % pageSize ≠ 0 ∨ size = 0 ∨ userSpaceMax ≤ virt.toNat))
include h

theorem sysMprotect_eq_bind : sysMprotect p cpu virt size prot = (do
    let alignedSize ← orPanic (alignUp p size)
    let k ← get
    onVm (Vm.forPages p virt (alignedSize / pageSize).toNat
      (Vm.mprotectPage (k.cr3 cpu) (mprotectFlags prot)))
    let _ ← orPanic (p.add virt alignedSize)
    return 0) := by
  rw [← or_assoc, not_or] at h
  rw [sysMprotect, if_neg h.1, if_neg h.2]
  rfl

theorem sysMprotect_eq (hround : size.toNat + 4096 < 2 ^ 64) :
    sysMprotect p cpu virt size prot k = (do
      onVm (Vm.forPages p virt (numPages size) (Vm.mprotectPage (k.cr3 cpu) (mprotectFlags prot)))
      let _ ← orPanic (p.add virt (alignedSize size))
      return 0) k := by
  rw [sysMprotect_eq_bind h, alignUp_eq hround, orPanic_some, pure_bind, alignedSize_div hround,
    get_bind]

/-- Rounding the size up, or the end of the range, overflows. -/
theorem sysMprotect_overflow (hover : 2 ^ 64 ≤ size.toNat + 4096 ∨
    2 ^ 64 ≤ virt.toNat + numPages size * 4096) :
    ∃ k', sysMprotect .dev cpu virt size prot k = .error .panic k' := by
  by_cases hround : size.toNat + 4096 < 2 ^ 64
  · have hend := hover.resolve_left (Nat.not_le.mpr hround)
    have hadd : Profile.dev.add virt (alignedSize size) = none := by
      apply Profile.add_dev_eq_none
      rwa [toNat_alignedSize hround]
    rw [sysMprotect_eq h hround, hadd]
    refine Comp.NoErr.bind_panics (noErr_onVm (Vm.noErr_forPages _ _ _ ?_)) ?_ _
    · exact fun w _ _ _ hrun => nomatch hrun
    · exact fun _ k' => ⟨k', rfl⟩
  · rw [sysMprotect_eq_bind h, alignUp_dev_eq_none (Nat.not_lt.mp hround)]
    exact ⟨k, rfl⟩

theorem sysMprotect_run (p : Profile) (prot : Word) (hround : size.toNat + 4096 < 2 ^ 64)
    (hend : virt.toNat + numPages size * 4096 < 2 ^ 64) (hok : k.vm.Ok (k.cr3 cpu))
    (hroot : ∀ v, ¬ (k.space cpu).Blocked (level v 1)) :
    ∃ k', sysMprotect p cpu virt size prot k = .ok 0 k' ∧ k'.sched = k.sched ∧
      k.Reaches cpu (Space.protectAll (mprotectFlags prot) (pages virt (numPages size))
        (k.space cpu)) k' := by
  obtain ⟨vm, hrun, hok', hspace⟩ := Vm.mprotectPages_simulates hok (mprotectFlags prot) hroot
    (pages virt (numPages size))
  have hadd : p.add virt (alignedSize size) = some (virt + alignedSize size) := by
    apply p.add_eq_some_of_lt
    rwa [toNat_alignedSize hround]
  refine ⟨{ k with vm := vm }, ?_, rfl, rfl, hok', hspace⟩
  rw [sysMprotect_eq h hround, Vm.forPages_eq (Nat.le_of_lt hend), hadd]
  exact Comp.bind_of_ok (onVm_of_ok hrun) _

end Mprotect

/-! ### sys_mmap -/

section Mmap

variable {length : Word} (prot fd : Word)

/-- Where sys_mmap starts to search. -/
def mmapHint (addr : Word) : Word := if addr = 0 then 0x40000000#64 else addr

/-- The flags that sys_mmap writes. -/
def mmapFlags (flags : Word) : PageTableFlags := userFlags (flags &&& 1 ≠ 0) (flags &&& 2 ≠ 0)

theorem mmapLoop_outcome (hok : k.vm.Ok (k.cr3 cpu)) (flags : Word) (ws : List Word) :
    Vm.FillOutcome (k.cr3 cpu) k.vm ws (ws.forM (Vm.mmapPage p (k.cr3 cpu) (mmapFlags flags)) k.vm)
      (Space.fill (mmapFlags flags) ws (k.space cpu)) :=
  Vm.mmapPages_simulates hok (userFlags_present _ _) ws

theorem sysMmap_invalid (h : length = 0) :
    sysMmap p cpu addr length prot flags fd k = .error (.err .invalidArgument) k := by
  rw [sysMmap, if_pos h]
  rfl

theorem sysMmap_overflow (h : length ≠ 0) (hround : 2 ^ 64 ≤ length.toNat + 4096) :
    sysMmap .dev cpu addr length prot flags fd k = .error .panic k := by
  rw [sysMmap, if_neg h, alignUp_dev_eq_none hround]
  rfl

theorem sysMmap_eq (h : length ≠ 0) (hround : length.toNat + 4096 < 2 ^ 64) :
    sysMmap p cpu addr length prot flags fd = (do
      let virt ← findRange p cpu addr (numPages length)
      let k ← get
      onVm (Vm.forPages p virt (numPages length) (Vm.mmapPage p (k.cr3 cpu) (mmapFlags flags)))
      addVma p cpu (mmapRegion virt (alignedSize length) (flags &&& 1 ≠ 0) (flags &&& 2 ≠ 0))
      let _ ← orPanic (p.add virt (alignedSize length))
      return virt) := by
  rw [sysMmap, if_neg h, alignUp_eq hround, orPanic_some, pure_bind, alignedSize_div hround]
  rfl

section Range

variable (h : length ≠ 0) (hround : length.toNat + 4096 < 2 ^ 64)
include h hround

theorem sysMmap_noTask (hcurrent : k.sched.withCurrentTask cpu = none) :
    sysMmap p cpu addr length prot flags fd k = .error (.err .outOfMemory) k := by
  rw [sysMmap_eq prot fd h hround]
  refine Comp.bind_of_error ?_ _
  rw [findRange, hcurrent]

variable (hcurrent : k.sched.withCurrentTask cpu = some t)
include hcurrent

theorem sysMmap_of_find_eq_none (hfind : findFreeRange p (t.pageTable.getD 0) k.vm.mem
    (mmapHint addr) (numPages length) = none) :
    sysMmap p cpu addr length prot flags fd k = .error .panic k := by
  rw [sysMmap_eq prot fd h hround]
  refine Comp.bind_of_error ?_ _
  rw [findRange, hcurrent]
  simp only [show (if addr = 0 then 0x40000000#64 else addr) = mmapHint addr from rfl, hfind]

variable (hhint : (mmapHint addr).toNat + 4096 < 2 ^ 64)
include hhint

theorem sysMmap_noRange
    (hscan : ¬ ScanFails (t.pageTable.getD 0) k.vm.mem (mmapHint addr) (numPages length))
    (hnone : ∀ v, ¬ FirstFree (t.pageTable.getD 0) k.vm.mem (mmapHint addr) (numPages length) v) :
    sysMmap p cpu addr length prot flags fd k = .error (.err .outOfMemory) k := by
  rw [sysMmap_eq prot fd h hround]
  refine Comp.bind_of_error ?_ _
  rw [findRange, hcurrent]
  simp only [show (if addr = 0 then 0x40000000#64 else addr) = mmapHint addr from rfl]
  cases hfind : findFreeRange p (t.pageTable.getD 0) k.vm.mem (mmapHint addr) (numPages length) with
  | none => exact absurd ((findFreeRange_eq_none_iff hhint (numPages_pos h)).mp hfind) hscan
  | some o =>
    cases o with
    | none => rfl
    | some v =>
      exact absurd ((findFreeRange_eq_some_iff hhint (numPages_pos h)).mp hfind) (hnone v)

variable
  (hfree : FirstFree (t.pageTable.getD 0) k.vm.mem (mmapHint addr) (numPages length) virt)
include hfree

/-- A range has been found: its pages are visited, and then the region is added. -/
theorem sysMmap_found : sysMmap p cpu addr length prot flags fd k = (do
    onVm ((pages virt (numPages length)).forM (Vm.mmapPage p (k.cr3 cpu) (mmapFlags flags)))
    addVma p cpu (mmapRegion virt (alignedSize length) (flags &&& 1 ≠ 0) (flags &&& 2 ≠ 0))
    return virt) k := by
  have hmax : userSpaceMax = 2 ^ 47 := rfl
  have hbelow := hfree.below
  have hfind : findRange p cpu addr (numPages length) k = .ok virt k := by
    have hrange := (findFreeRange_eq_some_iff (p := p) hhint (numPages_pos h)).mpr hfree
    rw [findRange, hcurrent]
    simp only [show (if addr = 0 then 0x40000000#64 else addr) = mmapHint addr from rfl, hrange]
  have hadd : p.add virt (alignedSize length) = some (virt + alignedSize length) := by
    apply p.add_eq_some_of_lt
    rw [toNat_alignedSize hround]
    omega
  rw [sysMmap_eq prot fd h hround, Comp.bind_of_ok hfind, get_bind, Vm.forPages_eq (by omega), hadd]
  rfl

variable (hok : k.vm.Ok (k.cr3 cpu))
include hok

theorem sysMmap_of_panic
    (hfill : Space.fill (mmapFlags flags) (pages virt (numPages length)) (k.space cpu) = .panic) :
    ∃ k', sysMmap p cpu addr length prot flags fd k = .error .panic k' := by
  have hsim := mmapLoop_outcome (p := p) hok flags (pages virt (numPages length))
  rw [hfill] at hsim
  obtain ⟨vm, hrun⟩ := hsim
  refine ⟨{ k with vm := vm }, ?_⟩
  rw [sysMmap_found prot fd h hround hcurrent hhint hfree]
  exact Comp.bind_of_error (onVm_of_error hrun) _

theorem sysMmap_of_outOfMemory
    (hfill : Space.fill (mmapFlags flags) (pages virt (numPages length)) (k.space cpu) =
      .outOfMemory S') :
    ∃ k', sysMmap p cpu addr length prot flags fd k = .error (.err .outOfMemory) k' ∧
      k'.sched = k.sched ∧ k.Reaches cpu S' k' := by
  have hsim := mmapLoop_outcome (p := p) hok flags (pages virt (numPages length))
  rw [hfill] at hsim
  obtain ⟨vm, hrun, hok', hspace⟩ := hsim
  refine ⟨{ k with vm := vm }, ?_, rfl, rfl, hok', hspace⟩
  rw [sysMmap_found prot fd h hround hcurrent hhint hfree]
  exact Comp.bind_of_error (onVm_of_error hrun) _

/-- All pages are mapped; what remains is the region. -/
theorem sysMmap_of_done
    (hfill : Space.fill (mmapFlags flags) (pages virt (numPages length)) (k.space cpu) = .done S') :
    ∃ vm, k.Reaches cpu S' { k with vm := vm } ∧
      Vm.Writes (tables (k.cr3 cpu) k.vm.mem) k.vm vm ∧
      (∃ fs, Vm.Backed (k.cr3 cpu) k.vm vm (pages virt (numPages length)) fs) ∧
      sysMmap p cpu addr length prot flags fd k = (do
        addVma p cpu (mmapRegion virt (alignedSize length) (flags &&& 1 ≠ 0) (flags &&& 2 ≠ 0))
        return virt) { k with vm := vm } := by
  have hsim := mmapLoop_outcome (p := p) hok flags (pages virt (numPages length))
  rw [hfill] at hsim
  obtain ⟨vm, hrun, hok', hspace, hwrites, hbacked⟩ := hsim
  refine ⟨vm, ⟨rfl, hok', hspace⟩, hwrites, hbacked, ?_⟩
  rw [sysMmap_found prot fd h hround hcurrent hhint hfree]
  exact Comp.bind_of_ok (onVm_of_ok hrun) _

end Range

end Mmap

end ProcState

end OpenOS
