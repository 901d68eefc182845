/-
  The memory system calls (kernel/src/syscall/mod.rs): sys_mmap, sys_munmap and
  sys_mprotect, over the scheduler, physical memory, the frame allocator and
  the CR3 register of each CPU.

  The range of sys_mmap is searched in the page table of the current task, but
  every page is mapped and protected in the table that CR3 names.
-/

import OpenOS.Memory.UserPages
import OpenOS.Syscall.Channel
import OpenOS.Task.Lifecycle

namespace OpenOS

open Base
open Memory.PageTable (Vm PageTableFlags pageSize alignUp findFreeRange)

/-- The state of the processes and their memory. -/
structure ProcState where
  sched : Scheduler
  vm : Vm
  /-- The page table that each CPU has loaded. -/
  cr3 : Cpu → Word

/-- PRESENT, USER_ACCESSIBLE, and WRITABLE and NO_EXECUTE as asked for. -/
def userFlags (writable executable : Bool) : PageTableFlags :=
  let flags := PageTableFlags.present.union .userAccessible
  let flags := if writable then flags.union .writable else flags
  if executable then flags else flags.union .noExecute

/-! ## The page loops -/

namespace Memory.PageTable.Vm

/-- `virt + i * page_size` -/
def pageVirt (p : Profile) (virt : Word) (i : Nat) : Comp ε Vm Word := do
  let offset ← unwrap (p.mul (BitVec.ofNat 64 i) pageSize)
  unwrap (p.add virt offset)

/-- `for i in 0..num_pages` -/
def forPages (p : Profile) (virt : Word) (numPages : Nat) (body : Word → Comp ε Vm PUnit) :
    Comp ε Vm PUnit :=
  (List.range numPages).forM fun i => do
    let page ← pageVirt p virt i
    body page

section

variable (p : Profile) (cr3 : Word) (flags : PageTableFlags) (page : Word)

/-- Map a new, zeroed frame. -/
def mmapPage : Comp SysError Vm PUnit := do
  match ← allocFrame p with
  | none => throw (.err .outOfMemory)
  | some phys =>
    fillTable phys fun _ => some 0#64
    mapPageUser p cr3 page phys flags

/-- Unmapping is mapping frame 0 with no flags. -/
def munmapPage : Comp SysError Vm PUnit := mapPageUser p cr3 page 0#64 .empty

def mprotectPage : Comp SysError Vm PUnit :=
  fun s => .ok () { s with mem := protectPageUser cr3 page flags s.mem }

end

end Memory.PageTable.Vm

/-! ## The system calls -/

namespace ProcState

abbrev CallM := Comp SysError ProcState

def onVm {α : Type} (x : Comp SysError Vm α) : CallM α := fun k =>
  match x k.vm with
  | .ok a vm => .ok a { k with vm := vm }
  | .error e vm => .error e { k with vm := vm }

/-- The result of checked arithmetic. -/
def orPanic {α : Type} : Option α → CallM α
  | some a => fun k => .ok a k
  | none => fun k => .error .panic k

section

variable (p : Profile) (cpu : Cpu) (addr : Word)

/-- The search for a range in the page table of the current task; without a
    task, or a page table of its own, there is none, or physical address 0. -/
def findRange (numPages : Nat) : CallM Word := fun k =>
  match k.sched.withCurrentTask cpu with
  | none => .error (.err .outOfMemory) k
  | some task =>
    let hint := if addr = 0 then 0x40000000#64 else addr
    match findFreeRange p (task.pageTable.getD 0) k.vm.mem hint numPages with
    | none => .error .panic k
    | some none => .error (.err .outOfMemory) k
    | some (some virt) => .ok virt k

/-- `let _ = task.vma_list.add(region)`; `false` stands for the overflow. -/
def addTo (region : Memory.VmaRegion) (task : Task) : Bool × Task :=
  match task.vmaList.add p region with
  | none => (false, task)
  | some (_, regions) => (true, { task with vmaList := regions })

/-- `task.vma_list.remove(virt)` -/
def removeFrom (virt : Word) (task : Task) : Unit × Task :=
  ((), { task with vmaList := (task.vmaList.remove virt).2 })

/-- The new region for the current task, if there is one. -/
def addVma (region : Memory.VmaRegion) : CallM Unit := fun k =>
  match k.sched.withCurrentTaskMut cpu (addTo p region) with
  | none => .ok () k
  | some (false, _) => .error .panic k
  | some (true, sched) => .ok () { k with sched := sched }

/-- A region less for the current task, if there is one. -/
def removeVma (virt : Word) : CallM Unit := fun k =>
  match k.sched.withCurrentTaskMut cpu (removeFrom virt) with
  | none => .ok () k
  | some ((), sched) => .ok () { k with sched := sched }

/-- The region that sys_mmap registers. -/
def mmapRegion (virt size : Word) (writable executable : Bool) : Memory.VmaRegion where
  start := virt
  size := size
  flags := ⟨true, writable, executable⟩
  kind := .mmap

/-- `sys_mmap`; a page that gets no frame ends the call, and the pages before
    it stay.  The end of the range is computed for the message. -/
def sysMmap (length _prot flags _fd : Word) : CallM Word :=
  if length = 0 then throw (.err .invalidArgument)
  else do
    let alignedSize ← orPanic (alignUp p length)
    let numPages := (alignedSize / pageSize).toNat
    let virt ← findRange p cpu addr numPages
    let writable := flags &&& 1 ≠ 0
    let executable := flags &&& 2 ≠ 0
    let k ← get
    onVm (Vm.forPages p virt numPages (Vm.mmapPage p (k.cr3 cpu) (userFlags writable executable)))
    addVma p cpu (mmapRegion virt alignedSize writable executable)
    let _ ← orPanic (p.add virt alignedSize)
    return virt

def sysMunmap (virtAddr size : Word) : CallM Word :=
  if virtAddr % pageSize ≠ 0 ∨ size = 0 then throw (.err .invalidArgument)
  else do
    let alignedSize ← orPanic (alignUp p size)
    let numPages := (alignedSize / pageSize).toNat
    removeVma cpu virtAddr
    let k ← get
    onVm (Vm.forPages p virtAddr numPages (Vm.munmapPage p (k.cr3 cpu)))
    let _ ← orPanic (p.add virtAddr alignedSize)
    return 0

/-- `sys_mprotect`; only the start of the range is compared with USER_SPACE_MAX. -/
def sysMprotect (virtAddr size protFlags : Word) : CallM Word :=
  if virtAddr % pageSize ≠ 0 ∨ size = 0 then throw (.err .invalidArgument)
  else if userSpaceMax ≤ virtAddr.toNat then throw (.err .invalidArgument)
  else do
    let alignedSize ← orPanic (alignUp p size)
    let numPages := (alignedSize / pageSize).toNat
    let writable := protFlags &&& 2 ≠ 0
    let executable := protFlags &&& 4 ≠ 0
    let k ← get
    onVm (Vm.forPages p virtAddr numPages
      (Vm.mprotectPage (k.cr3 cpu) (userFlags writable executable)))
    let _ ← orPanic (p.add virtAddr alignedSize)
    return 0

end

end ProcState

end OpenOS
