/-
  Starting processes and threads: sys_process_start and sys_thread_create
  (kernel/src/syscall/mod.rs) with create_user_page_table
  (kernel/src/memory/mod.rs) and the loader on the real page tables.

  The new P4 table gets all 512 entries of the table in CR3, and CR3 is then
  the new table: it is what the loader maps its pages in, and what is "restored"
  afterwards, since the old value is read only after the switch.
-/

import OpenOS.Base.Text
import OpenOS.Elf.Load
import OpenOS.Memory.PhysBytes
import OpenOS.Syscall.Memory

namespace OpenOS

open Base
open Memory.PageTable (Vm PageTableFlags PhysMem translate)

def SavedContext.new : SavedContext := ⟨0, 0, 0, 0, 0, 0, 0, 0, 0, 0, 0, 0, 0, 0, 0, 0, 0⟩

def SavedContext.userMode (entry stackTop cr3 : Word) : SavedContext :=
  { SavedContext.new with
    rcx := entry
    rsp := stackTop
    r11 := 0x202#64
    isKernel := 0#64
    cr3 := cr3 }

/-! ## The loader's machine -/

namespace Memory.PageTable.Vm

/-- A byte written to a virtual address under the table `cr3`; without a
    mapping the processor faults. -/
def writeVirtByte (cr3 v : Word) (b : Byte) : Comp ε Vm Unit := fun s =>
  match translate cr3 s.mem v with
  | some (some a) => .ok () { s with mem := s.mem.setByte a b }
  | _ => .error .panic s

/-- `write_volatile` of a `u64`. -/
def writeVirt (cr3 v value : Word) : Comp ε Vm Unit :=
  (List.range 8).forM fun i => writeVirtByte cr3 (v + BitVec.ofNat 64 i) (getByte value i)

/-- What `load_elf` works on when sys_process_start calls it: pages are mapped
    by `map_page_user`, in the table that CR3 names. -/
def loader (p : Profile) (cr3 : Word) : Elf.Machine Vm where
  allocFrame := allocFrame p
  zeroFrame phys := fillTable phys fun _ => some 0#64
  copyTo addr bytes := fun s => .ok () { s with mem := s.mem.setBytes addr bytes }
  mapPage virt phys writable executable :=
    mapPageUser p cr3 virt phys (userFlags writable executable)
  writeVolatile := writeVirt cr3

/-- `create_user_page_table`: a frame with a copy of the P4 table in CR3. -/
def createUserPageTable (p : Profile) (cr3 : Word) : Comp ε Vm (Option Word) := do
  match ← allocFrame p with
  | none => return none
  | some frame =>
    fillTable frame fun _ => some 0#64
    let s ← get
    fillTable frame fun i =>
      Entry.setAddr (Entry.addr (s.mem cr3 i)) (Entry.flags (s.mem cr3 i))
    return some frame

end Memory.PageTable.Vm

/-! ## sys_process_start -/

/-- The files a program can be read from. -/
structure ProgramFiles where
  /-- What opening a file and reading it gives; `none` if it cannot be opened. -/
  disk : String → Option (List Byte)
  /-- The ramdisk, by file name, if there is one. -/
  ramdisk : Option (String → Option (List Byte))

namespace ProgramFiles

/-- The size of the buffer for a file on disk. -/
def elfBufSize : Nat := 16384

/-- The program: at most a buffer of the file on disk, and if that is empty the
    file of the ramdisk. -/
def read (files : ProgramFiles) (filename : String) : Option (List Byte) :=
  match ((files.disk filename).getD []).take elfBufSize with
  | [] => files.ramdisk.bind fun find => find filename
  | b :: bs => some (b :: bs)

end ProgramFiles

/-- The name and the bytes of the program that sys_process_start is asked for. -/
def programOf (mem : UserMem) (files : ProgramFiles) (namePtr nameLen : Word) :
    Except SysError (String × List Byte) :=
  match copyFromUser mem namePtr nameLen with
  | none => .error .badPointer
  | some nameBytes =>
    match fromUtf8 nameBytes with
    | none => .error .invalidArgument
    | some filename =>
      match files.read filename with
      | none => .error .notFound
      | some elfData => .ok (filename, elfData)

namespace ProcState

/-- The program, or the error that the call returns. -/
def orReturn {α : Type} : Except SysError α → CallM α
  | .ok a => fun k => .ok a k
  | .error e => fun k => .error (.err e) k

section

variable (p : Profile) (cpu : Cpu)

/-- The new page table for the process. -/
def newPageTable : CallM Word := do
  let k ← get
  match ← onVm (Vm.createUserPageTable p (k.cr3 cpu)) with
  | none => throw (.err .outOfMemory)
  | some pageTable => return pageTable

/-- What the process is given before it is loaded. -/
def configure (parent : TaskId) (pageTable : Word) (filename : String) (t : Task) : Unit × Task :=
  ((), { t with parentId := some parent, pageTable := some pageTable, name := filename })

/-- Run `f` on the task with this id, which has to exist. -/
def onTask (id : TaskId) (f : Task → Unit × Task) : CallM Unit := fun k =>
  match k.sched.withTaskMut cpu id f with
  | none => .error (.err .notFound) k
  | some ((), sched) => .ok () { k with sched := sched }

def switchPageTable (p4 : Word) : CallM Unit := fun k =>
  .ok () { k with cr3 := Function.update k.cr3 cpu p4 }

/-- `load_elf` under the table in CR3; every error of the loader is returned as
    an invalid argument. -/
def loadProgram (elfData : List Byte) : CallM Elf.ElfLoadResult :=
  fun k =>
    match Elf.loadElf (Vm.loader p (k.cr3 cpu)) p elfData k.vm with
    | .ok r vm => .ok r { k with vm := vm }
    | .error (.err _) vm => .error (.err .invalidArgument) { k with vm := vm }
    | .error .panic vm => .error .panic { k with vm := vm }

def setContext (ctx : SavedContext) (t : Task) : Unit × Task := ((), { t with context := some ctx })

/-- The second `with_task_mut`, whose result is not looked at. -/
def onTaskIfAny (id : TaskId) (f : Task → Unit × Task) : CallM Unit := fun k =>
  match k.sched.withTaskMut cpu id f with
  | none => .ok () k
  | some ((), sched) => .ok () { k with sched := sched }

/-- `i64::try_from(id).unwrap_or(e)` -/
def idOrErr (id : TaskId) (e : SysError) : CallM Int :=
  if id.toNat < 2 ^ 63 then return id.toNat else throw (.err e)

/-- `sys_process_start` from the program on. -/
def startProgram (taskId : TaskId) (filename : String) (elfData : List Byte) : CallM Int := do
  match Elf.parseHeader elfData with
  | .error _ => throw (.err .invalidArgument)
  | .ok _ =>
    let pageTable ← newPageTable p cpu
    let k ← get
    onTask cpu taskId (configure k.sched.currentTaskId pageTable filename)
    switchPageTable cpu pageTable
    let r ← loadProgram p cpu elfData
    onTaskIfAny cpu taskId (setContext (.userMode r.entryPoint r.stackTop pageTable))
    idOrErr taskId .invalidArgument

def sysProcessStart (mem : UserMem) (files : ProgramFiles) (procRaw namePtr nameLen : Word) : CallM
    Int := do
  let q ← orReturn (programOf mem files namePtr nameLen)
  startProgram p cpu procRaw q.1 q.2

/-! ## sys_thread_create -/

/-- The task of a new thread of a task. -/
def threadTask (newId parentId : TaskId) (cr3 entryPoint stackPtr arg : Word) : Task :=
  { Task.new newId 5 with
    name := "thread"
    context := some { SavedContext.userMode entryPoint stackPtr cr3 with rdi := arg }
    pageTable := some cr3
    parentId := some parentId }

/-- `sys_thread_create`; `newId` is the id that `Task::new` draws. -/
def sysThreadCreate (newId : TaskId) (entryPoint stackPtr arg : Word) : CallM Int := do
  if userSpaceMax ≤ entryPoint.toNat ∨ entryPoint = 0 then throw (.err .invalidArgument)
  else if userSpaceMax ≤ stackPtr.toNat ∨ stackPtr = 0 then throw (.err .invalidArgument)
  else
    let k ← get
    match k.sched.withCurrentTask cpu with
    | none => throw (.err .invalidArgument)
    | some parent =>
      match parent.pageTable with
      | none => throw (.err .invalidArgument)
      | some cr3 =>
        match k.sched.spawnTaskFrom (threadTask newId parent.id cr3 entryPoint stackPtr arg) with
        | (.error _, _) => throw (.err .outOfMemory)
        | (.ok tid, sched) =>
          set { k with sched := sched }
          idOrErr tid .outOfMemory

end

end ProcState

end OpenOS
