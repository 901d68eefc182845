/-
  Mapping pages in the active page table (task/user.rs): `map_page`, which
  creates missing tables, makes the entries it passes accessible to user mode
  and splits 2 MiB pages, and `protect_page_user`; and the search for a free
  range (memory/pagetable.rs, `find_free_range`).

  The state is physical memory and the frame allocator.  The root is the table
  in CR3.  An `expect`, an `unwrap` of a huge entry's `frame()` and a bad
  physical address are panics.
-/

import OpenOS.Base.Comp
import OpenOS.Memory.FrameAlloc
import OpenOS.Memory.PageTable
import OpenOS.Memory.Vma

namespace OpenOS.Memory.PageTable

open OpenOS.Base BitVec Bool Entry PageTableFlags

/-! ## Flags and entries -/

namespace PageTableFlags

def writable : PageTableFlags := ⟨0x2#64, by decide⟩
def userAccessible : PageTableFlags := ⟨0x4#64, by decide⟩
def noExecute : PageTableFlags := ⟨0x8000000000000000#64, by decide⟩

/-- `a | b` -/
def union (a b : PageTableFlags) : PageTableFlags where
  bits := a.bits ||| b.bits
  noAddr := by rw [BitVec.and_or_distrib_right, a.noAddr, b.noAddr, BitVec.or_zero]

/-- `a.remove(b)` -/
def remove (a b : PageTableFlags) : PageTableFlags where
  bits := a.bits &&& ~~~b.bits
  noAddr := by
    rw [BitVec.and_assoc, BitVec.and_comm (~~~b.bits), ← BitVec.and_assoc, a.noAddr,
      BitVec.zero_and]

end PageTableFlags

namespace Entry

def isWritable (e : Entry) : Bool := (flags e).contains .writable
def isUser (e : Entry) : Bool := (flags e).contains .userAccessible
def isNoExecute (e : Entry) : Bool := (flags e).contains .noExecute

/-- `set_flags(flags)` -/
def setFlags (e : Entry) (flags : PageTableFlags) : Entry := pack (addr e) flags

/-- The entry made accessible to user mode, unless it is or is not present. -/
def patchUser (e : Entry) : Entry :=
  if e.isPresent && !e.isUser then e.setFlags ((flags e).union .userAccessible) else e

/-- Entry `i` of the table that replaces a 2 MiB page. -/
def splitEntry (huge : Entry) (i : Fin 512) : Option Entry :=
  setAddr (addr huge + BitVec.ofNat 64 i * pageSize) ((flags huge).remove .hugePage)

end Entry

/-! ## State -/

/-- Physical memory and the frame allocator. -/
structure Vm where
  mem : PhysMem
  alloc : FrameAlloc

namespace Vm

/-- `alloc_frame()` -/
def allocFrame (p : Profile) : Comp ε Vm (Option Word) := fun s =>
  match s.alloc.allocFrame p with
  | none => .error .panic s
  | some (r, alloc) => .ok r { s with alloc := alloc }

/-- `alloc_frame().expect(..)` -/
def expectFrame (p : Profile) : Comp ε Vm Word := do
  match ← allocFrame p with
  | none => throw .panic
  | some f => return f

def entry (table : Word) (i : Fin 512) : Comp ε Vm Entry := fun s => .ok (s.mem table i) s

/-- Write an entry; `none` is the panic of `set_addr`. -/
def setEntry (table : Word) (i : Fin 512) : Option Entry → Comp ε Vm Unit
  | none => throw .panic
  | some e => fun s => .ok () { s with mem := s.mem.setEntry table i e }

/-- Fill a whole table; `none` is the panic of `set_addr`. -/
def fillTable (table : Word) (content : Fin 512 → Option Entry) : Comp ε Vm Unit := fun s =>
  if ∀ i, (content i).isSome = true then
    .ok () { s with mem := Function.update s.mem table fun i => (content i).getD 0#64 }
  else .error .panic s

def unwrap {α : Type} : Option α → Comp ε Vm α
  | none => throw .panic
  | some a => return a

/-! ## map_page -/

/-- A new, empty table behind entry `i`. -/
def newTable (p : Profile) (table : Word) (i : Fin 512) : Comp ε Vm Word := do
  let frame ← expectFrame p
  fillTable frame fun _ => some 0#64
  setEntry table i (setAddr frame .table)
  return frame

/-- Replace a 2 MiB page by a table of its 512 pages. -/
def splitHugePage (p : Profile) (table : Word) (i : Fin 512) : Comp ε Vm Word := do
  let huge ← entry table i
  let frame ← expectFrame p
  fillTable frame huge.splitEntry
  setEntry table i (setAddr frame (((flags huge).remove .hugePage).union .writable))
  return frame

/-- One level of `map_page`: give the entry USER_ACCESSIBLE if it is present, then walk
    or create. (No entry of a new table is present, so it makes no difference on which
    side of the branch it is patched.) Only the P2 level, `canSplit`, expects a huge
    page. -/
def enter (p : Profile) (canSplit : Bool) (table : Word) (i : Fin 512) : Comp ε Vm Word := do
  let old ← entry table i
  setEntry table i (some old.patchUser)
  let e ← entry table i
  if e.isPresent then
    if canSplit && e.isHuge then splitHugePage p table i
    else unwrap e.frame
  else newTable p table i

/-- `map_page`, and so `map_page_user`, under the table `cr3`. -/
def mapPageUser (p : Profile) (cr3 virt phys : Word) (flags : PageTableFlags) :
    Comp ε Vm Unit := do
  let l3 ← enter p false cr3 (p4Idx virt)
  let l2 ← enter p false l3 (p3Idx virt)
  let l1 ← enter p true l2 (p2Idx virt)
  setEntry l1 (p1Idx virt) (setAddr phys flags)

/-! ## protect_page_user -/

/-- `protect_page_user`; the tables are read through `addr()`, and the P4 level
    does not test for a huge page. -/
def protectPageUser (cr3 virt : Word) (flags : PageTableFlags) (mem : PhysMem) : PhysMem :=
  let e4 := mem cr3 (p4Idx virt)
  if !e4.isPresent then mem
  else
    let e3 := mem e4.addr (p3Idx virt)
    if !e3.isPresent || e3.isHuge then mem
    else
      let e2 := mem e3.addr (p2Idx virt)
      if !e2.isPresent || e2.isHuge then mem
      else
        let e1 := mem e2.addr (p1Idx virt)
        if !e1.isPresent then mem
        else mem.setEntry e2.addr (p1Idx virt) (e1.setFlags flags)

end Vm

/-! ## find_free_range -/

/-- `(x + PAGE_SIZE - 1) & !(PAGE_SIZE - 1)` -/
def alignUp (p : Profile) (x : Word) : Option Word := do
  let padded ← p.add x pageSize
  let last ← p.sub padded 1
  return last &&& ~~~(pageSize - 1)

/-- The scan of `find_free_range` over the `n` pages from `addr` to the end of
    user space; `runLen` free pages from `runStart` precede it. -/
def freeRangeFrom (p4 : Word) (mem : PhysMem) (count : Nat) :
    Nat → Word → Word → Nat → Option (Option Word)
  | 0, _, _, _ => some none
  | n + 1, addr, runStart, runLen =>
    match translate p4 mem addr with
    | none => none
    | some (some _) => freeRangeFrom p4 mem count n (addr + pageSize) (addr + pageSize) 0
    | some none =>
      let runStart := if runLen = 0 then addr else runStart
      if count ≤ runLen + 1 then some (some runStart)
      else freeRangeFrom p4 mem count n (addr + pageSize) runStart (runLen + 1)

/-- The outer `none` is a panic of the address arithmetic. -/
def findFreeRange (p : Profile) (p4 : Word) (mem : PhysMem) (hint : Word) (count : Nat) :
    Option (Option Word) := do
  let addr ← alignUp p hint
  freeRangeFrom p4 mem count ((userSpaceMax - addr.toNat + 4095) / 4096) addr addr 0

/-! ## Flags -/

namespace PageTableFlags

/-- A flag of one bit. -/
def IsBit (flag : PageTableFlags) (n : Nat) : Prop := n < 64 ∧ flag.bits = twoPow 64 n

theorem isBit_present : IsBit .present 0 := ⟨by decide, rfl⟩
theorem isBit_writable : IsBit .writable 1 := ⟨by decide, rfl⟩
theorem isBit_userAccessible : IsBit .userAccessible 2 := ⟨by decide, rfl⟩
theorem isBit_hugePage : IsBit .hugePage 7 := ⟨by decide, rfl⟩
theorem isBit_noExecute : IsBit .noExecute 63 := ⟨by decide, rfl⟩

/-- To test for a flag is to read its bit. -/
theorem IsBit.contains_eq (h : IsBit flag n)
    (a : PageTableFlags) : a.contains flag = a.bits.getLsbD n := by
  obtain ⟨hn, hflag⟩ := h
  have hne : twoPow 64 n ≠ 0#64 := by
    intro h
    have := congrArg (getLsbD · n) h
    simp [hn] at this
  rw [contains, hflag, and_twoPow]
  cases a.bits.getLsbD n with
  | true => simp
  | false => simpa using hne.symm

theorem IsBit.contains_union (h : IsBit flag n)
    (a b : PageTableFlags) : (a.union b).contains flag = (a.contains flag || b.contains flag) := by
  rw [h.contains_eq, h.contains_eq, h.contains_eq, union, getLsbD_or]

theorem IsBit.contains_remove (h : IsBit flag n) (a b : PageTableFlags) :
    (a.remove b).contains flag = (a.contains flag && !b.contains flag) := by
  rw [h.contains_eq, h.contains_eq, h.contains_eq, remove]
  simp [h.1]

end PageTableFlags

namespace Entry

variable {e : Entry}

@[simp] theorem flags_setFlags (e : Entry) (f : PageTableFlags) : flags (e.setFlags f) = f :=
  flags_pack (isFrame_addr e) f

@[simp] theorem addr_setFlags (e : Entry) (f : PageTableFlags) : addr (e.setFlags f) = addr e :=
  addr_pack (isFrame_addr e) f

/-- `frame()` succeeds on a present entry that is no huge page. -/
theorem present_of_frame (h : e.frame = some a) : e.isPresent = true ∧ e.isHuge = false := by
  unfold frame at h
  split at h
  · rename_i hpresent
    split at h
    · cases h
    · rename_i hhuge
      exact ⟨hpresent, eq_false_iff.mpr hhuge⟩
  · cases h

theorem isHuge_of_frame_eq_none (hpresent : e.isPresent = true)
    (h : e.frame = none) : e.isHuge = true := by
  cases hhuge : e.isHuge with
  | true => rfl
  | false =>
    rw [frame_eq_some_of_present hpresent hhuge] at h
    cases h

theorem not_present_or_huge (h : e.frame = none) : (!e.isPresent || e.isHuge) = true := by
  cases hpresent : e.isPresent with
  | false => rfl
  | true =>
    rw [isHuge_of_frame_eq_none hpresent h]
    rfl

/-! ### USER_ACCESSIBLE -/

@[simp] theorem addr_patchUser (e : Entry) : addr e.patchUser = addr e := by
  unfold patchUser
  split
  · exact addr_setFlags _ _
  · rfl

/-- Only USER_ACCESSIBLE changes. -/
theorem contains_flags_patchUser (e : Entry)
    (h : PageTableFlags.IsBit flag n) (hflag : contains .userAccessible flag = false) :
    (flags e.patchUser).contains flag = (flags e).contains flag := by
  unfold patchUser
  split
  · rw [flags_setFlags, h.contains_union, hflag, Bool.or_false]
  · rfl

@[simp] theorem isPresent_patchUser (e : Entry) : e.patchUser.isPresent = e.isPresent :=
  contains_flags_patchUser e isBit_present (by decide)

@[simp] theorem isHuge_patchUser (e : Entry) : e.patchUser.isHuge = e.isHuge :=
  contains_flags_patchUser e isBit_hugePage (by decide)

@[simp] theorem isWritable_patchUser (e : Entry) : e.patchUser.isWritable = e.isWritable :=
  contains_flags_patchUser e isBit_writable (by decide)

@[simp] theorem isNoExecute_patchUser (e : Entry) : e.patchUser.isNoExecute = e.isNoExecute :=
  contains_flags_patchUser e isBit_noExecute (by decide)

@[simp] theorem frame_patchUser (e : Entry) : e.patchUser.frame = e.frame := by
  rw [frame, frame, isPresent_patchUser, isHuge_patchUser, addr_patchUser]

theorem isUser_patchUser (h : e.isPresent = true) : e.patchUser.isUser = true := by
  unfold patchUser
  cases huser : e.isUser with
  | true => simpa [h] using huser
  | false =>
    simp only [h, Bool.not_false, Bool.and_self, if_true]
    rw [isUser, flags_setFlags, isBit_userAccessible.contains_union]
    simp [contains]

theorem patchUser_of_not_present (h : e.isPresent = false) : e.patchUser = e := by
  simp [patchUser, h]

/-! ### Splitting a 2 MiB page -/

/-- The whole 2 MiB lie in physical memory. -/
def Splittable (e : Entry) : Prop := ∀ i, (e.splitEntry i).isSome = true
deriving Decidable

/-- The flags of the entry that leads to the new table. -/
def splitFlags (e : Entry) : PageTableFlags := ((flags e).remove .hugePage).union .writable

/-- Each page keeps the flags and has its part of the address. -/
theorem splitEntry_eq_some (h : e.splitEntry i = some e') :
    flags e' = (flags e).remove .hugePage ∧ addr e' = addr e + BitVec.ofNat 64 i * pageSize := by
  unfold splitEntry setAddr at h
  split at h
  · rename_i hframe
    cases h
    exact ⟨flags_pack hframe _, addr_pack hframe _⟩
  · cases h

theorem splittable_patchUser (e : Entry) : e.patchUser.Splittable ↔ e.Splittable := by
  refine forall_congr' fun i => ?_
  have hsome : ∀ e : Entry, (e.splitEntry i).isSome = true ↔
      IsFrame (addr e + BitVec.ofNat 64 i * pageSize) := by
    intro e
    unfold splitEntry setAddr
    split
    · rename_i h
      exact iff_of_true rfl h
    · rename_i h
      exact iff_of_false (by simp) h
  rw [hsome, hsome, addr_patchUser]

/-- A page of the new table has every other flag of the huge one. -/
theorem contains_flags_splitEntry (h : e.splitEntry i = some e')
    (hbit : PageTableFlags.IsBit flag n) (hflag : contains .hugePage flag = false) :
    (flags e').contains flag = (flags e).contains flag := by
  rw [(splitEntry_eq_some h).1, hbit.contains_remove, hflag, Bool.not_false, Bool.and_true]

/-- So has the entry that leads to it, which is writable besides. -/
theorem contains_splitFlags (e : Entry) (hbit : PageTableFlags.IsBit flag n)
    (hflag : contains .hugePage flag = false) : e.splitFlags.contains flag =
      ((flags e).contains flag || contains .writable flag) := by
  rw [splitFlags, hbit.contains_union, hbit.contains_remove, hflag, Bool.not_false, Bool.and_true]

theorem splitFlags_not_huge (e : Entry) : e.splitFlags.contains .hugePage = false := by
  have hbit := isBit_hugePage
  rw [splitFlags, hbit.contains_union, hbit.contains_remove]
  simp [contains, writable, hugePage]

end Entry

end OpenOS.Memory.PageTable
