/-
  The four-level page table (memory/pagetable.rs): `map_page`, `unmap_page` and
  `translate`.

  Physical memory is seen as page tables: 512 entries at each frame address.
  An entry is read and written through the x86_64 crate, taken as a parameter
  with its laws (`Entry.Format`) and given its layout once: bits 12 to 51 are
  the address, the others flags.  `frame()` fails on an entry that is not
  present or is a huge page, `PhysAddr::new` panics above 52 bits and
  `set_addr` on a misaligned address.  A panic is `none`.

  The frame allocator is outside: each call of `map_page` is given the answers
  of `alloc_frame` it will receive, in order, `none` for a failure.  The state
  records which frames the allocator has handed out to the page table and not
  taken back, and with every `free_frame` the memory at that moment.
-/

import Mathlib.Data.Finset.Basic
import Mathlib.Data.List.FinRange
import Mathlib.Data.Fintype.Basic
import OpenOS.Base.RadixTree
import OpenOS.Base.Run
import OpenOS.Base.Word

namespace OpenOS.Memory.PageTable

open OpenOS.Base BitVec Function List

def pageSize : Word := 0x1000#64

inductive PageTableError
  | outOfMemory
  | notMapped
  | alreadyMapped
  | invalidAddress
deriving DecidableEq

/-! ## Entries -/

/-- The physical address bits of an entry. -/
def addrMask : Word := 0x000FFFFFFFFFF000#64

/-- `PageTableFlags`: a word without address bits. -/
@[ext]
structure PageTableFlags where
  bits : Word
  noAddr : bits &&& addrMask = 0#64
deriving DecidableEq

namespace PageTableFlags

def empty : PageTableFlags := ⟨0#64, by decide⟩

def present : PageTableFlags := ⟨0x1#64, by decide⟩

def hugePage : PageTableFlags := ⟨0x80#64, by decide⟩

/-- `PRESENT | WRITABLE | USER_ACCESSIBLE`, the flags of an intermediate entry. -/
def table : PageTableFlags := ⟨0x7#64, by decide⟩

def contains (flags flag : PageTableFlags) : Bool := flags.bits &&& flag.bits == flag.bits

end PageTableFlags

/-- The address of a page frame. -/
def IsFrame (a : Word) : Prop := a.toNat < 2 ^ 52 ∧ a % pageSize = 0

/-- `PageTableEntry` -/
abbrev Entry := Word

namespace Entry

/-- The accessors of `PageTableEntry`, which is in the x86_64 crate, with their documented laws. -/
class Format where
  flags : Entry → PageTableFlags
  addr : Entry → Word
  /-- What `set_addr` and `set_flags` store. -/
  pack : Word → PageTableFlags → Entry
  isFrame_addr : ∀ e, IsFrame (addr e)
  addr_pack : ∀ {a}, IsFrame a → ∀ f, addr (pack a f) = a
  flags_pack : ∀ {a}, IsFrame a → ∀ f, flags (pack a f) = f
  flags_unused : flags 0#64 = .empty

export Format (pack)

variable [F : Format]

/-- `flags()` -/
def flags (e : Entry) : PageTableFlags := F.flags e

def isPresent (e : Entry) : Bool := (flags e).contains .present

def isHuge (e : Entry) : Bool := (flags e).contains .hugePage

/-- `addr()` -/
def addr (e : Entry) : Word := F.addr e

/-- `frame()`, with the errors as `none`. -/
def frame (e : Entry) : Option Word :=
  if isPresent e then if isHuge e then none else some (addr e)
  else none

/-- `set_addr(PhysAddr::new(addr), flags)` -/
def setAddr (addr : Word) (flags : PageTableFlags) : Option Entry :=
  if addr.toNat < 2 ^ 52 ∧ addr % pageSize = 0 then some (pack addr flags) else none

end Entry

/-! ## Memory -/

/-- Tables by physical address. -/
abbrev PhysMem := Word → Fin 512 → Entry

def PhysMem.setEntry (mem : PhysMem) (table : Word) (i : Fin 512) (e : Entry) : PhysMem :=
  update mem table (update (mem table) i e)

/-- The loop that clears every entry of a new table. -/
def PhysMem.zeroTable (mem : PhysMem) (table : Word) : PhysMem := update mem table fun _ => 0#64

structure PageTables where
  mem : PhysMem
  /-- Frames handed out by `alloc_frame` and not given back to `free_frame`. -/
  frames : Finset Word
  /-- The `free_frame` calls, each with the memory at that moment. -/
  freeLog : List (Word × PhysMem)

/-- An index of nine bits of the virtual address. -/
def index (virt : Word) (shift : Nat) : Fin 512 :=
  ⟨((virt >>> shift) &&& 0x1FF#64).toNat, by
    rw [toNat_shiftRight_and_mask _ _ shift 9 rfl]
    exact Nat.mod_lt _ (by decide)⟩

def p4Idx (virt : Word) : Fin 512 := index virt 39
def p3Idx (virt : Word) : Fin 512 := index virt 30
def p2Idx (virt : Word) : Fin 512 := index virt 21
def p1Idx (virt : Word) : Fin 512 := index virt 12

section

variable [Entry.Format]

/-! ## map_page -/

/-- One "walk or create" block of `map_page`: the table behind entry `i`, or a
    new one.  Only the last block tests for a huge page, the others unwrap. -/
def walkOrCreate (checkHuge : Bool) (s : PageTables) (answers : List (Option Word))
    (table : Word) (i : Fin 512) :
    Option (Except PageTableError (Word × List (Option Word)) × PageTables) :=
  let entry := s.mem table i
  if entry.isPresent then
    if checkHuge && entry.isHuge then some (.error .invalidAddress, s)
    else entry.frame.map fun next => (.ok (next, answers), s)
  else
    match answers with
    | some frame :: rest =>
      (Entry.setAddr frame .table).map fun e =>
        (.ok (frame, rest), { s with
          mem := (s.mem.zeroTable frame).setEntry table i e
          frames := insert frame s.frames })
    | _ => some (.error .outOfMemory, s)

/-- The blocks one after the other, down to the last table. -/
def walkOrCreateAll : List (Bool × Fin 512) → PageTables → List (Option Word) → Word →
    Option (Except PageTableError Word × PageTables)
  | [], s, _, table => some (.ok table, s)
  | (checkHuge, i) :: blocks, s, answers, table =>
    match walkOrCreate checkHuge s answers table i with
    | none => none
    | some (.error e, s') => some (.error e, s')
    | some (.ok (next, answers'), s') => walkOrCreateAll blocks s' answers' next

def mapPage (p4 : Word) (s : PageTables) (virt phys : Word) (flags : PageTableFlags)
    (answers : List (Option Word)) : Option (Except PageTableError Unit × PageTables) :=
  if virt % pageSize ≠ 0 ∨ phys % pageSize ≠ 0 then some (.error .invalidAddress, s)
  else
    match walkOrCreateAll [(false, p4Idx virt), (false, p3Idx virt), (true, p2Idx virt)]
      s answers p4 with
    | none => none
    | some (.error e, s') => some (.error e, s')
    | some (.ok l1, s') =>
      if (s'.mem l1 (p1Idx virt)).isPresent then some (.error .alreadyMapped, s')
      else
        (Entry.setAddr phys flags).map fun e =>
          (.ok (), { s' with mem := s'.mem.setEntry l1 (p1Idx virt) e })

/-! ## unmap_page -/

def tableIsEmpty (table : Fin 512 → Entry) : Bool :=
  (finRange 512).all fun i => !(table i).isPresent

def freeTableAndClearEntry (s : PageTables) (parent : Word) (entryIdx : Fin 512)
    (tableFrame : Word) : PageTables :=
  let mem := s.mem.setEntry parent entryIdx 0#64
  { mem := mem
    frames := s.frames.erase tableFrame
    freeLog := s.freeLog ++ [(tableFrame, mem)] }

/-- One step down of `unmap_page`.  The first one does not test for a huge page
    and unwraps. -/
def walkDown (checkHuge : Bool) (mem : PhysMem) (table : Word) (i : Fin 512) :
    Option (Except PageTableError Word) :=
  let entry := mem table i
  if !entry.isPresent then some (.error .notMapped)
  else if checkHuge && entry.isHuge then some (.error .invalidAddress)
  else entry.frame.map .ok

/-- The end of `unmap_page`: free the tables that became empty, bottom up. -/
def reclaim (p4 l3 l2 l1 : Word) (virt : Word) (s : PageTables) : Option PageTables :=
  if tableIsEmpty (s.mem l1) then
    let s₁ := freeTableAndClearEntry s l2 (p2Idx virt) l1
    if tableIsEmpty (s₁.mem l2) then
      let s₂ := freeTableAndClearEntry s₁ l3 (p3Idx virt) l2
      if tableIsEmpty (s₂.mem l3) then
        (s₂.mem p4 (p4Idx virt)).frame.map fun l4Frame =>
          freeTableAndClearEntry s₂ p4 (p4Idx virt) l4Frame
      else some s₂
    else some s₁
  else some s

def unmapPage (p4 : Word) (s : PageTables) (virt : Word) :
    Option (Except PageTableError Word × PageTables) :=
  if virt % pageSize ≠ 0 then some (.error .invalidAddress, s)
  else
    match walkDown false s.mem p4 (p4Idx virt) with
    | none => none
    | some (.error e) => some (.error e, s)
    | some (.ok l3) =>
      match walkDown true s.mem l3 (p3Idx virt) with
      | none => none
      | some (.error e) => some (.error e, s)
      | some (.ok l2) =>
        match walkDown true s.mem l2 (p2Idx virt) with
        | none => none
        | some (.error e) => some (.error e, s)
        | some (.ok l1) =>
          let entry := s.mem l1 (p1Idx virt)
          if !entry.isPresent then some (.error .notMapped, s)
          else
            (reclaim p4 l3 l2 l1 virt
              { s with mem := s.mem.setEntry l1 (p1Idx virt) 0#64 }).map fun s' =>
              (.ok entry.addr, s')

/-! ## translate -/

def translate (p4 : Word) (mem : PhysMem) (virt : Word) : Option (Option Word) :=
  let e4 := mem p4 (p4Idx virt)
  if !e4.isPresent then some none
  else
    match e4.frame with
    | none => none
    | some l3 =>
      let e3 := mem l3 (p3Idx virt)
      if !e3.isPresent then some none
      else if e3.isHuge then some (some (e3.addr + (virt &&& 0x3FFFFFFF#64)))
      else
        match e3.frame with
        | none => none
        | some l2 =>
          let e2 := mem l2 (p2Idx virt)
          if !e2.isPresent then some none
          else if e2.isHuge then some (some (e2.addr + (virt &&& 0x1FFFFF#64)))
          else
            match e2.frame with
            | none => none
            | some l1 =>
              let e1 := mem l1 (p1Idx virt)
              if !e1.isPresent then some none
              else some (some (e1.addr + (virt &&& 0xFFF#64)))

/-! ## The page table as a component -/

inductive Op
  | map (virt phys : Word) (flags : PageTableFlags) (answers : List (Option Word))
  | unmap (virt : Word)
deriving DecidableEq

inductive Res
  | mapped (r : Except PageTableError Unit)
  | unmapped (r : Except PageTableError Word)
deriving DecidableEq

def step (p4 : Word) : StepFn PageTables Op Res
  | s, .map virt phys flags answers =>
    (mapPage p4 s virt phys flags answers).map fun (r, s') => (.mapped r, s')
  | s, .unmap virt => (unmapPage p4 s virt).map fun (r, s') => (.unmapped r, s')

/-! ## Reading an entry back -/

namespace Entry

theorem isFrame_addr (e : Entry) : IsFrame e.addr := Format.isFrame_addr e

theorem addr_pack (ha : IsFrame a) (f : PageTableFlags) : addr (pack a f) = a :=
  Format.addr_pack ha f

theorem flags_pack (ha : IsFrame a) (f : PageTableFlags) : flags (pack a f) = f :=
  Format.flags_pack ha f

theorem setAddr_of_isFrame (ha : IsFrame a) (f : PageTableFlags) :
    setAddr a f = some (pack a f) := by
  rw [setAddr, if_pos ⟨ha.1, ha.2⟩]

theorem frame_eq_none_of_not_present (h : isPresent e = false) : frame e = none := by
  simp [frame, h]

theorem frame_eq_some_of_present (h : isPresent e = true) (hhuge : isHuge e = false) :
    frame e = some (addr e) := by
  simp [frame, h, hhuge]

theorem frame_pack (ha : IsFrame a) (hpresent : f.contains .present = true)
    (hhuge : f.contains .hugePage = false) : frame (pack a f) = some a := by
  rw [frame, isPresent, isHuge, flags_pack ha, addr_pack ha, hpresent, hhuge]
  rfl

theorem setAddr_spec (ha : IsFrame a) (hpresent : f.contains .present = true)
    (hhuge : f.contains .hugePage = false) :
    ∃ e, setAddr a f = some e ∧ isHuge e = false ∧ frame e = some a :=
  ⟨pack a f, setAddr_of_isFrame ha f, by rwa [isHuge, flags_pack ha], frame_pack ha hpresent hhuge⟩

theorem isPresent_zero : isPresent 0#64 = false := by
  rw [isPresent, flags, Format.flags_unused]
  rfl

theorem frame_zero : frame 0#64 = none := frame_eq_none_of_not_present isPresent_zero

end Entry

theorem tableIsEmpty_iff (table : Fin 512 → Entry) :
    tableIsEmpty table = true ↔ ∀ i, (table i).isPresent = false := by
  rw [tableIsEmpty, all_eq_true]
  constructor
  · intro h i
    simpa using h i (mem_finRange i)
  · intro h i _
    rw [h i]
    rfl

end

/-! ## The layout of the x86_64 crate -/

theorem toNat_and_addrMask (a : Word) :
    (a &&& addrMask).toNat = a.toNat / 2 ^ 12 * 2 ^ 12 % 2 ^ 52 := by
  have hmask : addrMask = ~~~0xFFF#64 &&& 0xFFFFFFFFFFFFF#64 := by decide
  rw [hmask, ← BitVec.and_assoc, toNat_and_mask _ _ 52 rfl, toNat_and_not_mask _ _ 12 rfl]

theorem isFrame_iff_toNat (a : Word) : IsFrame a ↔ a.toNat < 2 ^ 52 ∧ a.toNat % 4096 = 0 := by
  rw [IsFrame, ← toNat_inj, toNat_umod]
  rfl

theorem and_addrMask (ha : IsFrame a) : a &&& addrMask = a := by
  rw [isFrame_iff_toNat] at ha
  apply eq_of_toNat_eq
  rw [toNat_and_addrMask]
  omega

instance : Entry.Format where
  flags e := ⟨e &&& ~~~addrMask, by
    rw [BitVec.and_assoc, show ~~~addrMask &&& addrMask = 0#64 by decide, and_zero]⟩
  addr e := e &&& addrMask
  pack a f := a ||| f.bits
  isFrame_addr e := by
    rw [isFrame_iff_toNat, toNat_and_addrMask]
    omega
  addr_pack ha f := by rw [and_or_distrib_right, and_addrMask ha, f.noAddr, or_zero]
  flags_pack {a} ha f := by
    have hzero : a &&& ~~~addrMask = 0#64 := by
      rw [← and_addrMask ha, BitVec.and_assoc,
        show addrMask &&& ~~~addrMask = 0#64 by decide, and_zero]
    have hbits : f.bits &&& (~~~addrMask ||| addrMask) = f.bits := by
      rw [show ~~~addrMask ||| addrMask = allOnes 64 by decide, and_allOnes]
    rw [and_or_distrib_left, f.noAddr, or_zero] at hbits
    refine PageTableFlags.ext ((and_or_distrib_right ..).trans ?_)
    rw [hzero, hbits, zero_or]
  flags_unused := rfl

/-! ## Virtual addresses and paths -/

/-- A page-aligned virtual address below 2^48. -/
def IsPage (virt : Word) : Prop := virt % pageSize = 0 ∧ virt.toNat < 2 ^ 48

/-- The indices of an address, from P4 down. -/
def path (virt : Word) : List (Fin 512) := [p4Idx virt, p3Idx virt, p2Idx virt, p1Idx virt]

theorem length_path (virt : Word) : (path virt).length = 4 := rfl

/-- The page an address lies in. -/
def pageOf (virt : Word) : Word := virt &&& ~~~0xFFF#64

theorem index_val (virt : Word) (shift : Nat) :
    (index virt shift).val = virt.toNat / 2 ^ shift % 512 :=
  toNat_shiftRight_and_mask _ _ shift 9 rfl

theorem IsPage.toNat_mod (h : IsPage virt) : virt.toNat % 4096 = 0 := by
  have h := congrArg BitVec.toNat h.1
  rwa [toNat_umod] at h

/-- The indices of an address below 2^48 and its offset make up the address. -/
theorem toNat_eq_of_indices (h : virt.toNat < 2 ^ 48) :
    virt.toNat = (p4Idx virt).val * 2 ^ 39 + (p3Idx virt).val * 2 ^ 30 +
      (p2Idx virt).val * 2 ^ 21 + (p1Idx virt).val * 2 ^ 12 + virt.toNat % 4096 := by
  rw [p4Idx, p3Idx, p2Idx, p1Idx, index_val, index_val, index_val, index_val]
  omega

theorem path_inj (hv : IsPage v) (hw : IsPage w) (h : path v = path w) : v = w := by
  have hidx : p4Idx v = p4Idx w ∧ p3Idx v = p3Idx w ∧ p2Idx v = p2Idx w ∧ p1Idx v = p1Idx w := by
    simpa [path] using h
  obtain ⟨h4, h3, h2, h1⟩ := hidx
  have hsumv := toNat_eq_of_indices hv.2
  have hsumw := toNat_eq_of_indices hw.2
  have hmodv := hv.toNat_mod
  have hmodw := hw.toNat_mod
  apply eq_of_toNat_eq
  omega

theorem exists_page (i4 i3 i2 i1 : Fin 512) : ∃ v, IsPage v ∧ path v = [i4, i3, i2, i1] := by
  obtain ⟨n, hn⟩ : ∃ n, n = i4.val * 2 ^ 39 + i3.val * 2 ^ 30 + i2.val * 2 ^ 21 +
    i1.val * 2 ^ 12 := ⟨_, rfl⟩
  have hlt : n < 2 ^ 48 := by omega
  have htoNat : (BitVec.ofNat 64 n).toNat = n := by
    rw [toNat_ofNat]
    omega
  refine ⟨BitVec.ofNat 64 n, ⟨?_, by rw [htoNat]; exact hlt⟩, ?_⟩
  · apply eq_of_toNat_eq
    rw [toNat_umod, htoNat]
    show n % 4096 = 0
    omega
  · have hidx : ∀ shift (i : Fin 512), n / 2 ^ shift % 512 = i.val →
        index (BitVec.ofNat 64 n) shift = i := by
      intro shift i h
      apply Fin.ext
      rw [index_val, htoNat, h]
    rw [path, p4Idx, p3Idx, p2Idx, p1Idx, hidx 39 i4 (by omega), hidx 30 i3 (by omega),
      hidx 21 i2 (by omega), hidx 12 i1 (by omega)]

theorem toNat_pageOf (virt : Word) : (pageOf virt).toNat = virt.toNat / 4096 * 4096 :=
  toNat_and_not_mask _ _ 12 rfl

theorem isPage_pageOf (h : virt.toNat < 2 ^ 48) : IsPage (pageOf virt) := by
  constructor
  · apply eq_of_toNat_eq
    rw [toNat_umod, toNat_pageOf]
    show virt.toNat / 4096 * 4096 % 4096 = 0
    omega
  · rw [toNat_pageOf]
    omega

theorem path_pageOf (virt : Word) : path (pageOf virt) = path virt := by
  have hidx : ∀ shift, 12 ≤ shift → index (pageOf virt) shift = index virt shift := by
    intro shift hshift
    apply Fin.ext
    rw [index_val, index_val, toNat_pageOf]
    obtain ⟨k, rfl⟩ := Nat.exists_eq_add_of_le hshift
    rw [Nat.pow_add, ← Nat.div_div_eq_div_mul, ← Nat.div_div_eq_div_mul]
    have hpage : virt.toNat / 4096 * 4096 / 2 ^ 12 = virt.toNat / 2 ^ 12 := by omega
    rw [hpage]
  rw [path, path, p4Idx, p3Idx, p2Idx, p1Idx, p4Idx, p3Idx, p2Idx, p1Idx,
    hidx 39 (by decide), hidx 30 (by decide), hidx 21 (by decide), hidx 12 (by decide)]

end OpenOS.Memory.PageTable
