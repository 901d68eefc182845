/-
  The program break (kernel/src/syscall/mod.rs): sys_brk keeps it in the task, and
  keeps a Heap region in the task's list.

  The first call makes a region of one page above the break that it returns, and
  later calls look for a region that contains the break, which the Heap region
  itself does not: it ends there.
-/

import OpenOS.Memory.VmaRun
import OpenOS.Syscall.Memory
import OpenOS.Task.Conservation

namespace OpenOS

open Base Base.Comp List Option BitVec Memory.PageTable
open Memory (VmaRegion VmaList roundedEnd toNat_of_alignUp)
open Memory.PageTable (alignUp)

namespace Brk

/-! ## sys_brk -/

abbrev CallM := Comp SysError Scheduler

/-- `with_current_task_mut` -/
def onCurrent {R : Type} (cpu : Cpu) (f : Task → R × Task) : CallM (Option R) := fun s =>
  match s.withCurrentTaskMut cpu f with
  | none => .ok none s
  | some (r, s') => .ok (some r) s'

def setBrk (brk : Word) (task : Task) : Unit × Task := ((), { task with brk := brk })

/-- `extend_heap` if some region contains the old break; `none` is a panic. -/
def extendFrom (p : Profile) (currentBrk alignedNew : Word) (task : Task) : Option Bool × Task :=
  match task.vmaList.find p currentBrk with
  | none => (none, task)
  | some none => (some false, task)
  | some (some _) =>
    match VmaList.extendHeap p alignedNew task.vmaList with
    | none => (none, task)
    | some (_, regions) => (some true, { task with vmaList := regions })

/-- The region of the first call: one page. -/
def heapRegion (start : Word) : VmaRegion where
  start := start
  size := pageSize
  flags := ⟨true, true, false⟩
  kind := .heap

/-- The first call: the region, and the break behind it; `false` is a panic. -/
def createHeap (p : Profile) (alignedNew : Word) (task : Task) : Bool × Task :=
  match task.vmaList.add p (heapRegion alignedNew) with
  | none => (false, task)
  | some (_, regions) =>
    match p.add alignedNew pageSize with
    | none => (false, { task with vmaList := regions })
    | some brk => (true, { task with vmaList := regions, brk := brk })

def sysBrk (p : Profile) (cpu : Cpu) (newBrk : Word) : CallM Word := do
  let s ← get
  let currentBrk := ((s.withCurrentTask cpu).map (·.brk)).getD 0
  if newBrk = 0 then return currentBrk
  else if userSpaceMax ≤ newBrk.toNat then throw (.err .invalidArgument)
  else
    let alignedNew ← orPanic (alignUp p newBrk)
    -- the rounded old break is not used any further
    let _ ← if currentBrk = 0 then pure alignedNew else orPanic (alignUp p currentBrk)
    let _ ← onCurrent cpu (setBrk alignedNew)
    let vmaUpdated ← onCurrent cpu (extendFrom p currentBrk alignedNew)
    let vmaUpdated ← orPanic (vmaUpdated.getD (some false))
    if !vmaUpdated && currentBrk = 0 then
      let created ← onCurrent cpu (createHeap p alignedNew)
      if created.getD true then return alignedNew else throw .panic
    else return alignedNew

/-! ## What a call does to the current task -/

theorem onCurrent_eq (hcur : s.withCurrentTask cpu = some t) (f : Task → R × Task)
    (hid : ∀ t, (f t).2.id = t.id) :
    ∃ s', onCurrent cpu f s = .ok (some (f t).1) s' ∧ s'.withCurrentTask cpu = some (f t).2 := by
  obtain ⟨s', hmut, hupd⟩ := Scheduler.withCurrentTaskMut_of_current hcur f hid
  exact ⟨s', by rw [onCurrent, hmut], hupd.after⟩

theorem id_extendFrom (currentBrk alignedNew : Word) (t : Task) :
    (extendFrom p currentBrk alignedNew t).2.id = t.id := by
  unfold extendFrom
  split
  · rfl
  · rfl
  · split <;> rfl

theorem id_createHeap (alignedNew : Word) (t : Task) : (createHeap p alignedNew t).2.id = t.id := by
  unfold createHeap
  split
  · rfl
  · split <;> rfl

theorem createHeap_effect (h : (createHeap p alignedNew t).1 = true) :
    (createHeap p alignedNew t).2.brk = alignedNew + pageSize ∧
      ∃ x, t.vmaList.add p (heapRegion alignedNew) =
        some (x, (createHeap p alignedNew t).2.vmaList) := by
  unfold createHeap at h ⊢
  split at h
  · cases h
  rename_i x regions hadd
  split at h
  · cases h
  · rename_i brk hsum
    rw [hadd]
    exact ⟨Profile.eq_add_of_add_eq_some hsum, x, rfl⟩

/-- The effect of a request on the break and the regions of the task. -/
structure Effect (p : Profile) (t : Task) (newBrk v : Word) (t' : Task) : Prop where
  aligned : v.toNat = roundedEnd newBrk
  below : newBrk.toNat < userSpaceMax
  cases : (∃ r x regions, t.vmaList.find p t.brk = some (some r) ∧
        VmaList.extendHeap p v t.vmaList = some (x, regions) ∧
        t'.vmaList = regions ∧ t'.brk = v) ∨
      (t.vmaList.find p t.brk = some none ∧
        ((t.brk ≠ 0 ∧ t'.vmaList = t.vmaList ∧ t'.brk = v) ∨
          (t.brk = 0 ∧ t'.brk = v + pageSize ∧
            ∃ x, t.vmaList.add p (heapRegion v) = some (x, t'.vmaList))))

theorem sysBrk_gives (hcur : s.withCurrentTask cpu = some t) :
    Gives (sysBrk p cpu newBrk) s fun v s' => ∃ t', s'.withCurrentTask cpu = some t' ∧
      ((newBrk = 0 ∧ v = t.brk ∧ t' = t) ∨ (newBrk ≠ 0 ∧ Effect p t newBrk v t')) := by
  refine .bind_of_ok rfl ?_
  rw [hcur]
  dsimp only [map_some, getD_some]
  split
  · rename_i hzero
    exact .pure ⟨t, hcur, .inl ⟨hzero, rfl, rfl⟩⟩
  rename_i hzero
  split
  · exact .throw
  rename_i hbelow
  refine .bind_orPanic fun alignedNew haligned => ?_
  refine .ite_orPanic ?_
  obtain ⟨s₁, h₁, hcur₁⟩ := onCurrent_eq hcur (setBrk alignedNew) fun _ => rfl
  obtain ⟨s₂, h₂, hcur₂⟩ := onCurrent_eq hcur₁ (extendFrom p t.brk alignedNew)
    (id_extendFrom t.brk alignedNew)
  have hvalue := toNat_of_alignUp haligned
  have hlt := Nat.lt_of_not_le hbelow
  refine .bind_of_ok h₁ (.bind_of_ok h₂ (.bind_orPanic fun updated hupdated => ?_))
  unfold extendFrom setBrk at hupdated hcur₂
  split at hupdated
  · cases hupdated
  · -- no region contains the old break
    rename_i hfind
    cases hupdated
    rw [hfind] at hcur₂
    replace hcur₂ : s₂.withCurrentTask cpu = some { t with brk := alignedNew } := hcur₂
    by_cases hfirst : t.brk = 0
    · rw [decide_eq_true hfirst]
      obtain ⟨s₃, h₃, hcur₃⟩ := onCurrent_eq hcur₂ (createHeap p alignedNew)
        (id_createHeap alignedNew)
      refine .bind_of_ok h₃ ?_
      rw [getD_some]
      by_cases hcreated : (createHeap p alignedNew { t with brk := alignedNew }).1 = true
      · rw [if_pos hcreated]
        obtain ⟨hbrk, x, hadd⟩ := createHeap_effect hcreated
        exact .pure
          ⟨_, hcur₃, .inr ⟨hzero, hvalue, hlt, .inr ⟨hfind, .inr ⟨hfirst, hbrk, x, hadd⟩⟩⟩⟩
      · rw [if_neg hcreated]
        exact .throw
    · rw [decide_eq_false hfirst]
      exact .pure ⟨_, hcur₂, .inr ⟨hzero, hvalue, hlt, .inr ⟨hfind, .inl ⟨hfirst, rfl, rfl⟩⟩⟩⟩
  · rename_i r hfind
    rw [hfind] at hcur₂
    cases hextend : VmaList.extendHeap p alignedNew t.vmaList with
    | none =>
      rw [hextend] at hupdated
      cases hupdated
    | some x =>
      obtain ⟨x, regions⟩ := x
      rw [hextend] at hupdated hcur₂
      cases hupdated
      refine .pure ⟨_, hcur₂, .inr ⟨hzero, hvalue, hlt, .inl ?_⟩⟩
      exact ⟨r, x, regions, hfind, hextend, rfl, rfl⟩

/-! ## The break and the Heap region -/

/-- The address is found as part of a Heap region. -/
def FoundAsHeap (p : Profile) (regions : VmaList) (addr : Word) : Prop :=
  ∃ r, regions.find p addr = some (some r) ∧ r.kind = .heap

/-- The Heap region ends at the break, and its addresses are those found as Heap. -/
def HeapIs (p : Profile) (regions : VmaList) (brk : Word) : Prop :=
  ∃ heap ∈ regions, heap.kind = .heap ∧ heap.start.toNat + heap.size.toNat = brk.toNat ∧
    ∀ addr : Word, FoundAsHeap p regions addr ↔ heap.Covers addr.toNat

/-- The task has a break and a Heap region that no region before it hides; the break is
    inside some region, and the request is not below the heap, or it is in none, and the
    request is the end of the heap. -/
def Ready (t : Task) (newBrk : Word) : Prop :=
  t.brk ≠ 0 ∧ ∃ before heap after, VmaList.HeapAt t.vmaList before heap after ∧
    ((∃ r ∈ t.vmaList, r.Covers t.brk.toNat) ∧ heap.start.toNat ≤ roundedEnd newBrk ∨
      (∀ r ∈ t.vmaList, ¬ r.Covers t.brk.toNat) ∧
        heap.start.toNat + heap.size.toNat = roundedEnd newBrk) ∧
    ∀ r ∈ before, ∀ addr, heap.start.toNat ≤ addr → addr < roundedEnd newBrk → ¬ r.Covers addr

/-- What sys_brk keeps: regions end at 64-bit addresses, there is one Heap region at
    most, and none before the first call. -/
structure Kept (t : Task) : Prop where
  fits : ∀ r ∈ t.vmaList, r.Fits
  one : ∀ before heap after, VmaList.HeapAt t.vmaList before heap after →
    ∀ r ∈ after, r.kind ≠ .heap
  none : t.brk = 0 → ∀ r ∈ t.vmaList, r.kind ≠ .heap

section HeapAt

variable {after : VmaList}

section

variable (hfits : ∀ r ∈ regions, r.Fits) (hat : VmaList.HeapAt regions before heap after)
  (hone : ∀ r ∈ after, r.kind ≠ .heap)
include hfits hat hone

theorem foundAsHeap_iff (addr : Word) : FoundAsHeap p regions addr ↔
      heap.Covers addr.toNat ∧ ∀ r ∈ before, ¬ r.Covers addr.toNat := by
  unfold FoundAsHeap
  rw [VmaList.find_eq hfits]
  constructor
  · rintro ⟨r, hfind, hkind⟩
    have hcovers := find?_some (some.inj hfind)
    rw [some_inj, hat.split, find?_append, or_eq_some_iff] at hfind
    rcases hfind with hbefore | ⟨hbefore, hrest⟩
    · exact absurd hkind (hat.first r (mem_of_find?_eq_some hbefore))
    rw [find?_eq_none] at hbefore
    have hhidden : ∀ x ∈ before, ¬ x.Covers addr.toNat := fun x hx hx' =>
      hbefore x hx (decide_eq_true hx')
    by_cases hheap : heap.Covers addr.toNat
    · exact ⟨hheap, hhidden⟩
    · rw [find?_cons_of_neg (by rwa [decide_eq_true_eq])] at hrest
      exact absurd hkind (hone r (mem_of_find?_eq_some hrest))
  · rintro ⟨hcovers, hhidden⟩
    refine ⟨heap, ?_, hat.kind⟩
    have hnone : before.find? (fun r => r.Covers addr.toNat) = none :=
      find?_eq_none.mpr fun x hx hx' => hhidden x hx (of_decide_eq_true hx')
    rw [hat.split, find?_append, hnone, find?_cons_of_pos (by rwa [decide_eq_true_eq]), none_or]

theorem heapIs_iff :
    HeapIs p regions brk ↔ heap.start.toNat + heap.size.toNat = brk.toNat ∧
      ∀ r ∈ before, ∀ addr, heap.start.toNat ≤ addr → addr < brk.toNat → ¬ r.Covers addr := by
  have honly : ∀ r ∈ regions, r.kind = .heap → r = heap := by
    intro r hr hkind
    rw [hat.split, mem_append, mem_cons] at hr
    rcases hr with hr | rfl | hr
    · exact absurd hkind (hat.first r hr)
    · rfl
    · exact absurd hkind (hone r hr)
  constructor
  · rintro ⟨r, hr, hkind, hend, hfound⟩
    obtain rfl := honly r hr hkind
    refine ⟨hend, fun x hx addr hle hlt => ?_⟩
    have hword : (BitVec.ofNat 64 addr).toNat = addr := by
      rw [toNat_ofNat, Nat.mod_eq_of_lt (by omega)]
    have hcovers : r.Covers (BitVec.ofNat 64 addr).toNat := by
      rw [hword]
      exact ⟨hle, by omega⟩
    have hhidden := ((foundAsHeap_iff hfits hat hone _).mp ((hfound _).mpr hcovers)).2 x hx
    rwa [hword] at hhidden
  · rintro ⟨hend, hhidden⟩
    refine ⟨heap, hat.mem, hat.kind, hend, fun addr => ?_⟩
    rw [foundAsHeap_iff hfits hat hone]
    refine and_iff_left_of_imp fun hcovers r hr => hhidden r hr _ hcovers.1 ?_
    have := hcovers.2
    omega

end

end HeapAt

/-! ## One call -/

theorem roundedEnd_of_aligned (hbelow : newBrk.toNat < userSpaceMax)
    (haligned : v.toNat = roundedEnd newBrk) : roundedEnd v = v.toNat ∧ v ≠ 0 ∨ newBrk = 0 := by
  have hmax : userSpaceMax = 2 ^ 47 := rfl
  by_cases hzero : newBrk = 0
  · exact .inr hzero
  have hpos : newBrk.toNat ≠ 0 := fun h => hzero (eq_of_toNat_eq h)
  unfold roundedEnd at haligned ⊢
  refine .inl ⟨by omega, ?_⟩
  rintro rfl
  rw [show (0 : Word).toNat = 0 from rfl] at haligned
  omega

theorem find_eq_none_iff {regions : VmaList} (hfits : ∀ r ∈ regions, r.Fits) (addr : Word) :
    regions.find p addr = some none ↔ ∀ r ∈ regions, ¬ r.Covers addr.toNat := by
  rw [VmaList.find_eq hfits, some_inj, find?_eq_none]
  exact forall₂_congr fun r _ => by rw [decide_eq_true_eq]

theorem exists_covers_of_find {regions : VmaList} (hfits : ∀ r ∈ regions, r.Fits)
    (h : regions.find p addr = some (some r)) : ∃ r ∈ regions, r.Covers addr.toNat := by
  rw [VmaList.find_eq hfits, some_inj] at h
  have hcovers := find?_some h
  rw [decide_eq_true_eq] at hcovers
  exact ⟨r, mem_of_find?_eq_some h, hcovers⟩

/-- After a request the break and the region agree exactly if the task was ready for it. -/
theorem Effect.agrees_iff (h : Effect p t newBrk v t') (hzero : newBrk ≠ 0) (hk : Kept t) :
    (t'.brk = v ∧ HeapIs p t'.vmaList v) ↔ Ready t newBrk := by
  obtain ⟨haligned, hbelow, hcases⟩ := h
  obtain ⟨hround, hv⟩ := (roundedEnd_of_aligned hbelow haligned).resolve_right hzero
  rcases hcases with ⟨r, x, regions, hfind, hextend, hregions, hbrk⟩ |
    ⟨hfind, ⟨hbrk0, hregions, hbrk⟩ | ⟨hbrk0, hbrk, -⟩⟩
  · -- the break is inside a region: extend_heap was called
    have hcovered := exists_covers_of_find hk.fits hfind
    rw [hregions, hbrk, and_iff_right rfl]
    rcases VmaList.extendHeap_cases hk.fits hextend with
      ⟨rfl, -, hnone | ⟨before, heap, after, hat, hlow⟩⟩ |
      ⟨before, heap, after, size, hat, hsize, -, rfl⟩
    · exact iff_of_false (fun ⟨heap, hmem, hkind, _⟩ => hnone heap hmem hkind)
        fun ⟨_, before, heap, after, hat, _⟩ => hnone heap hat.mem hat.kind
    · rw [heapIs_iff hk.fits hat (hk.one _ _ _ hat)]
      refine iff_of_false (fun hend => ?_) fun hready => ?_
      · have := hend.1
        omega
      · obtain ⟨-, before', heap', after', hat', hor, -⟩ := hready
        obtain ⟨-, rfl, -⟩ := hat.unique hat'
        rcases hor with ⟨-, hle⟩ | ⟨hfree, -⟩
        · omega
        · obtain ⟨r', hr', hcovers⟩ := hcovered
          exact hfree r' hr' hcovers
    · have hnew : VmaList.HeapAt (before ++ { heap with size := size } :: after) before
          { heap with size := size } after := ⟨rfl, hat.first, hat.kind⟩
      rw [heapIs_iff (VmaList.fits_of_step hk.fits (c := .extendHeap v) trivial
        (by rw [VmaList.step, hextend]; rfl)) hnew (hk.one _ _ _ hat)]
      have hbrk0 : t.brk ≠ 0 := fun hzero => hk.none hzero heap hat.mem hat.kind
      constructor
      · rintro ⟨hend, hhidden⟩
        refine ⟨hbrk0, before, heap, after, hat, .inl ⟨hcovered, by omega⟩, ?_⟩
        rwa [← haligned]
      · rintro ⟨-, before', heap', after', hat', -, hhidden⟩
        obtain ⟨rfl, rfl, rfl⟩ := hat.unique hat'
        rw [← haligned] at hhidden
        exact ⟨hsize.trans hround, hhidden⟩
  · -- the break is in no region: the list has not changed
    have hfree := (find_eq_none_iff hk.fits t.brk).mp hfind
    rw [hregions, hbrk, and_iff_right rfl]
    by_cases hheap : ∃ r ∈ t.vmaList, r.kind = .heap
    · obtain ⟨r, hr, hkind⟩ := hheap
      obtain ⟨before, heap, after, hat⟩ := VmaList.exists_heapAt hr hkind
      rw [heapIs_iff hk.fits hat (hk.one _ _ _ hat)]
      constructor
      · rintro ⟨hend, hhidden⟩
        refine ⟨hbrk0, before, heap, after, hat, .inr ⟨hfree, by omega⟩, ?_⟩
        rwa [← haligned]
      · rintro ⟨-, before', heap', after', hat', hor, hhidden⟩
        obtain ⟨rfl, rfl, rfl⟩ := hat.unique hat'
        rw [← haligned] at hhidden hor
        rcases hor with ⟨⟨x, hx, hcovers⟩, -⟩ | ⟨-, hend⟩
        · exact absurd hcovers (hfree x hx)
        · exact ⟨hend, hhidden⟩
    · exact iff_of_false (fun ⟨heap, hmem, hkind, _⟩ => hheap ⟨heap, hmem, hkind⟩)
        fun ⟨_, before, heap, after, hat, _⟩ => hheap ⟨heap, hat.mem, hat.kind⟩
  · -- the first call returns the start of the region
    refine iff_of_false (fun hagrees => ?_) fun hready => hready.1 hbrk0
    rw [hbrk] at hagrees
    have hsum := congrArg BitVec.toNat hagrees.1
    rw [toNat_add, show pageSize.toNat = 4096 from rfl] at hsum
    omega

/-- What sys_brk keeps. -/
theorem Effect.kept (h : Effect p t newBrk v t') (hzero : newBrk ≠ 0) (hk : Kept t) : Kept t' := by
  obtain ⟨haligned, hbelow, hcases⟩ := h
  obtain ⟨hround, hv⟩ := (roundedEnd_of_aligned hbelow haligned).resolve_right hzero
  rcases hcases with ⟨r, x, regions, hfind, hextend, rfl, hbrk⟩ |
    ⟨hfind, ⟨hbrk0, hregions, hbrk⟩ | ⟨hbrk0, hbrk, x, hadd⟩⟩
  · have hfits := VmaList.fits_of_step hk.fits (c := .extendHeap v) trivial
      (show VmaList.step p t.vmaList (.extendHeap v) = some (.extended x, t'.vmaList) by
        rw [VmaList.step, hextend]; rfl)
    refine ⟨hfits, ?_, fun hbrk0 => absurd (hbrk.symm.trans hbrk0) hv⟩
    rcases VmaList.extendHeap_cases hk.fits hextend with ⟨hsame, -, -⟩ |
      ⟨before, heap, after, size, hat, hsize, -, hnew⟩
    · rw [hsame]
      exact hk.one
    intro before' heap' after' hat'
    have hat₁ : VmaList.HeapAt t'.vmaList before { heap with size := size } after :=
      ⟨hnew, hat.first, hat.kind⟩
    obtain ⟨-, -, rfl⟩ := hat₁.unique hat'
    exact hk.one _ _ _ hat
  · refine ⟨?_, ?_, fun hzero' => absurd (hbrk.symm.trans hzero') hv⟩
    · rw [hregions]
      exact hk.fits
    · rw [hregions]
      exact hk.one
  · have hnone := hk.none hbrk0
    have hfits : (heapRegion v).Fits := by
      have hmax : userSpaceMax = 2 ^ 47 := rfl
      show v.toNat + 4096 < 2 ^ 64
      unfold roundedEnd at haligned
      omega
    refine ⟨VmaList.fits_of_step hk.fits (c := .add (heapRegion v)) hfits
      (show VmaList.step p t.vmaList (.add (heapRegion v)) = some (.added x, t'.vmaList) by
        rw [VmaList.step, hadd]; rfl), ?_, fun hzero' => ?_⟩
    · rcases VmaList.add_cases hadd with hsame | ⟨-, hnew⟩
      · rw [hsame]
        exact hk.one
      intro before' heap' after' hat'
      have hat₁ : VmaList.HeapAt t'.vmaList t.vmaList (heapRegion v) [] := ⟨hnew, hnone, rfl⟩
      obtain ⟨-, -, rfl⟩ := hat₁.unique hat'
      exact forall_mem_nil _
    · rw [hbrk] at hzero'
      have hsum := congrArg BitVec.toNat hzero'
      have hmax : userSpaceMax = 2 ^ 47 := rfl
      rw [toNat_add, show pageSize.toNat = 4096 from rfl,
        show (0 : Word).toNat = 0 from rfl] at hsum
      unfold roundedEnd at haligned
      omega

/-! ## Runs of one task -/

/-- One call; `none` when it panics. -/
def step (p : Profile) (cpu : Cpu) : StepFn Scheduler Word (Except SysError Word) := fun s newBrk =>
  match sysBrk p cpu newBrk s with
  | .ok v s' => some (.ok v, s')
  | .error (.err e) s' => some (.error e, s')
  | .error .panic _ => none

theorem noErr_onCurrent (f : Task → R × Task) : NoErr (onCurrent cpu f) := by
  intro s e s' h
  unfold onCurrent at h
  split at h <;> cases h

theorem sysBrk_error (h : sysBrk p cpu newBrk s = .error (.err e) s') : s' = s := by
  unfold sysBrk at h
  rw [bind_of_ok (show (get : CallM Scheduler) s = .ok s s from rfl)] at h
  split at h
  · cases h
  split at h
  · cases h
    rfl
  refine absurd h (NoErr.bind (noErr_orPanic _) (fun alignedNew => ?_) s e s')
  refine .ite_orPanic ?_
  refine .bind (noErr_onCurrent _) fun _ => .bind (noErr_onCurrent _) fun _ =>
    .bind (noErr_orPanic _) fun _ => ?_
  split
  · refine .bind (noErr_onCurrent _) fun _ => ?_
    split
    · exact noErr_pure _
    · exact noErr_panic
  · exact noErr_pure _

/-- The value is what a following sys_brk(0) reports, and the end of the Heap region. -/
def Agrees (p : Profile) (cpu : Cpu) (s : Scheduler) (v : Word) : Prop :=
  sysBrk p cpu 0 s = .ok v s ∧ ∃ t, s.withCurrentTask cpu = some t ∧ HeapIs p t.vmaList v

theorem agrees_iff_of_current (hcur : s.withCurrentTask cpu = some t) :
    Agrees p cpu s v ↔ t.brk = v ∧ HeapIs p t.vmaList v := by
  have hask : sysBrk p cpu 0 s = .ok t.brk s := by
    unfold sysBrk
    rw [bind_of_ok (show (get : CallM Scheduler) s = .ok s s from rfl), hcur]
    rfl
  rw [Agrees, hask, hcur]
  simp

/-- The current task keeps what sys_brk keeps. -/
theorem kept_step (hcur : s.withCurrentTask cpu = some t) (hk : Kept t)
    (hstep : step p cpu s op = some (r, s')) :
    (∃ t', s'.withCurrentTask cpu = some t' ∧ Kept t') ∧
      ∀ v, op ≠ 0 → r = .ok v → (Agrees p cpu s' v ↔ Ready t op) := by
  unfold step at hstep
  split at hstep
  · rename_i v s₁ hcall
    cases hstep
    obtain ⟨t', hcur', ⟨hzero, rfl, rfl⟩ | ⟨hzero, heff⟩⟩ := sysBrk_gives hcur v s' hcall
    · exact ⟨⟨t', hcur', hk⟩, fun v hop => absurd hzero hop⟩
    · refine ⟨⟨t', hcur', heff.kept hzero hk⟩, fun w _ hw => ?_⟩
      cases hw
      rw [agrees_iff_of_current hcur', heff.agrees_iff hzero hk]
  · rename_i e s₁ hcall
    cases hstep
    obtain rfl := sysBrk_error hcall
    exact ⟨⟨t, hcur, hk⟩, fun v _ hv => nomatch hv⟩
  · cases hstep

/-- In every run of one task: a call that returns a value leaves the break and the
    Heap region at it exactly if the task was ready for the request. -/
theorem agrees_of_run_iff {p : Profile} {cpu : Cpu} {s₀ s : Scheduler} {t : Task}
    {tr : List (Transition Scheduler Word (Except SysError Word))}
    (hrun : Run (step p cpu) s₀ tr s) (hcur : s₀.withCurrentTask cpu = some t) (hk : Kept t) :
    ∀ e ∈ tr, ∀ v, e.op ≠ 0 → e.res = .ok v → (Agrees p cpu e.post v ↔
      ∃ t, e.pre.withCurrentTask cpu = some t ∧ Ready t e.op) := by
  intro e he v hop hres
  obtain ⟨tr₁, -, hrun₁, hstep⟩ := hrun.of_mem he
  have hpre : ∃ t, e.pre.withCurrentTask cpu = some t ∧ Kept t := by
    refine Run.invariant (I := fun _ s => ∃ t, s.withCurrentTask cpu = some t ∧ Kept t)
      ⟨t, hcur, hk⟩ ?_ hrun₁
    rintro tr s a r s' ⟨t, hcur, hk⟩ hs
    exact (kept_step hcur hk hs).1
  obtain ⟨t₁, hcur₁, hk₁⟩ := hpre
  rw [(kept_step hcur₁ hk₁ hstep).2 v hop hres, hcur₁]
  simp

/-! ### A new task -/

/-- The only task, which has not called sys_brk. -/
def newTask : Scheduler :=
  { Scheduler.empty with cpus := fun _ => ⟨[Task.new 1 5], some 1⟩, currentTaskId := 1 }

/-- The second request is where the first has left the break. -/
theorem agrees_second_call : ∃ tr s e, Run (step .dev bootCpu) newTask tr s ∧ e ∈ tr ∧
    e.op = 0x11000 ∧ Agrees .dev bootCpu e.post 0x11000 := by
  obtain ⟨s₁, s₂, h₁, h₂, hcur⟩ : ∃ s₁ s₂,
      step .dev bootCpu newTask 0x10000 = some (.ok 0x10000, s₁) ∧
      step .dev bootCpu s₁ 0x11000 = some (.ok 0x11000, s₂) ∧
      s₁.withCurrentTask bootCpu =
        some { Task.new 1 5 with brk := 0x11000, vmaList := [heapRegion 0x10000] } :=
    ⟨_, _, rfl, rfl, rfl⟩
  have hrun := Run.snoc (.snoc .nil h₁) h₂
  have hkept : Kept (Task.new 1 5) :=
    ⟨forall_mem_nil _, fun _ _ _ hat => absurd hat.split (by simp [Task.new]),
      fun _ => forall_mem_nil _⟩
  refine ⟨_, s₂, _, hrun, mem_append_right _ (mem_singleton_self _), rfl, ?_⟩
  refine (agrees_of_run_iff hrun rfl hkept _ (mem_append_right _ (mem_singleton_self _))
    0x11000 (show (0x11000 : Word) ≠ 0 by decide) rfl).mpr
    ⟨_, hcur, by decide, [], heapRegion 0x10000, [],
      ⟨rfl, forall_mem_nil _, rfl⟩, .inr ⟨?_, show 0x10000 + 0x1000 = roundedEnd 0x11000 by decide⟩,
      forall_mem_nil _⟩
  intro r hr hcovers
  obtain rfl := mem_singleton.mp hr
  exact absurd hcovers (by decide)

/-- The first call returns the start of the region it makes, and sets the break to
    its end. -/
theorem first_call_disagrees : ∃ s, step .dev bootCpu newTask 0x10000 = some (.ok 0x10000, s) ∧
    step .dev bootCpu s 0 = some (.ok 0x11000, s) := ⟨_, rfl, rfl⟩

end Brk

end OpenOS
