/-
  Runs of the three mutators of a `VmaList` (kernel/src/memory/vma.rs): `add`,
  which refuses an overlap, `remove`, and `extend_heap`, which moves the end of
  the first Heap region without looking at the others.

  The regions stay disjoint exactly as long as the heap grows into addresses
  that no other region covers.
-/

import OpenOS.Memory.UserPages

namespace OpenOS.Memory

open OpenOS.Base List Option BitVec Profile
open PageTable (alignUp)

/-! ## extend_heap -/

namespace VmaList

/-- `extend_heap`: the first Heap region gets a new end; `none` in the result when
    there is no such region or the end is below its start. -/
def extendHeap (p : Profile) (newEnd : Word) : VmaList → Option (Option Word × VmaList)
  | [] => some (none, [])
  | region :: rest =>
    if region.kind = .heap then do
      let oldEnd ← region.stop p
      let aligned ← alignUp p newEnd
      if oldEnd < aligned then
        let size ← p.sub aligned region.start
        return (some oldEnd, { region with size := size } :: rest)
      else if aligned < region.start then return (none, region :: rest)
      else
        let size ← p.sub aligned region.start
        return (some oldEnd, { region with size := size } :: rest)
    else do
      let (r, rest) ← extendHeap p newEnd rest
      return (r, region :: rest)

end VmaList

/-- Where `extend_heap` puts the end: rounded up to a page, in 64 bits. -/
def roundedEnd (newEnd : Word) : Nat := (newEnd.toNat + 4095) % 2 ^ 64 / 4096 * 4096

theorem toNat_of_alignUp (h : alignUp p x = some y) : y.toNat = roundedEnd x := by
  unfold alignUp at h
  obtain ⟨padded, hadd, h⟩ := bind_eq_some_iff.mp h
  obtain ⟨last, hsub, h⟩ := bind_eq_some_iff.mp h
  cases h
  obtain rfl := eq_add_of_add_eq_some hadd
  obtain rfl := eq_of_checked_eq_some hsub
  have hlast : (x + PageTable.pageSize - 1).toNat = (x.toNat + 4095) % 2 ^ 64 := by
    rw [show x + PageTable.pageSize - 1 = x + 4095#64 by rw [PageTable.pageSize]; bv_omega,
      toNat_add]
    rfl
  rw [toNat_and_not_mask _ _ 12 rfl, hlast]
  rfl

/-! ## Regions as sets of addresses -/

namespace VmaRegion

/-- The end of the region is a 64-bit number. -/
def Fits (r : VmaRegion) : Prop := r.start.toNat + r.size.toNat < 2 ^ 64
deriving Decidable

/-- The addresses of a region. -/
def Covers (r : VmaRegion) (addr : Nat) : Prop :=
  r.start.toNat ≤ addr ∧ addr < r.start.toNat + r.size.toNat
deriving Decidable

/-- No address is in both regions. -/
def Apart (r r' : VmaRegion) : Prop := ∀ addr, ¬ (r.Covers addr ∧ r'.Covers addr)

variable {r : VmaRegion}

theorem Apart.symm (h : r.Apart r') : r'.Apart r := fun addr hboth =>
  h addr hboth.symm

theorem stop_eq (h : r.Fits) (p : Profile) : r.stop p = some (r.start + r.size) :=
  p.add_eq_some_of_lt h

theorem toNat_stop (h : r.Fits) : (r.start + r.size).toNat = r.start.toNat + r.size.toNat :=
  toNat_add_of_lt h

theorem contains_eq (h : r.Fits) (p : Profile) (addr : Word) :
    r.contains p addr = some (decide (r.Covers addr.toNat)) := by
  unfold contains
  rw [stop_eq h]
  by_cases hle : r.start ≤ addr
  · rw [if_pos hle, map_some, some_inj, decide_eq_decide, lt_def, toNat_stop h]
    exact (and_iff_right (le_def.mp hle)).symm
  · rw [if_neg hle, some_inj, eq_comm, decide_eq_false_iff_not]
    exact fun hboth => hle (le_def.mpr hboth.1)

/-- The test of `add` on regions whose ends are 64-bit numbers: regions that pass it
    have no address in common. -/
theorem apart_of_overlaps (h : r.Fits) (h' : r'.Fits) (htest : r.overlaps p r' = some false) :
    r.Apart r' := by
  rintro addr ⟨⟨hle, hlt⟩, ⟨hle', hlt'⟩⟩
  unfold overlaps at htest
  rw [stop_eq h', stop_eq h] at htest
  simp only [bind_eq_bind, bind_some] at htest
  have hfirst : r.start < r'.start + r'.size := by
    rw [lt_def, toNat_stop h']
    omega
  have hsecond : r'.start < r.start + r.size := by
    rw [lt_def, toNat_stop h]
    omega
  rw [if_pos hfirst, decide_eq_true hsecond] at htest
  cases htest

end VmaRegion

namespace VmaList

variable {after regions : VmaList}

theorem find_eq (hfits : ∀ r ∈ regions, r.Fits) (p : Profile) (addr : Word) :
    find p addr regions = some (regions.find? fun r => r.Covers addr.toNat) := by
  induction regions with
  | nil => rfl
  | cons r rest ih =>
    rw [forall_mem_cons] at hfits
    rw [find, VmaRegion.contains_eq hfits.1]
    by_cases hcovers : r.Covers addr.toNat
    · rw [find?_cons_of_pos (by rwa [decide_eq_true_eq]), decide_eq_true hcovers]
      rfl
    · rw [find?_cons_of_neg (by rwa [decide_eq_true_eq]), decide_eq_false hcovers, ← ih hfits.2]
      rfl

/-- The regions are pairwise disjoint. -/
def Disjoint (regions : VmaList) : Prop := regions.Pairwise VmaRegion.Apart

/-- `find` has at most one possible answer: no address is contained in the regions at
    two places of the list. -/
def Unambiguous (p : Profile) (regions : VmaList) : Prop :=
  ∀ (addr : Word) (i j : Nat) (r r' : VmaRegion), regions[i]? = some r → regions[j]? = some r' →
    r.contains p addr = some true → r'.contains p addr = some true → i = j

theorem Disjoint.unambiguous (h : regions.Disjoint)
    (hfits : ∀ r ∈ regions, r.Fits) (p : Profile) : regions.Unambiguous p := by
  intro addr i j r r' hi hj hr hr'
  have hcovers : ∀ {k : Nat} {x : VmaRegion}, regions[k]? = some x → x.contains p addr = some true →
      x.Covers addr.toNat := by
    intro k x hk hx
    rw [VmaRegion.contains_eq (hfits x (mem_of_getElem? hk)), some_inj, decide_eq_true_eq] at hx
    exact hx
  by_contra hne
  -- the earlier of two places is apart from the later one
  have hapart : ∀ {k m : Nat} {x y : VmaRegion}, k < m → regions[k]? = some x →
      regions[m]? = some y → x.Apart y := by
    intro k m x y hlt hk hm
    obtain ⟨hklt, rfl⟩ := List.getElem?_eq_some_iff.mp hk
    obtain ⟨hmlt, rfl⟩ := List.getElem?_eq_some_iff.mp hm
    exact pairwise_iff_getElem.mp h k m hklt hmlt hlt
  rcases Nat.lt_or_gt_of_ne hne with hlt | hlt
  · exact hapart hlt hi hj addr.toNat ⟨hcovers hi hr, hcovers hj hr'⟩
  · exact hapart hlt hj hi addr.toNat ⟨hcovers hj hr', hcovers hi hr⟩

/-! ## One step -/

theorem add_cases (h : regions.add p region = some (r, regions')) :
    regions' = regions ∨
      (regions.anyOverlap p region = some false ∧ regions' = regions ++ [region]) := by
  obtain ⟨overlap, hoverlap, h⟩ := bind_eq_some_iff.mp h
  cases overlap with
  | true =>
    cases h
    exact .inl rfl
  | false =>
    cases h
    exact .inr ⟨hoverlap, rfl⟩

theorem apart_of_anyOverlap (hregion : region.Fits) (hfits : ∀ r ∈ regions, r.Fits)
    (h : regions.anyOverlap p region = some false) : ∀ r ∈ regions, region.Apart r := by
  induction regions with
  | nil => exact forall_mem_nil _
  | cons existing rest ih =>
    obtain ⟨overlap, htest, h⟩ := bind_eq_some_iff.mp h
    cases overlap with
    | true => cases h
    | false =>
      intro r hr
      rcases mem_cons.mp hr with rfl | hr
      · exact VmaRegion.apart_of_overlaps hregion (hfits r mem_cons_self) htest
      · exact ih (fun x hx => hfits x (mem_cons_of_mem existing hx)) h r hr

/-- The first Heap region, between the others. -/
structure HeapAt (regions : VmaList) (before : VmaList) (heap : VmaRegion) (after : VmaList) :
    Prop where
  split : regions = before ++ heap :: after
  first : ∀ r ∈ before, r.kind ≠ .heap
  kind : heap.kind = .heap

theorem HeapAt.mem (h : HeapAt regions before heap after) : heap ∈ regions := by
  rw [h.split]
  exact mem_append_right before mem_cons_self

theorem exists_heapAt (hr : r ∈ regions) (hkind : r.kind = .heap) :
    ∃ before heap after, HeapAt regions before heap after := by
  induction regions with
  | nil => cases hr
  | cons region rest ih =>
    by_cases hregion : region.kind = .heap
    · exact ⟨[], region, rest, rfl, forall_mem_nil _, hregion⟩
    rcases mem_cons.mp hr with rfl | hr
    · exact absurd hkind hregion
    · obtain ⟨before, heap, after, hat⟩ := ih hr
      exact ⟨region :: before, heap, after, congrArg (region :: ·) hat.split,
        forall_mem_cons.mpr ⟨hregion, hat.first⟩, hat.kind⟩

theorem HeapAt.unique (h : HeapAt regions before heap after)
    (h' : HeapAt regions before' heap' after') :
    before = before' ∧ heap = heap' ∧ after = after' := by
  obtain ⟨hsplit, hfirst, hkind⟩ := h
  obtain ⟨hsplit', hfirst', hkind'⟩ := h'
  subst hsplit
  induction before generalizing before' with
  | nil =>
    cases before' with
    | nil =>
      obtain ⟨hheap, hafter⟩ := cons.inj hsplit'
      exact ⟨rfl, hheap, hafter⟩
    | cons r before' =>
      obtain ⟨rfl, -⟩ := cons.inj hsplit'
      exact absurd hkind (hfirst' heap mem_cons_self)
  | cons r before ih =>
    cases before' with
    | nil =>
      obtain ⟨rfl, -⟩ := cons.inj hsplit'
      exact absurd hkind' (hfirst r mem_cons_self)
    | cons r' before' =>
      obtain ⟨rfl, hrest⟩ := cons.inj hsplit'
      obtain ⟨rfl, hheap, hafter⟩ := ih (forall_mem_cons.mp hfirst).2
        (forall_mem_cons.mp hfirst').2 hrest
      exact ⟨rfl, hheap, hafter⟩

/-- What `extend_heap` does: nothing, or the Heap region has another end. -/
theorem extendHeap_cases (hfits : ∀ r ∈ regions, r.Fits)
    (h : extendHeap p newEnd regions = some (r, regions')) :
    (regions' = regions ∧ r = none ∧ ((∀ r ∈ regions, r.kind ≠ .heap) ∨
        ∃ before heap after, HeapAt regions before heap after ∧
          roundedEnd newEnd < heap.start.toNat)) ∨
      ∃ before heap after size, HeapAt regions before heap after ∧
        heap.start.toNat + size.toNat = roundedEnd newEnd ∧ r = some (heap.start + heap.size) ∧
        regions' = before ++ { heap with size := size } :: after := by
  induction regions generalizing regions' r with
  | nil =>
    cases h
    exact .inl ⟨rfl, rfl, .inl (forall_mem_nil _)⟩
  | cons region rest ih =>
    unfold extendHeap at h
    split at h
    · rename_i hkind
      have hheap : HeapAt (region :: rest) [] region rest := ⟨rfl, forall_mem_nil _, hkind⟩
      have hregion := hfits region mem_cons_self
      rw [VmaRegion.stop_eq hregion] at h
      simp only [bind_eq_bind, bind_some] at h
      obtain ⟨aligned, haligned, h⟩ := bind_eq_some_iff.mp h
      have hend := toNat_of_alignUp haligned
      have hresize : ∀ {size : Word}, region.start.toNat ≤ aligned.toNat →
          p.sub aligned region.start = some size →
          region.start.toNat + size.toNat = roundedEnd newEnd := by
        intro size hle hsub
        rw [eq_of_checked_eq_some hsub, toNat_sub_of_le hle]
        omega
      split at h
      · rename_i hgrow
        rw [lt_def, VmaRegion.toNat_stop hregion] at hgrow
        obtain ⟨size, hsub, h⟩ := bind_eq_some_iff.mp h
        cases h
        exact .inr ⟨[], region, rest, size, hheap, hresize (by omega) hsub, rfl, rfl⟩
      split at h
      · rename_i hbelow
        cases h
        rw [lt_def, hend] at hbelow
        exact .inl ⟨rfl, rfl, .inr ⟨[], region, rest, hheap, hbelow⟩⟩
      rename_i hge
      rw [not_lt] at hge
      obtain ⟨size, hsub, h⟩ := bind_eq_some_iff.mp h
      cases h
      exact .inr ⟨[], region, rest, size, hheap, hresize hge hsub, rfl, rfl⟩
    · rename_i hkind
      obtain ⟨⟨r', rest'⟩, hrest, h⟩ := bind_eq_some_iff.mp h
      cases h
      have hcons : ∀ {before heap after}, HeapAt rest before heap after →
          HeapAt (region :: rest) (region :: before) heap after := fun {_ _ _} hat =>
        ⟨congrArg (region :: ·) hat.split, forall_mem_cons.mpr ⟨hkind, hat.first⟩, hat.kind⟩
      rcases ih (fun x hx => hfits x (mem_cons_of_mem region hx)) hrest with
        ⟨rfl, rfl, hnone | ⟨before, heap, after, hat, hbelow⟩⟩ |
        ⟨before, heap, after, size, hat, hsize, rfl, rfl⟩
      · exact .inl ⟨rfl, rfl, .inl (forall_mem_cons.mpr ⟨hkind, hnone⟩)⟩
      · exact .inl ⟨rfl, rfl, .inr ⟨region :: before, heap, after, hcons hat, hbelow⟩⟩
      · exact .inr ⟨region :: before, heap, after, size, hcons hat, hsize, rfl, rfl⟩

/-! ## Runs -/

inductive Call
  | add (region : VmaRegion)
  | remove (addr : Word)
  | extendHeap (newEnd : Word)

inductive Reply
  | added (r : Except String Unit)
  | removed (found : Bool)
  | extended (oldEnd : Option Word)

def step (p : Profile) : StepFn VmaList Call Reply
  | regions, .add region => (regions.add p region).map fun (r, regions) => (.added r, regions)
  | regions, .remove addr => some (.removed (regions.remove addr).1, (regions.remove addr).2)
  | regions, .extendHeap newEnd =>
    (extendHeap p newEnd regions).map fun (r, regions) => (.extended r, regions)

/-- A region that is added ends at a 64-bit address. -/
def Call.Fits : Call → Prop
  | .add region => region.Fits
  | _ => True

/-- The heap grows into addresses that no other region covers. -/
def GrowsFree (regions : VmaList) : Call → Prop
  | .extendHeap newEnd => ∀ before heap after, HeapAt regions before heap after →
      ∀ r ∈ before ++ after, ∀ addr, heap.start.toNat + heap.size.toNat ≤ addr →
        addr < roundedEnd newEnd → ¬ r.Covers addr
  | _ => True

/-- The regions at the two sides of one are apart from it and from each other. -/
theorem disjoint_middle : Disjoint (before ++ region :: after) ↔
      Disjoint (before ++ after) ∧ ∀ r ∈ before ++ after, region.Apart r := by
  unfold Disjoint
  rw [pairwise_middle fun h => VmaRegion.Apart.symm h, pairwise_cons]
  exact And.comm

theorem Disjoint.remove (h : regions.Disjoint) (addr : Word) : (regions.remove addr).2.Disjoint :=
  List.Pairwise.sublist (eraseP_sublist) h

/-- Growing the heap keeps the regions apart exactly if it grows into free addresses. -/
theorem disjoint_extendHeap_iff (hfits : ∀ r ∈ regions, r.Fits) (hdisj : regions.Disjoint)
    (h : extendHeap p newEnd regions = some (r, regions')) :
    regions'.Disjoint ↔ regions.GrowsFree (.extendHeap newEnd) := by
  rcases extendHeap_cases hfits h with ⟨rfl, -, hsame⟩ |
    ⟨before, heap, after, size, hat, hsize, -, rfl⟩
  · -- nothing has changed, and there is nothing to grow into
    refine iff_of_true hdisj fun before heap after hat x _ addr hle hlt => ?_
    rcases hsame with hnone | ⟨before', heap', after', hat', hbelow⟩
    · exact absurd hat.kind (hnone heap hat.mem)
    · obtain ⟨-, rfl, -⟩ := hat.unique hat'
      omega
  · obtain ⟨hrest, hapart⟩ := disjoint_middle.mp (hat.split ▸ hdisj)
    rw [disjoint_middle, and_iff_right hrest]
    constructor
    · intro hnew before' heap' after' hat' x hx addr hle hlt hcovers
      obtain ⟨rfl, rfl, rfl⟩ := hat.unique hat'
      refine hnew x hx addr ⟨⟨?_, ?_⟩, hcovers⟩
      · show heap.start.toNat ≤ addr
        omega
      · show addr < heap.start.toNat + size.toNat
        omega
    · rintro hfree x hx addr ⟨⟨hle, hlt⟩, hcovers⟩
      replace hle : heap.start.toNat ≤ addr := hle
      replace hlt : addr < heap.start.toNat + size.toNat := hlt
      by_cases hold : addr < heap.start.toNat + heap.size.toNat
      · exact hapart x hx addr ⟨⟨hle, hold⟩, hcovers⟩
      · exact hfree before heap after hat x hx addr (Nat.le_of_not_lt hold) (by omega) hcovers

theorem fits_of_step (hfits : ∀ r ∈ regions, r.Fits) (hc : c.Fits)
    (h : step p regions c = some (r, regions')) : ∀ r ∈ regions', r.Fits := by
  cases c with
  | add region =>
    obtain ⟨⟨r', regions₁⟩, hadd, heq⟩ := map_eq_some_iff.mp h
    cases heq
    rcases add_cases hadd with rfl | ⟨-, rfl⟩
    · exact hfits
    · exact forall_mem_append.mpr ⟨hfits, forall_mem_singleton.mpr hc⟩
  | remove addr =>
    cases h
    exact fun x hx => hfits x (eraseP_subset hx)
  | extendHeap newEnd =>
    obtain ⟨⟨r', regions₁⟩, hextend, heq⟩ := map_eq_some_iff.mp h
    cases heq
    rcases extendHeap_cases hfits hextend with ⟨rfl, -, -⟩ |
      ⟨before, heap, after, size, hat, hsize, -, rfl⟩
    · exact hfits
    have hlt : roundedEnd newEnd < 2 ^ 64 := by
      unfold roundedEnd
      omega
    rw [hat.split, forall_mem_append, forall_mem_cons] at hfits
    refine forall_mem_append.mpr ⟨hfits.1, forall_mem_cons.mpr ⟨?_, hfits.2.2⟩⟩
    show heap.start.toNat + size.toNat < 2 ^ 64
    omega

/-- A step keeps the regions disjoint exactly if the heap grows into free addresses. -/
theorem disjoint_step_iff (hfits : ∀ r ∈ regions, r.Fits) (hc : c.Fits) (hdisj : regions.Disjoint)
    (h : step p regions c = some (r, regions')) : regions'.Disjoint ↔ regions.GrowsFree c := by
  cases c with
  | add region =>
    obtain ⟨⟨r', regions₁⟩, hadd, heq⟩ := map_eq_some_iff.mp h
    cases heq
    refine iff_of_true ?_ trivial
    rcases add_cases hadd with rfl | ⟨hnone, rfl⟩
    · exact hdisj
    have hapart := apart_of_anyOverlap hc hfits hnone
    refine pairwise_append.mpr ⟨hdisj, pairwise_singleton _ _, fun x hx y hy => ?_⟩
    rw [mem_singleton.mp hy]
    exact (hapart x hx).symm
  | remove addr =>
    cases h
    exact iff_of_true (hdisj.remove addr) trivial
  | extendHeap newEnd =>
    obtain ⟨⟨r', regions₁⟩, hextend, heq⟩ := map_eq_some_iff.mp h
    cases heq
    exact disjoint_extendHeap_iff hfits hdisj hextend

/-- From an empty list, with regions that end at 64-bit addresses: the regions stay
    disjoint, and `find` has one answer at most, exactly if every `extend_heap` grows
    into addresses that no other region covers. -/
theorem disjoint_of_run_iff {p : Profile} {tr : List (Transition VmaList Call Reply)}
    {regions : VmaList} (hrun : Run (step p) [] tr regions) (hfits : ∀ e ∈ tr, e.op.Fits) :
    (∀ e ∈ tr, e.post.Disjoint ∧ e.post.Unambiguous p) ↔ ∀ e ∈ tr, e.pre.GrowsFree e.op := by
  have hinv : (∀ r ∈ regions, r.Fits) ∧
      ((∀ e ∈ tr, e.post.Disjoint ∧ e.post.Unambiguous p) → regions.Disjoint) ∧
      ((∀ e ∈ tr, e.post.Disjoint ∧ e.post.Unambiguous p) ↔ ∀ e ∈ tr, e.pre.GrowsFree e.op) := by
    apply Run.invariant_of_guard ?_ ?_ hrun (Run.guard_of_forall_mem hfits)
    · exact ⟨forall_mem_nil _, fun _ => List.Pairwise.nil,
        iff_of_true (forall_mem_nil _) (forall_mem_nil _)⟩
    · rintro tr regions c r regions' ⟨hpre, hdisj, hiff⟩ hstep hc
      have hpost := fits_of_step hpre hc hstep
      simp only [forall_mem_append, forall_mem_singleton]
      refine ⟨hpost, fun hall => hall.2.1, ?_⟩
      rw [← hiff]
      refine and_congr_right fun hall => ?_
      rw [← disjoint_step_iff hpre hc (hdisj hall) hstep]
      exact ⟨fun hboth => hboth.1, fun hd => ⟨hd, hd.unambiguous hpost p⟩⟩
  exact hinv.2.2

/-- A heap of one page, and a mapping two pages above its end. -/
def sampleHeap (size : Word) : VmaRegion := ⟨0x1000, size, ⟨true, true, false⟩, .heap⟩
def sampleMapping : VmaRegion := ⟨0x4000, 0x1000, ⟨true, true, false⟩, .mmap⟩

/-- The transitions that make the two regions and move the end of the heap. -/
def sampleRun (newEnd size : Word) : List (Transition VmaList Call Reply) :=
  [⟨[], .add (sampleHeap 0x1000), .added (.ok ()), [sampleHeap 0x1000]⟩,
    ⟨[sampleHeap 0x1000], .add sampleMapping, .added (.ok ()), [sampleHeap 0x1000, sampleMapping]⟩,
    ⟨[sampleHeap 0x1000, sampleMapping], .extendHeap newEnd, .extended (some 0x2000),
      [sampleHeap size, sampleMapping]⟩]

theorem fits_sampleRun (newEnd size : Word) : ∀ e ∈ sampleRun newEnd size, e.op.Fits := by
  have hheap : (sampleHeap 0x1000).Fits := by decide
  have hmapping : sampleMapping.Fits := by decide
  simp only [sampleRun, forall_mem_cons]
  exact ⟨hheap, hmapping, trivial, forall_mem_nil _⟩

/-- The heap grows up to the mapping. -/
theorem disjoint_sampleRun : Run (step .release) [] (sampleRun 0x3FFF 0x3000)
      [sampleHeap 0x3000, sampleMapping] ∧
    ∀ e ∈ sampleRun 0x3FFF 0x3000, e.post.Disjoint ∧ e.post.Unambiguous .release := by
  have hrun : Run (step .release) [] (sampleRun 0x3FFF 0x3000) [sampleHeap 0x3000, sampleMapping] :=
    .snoc (.snoc (.snoc .nil rfl) rfl) rfl
  refine ⟨hrun, (disjoint_of_run_iff hrun (fits_sampleRun _ _)).mpr ?_⟩
  simp only [sampleRun, forall_mem_cons]
  refine ⟨trivial, trivial, ?_, forall_mem_nil _⟩
  intro before heap after hat x hx addr hle hlt hcovers
  have hat' : HeapAt [sampleHeap 0x1000, sampleMapping] [] (sampleHeap 0x1000) [sampleMapping] :=
    ⟨rfl, forall_mem_nil _, rfl⟩
  obtain ⟨rfl, rfl, rfl⟩ := hat.unique hat'
  obtain rfl := mem_singleton.mp hx
  have hend : roundedEnd 0x3FFF = 0x4000 := by decide
  have hstart : 0x4000 ≤ addr := hcovers.1
  omega

/-- The heap grows over the mapping. -/
theorem heap_overlaps_mapping :
    Run (step .release) [] (sampleRun 0x5000 0x4000) [sampleHeap 0x4000, sampleMapping] ∧
    (∀ e ∈ sampleRun 0x5000 0x4000, e.op.Fits) ∧
    ¬ Disjoint [sampleHeap 0x4000, sampleMapping] ∧
    ¬ Unambiguous .release [sampleHeap 0x4000, sampleMapping] := by
  refine ⟨.snoc (.snoc (.snoc .nil rfl) rfl) rfl, fits_sampleRun _ _, fun h => ?_, fun h => ?_⟩
  · have hapart := (pairwise_cons.mp h).1 sampleMapping mem_cons_self
    exact hapart 0x4000 ⟨⟨by decide, by decide⟩, ⟨by decide, by decide⟩⟩
  · exact absurd (h 0x4000 0 1 _ _ rfl rfl rfl rfl) (by decide)

end VmaList

end OpenOS.Memory
