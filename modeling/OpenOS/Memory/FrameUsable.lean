/-
  Which memory `init_from_memory_map` lets the allocator hand out.

  The scan of the map starts from the default region and moves on to each
  usable region whose part between 1 MiB and 1 GiB is larger than the best one
  so far.  Every frame returned later is one of the 8192 frames that follow the
  first page boundary of the region selected, whatever addresses are freed.
-/

import OpenOS.Memory.FrameRefine

namespace OpenOS.Memory

open OpenOS.Base List Option

namespace FrameAlloc

/-! ## What the scan of the map selects -/

/-- The size of the part of a region inside the address window. -/
def partSize (r : MemoryRegion) : Nat := (part r).2 - (part r).1

variable {m : List MemoryRegion} {s : FrameAlloc}

/-- The scan passes over regions that are not usable or not larger. -/
theorem foldl_pickRegion_keep (best : Best)
    (h : ∀ r ∈ m, r.2.2 = 1 → partSize r ≤ best.size.toNat) : m.foldl pickRegion best = best := by
  induction m with
  | nil => rfl
  | cons r m ih =>
    have hsame : pickRegion best r = best := by
      rcases pickRegion_cases best r with ⟨hsame, -⟩ | ⟨htype, -, -, hsize, hlt⟩
      · exact hsame
      · have hle := h r mem_cons_self htype
        unfold partSize at hle
        omega
    rw [foldl_cons, hsame]
    exact ih fun q hq => h q (mem_cons_of_mem r hq)

theorem foldl_pickRegion_lt (hbest : best.size.toNat < n)
    (h : ∀ r ∈ m, r.2.2 = 1 → partSize r < n) : (m.foldl pickRegion best).size.toNat < n := by
  induction m generalizing best with
  | nil => exact hbest
  | cons r m ih =>
    refine ih ?_ fun q hq => h q (mem_cons_of_mem r hq)
    rcases pickRegion_cases best r with ⟨hsame, -⟩ | ⟨htype, -, -, hsize, -⟩
    · rwa [hsame]
    · have hlt := h r mem_cons_self htype
      unfold partSize at hlt
      omega

/-- The region is usable, and the first of those with the largest part. -/
def Largest (m : List MemoryRegion) (r : MemoryRegion) : Prop :=
  r.2.2 = 1 ∧ ∃ before after, m = before ++ r :: after ∧
    (∀ q ∈ before, q.2.2 = 1 → partSize q < partSize r) ∧
    (∀ q ∈ after, q.2.2 = 1 → partSize q ≤ partSize r)

/-- The scan selects the first of the largest regions, if it is larger than the
    region it starts from. -/
theorem start_foldl_pickRegion (best : Best) (hr : Largest m r)
    (hlarge : best.size.toNat < partSize r) :
    (m.foldl pickRegion best).start.toNat = (part r).1 := by
  obtain ⟨htype, before, after, rfl, hbefore, hafter⟩ := hr
  have hlt := foldl_pickRegion_lt hlarge hbefore
  rw [foldl_append, foldl_cons]
  rcases pickRegion_cases (before.foldl pickRegion best) r with
    ⟨-, hsmall⟩ | ⟨-, hstart, -, hsize, -⟩
  · have hle := hsmall htype
    unfold partSize at hlt
    omega
  rw [foldl_pickRegion_keep _ ?_, hstart]
  intro q hq hqtype
  have hle := hafter q hq hqtype
  unfold partSize at hle ⊢
  omega

/-! ## The frames a run returns -/

/-- `alloc_frame` returned `a` in the run. -/
def Returned (tr : List ClientStep) (a : Word) : Prop :=
  (.alloc, .allocated (some a)) ∈ tr.map Transition.label

/-- One call keeps the allocator well formed and its region, and returns only
    frames of the region. -/
theorem clientStep_region (hs : s.WellFormed) (hstep : clientStep p s op = some (r, s')) :
    s'.WellFormed ∧ s'.frameRegionStart = s.frameRegionStart ∧
      ∀ a, op = .alloc → r = .allocated (some a) → a ∈ s.regionFrames := by
  obtain ⟨bm, rfl⟩ := clientStep_eq_some hstep
  refine ⟨hs.of_bitmap bm, rfl, ?_⟩
  rintro a rfl rfl
  obtain ⟨r, s', halloc, hpool, -, -⟩ := allocFrame_refines p hs
  rw [clientStep, halloc] at hstep
  cases hstep
  exact available_subset hs.sized ((alloc_answer hpool).2 a rfl).1

section

variable (hs₀ : s₀.WellFormed) (hrun : Run (clientStep p) s₀ tr s) (ha : Returned tr a)
include hs₀ hrun ha

theorem mem_regionFrames_of_returned : a ∈ s₀.regionFrames := by
  have hinv : s.WellFormed ∧ s.frameRegionStart = s₀.frameRegionStart ∧
      ∀ a, Returned tr a → a ∈ s₀.regionFrames := by
    apply Run.invariant ?_ ?_ hrun
    · exact ⟨hs₀, rfl, fun a h => (nomatch h)⟩
    rintro tr s op r s' ⟨hs, hstart, hret⟩ hstep
    obtain ⟨hs', hstart', hnew⟩ := clientStep_region hs hstep
    refine ⟨hs', hstart'.trans hstart, ?_⟩
    intro a ha
    unfold Returned at ha
    rw [map_append, mem_append] at ha
    rcases ha with hold | hlast
    · exact hret a hold
    · obtain ⟨hop, hr⟩ := Prod.mk.inj (mem_singleton.mp hlast)
      rw [regionFrames_congr hs₀.sized hs.sized hstart.symm]
      exact hnew a hop.symm hr.symm
  exact hinv.2.2 a ha

/-- A returned frame lies in the 32 MiB from the region start on. -/
theorem returned_bounds : s₀.frameRegionStart.toNat ≤ a.toNat ∧
      a.toNat + 4096 ≤ s₀.frameRegionStart.toNat + 8192 * 4096 := by
  obtain ⟨j, hj, rfl⟩ := (mem_regionFrames hs₀.sized).mp
    (mem_regionFrames_of_returned hs₀ hrun ha)
  rw [toNat_frameAddr hs₀.sized hj]
  omega

end

/-! ## Only usable memory -/

/-- The frame at `a` lies wholly inside the region. -/
def Inside (r : MemoryRegion) (a : Word) : Prop :=
  r.1.toNat ≤ a.toNat ∧ a.toNat + 4096 ≤ r.2.1.toNat
deriving Decidable

/-- The size of the default region. -/
def defaultSize : Nat := 0x02000000

/-- The part of the region holds 8192 whole pages. -/
def HoldsBitmap (r : MemoryRegion) : Prop :=
  ((part r).1 + 4095) / 4096 * 4096 + 8192 * 4096 ≤ (part r).2

/-- The frame at `a` lies in the default region. -/
def InDefault (a : Word) : Prop := 0x02000000 ≤ a.toNat ∧ a.toNat + 4096 ≤ 0x04000000

/-- The region contains the default region. -/
def CoversDefault (r : MemoryRegion) : Prop := r.1.toNat ≤ 0x02000000 ∧ 0x04000000 ≤ r.2.1.toNat

theorem inDefault_of_returned (huninit : s.initialized = false)
    (hmap : s.initFromMemoryMap p m = some s₁) (hrun : Run (clientStep p) s₁ tr s₂)
    (hsmall : ∀ r ∈ m, r.2.2 = 1 → partSize r ≤ defaultSize) (ha : Returned tr a) :
    InDefault a := by
  obtain ⟨t, ht, hs₁, hstart, -⟩ := initFromMemoryMap_spec p m huninit
  obtain rfl := some.inj (ht.symm.trans hmap)
  rw [foldl_pickRegion_keep defaultBest hsmall] at hstart
  obtain ⟨hlo, hhi⟩ := returned_bounds hs₁ hrun ha
  have hstart₀ : t.frameRegionStart.toNat = 0x02000000 := by
    rw [hstart]
    decide
  unfold InDefault
  omega

/-- After `init_from_memory_map` on an uninitialised allocator, whatever is
    allocated and freed:
    - when the first of the largest usable regions has more than 32 MiB in the
      window, and as many whole pages as the bitmap has bits, every frame
      returned lies wholly inside it;
    - when none has more than 32 MiB but one contains the default region, every
      frame returned lies wholly inside that one;
    - when the map has no usable memory in the window, every frame returned lies
      in the default region. -/
theorem returned_frames_usable {p : Profile} {m : List MemoryRegion} {s s₁ s₂ : FrameAlloc}
    {tr : List ClientStep} (huninit : s.initialized = false)
    (hmap : s.initFromMemoryMap p m = some s₁) (hrun : Run (clientStep p) s₁ tr s₂) :
    (∀ r, Largest m r → defaultSize < partSize r → HoldsBitmap r →
      ∀ a, Returned tr a → Inside r a) ∧
    ((∀ r ∈ m, r.2.2 = 1 → partSize r ≤ defaultSize) →
      ∀ r ∈ m, r.2.2 = 1 → CoversDefault r → ∀ a, Returned tr a → Inside r a) ∧
    ((∀ r ∈ m, r.2.2 = 1 → partSize r = 0) → ∀ a, Returned tr a → InDefault a) := by
  refine ⟨?_, ?_, ?_⟩
  · intro r hr hlarge hpages a ha
    obtain ⟨t, ht, hs₁, hstart, -⟩ := initFromMemoryMap_spec p m huninit
    cases ht.symm.trans hmap
    -- the 8192 frames from the first page boundary on end inside the region
    obtain ⟨hlo, hhi⟩ := returned_bounds hs₁ hrun ha
    rw [hstart, start_foldl_pickRegion defaultBest hr hlarge] at hlo hhi
    unfold HoldsBitmap at hpages
    have hfst : r.1.toNat ≤ (part r).1 := le_max_left _ _
    have hsnd : (part r).2 ≤ r.2.1.toNat := min_le_left _ _
    exact ⟨by omega, by omega⟩
  · intro hsmall r _ _ ⟨hlo, hhi⟩ a ha
    obtain ⟨halo, hahi⟩ := inDefault_of_returned huninit hmap hrun hsmall ha
    exact ⟨by omega, by omega⟩
  · intro hnone a ha
    refine inDefault_of_returned huninit hmap hrun ?_ ha
    intro r hr htype
    rw [hnone r hr htype]
    exact Nat.zero_le _

/-- A map with a reserved region and one usable region of 255 MiB. -/
def mapOneUsable : List MemoryRegion := [(0#64, 0xA0000#64, 2), (0x00100000#64, 0x10000000#64, 1)]

/-- With that map the first frame comes from the usable region, past the 256
    reserved frames. -/
theorem returned_frames_usable_at_1MiB :
    ∃ s₁ s₂ tr, boot.initFromMemoryMap .dev mapOneUsable = some s₁ ∧
      Run (clientStep .dev) s₁ tr s₂ ∧ Returned tr 0x00200000#64 ∧
      ∀ a, Returned tr a → Inside (0x00100000#64, 0x10000000#64, 1) a := by
  have hexec : (boot.initFromMemoryMap .dev mapOneUsable).bind
      (fun s₁ => execLabels (clientStep .dev) s₁ [.alloc]) =
        some [(.alloc, .allocated (some 0x00200000#64))] := by
    decide +kernel
  obtain ⟨s₁, hmap, hlabels⟩ := bind_eq_some_iff.mp hexec
  obtain ⟨tr, s₂, hrun, hlabels⟩ := run_of_execLabels hlabels
  have hret : Returned tr 0x00200000#64 := by
    rw [Returned, hlabels]
    exact mem_singleton.mpr rfl
  refine ⟨s₁, s₂, tr, hmap, hrun, hret, ?_⟩
  refine (returned_frames_usable rfl hmap hrun).1 _ ?_ (by decide) (by unfold HoldsBitmap; decide)
  refine ⟨rfl, [(0#64, 0xA0000#64, 2)], [], rfl, ?_, fun q hq => (nomatch hq)⟩
  intro q hq htype
  obtain rfl := mem_singleton.mp hq
  exact absurd htype (by decide)

/-- A map without any usable region: the first frame returned is at 32 MiB, in
    no usable region of the map. -/
theorem no_usable_region_still_allocates :
    ∃ s₁ s₂ tr, boot.initFromMemoryMap .dev [(0#64, 0x00100000#64, 2)] = some s₁ ∧
      Run (clientStep .dev) s₁ tr s₂ ∧ Returned tr 0x02000000#64 ∧
      ¬ ∃ r ∈ [((0#64, 0x00100000#64, 2) : MemoryRegion)], r.2.2 = 1 ∧ Inside r 0x02000000#64 := by
  have hexec : (boot.initFromMemoryMap .dev [(0#64, 0x00100000#64, 2)]).bind
      (fun s₁ => execLabels (clientStep .dev) s₁ [.alloc]) =
        some [(.alloc, .allocated (some 0x02000000#64))] := by
    decide +kernel
  obtain ⟨s₁, hmap, hlabels⟩ := bind_eq_some_iff.mp hexec
  obtain ⟨tr, s₂, hrun, hlabels⟩ := run_of_execLabels hlabels
  refine ⟨s₁, s₂, tr, hmap, hrun, ?_, by decide⟩
  rw [Returned, hlabels]
  exact mem_singleton.mpr rfl

end FrameAlloc

end OpenOS.Memory
