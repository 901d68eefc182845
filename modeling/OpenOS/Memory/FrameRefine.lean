/-
  The frame allocator refines a set of free frames handed out lowest first.

  The abstraction of an allocator is the set of region frames whose bit is
  clear; each call of a client that frees only what it holds is a step of the
  first-fit pool on that set (`clientStep_refines`).
-/

import OpenOS.Memory.FrameAlloc

namespace OpenOS.Memory

open OpenOS.Base Finset Option FirstFit Bitmap Transition

namespace FrameAlloc

/-! ## The set of frames behind the bitmap -/

/-- How many whole frames the region holds. -/
def regionCount (s : FrameAlloc) : Nat := ((s.frameRegionEnd - s.frameRegionStart) / pageSize).toNat

/-- The addresses of the frames of the region. -/
def regionFrames (s : FrameAlloc) : Finset Word := (range s.regionCount).image s.frameAddr

/-- The frames of the region whose bit has the given value. -/
def framesWith (s : FrameAlloc) (b : Bool) : Finset Word :=
  ((range s.regionCount).filter fun j => s.bitmap.bit j = b).image s.frameAddr

/-- The frames marked free. -/
def available (s : FrameAlloc) : Finset Word := s.framesWith false

/-- The frames marked allocated; right after an initialiser, the reserved ones. -/
def reserved (s : FrameAlloc) : Finset Word := s.framesWith true

variable {s : FrameAlloc}
   {F : Finset Word}

section

variable (hs : s.RegionSized)
include hs

theorem regionCount_eq : s.regionCount = 8192 := by
  unfold RegionSized at hs
  rw [regionCount, BitVec.toNat_udiv, BitVec.toNat_sub_of_le (BitVec.le_def.mpr (by omega)), hs]
  show (s.frameRegionStart.toNat + 8192 * 4096 - s.frameRegionStart.toNat) / 4096 = 8192
  omega

theorem mem_regionFrames : a ∈ s.regionFrames ↔ ∃ j < 8192, s.frameAddr j = a := by
  rw [regionFrames, regionCount_eq hs]
  simp

theorem mem_framesWith :
    a ∈ s.framesWith b ↔ ∃ j < 8192, s.bitmap.bit j = b ∧ s.frameAddr j = a := by
  rw [framesWith, regionCount_eq hs, mem_image]
  simp only [mem_filter, mem_range, and_assoc]

theorem frameAddr_mem_framesWith (hj : j < 8192) :
    s.frameAddr j ∈ s.framesWith b ↔ s.bitmap.bit j = b := by
  rw [mem_framesWith hs]
  constructor
  · rintro ⟨i, hi, hbit, haddr⟩
    rwa [← frameAddr_inj hs hi hj haddr]
  · intro hbit
    exact ⟨j, hj, hbit, rfl⟩

theorem available_eq_sdiff : s.available = s.regionFrames \ s.reserved := by
  ext a
  rw [mem_sdiff, mem_regionFrames hs]
  constructor
  · intro ha
    obtain ⟨j, hj, hclear, rfl⟩ := (mem_framesWith hs).mp ha
    refine ⟨⟨j, hj, rfl⟩, ?_⟩
    rw [reserved, frameAddr_mem_framesWith hs hj, hclear]
    decide
  · rintro ⟨⟨j, hj, rfl⟩, hunmarked⟩
    rw [reserved, frameAddr_mem_framesWith hs hj, Bool.not_eq_true] at hunmarked
    exact (frameAddr_mem_framesWith hs hj).mpr hunmarked

theorem regionFrames_congr {t : FrameAlloc} (ht : t.RegionSized)
    (h : s.frameRegionStart = t.frameRegionStart) : s.regionFrames = t.regionFrames := by
  rw [regionFrames, regionFrames, regionCount_eq hs, regionCount_eq ht]
  refine image_congr ?_
  intro j _
  show s.frameRegionStart + _ = t.frameRegionStart + _
  rw [h]

theorem mem_available_of_bitmap (hbm : ∀ i, bm.bit i = if i = j then v else s.bitmap.bit i)
    (hi : i < 8192) :
    s.frameAddr i ∈ available { s with bitmap := bm } ↔
      (if i = j then v = false else s.frameAddr i ∈ s.available) := by
  have hsized : ({ s with bitmap := bm } : FrameAlloc).RegionSized := hs
  have hnew := frameAddr_mem_framesWith (b := false) hsized hi
  have hold := frameAddr_mem_framesWith (b := false) hs hi
  refine hnew.trans ?_
  rw [hbm i]
  by_cases hij : i = j
  · rw [if_pos hij, if_pos hij]
  · rw [if_neg hij, if_neg hij]
    exact hold.symm

/-! ## One step -/

theorem available_ext (hF : F ⊆ s.regionFrames)
    (h : ∀ i < 8192, s.frameAddr i ∈ available { s with bitmap := bm } ↔ s.frameAddr i ∈ F) :
    available { s with bitmap := bm } = F := by
  ext a
  constructor
  · intro ha
    have hsized : ({ s with bitmap := bm } : FrameAlloc).RegionSized := hs
    obtain ⟨i, hi, -, rfl⟩ := (mem_framesWith hsized).mp ha
    exact (h i hi).mp ha
  · intro ha
    obtain ⟨i, hi, rfl⟩ := (mem_regionFrames hs).mp (hF ha)
    exact (h i hi).mpr ha

theorem available_subset : s.available ⊆ s.regionFrames := by
  rw [available_eq_sdiff hs]
  exact sdiff_subset

end

theorem allocFrame_refines (p : Profile) (hs : s.WellFormed) :
    ∃ r s', s.allocFrame p = some (r, s') ∧
      FirstFit.step s.available .alloc = some (.allocated r, s'.available) ∧
      s'.WellFormed ∧ s'.frameRegionStart = s.frameRegionStart := by
  -- no clear bit is an empty free set, and the lowest clear bit its least frame
  rcases allocFrame_spec p hs with ⟨halloc, hall⟩ | ⟨j, hj, hclear, hlow, bm, halloc, hbm⟩
  · have hempty : s.available = ∅ := by
      rw [eq_empty_iff_forall_notMem]
      intro a ha
      obtain ⟨i, hi, hbit, -⟩ := (mem_framesWith hs.sized).mp ha
      rw [hall i hi] at hbit
      cases hbit
    refine ⟨none, s, halloc, ?_, hs, rfl⟩
    rw [hempty, step_alloc_empty]
  · have hmem : s.frameAddr j ∈ s.available := (frameAddr_mem_framesWith hs.sized hj).mpr hclear
    have hleast : ∀ b ∈ s.available, s.frameAddr j ≤ b := by
      intro b hb
      obtain ⟨i, hi, hbit, rfl⟩ := (mem_framesWith hs.sized).mp hb
      have hji : j ≤ i := by
        by_contra hlt
        rw [hlow i (by omega)] at hbit
        cases hbit
      rw [BitVec.le_def, toNat_frameAddr hs.sized hj, toNat_frameAddr hs.sized hi]
      omega
    refine ⟨_, _, halloc, ?_, hs.of_bitmap bm, rfl⟩
    rw [step_alloc_least hmem hleast]
    congr 2
    symm
    refine available_ext hs.sized ((erase_subset _ _).trans (available_subset hs.sized)) ?_
    intro i hi
    rw [mem_available_of_bitmap hs.sized hbm hi]
    by_cases hij : i = j
    · simp [hij]
    · simp [hij, mt (frameAddr_inj hs.sized hi hj) hij]

theorem freeFrame_refines (hs : s.WellFormed) (ha : a ∈ s.regionFrames) (hnot : a ∉ s.available) :
    ∃ s', s.freeFrame a = some s' ∧
      FirstFit.step s.available (.free a) = some (.freed, s'.available) ∧
      s'.WellFormed ∧ s'.frameRegionStart = s.frameRegionStart ∧
      s'.available = insert a s.available := by
  obtain ⟨j, hj, rfl⟩ := (mem_regionFrames hs.sized).mp ha
  have hset : s.bitmap.bit j = true := by
    rw [available, frameAddr_mem_framesWith hs.sized hj] at hnot
    exact Bool.eq_true_of_not_eq_false hnot
  obtain ⟨bm, hfree, hbm⟩ := freeFrame_spec hs hj hset
  have havail : available { s with bitmap := bm } = insert (s.frameAddr j) s.available := by
    refine available_ext hs.sized (insert_subset ha (available_subset hs.sized)) ?_
    intro i hi
    rw [mem_available_of_bitmap hs.sized hbm hi]
    by_cases hij : i = j
    · simp [hij]
    · simp [hij, mt (frameAddr_inj hs.sized hi hj) hij]
  refine ⟨_, hfree, ?_, hs.of_bitmap bm, rfl, havail⟩
  rw [step_free hnot, havail]

/-- One call of a client that frees only frames of the region that are not
    free is one step of the pool. -/
theorem clientStep_refines (p : Profile) (hs : s.WellFormed) {op : FirstFit.Op Word}
    (hop : ∀ a, op = .free a → a ∈ s.regionFrames ∧ a ∉ s.available) :
    ∃ r s', clientStep p s op = some (r, s') ∧
      FirstFit.step s.available op = some (r, s'.available) ∧
      s'.WellFormed ∧ s'.frameRegionStart = s.frameRegionStart := by
  cases op with
  | alloc =>
    obtain ⟨r, s', halloc, hpool, hs', hstart⟩ := allocFrame_refines p hs
    refine ⟨.allocated r, s', ?_, hpool, hs', hstart⟩
    rw [clientStep, halloc]
    rfl
  | free a =>
    obtain ⟨ha, hnot⟩ := hop a rfl
    obtain ⟨s', hfree, hpool, hs', hstart, -⟩ := freeFrame_refines hs ha hnot
    refine ⟨.freed, s', ?_, hpool, hs', hstart⟩
    rw [clientStep, hfree]
    rfl

/-! ## Whole runs -/

/-- A run of the client interface. -/
abbrev ClientStep := Transition FrameAlloc (FirstFit.Op Word) (FirstFit.Res Word)

/-- The frames the clients hold after a run. -/
def heldAfter (tr : List ClientStep) : Finset Word := held (tr.map label)

/-- Each freed address is one held by a client at that time. -/
def FreesHeld (tr : List ClientStep) : Prop := Admissible FirstFit.FreesHeld (tr.map label)

/-- A run in which clients free only what they hold is a run of the pool. -/
theorem run_refines (p : Profile) {tr : List ClientStep}
    (hs₀ : s₀.WellFormed) (hrun : Run (clientStep p) s₀ tr s) (hfrees : FreesHeld tr) :
    ∃ tr', Run FirstFit.step s₀.available tr' s.available ∧
      tr'.map label = tr.map label ∧
      s.WellFormed ∧ s.frameRegionStart = s₀.frameRegionStart := by
  have hmatch : ∀ tr' s F op, Run FirstFit.step s₀.available tr' F →
      Admissible FirstFit.FreesHeld (tr'.map label) →
      (s.WellFormed ∧ s.frameRegionStart = s₀.frameRegionStart ∧ s.available = F) →
      FirstFit.FreesHeld (tr'.map label) op →
      ∃ r s' F', clientStep p s op = some (r, s') ∧ FirstFit.step F op = some (r, F') ∧
        (s'.WellFormed ∧ s'.frameRegionStart = s₀.frameRegionStart ∧ s'.available = F') := by
    rintro tr' s F op hrun' hadm ⟨hs, hstart, rfl⟩ hG
    -- a held frame is one of the region and, by the pool's history, not free
    obtain ⟨hfree, hsub⟩ := free_eq_sdiff_held hrun' hadm
    have hop : ∀ a, op = .free a → a ∈ s.regionFrames ∧ a ∉ s.available := by
      intro a ha
      have hheld := hG a ha
      have hregion : a ∈ s₀.regionFrames := available_subset hs₀.sized (hsub hheld)
      refine ⟨regionFrames_congr hs₀.sized hs.sized hstart.symm ▸ hregion, ?_⟩
      rw [hfree]
      exact fun h => (mem_sdiff.mp h).2 hheld
    obtain ⟨r, s', hstep, hpool, hs', hstart'⟩ := clientStep_refines p hs hop
    exact ⟨r, s', s'.available, hstep, hpool, hs', hstart'.trans hstart, rfl⟩
  obtain ⟨tr', F, hrun', hlabels, hs, hstart, rfl⟩ :=
    Run.simulation ⟨hs₀, rfl, rfl⟩ hmatch hrun hfrees
  exact ⟨tr', hrun', hlabels, hs, hstart⟩

/-! ## States left by an initialiser -/

theorem step_region {op : Op} (hs : s.RegionSized) (h : step p s op = some (r, s')) :
    (s'.frameRegionStart = s.frameRegionStart ∧ s'.frameRegionEnd = s.frameRegionEnd) ∨
      ∃ m, s.initialized = false ∧ s.initFromMemoryMap p m = some s' := by
  cases op with
  | init =>
    rw [step, init_of_sized p hs] at h
    cases h
    exact .inl ⟨rfl, rfl⟩
  | initFromMemoryMap m =>
    obtain ⟨t, ht, heq⟩ := map_eq_some_iff.mp h
    cases heq
    cases hinit : s.initialized with
    | true =>
      -- a second initialisation is refused
      rw [initFromMemoryMap, if_pos hinit] at ht
      cases ht
      exact .inl ⟨rfl, rfl⟩
    | false => exact .inr ⟨m, rfl, ht⟩
  | client op =>
    obtain ⟨⟨r', t⟩, ht, heq⟩ := map_eq_some_iff.mp h
    cases heq
    obtain ⟨bm, rfl⟩ := clientStep_eq_some ht
    exact .inl ⟨rfl, rfl⟩

/-- The region is sized for the bitmap in every state the module reaches. -/
theorem regionSized_of_run (hrun : Run (step p) boot tr s) : s.RegionSized := by
  refine Run.invariant (I := fun _ s => s.RegionSized) ?_ ?_ hrun
  · show 0x04000000 = 0x02000000 + 8192 * 4096
    omega
  · intro _ s op r s' hs hstep
    rcases step_region hs hstep with ⟨hstart, hend⟩ | ⟨m, hinit, hmap⟩
    · rwa [RegionSized, hstart, hend]
    · obtain ⟨u, hu, hwf, -⟩ := initFromMemoryMap_spec p m hinit
      exact some.inj (hu.symm.trans hmap) ▸ hwf.sized

/-- A state that `init`, or `init_from_memory_map` on an uninitialised
    allocator, leaves after any calls from boot on. -/
def LeftByInit (p : Profile) (s₀ : FrameAlloc) : Prop :=
  ∃ tr s, Run (step p) boot tr s ∧
    (s.init p = some s₀ ∨ ∃ m, s.initialized = false ∧ s.initFromMemoryMap p m = some s₀)

theorem LeftByInit.wellFormed (h : LeftByInit p s₀) : s₀.WellFormed := by
  obtain ⟨tr, s, hrun, hinit | ⟨m, huninit, hmap⟩⟩ := h
  · have hs := regionSized_of_run hrun
    rw [init_of_sized p hs] at hinit
    cases hinit
    exact ⟨rfl, hs⟩
  · obtain ⟨t, ht, hwf, -⟩ := initFromMemoryMap_spec p m huninit
    exact some.inj (ht.symm.trans hmap) ▸ hwf

/-! ## The refinement -/

/-- What the allocator guarantees after a run `tr` from `s₀` to `s`. -/
structure RefinesFreeSet (p : Profile) (s₀ : FrameAlloc) (tr : List ClientStep)
    (s : FrameAlloc) : Prop where
  /-- The run is a run of the first-fit pool, with the same calls and results. -/
  simulated : ∃ tr', Run FirstFit.step s₀.available tr' s.available ∧
    tr'.map label = tr.map label
  /-- Available is every frame of the region neither held nor reserved. -/
  available_eq : s.available = s₀.regionFrames \ (heldAfter tr ∪ s₀.reserved)
  /-- The next `alloc_frame` does not panic, -/
  alloc_returns : ∃ r s', s.allocFrame p = some (r, s')
  /-- returns `None` exactly when every frame is held or reserved, -/
  alloc_none : ∀ r s', s.allocFrame p = some (r, s') →
    (r = none ↔ ∀ f ∈ s₀.regionFrames, f ∈ heldAfter tr ∨ f ∈ s₀.reserved)
  /-- and otherwise the lowest frame that is neither. -/
  alloc_some : ∀ a s', s.allocFrame p = some (some a, s') →
    a ∈ s₀.regionFrames ∧ a ∉ heldAfter tr ∧ a ∉ s₀.reserved ∧
      ∀ f ∈ s₀.regionFrames, f ∉ heldAfter tr → f ∉ s₀.reserved → a ≤ f
  /-- `free_frame` of a held frame does not panic and makes exactly that frame
      available again. -/
  free_held : ∀ a ∈ heldAfter tr, a ∉ s.available ∧
    ∃ s', s.freeFrame a = some s' ∧ s'.available = insert a s.available

/-- What the pool's answer to `alloc` says about the free set. -/
theorem alloc_answer (h : FirstFit.step F .alloc = some (.allocated r, F')) :
    (r = none ↔ F = ∅) ∧ ∀ a, r = some a → a ∈ F ∧ ∀ f ∈ F, a ≤ f := by
  rcases FirstFit.step_cases h with ⟨-, hr, hF, -⟩ | ⟨a, ha, hleast, -, hr, -⟩ | ⟨a, -, hop, -⟩
  · cases hr
    exact ⟨⟨fun _ => hF, fun _ => rfl⟩, fun a h => (nomatch h)⟩
  · cases hr
    refine ⟨⟨fun h => (nomatch h), fun h => absurd (h ▸ ha) (notMem_empty a)⟩, ?_⟩
    intro b hb
    cases hb
    exact ⟨ha, hleast⟩
  · cases hop

/-- From any state left by an initialiser, in every run whose frees are of held
    frames, the allocator is a set of free frames handed out lowest first. -/
theorem frameAlloc_refines_freeSet {p : Profile} {s₀ s : FrameAlloc} {tr : List ClientStep}
    (hinit : LeftByInit p s₀) (hrun : Run (clientStep p) s₀ tr s) (hfrees : FreesHeld tr) :
    RefinesFreeSet p s₀ tr s := by
  have hs₀ := hinit.wellFormed
  obtain ⟨tr', hrun', hlabels, hs, hstart⟩ := run_refines p hs₀ hrun hfrees
  obtain ⟨hfree, hsub⟩ := FirstFit.free_eq_sdiff_held hrun' (hlabels ▸ hfrees)
  rw [hlabels] at hfree hsub
  have havail : s.available = s₀.regionFrames \ (heldAfter tr ∪ s₀.reserved) := by
    rw [hfree, available_eq_sdiff hs₀.sized, sdiff_sdiff_left, union_comm]
    rfl
  have hmem : ∀ f, f ∈ s.available ↔
      f ∈ s₀.regionFrames ∧ f ∉ heldAfter tr ∧ f ∉ s₀.reserved := by
    intro f
    rw [havail, mem_sdiff, mem_union, not_or]
  obtain ⟨r, s', halloc, hpool, -, -⟩ := allocFrame_refines p hs
  obtain ⟨hnone, hsome⟩ := alloc_answer hpool
  refine ⟨⟨tr', hrun', hlabels⟩, havail, ⟨r, s', halloc⟩, ?_, ?_, ?_⟩
  · intro r₁ s₁ h₁
    obtain ⟨rfl, -⟩ := Prod.mk.inj (some.inj (halloc.symm.trans h₁))
    rw [hnone, eq_empty_iff_forall_notMem]
    refine forall_congr' fun f => ?_
    rw [hmem f]
    tauto
  · intro a s₁ h₁
    obtain ⟨rfl, -⟩ := Prod.mk.inj (some.inj (halloc.symm.trans h₁))
    obtain ⟨ha, hleast⟩ := hsome a rfl
    obtain ⟨hregion, hheld, hres⟩ := (hmem a).mp ha
    refine ⟨hregion, hheld, hres, ?_⟩
    intro f hf hfheld hfres
    exact hleast f ((hmem f).mpr ⟨hf, hfheld, hfres⟩)
  · intro a ha
    have hnot : a ∉ s.available := fun h => ((hmem a).mp h).2.1 ha
    have hregion : a ∈ s.regionFrames := by
      rw [← regionFrames_congr hs₀.sized hs.sized hstart.symm]
      exact available_subset hs₀.sized (hsub ha)
    obtain ⟨s₁, hfreed, -, -, -, havail₁⟩ := freeFrame_refines hs hregion hnot
    exact ⟨hnot, s₁, hfreed, havail₁⟩

/-- The allocator of `init` at boot. -/
def bootInit : FrameAlloc where
  frameRegionStart := 0x02000000#64
  frameRegionEnd := 0x04000000#64
  bitmap := fillPrefix maxBitmapBytes 32
  bitmapLen := maxBitmapBytes
  totalFramesCount := 8192
  initialized := true

/-- The refinement applies to a run that allocates two frames and frees the
    first: the 256 reserved frames are passed over. -/
theorem frameAlloc_refines_freeSet_boot :
    ∃ tr s, LeftByInit .dev bootInit ∧ Run (clientStep .dev) bootInit tr s ∧
      tr.map label =
        [(.alloc, .allocated (some 0x02100000#64)), (.alloc, .allocated (some 0x02101000#64)),
          (.free 0x02100000#64, .freed)] ∧ FreesHeld tr ∧ RefinesFreeSet .dev bootInit tr s := by
  have hinit : LeftByInit .dev bootInit :=
    ⟨[], boot, Run.nil, .inl (init_of_sized .dev (by unfold RegionSized; decide))⟩
  have hexec : execLabels (clientStep .dev) bootInit [.alloc, .alloc, .free 0x02100000#64] =
      some [(.alloc, .allocated (some 0x02100000#64)),
        (.alloc, .allocated (some 0x02101000#64)), (.free 0x02100000#64, .freed)] := by
    decide +kernel
  obtain ⟨tr, s, hrun, hlabels⟩ := run_of_execLabels hexec
  have hfrees : FreesHeld tr := by
    rw [FreesHeld, hlabels, Admissible]
    simp only [forall_concat_isPrefix_cons, forall_concat_isPrefix_nil, and_true]
    exact ⟨nofun, nofun, fun a h => by cases h; decide⟩
  exact ⟨tr, s, hinit, hrun, hlabels, hfrees, frameAlloc_refines_freeSet hinit hrun hfrees⟩

end FrameAlloc

end OpenOS.Memory
