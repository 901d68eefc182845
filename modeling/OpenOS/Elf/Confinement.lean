/-
  Where a file can make the loader map and write.

  `load_elf` compares the segments with each other, and with nothing else: not
  with the end of user space, not with the stack pages, and neither the entry
  point nor the relocation targets are looked at.  The loader stays inside the
  image exactly when the file happens to meet those conditions.
-/

import OpenOS.Elf.Trace
import OpenOS.Memory.Vma

namespace OpenOS.Elf

open OpenOS.Base OpenOS.Memory.PageTable List BitVec PageJob

/-! ## The property -/

/-- The eight bytes at `a` lie in the page at `virt`. -/
def InPage (virt a : Word) : Prop := virt.toNat ≤ a.toNat ∧ a.toNat + 8 ≤ virt.toNat + 4096

/-- The load reached nothing outside its own image. -/
structure StaysInside (res : EStateM.Result (Stop ElfError) LoadState ElfLoadResult) : Prop where
  /-- Mapped pages lie in user space. -/
  pages : ∀ m ∈ (finalState res).mapped, m.virt.toNat < userSpaceMax
  /-- No page is mapped twice. -/
  once : ((finalState res).mapped.map Mapping.virt).Nodup
  /-- A relocation writes in user space, inside a page mapped by this load. -/
  relocs : ∀ a ∈ (finalState res).relocated, a.toNat + 8 ≤ userSpaceMax ∧
    ∃ m ∈ (finalState res).mapped, InPage m.virt a
  /-- The entry point lies in user space. -/
  entry : ∀ r s, res = .ok r s → r.entryPoint.toNat < userSpaceMax

/-! ## The condition -/

def PageJob.isMapped (job : PageJob) : Bool :=
  match job.fill with
  | .skip => false
  | _ => true

/-- The segment pages that are mapped when there are `n` frames: the first `n`,
    except those whose file range overflows. -/
def loadedPages (data : List Byte) (phs : List ProgramHeader) (n : Nat) : List Word :=
  (((segmentJobs data phs).take n).filter isMapped).map virt

/-- What the loader would have to check of a file, with `n` frames to hand out. -/
structure Confined (p : Profile) (data : List Byte) (n : Nat) (header : Elf64Header)
    (phs : List ProgramHeader) : Prop where
  /-- Segment pages lie in user space and are not stack pages that are mapped. -/
  pages : ∀ v ∈ loadedPages data phs n, v.toNat < userSpaceMax ∧
    ∀ i < stackPages, (segmentJobs data phs).length + i < n → v ≠ stackPage i
  /-- Relocations, once they are reached, do not straddle a page boundary and
      lie in a page of a segment or of the stack. -/
  relocs : (segmentJobs data phs).length + stackPages ≤ n → ∀ a ∈ (relocations p data header).1,
    a.toNat % 4096 ≤ 4088 ∧
      (pageOf a ∈ loadedPages data phs n ∨ ∃ i < stackPages, pageOf a = stackPage i)
  /-- The entry point of a load that succeeds lies in user space. -/
  entry : (segmentJobs data phs).length + stackPages ≤ n →
    ∀ dynamic, (relocations p data header).2 = .ok dynamic → header.entry.toNat < userSpaceMax

/-! ## Mapped pages -/

/-- The state of a load once all pages are mapped or the frames have run out. -/
def afterPages (onMap : Mapping → PhysMem → PhysMem) (data : List Byte)
    (phs : List ProgramHeader) (frames : List Word) (mem : PhysMem) : LoadState :=
  afterJobs onMap (segmentJobs data phs ++ stackJobs) { frames, mem }

theorem virt_filterMap_mappingOf (jobs : List PageJob) (frames : List Word) :
    ((jobs.zip frames).filterMap mappingOf).map Mapping.virt =
      ((jobs.take frames.length).filter isMapped).map virt := by
  induction jobs generalizing frames with
  | nil =>
    rw [take_nil]
    rfl
  | cons job jobs ih =>
    cases frames with
    | nil => rfl
    | cons f fs =>
      obtain ⟨virt, writable, executable, fill⟩ := job
      cases fill with
      | skip => exact ih fs
      | zeros => exact congrArg (virt :: ·) (ih fs)
      | bytes offset src => exact congrArg (virt :: ·) (ih fs)

theorem toNat_stackPage (hi : i < stackPages) :
    (stackPage i).toNat = 0x7FFFFFFFC000 + i * 4096 := by
  unfold stackPages at hi
  have hidx : (BitVec.ofNat 64 (i * 0x1000)).toNat = i * 4096 := by
    rw [toNat_ofNat]
    omega
  have hbase : stackVirtBase.toNat = 0x7FFFFFFFC000 := by decide
  rw [stackPage, toNat_add_of_lt (by omega), hidx, hbase]

theorem virt_stackJobs (n : Nat) :
    ((stackJobs.take n).filter isMapped).map virt =
      (range (min n stackPages)).map stackPage := by
  have hall : ∀ i ∈ range (min n stackPages), (isMapped ∘ stackJob) i = true := fun _ _ => rfl
  rw [stackJobs, ← map_take, take_range, filter_map, map_map, filter_eq_self.mpr hall]
  rfl

/-- The pages mapped by a load with these frames, newest first. -/
theorem virt_afterJobs (data : List Byte) (phs : List ProgramHeader) (frames : List Word)
    (mem : PhysMem) :
    (afterPages onMap data phs frames mem).mapped.map Mapping.virt =
      (loadedPages data phs frames.length ++
        (range (min (frames.length - (segmentJobs data phs).length) stackPages)).map
          stackPage).reverse := by
  rw [afterPages, mapped_afterJobs, append_nil, map_reverse, virt_filterMap_mappingOf,
    take_append, filter_append, map_append, virt_stackJobs]
  rfl

theorem mem_mapped_iff : (∃ m ∈ (afterPages onMap data phs frames mem).mapped,
      m.virt = v) ↔
      v ∈ loadedPages data phs frames.length ∨
        ∃ i < stackPages, (segmentJobs data phs).length + i < frames.length ∧ v = stackPage i := by
  rw [← mem_map, virt_afterJobs, mem_reverse, mem_append]
  simp only [mem_map, mem_range, lt_min_iff]
  refine or_congr_right ⟨?_, ?_⟩
  · rintro ⟨i, ⟨hlt, hi⟩, rfl⟩
    exact ⟨i, hi, by omega, rfl⟩
  · rintro ⟨i, hi, hlt, rfl⟩
    exact ⟨i, ⟨by omega, hi⟩, rfl⟩

theorem mapped_below_iff : (∀ m ∈ (afterPages onMap data phs frames mem).mapped,
      m.virt.toNat < userSpaceMax) ↔
      ∀ v ∈ loadedPages data phs frames.length, v.toNat < userSpaceMax := by
  constructor
  · intro h v hv
    obtain ⟨m, hm, rfl⟩ := mem_mapped_iff.mpr (.inl hv)
    exact h m hm
  · intro h m hm
    rcases mem_mapped_iff.mp ⟨m, hm, rfl⟩ with hv | ⟨i, hi, -, hv⟩
    · exact h _ hv
    have hpage := toNat_stackPage hi
    unfold stackPages at hi
    rw [hv]
    show _ < 0x800000000000
    omega

theorem nodup_mapped_iff (hdistinct : ((segmentJobs data phs).map virt).Nodup) :
    ((afterPages onMap data phs frames mem).mapped.map
      Mapping.virt).Nodup ↔
      ∀ v ∈ loadedPages data phs frames.length, ∀ i < stackPages,
        (segmentJobs data phs).length + i < frames.length → v ≠ stackPage i := by
  have hloaded : (loadedPages data phs frames.length).Nodup :=
    hdistinct.sublist ((filter_sublist.trans (take_sublist _ _)).map _)
  have hstack : ((range (min (frames.length - (segmentJobs data phs).length)
      stackPages)).map stackPage).Nodup := by
    refine Nodup.map_on (fun i hi j hj heq => ?_) nodup_range
    rw [mem_range, lt_min_iff] at hi hj
    have hnat : (stackPage i).toNat = (stackPage j).toNat := by rw [heq]
    rw [toNat_stackPage hi.2, toNat_stackPage hj.2] at hnat
    omega
  rw [virt_afterJobs, nodup_reverse, nodup_append]
  simp only [hloaded, hstack, true_and, mem_map, mem_range, lt_min_iff]
  constructor
  · intro h v hv i hi hlt
    exact h v hv _ ⟨i, ⟨by omega, hi⟩, rfl⟩
  · rintro h v hv _ ⟨i, ⟨hlt, hi⟩, rfl⟩
    exact h v hv i hi (by omega)

/-! ## Relocations -/

theorem toNat_mod_of_mem_loadedPages (h : v ∈ loadedPages data phs n) : v.toNat % 4096 = 0 := by
  obtain ⟨job, hjob, rfl⟩ := mem_map.mp h
  have hmem := mem_of_mem_take (mem_of_mem_filter hjob)
  obtain ⟨ph, -, hmem⟩ := mem_flatMap.mp hmem
  obtain ⟨idx, hidx, rfl⟩ := mem_map.mp hmem
  obtain ⟨hpage, -⟩ := ProgramHeader.toNat_page (mem_range.mp hidx)
  show (ph.page idx).toNat % 4096 = 0
  omega

theorem inPage_iff (hv : v.toNat % 4096 = 0) :
    InPage v a ↔ a.toNat % 4096 ≤ 4088 ∧ pageOf a = v := by
  rw [← toNat_inj, toNat_pageOf, InPage]
  constructor
  · rintro ⟨hlo, hhi⟩
    omega
  · rintro ⟨hoff, hpage⟩
    omega

theorem toNat_mod_of_mem_mapped (hm : m ∈ (afterPages onMap data phs frames mem).mapped) :
    m.virt.toNat % 4096 = 0 := by
  rcases mem_mapped_iff.mp ⟨m, hm, rfl⟩ with hv | ⟨i, hi, -, hv⟩
  · exact toNat_mod_of_mem_loadedPages hv
  · rw [hv, toNat_stackPage hi]
    omega

/-- All four stack pages are mapped once the relocations are reached. -/
theorem inPage_mapped_iff (hlen : (segmentJobs data phs).length + stackPages ≤ frames.length) :
    (∃ m ∈ (afterPages onMap data phs frames mem).mapped,
      InPage m.virt a) ↔
      a.toNat % 4096 ≤ 4088 ∧ (pageOf a ∈ loadedPages data phs frames.length ∨
        ∃ i < stackPages, pageOf a = stackPage i) := by
  constructor
  · rintro ⟨m, hm, hin⟩
    obtain ⟨hoff, hpage⟩ := (inPage_iff (toNat_mod_of_mem_mapped hm)).mp hin
    rw [hpage]
    rcases mem_mapped_iff.mp ⟨m, hm, rfl⟩ with hv | ⟨i, hi, -, hv⟩
    · exact ⟨hoff, .inl hv⟩
    · exact ⟨hoff, .inr ⟨i, hi, hv⟩⟩
  · rintro ⟨hoff, hpage⟩
    have hmapped : ∃ m ∈ (afterPages onMap data phs frames mem).mapped, m.virt = pageOf a := by
      refine mem_mapped_iff.mpr (hpage.imp_right ?_)
      rintro ⟨i, hi, hpage⟩
      exact ⟨i, hi, by omega, hpage⟩
    obtain ⟨m, hm, hvirt⟩ := hmapped
    exact ⟨m, hm, (inPage_iff (toNat_mod_of_mem_mapped hm)).mpr ⟨hoff, hvirt.symm⟩⟩

/-! ## The loader -/

theorem length_jobs (data : List Byte) (phs : List ProgramHeader) :
    (segmentJobs data phs ++ stackJobs).length = (segmentJobs data phs).length + stackPages := by
  rw [length_append, stackJobs, length_map, length_range]

theorem staysInside_short_iff (hdistinct : ((segmentJobs data phs).map virt).Nodup)
    (hlen : ¬ (segmentJobs data phs).length + stackPages ≤ frames.length) :
    StaysInside (.error (.err .outOfMemory)
      (afterPages onMap data phs frames mem)) ↔ Confined p data frames.length header phs := by
  constructor
  · intro h
    refine ⟨fun v hv => ⟨mapped_below_iff.mp h.pages v hv,
      (nodup_mapped_iff hdistinct).mp h.once v hv⟩, fun hge => absurd hge hlen,
      fun hge => absurd hge hlen⟩
  · intro h
    refine ⟨mapped_below_iff.mpr fun v hv => (h.pages v hv).1,
      (nodup_mapped_iff hdistinct).mpr fun v hv => (h.pages v hv).2, ?_, ?_⟩
    · intro a ha
      rw [finalState, afterPages, relocated_afterJobs] at ha
      cases ha
    · intro r s hres
      cases hres

theorem staysInside_full_iff (hdistinct : ((segmentJobs data phs).map virt).Nodup)
    (hlen : (segmentJobs data phs).length + stackPages ≤ frames.length) :
    StaysInside (Comp.lift ((relocations p data header).2.map (resultOf header))
      ((afterPages onMap data phs frames mem).reloc
        (relocations p data header).1)) ↔ Confined p data frames.length header phs := by
  have hfinal : finalState (Comp.lift ((relocations p data header).2.map (resultOf header))
      ((afterPages onMap data phs frames mem).reloc
        (relocations p data header).1)) =
      (afterPages onMap data phs frames mem).reloc
        (relocations p data header).1 := by
    cases (relocations p data header).2 <;> rfl
  have hmem : ∀ a, a ∈ ((afterPages onMap data phs frames mem).reloc
      (relocations p data header).1).relocated ↔
      a ∈ (relocations p data header).1 := by
    intro a
    rw [LoadState.reloc]
    simp [afterPages, relocated_afterJobs]
  constructor
  · rintro ⟨hpages, honce, hrelocs, hentry⟩
    rw [hfinal] at hpages honce hrelocs
    refine ⟨fun v hv => ⟨mapped_below_iff.mp hpages v hv,
      (nodup_mapped_iff hdistinct).mp honce v hv⟩, fun _ a ha => ?_, fun _ dynamic hok => ?_⟩
    · exact (inPage_mapped_iff hlen).mp (hrelocs a ((hmem a).mpr ha)).2
    · rw [hok] at hentry
      exact hentry _ _ rfl
  · rintro ⟨hpages, hrelocs, hentry⟩
    have hbelow : ∀ m ∈ (afterPages onMap data phs frames mem).mapped,
        m.virt.toNat < userSpaceMax := mapped_below_iff.mpr fun v hv => (hpages v hv).1
    refine ⟨by rw [hfinal]; exact hbelow,
      by rw [hfinal]; exact (nodup_mapped_iff hdistinct).mpr fun v hv => (hpages v hv).2,
      fun a ha => ?_, fun r s hres => ?_⟩
    · rw [hfinal, hmem] at ha
      obtain ⟨m, hm, hin⟩ := (inPage_mapped_iff hlen).mpr (hrelocs hlen a ha)
      rw [hfinal]
      refine ⟨?_, m, hm, hin⟩
      -- an aligned page below the limit ends at most there
      have halign := toNat_mod_of_mem_mapped hm
      have hlt := hbelow m hm
      obtain ⟨-, hend⟩ := hin
      unfold userSpaceMax at hlt ⊢
      omega
    · cases hok : (relocations p data header).2 with
      | error e =>
        rw [hok] at hres
        cases hres
      | ok dynamic =>
        rw [hok] at hres
        cases hres
        exact hentry hlen dynamic hok

/-- For every file and all frames: the load stays inside its image exactly when the file
    fails the header checks or is confined. -/
theorem staysInside_iff (onMap : Mapping → PhysMem → PhysMem) (p : Profile) (data : List Byte)
    (frames : List Word) (mem : PhysMem) :
    StaysInside (loadElf (recorder onMap) p data { frames, mem }) ↔
      ∀ header phs, plan p data = .ok (header, phs) → Confined p data frames.length header phs := by
  cases hplan : plan p data with
  | error e =>
    rw [loadElf_of_plan_error _ hplan]
    constructor
    · intro _ header phs h
      cases h
    · -- nothing was mapped or written
      intro _
      refine ⟨?_, nodup_nil, ?_, ?_⟩
      · intro m hm
        cases hm
      · intro a ha
        cases ha
      · intro r s hres
        cases hres
  | ok q =>
    obtain ⟨header, phs⟩ := q
    obtain ⟨-, -, -, -, hdistinct⟩ := plan_eq_ok hplan
    have hcond : (∀ header' phs', (.ok (header, phs) : Parse _) = .ok (header', phs') →
        Confined p data frames.length header' phs') ↔
        Confined p data frames.length header phs := by
      refine ⟨fun h => h header phs rfl, fun h header' phs' heq => ?_⟩
      obtain ⟨rfl, rfl⟩ := Prod.mk.inj (Except.ok.inj heq)
      exact h
    rw [hcond, loadElf_eq onMap hplan, length_jobs]
    split
    · rename_i hlen
      exact staysInside_full_iff hdistinct hlen
    · rename_i hlen
      exact staysInside_short_iff hdistinct hlen

/-! ## A file that writes to kernel memory -/

/-- An executable of one segment at 0x400000, with one RELATIVE entry, at file
    offset 224, for the address `target`. -/
def relocFile (target : Word) : List Byte :=
  headerBytes 0x400000 2 ++
    programHeaderBytes 1 7 0 0x400000 248 248 ++
    programHeaderBytes 2 6 176 0x4000b0 48 48 ++
    -- DT_RELA, DT_RELASZ, DT_NULL
    ((7 : Word).toLeBytes ++ (0x4000e0 : Word).toLeBytes) ++
    ((8 : Word).toLeBytes ++ (24 : Word).toLeBytes) ++ List.replicate 16 0 ++
    (target.toLeBytes ++ (8 : Word).toLeBytes ++ List.replicate 8 0)

def fiveFrames : List Word := [0x100000, 0x101000, 0x102000, 0x103000, 0x104000]

/-- The relocation is applied at the first address of the kernel half. -/
theorem not_staysInside_relocFile :
    ¬ StaysInside (loadElf (recorder fun _ mem => mem) .dev (relocFile 0xFFFF800000000000)
      { frames := fiveFrames, mem := fun _ _ => 0 }) := by
  intro h
  have hmem : (0xFFFF800000000000 : Word) ∈ (finalState (loadElf (recorder fun _ mem => mem) .dev
      (relocFile 0xFFFF800000000000) { frames := fiveFrames, mem := fun _ _ => 0 })).relocated := by
    decide +kernel
  exact absurd (h.relocs _ hmem).1 (by decide)

end OpenOS.Elf
