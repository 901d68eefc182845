/-
  `load_elf` on a machine that keeps a record.

  The machine is given the frames that `alloc_frame` will answer with, in this
  order; after them it answers `None`.  What `map_page` does to memory is left to
  the caller.  The loader is then the plan of the file carried out job by job
  until the frames run out, and then the relocations.
-/

import OpenOS.Elf.Plan
import OpenOS.Memory.PhysBytes

namespace OpenOS.Elf

open OpenOS.Base OpenOS.Base.Comp OpenOS.Memory.PageTable List

/-- A call of `map_page`. -/
structure Mapping where
  virt : Word
  phys : Word
  writable : Bool
  executable : Bool
deriving DecidableEq

/-- The machine and the record, newest entries first. -/
structure LoadState where
  /-- What `alloc_frame` will answer. -/
  frames : List Word
  mem : PhysMem
  taken : List Word := []
  mapped : List Mapping := []
  /-- Start and length of each copy. -/
  copied : List (Word × Nat) := []
  /-- The addresses of the relocation writes, of eight bytes each. -/
  relocated : List Word := []

/-- The state a load ends in, whether it succeeds or not. -/
def finalState {α : Type} : EStateM.Result (Stop ElfError) LoadState α → LoadState
  | .ok _ s => s
  | .error _ s => s

section Recorder

variable (onMap : Mapping → PhysMem → PhysMem)

def recorder : Machine LoadState where
  allocFrame := fun s =>
    match s.frames with
    | [] => .ok none s
    | f :: fs => .ok (some f) { s with frames := fs, taken := f :: s.taken }
  zeroFrame phys := fun s => .ok () { s with mem := s.mem.zeroTable phys }
  copyTo addr src := fun s =>
    .ok () { s with mem := s.mem.setBytes addr src, copied := (addr, src.length) :: s.copied }
  mapPage virt phys writable executable := fun s =>
    let m := ⟨virt, phys, writable, executable⟩
    .ok () { s with mem := onMap m s.mem, mapped := m :: s.mapped }
  writeVolatile addr _ := fun s => .ok () { s with relocated := addr :: s.relocated }

/-! ## One job -/

/-- The state after `job` was given frame `f`. -/
def LoadState.load (s : LoadState) (job : PageJob) (f : Word) : LoadState :=
  let m : Mapping := ⟨job.virt, f, job.writable, job.executable⟩
  let zeroed := { s with taken := f :: s.taken, mem := s.mem.zeroTable f }
  match job.fill with
  | .skip => zeroed
  | .zeros => { zeroed with mem := onMap m zeroed.mem, mapped := m :: s.mapped }
  | .bytes offset src =>
    { zeroed with
      mem := onMap m (zeroed.mem.setBytes (f + offset) src)
      copied := (f + offset, src.length) :: s.copied
      mapped := m :: s.mapped }

/-- Jobs carried out in order, each with the next frame. -/
def runJobs : List PageJob → LoadM LoadState Unit
  | [], s => .ok () s
  | job :: jobs, s =>
    match s.frames with
    | [] => .error (.err .outOfMemory) s
    | f :: fs => runJobs jobs ({ s with frames := fs }.load onMap job f)

theorem loadPage_recorder (h : idx < ph.numPages) (s : LoadState) :
    loadPage (recorder onMap) data ph idx s = runJobs onMap [segmentJob data ph idx] s := by
  obtain ⟨-, hpage⟩ := ProgramHeader.toNat_page h
  unfold loadPage
  rw [hpage]
  obtain ⟨frames, mem, taken, mapped, copied, relocated⟩ := s
  cases frames with
  | nil => rfl
  | cons f fs =>
    unfold runJobs LoadState.load segmentJob
    show fillAndMap _ data ph (ph.page idx) f _ = _
    unfold fillAndMap
    cases hfill : pageFill data ph (ph.page idx) with
    | skip => rfl
    | zeros => rfl
    | bytes offset src => rfl

theorem loadStackPage_recorder (i : Nat) (s : LoadState) :
    loadStackPage (recorder onMap) i s = runJobs onMap [stackJob i] s := by
  obtain ⟨frames, mem, taken, mapped, copied, relocated⟩ := s
  cases frames with
  | nil => rfl
  | cons f fs => rfl

/-! ## Loops over jobs -/

theorem runJobs_append (jobs₁ jobs₂ : List PageJob) :
    runJobs onMap (jobs₁ ++ jobs₂) = (do runJobs onMap jobs₁; runJobs onMap jobs₂) := by
  funext s
  induction jobs₁ generalizing s with
  | nil => rfl
  | cons job jobs ih =>
    rw [cons_append, runJobs, bind_apply, runJobs]
    cases s.frames with
    | nil => rfl
    | cons f fs =>
      dsimp only
      rw [ih, bind_apply]

/-- A loop whose rounds each carry out a list of jobs. -/
theorem forM_eq_runJobs (is : List ι) (h : ∀ i ∈ is, body i = runJobs onMap (jobs i)) :
    is.forM body = runJobs onMap (is.flatMap jobs) := by
  induction is with
  | nil => rfl
  | cons i is ih =>
    show (do body i; is.forM body) = _
    rw [h i mem_cons_self, flatMap_cons, runJobs_append, ih fun j hj => h j (mem_cons_of_mem _ hj)]

/-- The jobs of the segment whose header has this number. -/
def jobsOf (p : Profile) (data : List Byte) (phoff : Word) (i : Nat) : List PageJob :=
  segmentJobs data (loadHeaders p data phoff [i])

theorem segmentJobs_loadHeaders (p : Profile) (data : List Byte) (phoff : Word) (is : List Nat) :
    segmentJobs data (loadHeaders p data phoff is) = is.flatMap (jobsOf p data phoff) := by
  induction is with
  | nil => rfl
  | cons i is ih =>
    rw [flatMap_cons, ← ih, jobsOf, segmentJobs, segmentJobs, segmentJobs, ← flatMap_append]
    congr 1
    show loadHeaders p data phoff ([i] ++ is) = _
    exact filterMap_append

theorem loadSegment_recorder (hread : Readable p data phoff is) (hi : i ∈ is) :
    loadSegment (recorder onMap) p data phoff i = runJobs onMap (jobsOf p data phoff i) := by
  obtain ⟨ph, hparse, hend⟩ := hread i hi
  funext s
  unfold loadSegment
  rw [hparse, bind_of_ok (lift_ok ph s), jobsOf, loadHeaders_cons hparse]
  by_cases htype : ph.pType = ptLoad
  · obtain ⟨endPage, hend⟩ := hend htype
    rw [if_neg (not_not.mpr htype), if_pos htype, hend]
    have hjobs : segmentJobs data (ph :: loadHeaders p data phoff []) =
        (range ph.numPages).flatMap fun idx => [segmentJob data ph idx] := by
      rw [segmentJobs, flatMap_cons, map_eq_flatMap]
      exact append_nil _
    have hloop : (range ph.numPages).forM (loadPage (recorder onMap) data ph) =
        runJobs onMap ((range ph.numPages).flatMap fun idx => [segmentJob data ph idx]) :=
      forM_eq_runJobs onMap _ fun idx hidx =>
        funext (loadPage_recorder onMap (mem_range.mp hidx))
    rw [hjobs, ← hloop, ProgramHeader.numPages_eq hend]
    show (if endPage ≤ ph.startPage then _ else _ : LoadM LoadState Unit) s = _
    by_cases hempty : endPage ≤ ph.startPage
    · rw [if_pos hempty, Nat.sub_eq_zero_of_le (BitVec.le_def.mp hempty)]
      rfl
    · rw [if_neg hempty, BitVec.toNat_sub_of_le (not_le.mp hempty).le]
  · rw [if_pos htype, if_neg htype]
    rfl

/-- The loader on this machine: the checks, the jobs of the plan, and then the
    relocations. -/
theorem loadElf_recorder (hplan : plan p data = .ok (header, phs)) :
    loadElf (recorder onMap) p data = (do
      runJobs onMap (segmentJobs data phs ++ stackJobs)
      let dynamic ← lift (parseDynamicSegment p data header.phoff header.phnum)
      relocate (recorder onMap) p data header dynamic
      return {
        entryPoint := header.entry
        stackTop := stackTop
        dynamic := dynamic
        eType := header.eType
        guardPageVirt := saturatingSub stackTop 0x1000 }) := by
  obtain ⟨hheader, rfl, ⟨out, hcheck⟩, hread, -⟩ := plan_eq_ok hplan
  have hsegments := forM_eq_runJobs onMap (range header.phnum.toNat) fun i hi =>
    loadSegment_recorder onMap hread hi
  have hstack := forM_eq_runJobs onMap (range stackPages) fun i _ =>
    funext (loadStackPage_recorder onMap i)
  have hstack' : (range stackPages).flatMap (fun i => [stackJob i]) = stackJobs := rfl
  unfold loadElf
  rw [hheader]
  funext s
  rw [bind_of_ok (lift_ok header s), hcheck, bind_of_ok (lift_ok out s),
    hsegments, hstack, hstack', runJobs_append, segmentJobs_loadHeaders, bind_assoc]

theorem loadElf_of_plan_error (M : Machine σ) (hplan : plan p data = .error e) (s : σ) :
    loadElf M p data s = .error e s := by
  unfold plan at hplan
  unfold loadElf
  cases hheader : headerOf data with
  | error e' =>
    rw [hheader] at hplan
    obtain rfl := Except.error.inj hplan
    exact bind_of_error (lift_error e' s) _
  | ok header =>
    rw [hheader] at hplan
    rw [bind_of_ok (lift_ok header s)]
    dsimp only [bind, Except.bind] at hplan
    split at hplan
    · rename_i e' hcheck
      obtain rfl := Except.error.inj hplan
      rw [hcheck]
      exact bind_of_error (lift_error e' s) _
    · cases hplan

/-! ## The state after the jobs -/

/-- The state once the jobs are done or the frames have run out. -/
def afterJobs : List PageJob → LoadState → LoadState
  | [], s => s
  | job :: jobs, s =>
    match s.frames with
    | [] => s
    | f :: fs => afterJobs jobs ({ s with frames := fs }.load onMap job f)

theorem frames_load (s : LoadState) (job : PageJob) (f : Word) :
    (s.load onMap job f).frames = s.frames := by
  unfold LoadState.load
  cases job.fill <;> rfl

theorem runJobs_eq (jobs : List PageJob) (s : LoadState) :
    runJobs onMap jobs s =
      if jobs.length ≤ s.frames.length then .ok () (afterJobs onMap jobs s)
      else .error (.err .outOfMemory) (afterJobs onMap jobs s) := by
  induction jobs generalizing s with
  | nil => rfl
  | cons job jobs ih =>
    rw [runJobs, afterJobs]
    cases hframes : s.frames with
    | nil => rfl
    | cons f fs =>
      dsimp only
      rw [ih, frames_load]
      simp

/-- A field that each job extends by at most one entry, in the order of the jobs. -/
theorem afterJobs_log (log : LoadState → List β) (entry : PageJob × Word → Option β)
    (hlog : ∀ s job f fs, log ({ s with frames := fs }.load onMap job f) =
      (entry (job, f)).toList ++ log s) (jobs : List PageJob) (s : LoadState) :
    log (afterJobs onMap jobs s) =
      ((jobs.zip s.frames).filterMap entry).reverse ++ log s := by
  induction jobs generalizing s with
  | nil => rfl
  | cons job jobs ih =>
    rw [afterJobs]
    cases hframes : s.frames with
    | nil => rw [zip_nil_right]; rfl
    | cons f fs =>
      rw [ih, frames_load, hlog, zip_cons_cons, filterMap_cons]
      cases entry (job, f) with
      | none => rfl
      | some b => simp

/-- The `map_page` call a job with this frame makes. -/
def mappingOf : PageJob × Word → Option Mapping
  | (⟨_, _, _, .skip⟩, _) => none
  | (⟨virt, writable, executable, _⟩, f) => some ⟨virt, f, writable, executable⟩

/-- The copy a job with this frame makes. -/
def copyOf : PageJob × Word → Option (Word × Nat)
  | (⟨_, _, _, .bytes offset src⟩, f) => some (f + offset, src.length)
  | _ => none

section

variable (jobs : List PageJob) (s : LoadState)

theorem mapped_afterJobs :
    (afterJobs onMap jobs s).mapped =
      ((jobs.zip s.frames).filterMap mappingOf).reverse ++ s.mapped := by
  refine afterJobs_log onMap LoadState.mapped mappingOf ?_ jobs s
  rintro s ⟨virt, writable, executable, fill⟩ f fs
  cases fill <;> rfl

theorem copied_afterJobs :
    (afterJobs onMap jobs s).copied =
      ((jobs.zip s.frames).filterMap copyOf).reverse ++ s.copied := by
  refine afterJobs_log onMap LoadState.copied copyOf ?_ jobs s
  rintro s ⟨virt, writable, executable, fill⟩ f fs
  cases fill <;> rfl

theorem taken_afterJobs :
    (afterJobs onMap jobs s).taken = ((jobs.zip s.frames).map Prod.snd).reverse ++ s.taken := by
  rw [afterJobs_log onMap LoadState.taken (fun q => some q.2) ?_ jobs s, filterMap_eq_map']
  rintro s ⟨virt, writable, executable, fill⟩ f fs
  cases fill <;> rfl

theorem relocated_afterJobs : (afterJobs onMap jobs s).relocated = s.relocated := by
  rw [afterJobs_log onMap LoadState.relocated (fun _ => none) ?_ jobs s]
  · simp
  · rintro s ⟨virt, writable, executable, fill⟩ f fs
    cases fill <;> rfl

end

/-! ## The relocations -/

/-- The targets of the RELATIVE entries among those left, and how the loop ends. -/
def relaTargets (p : Profile) (data : List Byte) (fileOff : Word) :
    Nat → Nat → List Word × Parse Unit
  | 0, _ => ([], .ok ())
  | n + 1, i =>
    match relaEntry p data fileOff i with
    | .error e => ([], .error e)
    | .ok none => ([], .ok ())
    | .ok (some r) =>
      let rest := relaTargets p data fileOff n (i + 1)
      if r.relType = rX86_64Relative then (r.rOffset :: rest.1, rest.2) else rest

/-- A record with more relocation writes, in this order. -/
def LoadState.reloc (s : LoadState) (targets : List Word) : LoadState :=
  { s with relocated := targets.reverse ++ s.relocated }

theorem applyRela_recorder (p : Profile) (data : List Byte) (fileOff : Word) (n i : Nat)
    (s : LoadState) :
    applyRela (recorder onMap) p data fileOff n i s =
      lift (relaTargets p data fileOff n i).2 (s.reloc (relaTargets p data fileOff n i).1) := by
  induction n generalizing i s with
  | zero => rfl
  | succ n ih =>
    rw [applyRela, relaTargets]
    cases hentry : relaEntry p data fileOff i with
    | error e => rfl
    | ok r =>
      rw [bind_of_ok (lift_ok r s)]
      cases r with
      | none => rfl
      | some r =>
        dsimp only
        by_cases htype : r.relType = rX86_64Relative
        · rw [if_pos htype, if_pos htype]
          show applyRela (recorder onMap) p data fileOff n (i + 1)
            { s with relocated := r.rOffset :: s.relocated } = _
          rw [ih]
          simp [LoadState.reloc]
        · rw [if_neg htype, if_neg htype, ih]

/-- The relocation writes of a file, and how its relocation step ends. -/
def relocations (p : Profile) (data : List Byte) (header : Elf64Header) :
    List Word × Parse (Option DynamicInfo) :=
  match parseDynamicSegment p data header.phoff header.phnum with
  | .error e => ([], .error e)
  | .ok none => ([], .ok none)
  | .ok (some info) =>
    if 0 < info.relaAddr ∧ 0 < info.relaSize then
      match relaFileOff p data header.phoff info.relaAddr (range header.phnum.toNat) with
      | .error e => ([], .error e)
      | .ok none => ([], .ok (some info))
      | .ok (some fileOff) =>
        let q := relaTargets p data fileOff (info.relaSize.toNat / 24) 0
        (q.1, q.2.map fun _ => some info)
    else ([], .ok (some info))

/-- The value `load_elf` returns. -/
def resultOf (header : Elf64Header) (dynamic : Option DynamicInfo) : ElfLoadResult where
  entryPoint := header.entry
  stackTop := stackTop
  dynamic := dynamic
  eType := header.eType
  guardPageVirt := saturatingSub stackTop 0x1000

theorem relocate_recorder (p : Profile) (data : List Byte) (header : Elf64Header) (s : LoadState) :
    (do
      let dynamic ← lift (parseDynamicSegment p data header.phoff header.phnum)
      relocate (recorder onMap) p data header dynamic
      return resultOf header dynamic : LoadM LoadState ElfLoadResult) s =
      lift ((relocations p data header).2.map (resultOf header))
        (s.reloc (relocations p data header).1) := by
  unfold relocations
  cases hdyn : parseDynamicSegment p data header.phoff header.phnum with
  | error e => rfl
  | ok dynamic =>
    rw [bind_of_ok (lift_ok dynamic s)]
    cases dynamic with
    | none => rfl
    | some info =>
      dsimp only
      rw [relocate]
      by_cases hrela : 0 < info.relaAddr ∧ 0 < info.relaSize
      · rw [if_pos hrela, if_pos hrela]
        cases hoff : relaFileOff p data header.phoff info.relaAddr
            (range header.phnum.toNat) with
        | error e => rfl
        | ok off =>
          cases off with
          | none => rfl
          | some fileOff =>
            show (do applyRela _ _ _ _ _ _; _ : LoadM LoadState ElfLoadResult) s = _
            rw [bind_apply, applyRela_recorder]
            dsimp only
            obtain ⟨targets, outcome⟩ := relaTargets p data fileOff (info.relaSize.toNat / 24) 0
            cases outcome with
            | error e => rfl
            | ok u => rfl
      · rw [if_neg hrela, if_neg hrela]
        rfl

theorem loadElf_eq (hplan : plan p data = .ok (header, phs)) (s : LoadState) :
    loadElf (recorder onMap) p data s =
      if (segmentJobs data phs ++ stackJobs).length ≤ s.frames.length then
        lift ((relocations p data header).2.map (resultOf header))
          ((afterJobs onMap (segmentJobs data phs ++ stackJobs) s).reloc
            (relocations p data header).1)
      else .error (.err .outOfMemory) (afterJobs onMap (segmentJobs data phs ++ stackJobs) s) := by
  rw [loadElf_recorder onMap hplan, bind_apply, runJobs_eq]
  by_cases hlen : (segmentJobs data phs ++ stackJobs).length ≤ s.frames.length
  · rw [if_pos hlen, if_pos hlen]
    exact relocate_recorder onMap p data header _
  · rw [if_neg hlen, if_neg hlen]

end Recorder

end OpenOS.Elf
