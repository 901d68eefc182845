/-
  The page table refines a finite map from pages to frames.

  The map is read off the history: a successful `map_page` adds a page, a
  successful `unmap_page` removes it.
-/

import OpenOS.Memory.PageOps

namespace OpenOS.Memory.PageTable

open Function OpenOS.Base List Option

abbrev PageStep := Transition PageTables Op Res

/-! ## The map of a history -/

/-- The effect of one answered call on the map. -/
def record (M : Word → Option Word) : Op × Res → Word → Option Word
  | (.map virt phys _ _, .mapped (.ok ())) => update M virt (some phys)
  | (.unmap virt, .unmapped (.ok _)) => update M virt none
  | _ => M

theorem record_cases (M : Word → Option Word) (op : Op) (r : Res) :
    (∃ virt phys flags answers, op = .map virt phys flags answers ∧ r = .mapped (.ok ()) ∧
      record M (op, r) = update M virt (some phys)) ∨
    (∃ virt f, op = .unmap virt ∧ r = .unmapped (.ok f) ∧
      record M (op, r) = update M virt none) ∨ record M (op, r) = M := by
  cases op with
  | map virt phys flags answers =>
    cases r with
    | mapped r =>
      cases r with
      | ok u => exact .inl ⟨virt, phys, flags, answers, rfl, rfl, rfl⟩
      | error e => exact .inr (.inr rfl)
    | unmapped r => exact .inr (.inr rfl)
  | unmap virt =>
    cases r with
    | mapped r => exact .inr (.inr rfl)
    | unmapped r =>
      cases r with
      | ok f => exact .inr (.inl ⟨virt, f, rfl, rfl, rfl⟩)
      | error e => exact .inr (.inr rfl)

/-- The map after a history: for each page the frame last mapped there. -/
def mapping (tr : List PageStep) : Word → Option Word :=
  (tr.map Transition.label).foldl record fun _ => none

theorem mapping_concat (tr : List PageStep) (e : PageStep) :
    mapping (tr ++ [e]) = record (mapping tr) e.label := by
  rw [mapping, map_append, foldl_append]
  rfl

/-- A page is mapped to `f` by some call of the history. -/
def MappedBy (tr : List PageStep) (virt f : Word) : Prop :=
  ∃ e ∈ tr, ∃ flags answers, e.label = (.map virt f flags answers, .mapped (.ok ()))

theorem MappedBy.mono (h : MappedBy tr virt f) (e : PageStep) : MappedBy (tr ++ [e]) virt f := by
  obtain ⟨e₁, he₁, hrest⟩ := h
  exact ⟨e₁, mem_append_left _ he₁, hrest⟩

/-- What the map says was put there by a call. -/
theorem mappedBy_of_mapping (h : mapping tr virt = some f) : MappedBy tr virt f := by
  -- the last call either put `f` there or left this page alone
  induction tr using reverseRecOn with
  | nil => cases h
  | append_singleton tr e ih =>
    rw [mapping_concat, Transition.label] at h
    rcases record_cases (mapping tr) e.op e.res with
      ⟨v, phys, flags, answers, hop, hres, hrec⟩ | ⟨v, g, -, -, hrec⟩ | hrec
    · rw [hrec, update_apply] at h
      split at h
      · rename_i hv
        subst hv
        cases h
        exact ⟨e, by simp, flags, answers, Prod.ext hop hres⟩
      · exact (ih h).mono e
    · rw [hrec, update_apply] at h
      split at h
      · cases h
      · exact (ih h).mono e
    · rw [hrec] at h
      exact (ih h).mono e

/-! ## Runs -/

/-- A call with the arguments the page table is made for, at a moment when the
    allocator has only unused frames to give. -/
def ValidOp (p4 : Word) (s : PageTables) : Op → Prop
  | .map virt phys flags answers => MapInput virt phys flags ∧ Fresh p4 s answers
  | .unmap virt => IsPage virt

/-- The page a call is about. -/
def Op.page : Op → Word
  | .map virt _ _ _ => virt
  | .unmap virt => virt

/-- No `map_page` failed for want of memory. -/
def NoOutOfMemory (tr : List PageStep) : Prop := ∀ e ∈ tr, e.res ≠ .mapped (.error .outOfMemory)

/-- What every run keeps. -/
structure RunInv (p4 : Word) (tr : List PageStep) (s : PageTables) : Prop where
  inv : Inv p4 (mapping tr) s
  log : ∀ x ∈ s.freeLog, ¬ RefersAsTable p4 x.2 x.1 ∧
    ∀ virt, IsPage virt → RefersAsPage p4 x.2 x.1 virt → MappedBy tr virt x.1
  pruned : NoOutOfMemory tr → Pruned (tree p4 s.mem)

/-- A map without out-of-memory failure leaves no table empty. -/
theorem pruned_of_mapped (h : Pruned T)
    (hpath : ∀ q : List (Fin 512), q <+: path virt → T' q ≠ none)
    (haway : ∀ q : List (Fin 512), q.length ≤ 4 → ¬ q <+: path virt → T' q = T q) : Pruned T' := by
  intro q hnil hne hlen hsome
  by_cases hpre : q <+: path virt
  · -- on the path, the next index of the path leads on
    obtain ⟨rest, hrest⟩ := hpre
    cases rest with
    | nil =>
      have hfull := congrArg length hrest
      rw [append_nil, length_path] at hfull
      omega
    | cons i rest => exact ⟨i, hpath (q ++ [i]) ⟨rest, by rw [← hrest]; simp⟩⟩
  · rw [haway q (by omega) hpre] at hsome
    obtain ⟨i, hi⟩ := h q hnil hne hlen hsome
    refine ⟨i, ?_⟩
    rwa [haway (q ++ [i]) (by simp; omega) fun h => hpre ((prefix_append q [i]).trans h)]

theorem NoOutOfMemory.of_concat (h : NoOutOfMemory (tr ++ [e])) :
    NoOutOfMemory tr ∧ e.res ≠ .mapped (.error .outOfMemory) :=
  ⟨fun e₁ he₁ => h e₁ (mem_append_left _ he₁), h e (by simp)⟩

theorem RunInv.step (h : RunInv p4 tr s) (hstep : step p4 s op = some (r, s'))
    (hvalid : ValidOp p4 s op) : RunInv p4 (tr ++ [⟨s, op, r, s'⟩]) s' := by
  have hlog : ∀ x ∈ s.freeLog, ¬ RefersAsTable p4 x.2 x.1 ∧ ∀ virt, IsPage virt →
      RefersAsPage p4 x.2 x.1 virt → MappedBy (tr ++ [⟨s, op, r, s'⟩]) virt x.1 := by
    intro x hx
    obtain ⟨htable, hpage⟩ := h.log x hx
    exact ⟨htable, fun v hv href => (hpage v hv href).mono _⟩
  cases op with
  | map virt phys flags answers =>
    obtain ⟨⟨r₁, s₁⟩, hmap, heq⟩ := map_eq_some_iff.mp hstep
    obtain ⟨rfl, rfl⟩ := Prod.mk.inj heq
    obtain ⟨r₂, s₂, hmap', hsame, hout⟩ := mapPage_spec h.inv hvalid.1 hvalid.2
    obtain ⟨rfl, rfl⟩ := Prod.mk.inj (some.inj (hmap.symm.trans hmap'))
    rw [← hsame] at hlog
    -- a call of `map_page` frees nothing, so the log is as before
    cases hout with
    | ok _ _ hinv hpath haway =>
      refine ⟨?_, hlog, fun hno => ?_⟩
      · rwa [mapping_concat]
      · exact pruned_of_mapped (h.pruned hno.of_concat.1) hpath haway
    | alreadyMapped _ hinv htree =>
      refine ⟨?_, hlog, fun hno => ?_⟩
      · rwa [mapping_concat]
      · intro q hnil hne hlen hsome
        rw [htree q (by omega)] at hsome
        obtain ⟨i, hi⟩ := h.pruned hno.of_concat.1 q hnil hne hlen hsome
        exact ⟨i, by rw [htree (q ++ [i]) (by simp; omega)]; exact hi⟩
    | outOfMemory _ _ hinv =>
      refine ⟨?_, hlog, fun hno => absurd rfl hno.of_concat.2⟩
      rwa [mapping_concat]
  | unmap virt =>
    obtain ⟨⟨r₁, s₁⟩, hunmap, heq⟩ := map_eq_some_iff.mp hstep
    obtain ⟨rfl, rfl⟩ := Prod.mk.inj heq
    obtain ⟨r₂, s₂, hunmap', hout⟩ := unmapPage_spec h.inv hvalid
    obtain ⟨rfl, rfl⟩ := Prod.mk.inj (some.inj (hunmap.symm.trans hunmap'))
    cases hout with
    | notMapped _ =>
      refine ⟨?_, hlog, fun hno => h.pruned hno.of_concat.1⟩
      rw [mapping_concat]
      exact h.inv
    | @ok f _ hM hinv hpruned hextends =>
      have hmapping : mapping (tr ++ [⟨s, .unmap virt, .unmapped (.ok f), s₁⟩]) =
          update (mapping tr) virt none := mapping_concat tr _
      refine ⟨?_, ?_, fun hno => hpruned (h.pruned hno.of_concat.1)⟩
      · rwa [hmapping]
      · -- the frames given back now: what still names one, the map names too
        obtain ⟨new, hnew, hsafe⟩ := hextends
        intro x hx
        rw [hnew, mem_append] at hx
        rcases hx with hx | hx
        · exact hlog x hx
        obtain ⟨htable, hpage⟩ := hsafe x hx
        refine ⟨htable, fun v hv href => mappedBy_of_mapping ?_⟩
        rw [hmapping]
        exact hpage v hv href

theorem runInv_of_run (hempty : Empty p4 s₀) (hrun : Run (step p4) s₀ tr s)
    (hvalid : ∀ e ∈ tr, ValidOp p4 e.pre e.op) : RunInv p4 tr s := by
  refine Run.invariant_of_guard ?_ ?_
    hrun (Run.guard_of_forall_mem hvalid)
  · refine ⟨hempty.inv, ?_, ?_⟩
    · intro x hx
      rw [hempty.noFree] at hx
      cases hx
    · intro _ q hnil _ _ hsome
      rw [hempty.tree_eq, if_neg hnil] at hsome
      exact absurd rfl hsome
  · intro tr s op r s' hinv hstep hG
    exact hinv.step hstep hG

/-! ## The tables of mapped pages -/

/-- In a tree without empty tables every table has a page below it. -/
theorem Pruned.exists_page_below (h : Pruned T) (n : Nat) :
    ∀ π : List (Fin 512), π ≠ [] → π.length + n = 4 → T π ≠ none →
      ∃ v, IsPage v ∧ π <+: path v ∧ T (path v) ≠ none := by
  -- downwards by levels: a table has an entry, and at the bottom a path is a page
  induction n with
  | zero =>
    intro π _ hlen hsome
    obtain ⟨a, b, c, d, rfl⟩ : ∃ a b c d, π = [a, b, c, d] := by
      match π, hlen with
      | [a, b, c, d], _ => exact ⟨a, b, c, d, rfl⟩
    obtain ⟨v, hv, hpath⟩ := exists_page a b c d
    exact ⟨v, hv, hpath ▸ prefix_refl _, hpath.symm ▸ hsome⟩
  | succ n ih =>
    intro π hnil hlen hsome
    obtain ⟨i, hi⟩ := h π hnil hnil (by omega) hsome
    obtain ⟨v, hv, hpre, hpage⟩ := ih (π ++ [i]) (by simp) (by simp; omega) hi
    exact ⟨v, hv, (prefix_append π [i]).trans hpre, hpage⟩

/-- `f` is an intermediate table on the walk of a page. -/
def OnWalk (p4 : Word) (s : PageTables) (virt f : Word) : Prop :=
  ∃ k, 0 < k ∧ k < 4 ∧ tree p4 s.mem ((path virt).take k) = some f

theorem mem_frames_iff (inv : Inv p4 M s) (hpruned : Pruned (tree p4 s.mem)) (f : Word) :
    f ∈ s.frames ↔ ∃ virt, IsPage virt ∧ M virt ≠ none ∧ OnWalk p4 s virt f := by
  rw [inv.held]
  constructor
  · rintro ⟨π, hnil, hlen, hf⟩
    have hsome : tree p4 s.mem π ≠ none := by
      rw [hf]
      exact some_ne_none f
    obtain ⟨v, hv, hpre, hpage⟩ := hpruned.exists_page_below (4 - π.length) π hnil (by omega) hsome
    refine ⟨v, hv, inv.pages v hv ▸ hpage, π.length, ?_, hlen, ?_⟩
    · exact length_pos_iff.mpr hnil
    · rw [← prefix_iff_eq_take.mp hpre, hf]
  · rintro ⟨v, -, -, k, hpos, hlt, hf⟩
    have hlen : ((path v).take k).length = k := by
      rw [length_take, length_path]
      omega
    refine ⟨(path v).take k, ?_, by omega, hf⟩
    intro hnil
    rw [hnil] at hlen
    simp at hlen
    omega

/-! ## The refinement -/

/-- What the page table guarantees after a run, with the map of its history. -/
structure RefinesMap (p4 : Word) (tr : List PageStep) (s : PageTables) : Prop where
  /-- `map_page` returns, and how it ends is decided by the map and by whether
      the tables missing on the walk can be allocated. -/
  map_result : ∀ virt phys flags answers, MapInput virt phys flags → Fresh p4 s answers →
    ∃ r s', mapPage p4 s virt phys flags answers = some (r, s') ∧
      (r = .ok () ↔ mapping tr virt = none ∧ CanAllocate (missingTables p4 s virt) answers) ∧
      (r = .error .alreadyMapped ↔ mapping tr virt ≠ none) ∧
      (r = .error .outOfMemory ↔
        mapping tr virt = none ∧ ¬ CanAllocate (missingTables p4 s virt) answers)
  /-- `unmap_page` returns the frame last mapped, or `NotMapped` when there is none. -/
  unmap_result : ∀ virt, IsPage virt → ∃ r s', unmapPage p4 s virt = some (r, s') ∧
    (∀ f, r = .ok f ↔ mapping tr virt = some f) ∧
    (r = .error .notMapped ↔ mapping tr virt = none)
  /-- `translate` is the mapped frame plus the offset in the page. -/
  translate_eq : ∀ virt : Word, virt.toNat < 2 ^ 48 → translate p4 s.mem virt =
    some ((mapping tr (pageOf virt)).map fun f => f + virt % pageSize)
  /-- A call on one page leaves the translation of the others alone. -/
  other_pages : ∀ e ∈ tr, ∀ virt : Word, virt.toNat < 2 ^ 48 → pageOf virt ≠ e.op.page →
    translate p4 e.post.mem virt = translate p4 e.pre.mem virt
  /-- When a table frame is given back, no table entry refers to it; a P1 entry
      does only if that very frame was mapped as a page. -/
  freed : ∀ x ∈ s.freeLog, ¬ RefersAsTable p4 x.2 x.1 ∧
    ∀ virt, IsPage virt → RefersAsPage p4 x.2 x.1 virt → MappedBy tr virt x.1
  /-- If no call ran out of memory, the frames held are the tables on the walks
      of the mapped pages. -/
  held : NoOutOfMemory tr → ∀ f,
    f ∈ s.frames ↔ ∃ virt, IsPage virt ∧ mapping tr virt ≠ none ∧ OnWalk p4 s virt f

theorem and_low_bits_eq_mod (virt : Word) : virt &&& 0xFFF#64 = virt % pageSize := by
  apply BitVec.eq_of_toNat_eq
  rw [toNat_and_mask _ _ 12 rfl]
  rfl

theorem Inv.translate_eq (inv : Inv p4 M s) (hv : virt.toNat < 2 ^ 48) :
    translate p4 s.mem virt = some ((M (pageOf virt)).map fun f => f + virt % pageSize) := by
  rw [translate_spec inv hv, and_low_bits_eq_mod]

theorem MapOutcome.result_iff (h : MapOutcome p4 M s virt phys answers r s') :
    (r = .ok () ↔ M virt = none ∧ CanAllocate (missingTables p4 s virt) answers) ∧
    (r = .error .alreadyMapped ↔ M virt ≠ none) ∧ (r = .error .outOfMemory ↔
      M virt = none ∧ ¬ CanAllocate (missingTables p4 s virt) answers) := by
  cases h with
  | ok hM hcan => simp [hM, hcan]
  | alreadyMapped hM => simp [hM]
  | outOfMemory hM hcan => simp [hM, hcan]

theorem UnmapOutcome.result_iff (h : UnmapOutcome p4 M s virt r s') :
    (∀ f, r = .ok f ↔ M virt = some f) ∧ (r = .error .notMapped ↔ M virt = none) := by
  cases h with
  | notMapped hM => simp [hM]
  | ok hM => simp [hM]

theorem record_of_ne (M : Word → Option Word) (op : Op) (r : Res) (h : v ≠ op.page) :
    record M (op, r) v = M v := by
  rcases record_cases M op r with ⟨w, f, flags, answers, rfl, -, hrec⟩ | ⟨w, f, rfl, -, hrec⟩ | hrec
  · rw [hrec]
    exact update_of_ne h _ _
  · rw [hrec]
    exact update_of_ne h _ _
  · rw [hrec]

/-- Every run of `map_page` and `unmap_page` from an empty P4 table, with
    well-formed arguments and an allocator that fails at will and otherwise
    returns unused frames, refines the map of its history. -/
theorem pageTable_refines_map {p4 : Word} {s₀ s : PageTables} {tr : List PageStep}
    (hempty : Empty p4 s₀) (hrun : Run (step p4) s₀ tr s)
    (hvalid : ∀ e ∈ tr, ValidOp p4 e.pre e.op) : RefinesMap p4 tr s := by
  have hfinal := runInv_of_run hempty hrun hvalid
  refine ⟨?_, ?_, fun virt hv => hfinal.inv.translate_eq hv, ?_, hfinal.log, ?_⟩
  · intro virt phys flags answers hin hfresh
    obtain ⟨r, s', hmap, -, hout⟩ := mapPage_spec hfinal.inv hin hfresh
    exact ⟨r, s', hmap, hout.result_iff⟩
  · intro virt hv
    obtain ⟨r, s', hunmap, hout⟩ := unmapPage_spec hfinal.inv hv
    exact ⟨r, s', hunmap, hout.result_iff⟩
  · -- both sides of the step are described by the map of the history up to it
    intro e he virt hv hpage
    obtain ⟨tr₁, hpre, hrun₁, hstep⟩ := hrun.of_mem he
    have hvalid₁ : ∀ e₁ ∈ tr₁, ValidOp p4 e₁.pre e₁.op :=
      fun e₁ he₁ => hvalid e₁ (hpre.subset (mem_append_left _ he₁))
    have hbefore := runInv_of_run hempty hrun₁ hvalid₁
    have hafter := hbefore.step hstep (hvalid e he)
    rw [hbefore.inv.translate_eq hv, hafter.inv.translate_eq hv, mapping_concat,
      Transition.label, record_of_ne _ _ _ hpage]
  · intro hno f
    exact mem_frames_iff hfinal.inv (hfinal.pruned hno) f

/-- Zeroed memory with the P4 table at 0x1000. -/
def zeroed : PageTables where
  mem := fun _ _ => 0#64
  frames := ∅
  freeLog := []

/-- Map a page, which allocates three tables, try to map it again, and unmap it:
    each call with its result and the frames held before it. -/
def mapTwiceUnmap : List (Op × Res × Finset Word) :=
  [(.map 0x400000#64 0x200000#64 .table [some 0x2000#64, some 0x3000#64, some 0x4000#64],
      .mapped (.ok ()), ∅),
    (.map 0x400000#64 0x201000#64 .table [none], .mapped (.error .alreadyMapped),
      {0x4000#64, 0x3000#64, 0x2000#64}),
    (.unmap 0x400000#64, .unmapped (.ok 0x200000#64), {0x4000#64, 0x3000#64, 0x2000#64})]

/-- The refinement applies to that run, which ends with no frame held. -/
theorem pageTable_refines_map_one_page :
    ∃ tr s, Empty 0x1000#64 zeroed ∧ Run (step 0x1000#64) zeroed tr s ∧
      (tr.map fun e => (e.op, e.res, e.pre.frames)) = mapTwiceUnmap ∧ s.frames = ∅ ∧
      (∀ e ∈ tr, ValidOp 0x1000#64 e.pre e.op) ∧ RefinesMap 0x1000#64 tr s := by
  have hempty : Empty 0x1000#64 zeroed := ⟨fun _ => Entry.isPresent_zero, rfl, rfl⟩
  have hexec : (exec (step 0x1000#64) zeroed (mapTwiceUnmap.map Prod.fst)).map
      (fun q => (q.1.map fun e => (e.op, e.res, e.pre.frames), q.2.frames)) =
      some (mapTwiceUnmap, ∅) := by
    decide +kernel
  obtain ⟨⟨tr, s⟩, hq, heq⟩ := map_eq_some_iff.mp hexec
  obtain ⟨hsteps, hframes⟩ := Prod.mk.inj heq
  have hrun := exec_run _ _ _ hq
  have hvalid : ∀ e ∈ tr, ValidOp 0x1000#64 e.pre e.op := by
    intro e he
    have hmem : (e.op, e.res, e.pre.frames) ∈ mapTwiceUnmap := by
      rw [← hsteps]
      exact mem_map_of_mem he
    simp only [mapTwiceUnmap, mem_cons, Prod.mk.injEq, not_mem_nil, or_false] at hmem
    rcases hmem with ⟨hop, -, hheld⟩ | ⟨hop, -, -⟩ | ⟨hop, -, -⟩
    · rw [hop]
      refine ⟨⟨⟨by decide, by decide⟩, by decide, by decide, by decide, by decide⟩,
        by decide, ?_, ?_⟩
      · rw [hheld]
        simp
      · simp [pageSize]
    · rw [hop]
      exact ⟨⟨⟨by decide, by decide⟩, by decide, by decide, by decide, by decide⟩,
        by decide, fun f hf => by simp at hf, fun f hf => by simp at hf⟩
    · rw [hop]
      exact ⟨by decide, by decide⟩
  exact ⟨tr, s, hempty, hrun, hsteps, hframes, hvalid, pageTable_refines_map hempty hrun hvalid⟩

end OpenOS.Memory.PageTable
