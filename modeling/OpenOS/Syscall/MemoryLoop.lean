/-
  The loops of the memory system calls on an address space.

  While the tables of the active page table form a tree of frames that are not
  free, the loop of sys_munmap is `mapAll` and that of sys_mmap is `fill`; both
  write only tables of the tree and frames that were free.
-/

import OpenOS.Memory.PageLoop
import OpenOS.Syscall.Memory

namespace OpenOS.Memory.PageTable

open Function OpenOS.Base OpenOS.Base.Comp Entry List BitVec Finset Space
open BitVec (ofNat)

/-- The tables of a page table. -/
def tables (p4 : Word) (mem : PhysMem) : Set Word :=
  { a | ∃ π : List (Fin 512), π.length < 4 ∧ tree p4 mem π = some a }

theorem exists_level (π : List (Fin 512)) (hπ : π.length ≤ 4) : ∃ v, π = level v π.length := by
  have hpad : ∃ i4 i3 i2 i1, π <+: [i4, i3, i2, i1] := by
    match π, hπ with
    | [], _ => exact ⟨0, 0, 0, 0, nil_prefix⟩
    | [a], _ => exact ⟨a, 0, 0, 0, [0, 0, 0], rfl⟩
    | [a, b], _ => exact ⟨a, b, 0, 0, [0, 0], rfl⟩
    | [a, b, c], _ => exact ⟨a, b, c, 0, [0], rfl⟩
    | [a, b, c, d], _ => exact ⟨a, b, c, d, [], rfl⟩
  obtain ⟨i4, i3, i2, i1, hpre⟩ := hpad
  obtain ⟨v, -, hv⟩ := exists_page i4 i3 i2 i1
  refine ⟨v, ?_⟩
  rw [level, hv]
  exact prefix_iff_eq_take.mp hpre

namespace Vm

variable {s s' : Vm}
  {flags : PageTableFlags}

theorem pathTables_subset (mem : PhysMem) (w : Word) : pathTables p4 mem w ⊆ tables p4 mem := by
  rintro a ⟨k, hk, ha⟩
  exact ⟨level w k, by rw [length_level] <;> omega, ha⟩

/-- Mapping brings in no table but one that was free. -/
theorem tables_of_changed (h : (s.space p4).Changed Q D n (s'.space p4)) :
    ∀ b ∈ tables p4 s'.mem, b ∈ tables p4 s.mem ∨ b ∈ s.alloc.available := by
  rintro b ⟨π, hπ, hb⟩
  by_cases hnil : π = []
  · subst hnil
    exact .inl ⟨[], by simp, hb⟩
  obtain ⟨v, hv⟩ := exists_level π (by omega)
  have hpos : 1 ≤ π.length := length_pos_iff.mpr hnil
  rw [← bind_frame_entryAt hnil (by omega), hv] at hb
  rcases h.tableOf v π.length hpos (by omega) b hb with hold | hfree
  · left
    refine ⟨π, hπ, ?_⟩
    rwa [← bind_frame_entryAt hnil (by omega), hv]
  · exact .inr hfree

/-! ## The loop over the pages -/

theorem pageVirt_apply (h : virt.toNat + i * 4096 < 2 ^ 64) (s : Vm) :
    (pageVirt p virt i : Comp ε Vm Word) s = .ok (virt + ofNat 64 i * pageSize) s := by
  have hpage : pageSize.toNat = 4096 := rfl
  have hi : (ofNat 64 i).toNat = i := by
    rw [toNat_ofNat]
    omega
  have hmul : (ofNat 64 i * pageSize).toNat = i * 4096 := by
    rw [toNat_mul, hpage]
    omega
  have hoffset : p.mul (ofNat 64 i) pageSize = some (ofNat 64 i * pageSize) :=
    p.mul_eq_some_of_lt (by rw [hpage]; omega)
  rw [pageVirt, hoffset]
  show (unwrap (p.add virt (ofNat 64 i * pageSize)) : Comp ε Vm Word) s = _
  rw [p.add_eq_some_of_lt (by omega)]
  rfl

/-- A range that ends below 2^64 is visited page by page. -/
theorem forPages_eq (h : virt.toNat + n * 4096 ≤ 2 ^ 64) :
    forPages p virt n body = (pages virt n).forM body := by
  have hbody : ∀ l : List Nat, (∀ i ∈ l, i < n) →
      (l.forM fun i => do
        let page ← pageVirt p virt i
        body page) = (l.map fun i => virt + ofNat 64 i * pageSize).forM body := by
    intro l hl
    induction l with
    | nil => rfl
    | cons i l ih =>
      obtain ⟨hi, hrest⟩ := forall_mem_cons.mp hl
      have hone : (do
          let page ← pageVirt p virt i
          body page) = body (virt + ofNat 64 i * pageSize) := by
        funext s
        exact bind_of_ok (pageVirt_apply (by omega) s) body
      show (do
        (do
          let page ← pageVirt p virt i
          body page)
        l.forM _) = (do
        body (virt + ofNat 64 i * pageSize)
        (l.map _).forM body)
      rw [hone, ih hrest]
  exact hbody (List.range n) fun i hi => List.mem_range.mp hi

/-! ## sys_munmap -/

theorem munmapPages_simulates (h : s.Ok p4) (ws : List Word) :
    Simulates p4 (tables p4 s.mem) s (ws.forM (munmapPage p p4) s)
      (mapAll 0#64 ws (s.space p4)) fun _ _ => True := by
  induction ws generalizing s with
  | nil => exact ⟨(), s, rfl, h, rfl, ⟨fun _ _ _ => rfl, Finset.Subset.refl _, rfl⟩, trivial⟩
  | cons w ws ih =>
    have hleaf : setAddr 0#64 .empty = some 0#64 := by decide
    refine (mapPageUser_simulates h hleaf).bind ?_
      (pathTables_subset s.mem w)
    intro _ s' h' _ hmap _
    exact ⟨tables p4 s'.mem, tables_of_changed (map_changed h.valid hmap), ih h'⟩

/-! ## sys_mmap -/

theorem Ok.takeZeroed (h : s.Ok p4) (hf : f ∈ s.alloc.available) {alloc : FrameAlloc}
    (halloc : alloc.available = s.alloc.available.erase f) (hready : alloc.Ready)
    (hs' : s' = ⟨update s.mem f fun _ => 0#64, alloc⟩) :
    s'.Ok p4 ∧ s'.space p4 = (s.space p4).take f ∧ tables p4 s'.mem = tables p4 s.mem := by
  subst hs'
  have hfresh := h.fresh hf
  have htree : ∀ q : List (Fin 512), q.length ≤ 4 →
      tree p4 (update s.mem f fun _ => 0#64) q = tree p4 s.mem q :=
    fun q hq => tree_fill hfresh hq
  refine ⟨⟨?_, hready, ?_⟩, ?_, ?_⟩
  · intro ρ σ b hρ hσ hwρ hwσ
    exact h.isTree ρ σ b hρ hσ ((htree ρ (by omega)).symm.trans hwρ)
      ((htree σ (by omega)).symm.trans hwσ)
  · intro ρ b hρ hb
    rw [htree ρ (by omega)] at hb
    rw [halloc]
    exact fun hmem => h.apart ρ b hρ hb (Finset.mem_of_mem_erase hmem)
  · have hentry : entryAt p4 (update s.mem f fun _ => 0#64) = entryAt p4 s.mem := by
      funext q
      rcases path_cases q with rfl | ⟨σ, j, hσ, rfl⟩ | hlong
      · rfl
      · rw [entryAt_concat hσ, entryAt_concat hσ, htree σ (by omega)]
        cases hb : tree p4 s.mem σ with
        | none => rfl
        | some b =>
          have hne : b ≠ f := fun heq => hfresh σ hσ (heq ▸ hb)
          rw [Option.map_some, Option.map_some, update_of_ne hne]
      · rw [entryAt_long hlong, entryAt_long hlong]
    rw [space, hentry]
    rw [halloc]
    rfl
  · ext b
    refine exists_congr fun π => and_congr_right fun hπ => ?_
    rw [htree π (by omega)]

theorem Writes.trans (h : Writes T s s₁) (h' : Writes T' s₁ s₂)
    (hT : ∀ b ∈ T', b ∈ T ∨ b ∈ s.alloc.available) : Writes T s s₂ where
  mem b hb hfree := by
    rw [h'.mem b (fun hb' => (hT b hb').elim hb hfree) fun hb' => hfree (h.free hb'),
      h.mem b hb hfree]
  free := h'.free.trans h.free
  region := h'.region.trans h.region

/-- How one page of sys_mmap's loop ends: without a frame; in a panic; or with
    the lowest free frame mapped, zeroed and no longer free. -/
theorem mmapPage_cases (h : s.Ok p4) (flags : PageTableFlags) (w : Word) :
    (s.alloc.available = ∅ ∧ ∃ s', mmapPage p p4 flags w s = .error (.err .outOfMemory) s' ∧
      s'.Ok p4 ∧ s'.space p4 = s.space p4 ∧ Writes ∅ s s') ∨
    ∃ hne : s.alloc.available.Nonempty,
      (((s.space p4).take (s.alloc.available.min' hne)).map w
          (pack (s.alloc.available.min' hne) flags) = none ∧
        ∃ s', mmapPage p p4 flags w s = .error .panic s') ∨
      ∃ s', ((s.space p4).take (s.alloc.available.min' hne)).map w
          (pack (s.alloc.available.min' hne) flags) = some (s'.space p4) ∧
        mmapPage p p4 flags w s = .ok () s' ∧ s'.Ok p4 ∧ Writes (tables p4 s.mem) s s' ∧
        s'.mem (s.alloc.available.min' hne) = (fun _ => 0#64) ∧
        s.alloc.available.min' hne ∉ s'.alloc.available ∧
        s.alloc.available.min' hne ∉ tables p4 s'.mem := by
  rcases h.ready.allocFrame p with ⟨hempty, alloc, halloc, havail, hready, hregion⟩ |
    ⟨hne, alloc, halloc, havail, hready, hregion⟩
  · refine .inl ⟨hempty, { s with alloc := alloc }, ?_, ⟨h.isTree, hready, ?_⟩, ?_, ?_⟩
    · have hrun : (allocFrame p : Comp SysError Vm (Option Word)) s =
          .ok none { s with alloc := alloc } := by
        rw [allocFrame, halloc]
      rw [mmapPage, bind_of_ok hrun]
      rfl
    · intro π a hπ ha
      rw [havail]
      exact notMem_empty a
    · show (⟨_, alloc.available⟩ : Space) = ⟨_, s.alloc.available⟩
      rw [havail, hempty]
    · refine ⟨fun _ _ _ => rfl, ?_, hregion⟩
      rw [havail]
      exact empty_subset _
  · refine .inr ⟨hne, ?_⟩
    have hf := s.alloc.available.min'_mem hne
    generalize s.alloc.available.min' hne = f at halloc havail hf ⊢
    have hframe := h.ready.isFrame hf
    have hrun : (allocFrame p : Comp SysError Vm (Option Word)) s =
        .ok (some f) { s with alloc := alloc } := by
      rw [allocFrame, halloc]
    obtain ⟨hok, hspace, htables⟩ := h.takeZeroed hf havail hready rfl
    have hcall : mmapPage p p4 flags w s = mapPageUser p p4 w f flags
        ⟨update s.mem f fun _ => 0#64, alloc⟩ := by
      rw [mmapPage, bind_of_ok hrun]
      exact bind_of_ok (fillTable_apply fun _ => rfl) _
    have hsim := mapPageUser_simulates (ε := SysError) (p := p) (w := w) hok
      (setAddr_of_isFrame hframe flags)
    rw [hcall, ← hspace]
    cases hmap : map (Vm.space p4 _) w (pack f flags) with
    | none =>
      rw [hmap] at hsim
      exact .inl ⟨rfl, hsim⟩
    | some S' =>
      rw [hmap] at hsim
      obtain ⟨⟨⟩, s', hdone, hok', rfl, hwrites, -⟩ := hsim
      have hnot : f ∉ alloc.available := by
        rw [havail]
        exact notMem_erase f _
      have hfirst : Writes (tables p4 s.mem) s ⟨update s.mem f fun _ => 0#64, alloc⟩ := by
        refine ⟨fun b _ hb => update_of_ne ?_ _ _, ?_, hregion⟩
        · rintro rfl
          exact hb hf
        rw [havail]
        exact erase_subset _ _
      have hfresh : f ∉ tables p4 (update s.mem f fun _ => 0#64) := by
        rw [htables]
        rintro ⟨π, hπ, ha⟩
        exact h.fresh hf π hπ ha
      refine .inr ⟨s', rfl, hdone, hok', hfirst.trans hwrites ?_, ?_,
        fun hb => hnot (hwrites.free hb), ?_⟩
      · intro b hb
        left
        rw [← htables]
        exact pathTables_subset _ w hb
      · rw [hwrites.mem f (fun hb => hfresh (pathTables_subset _ w hb)) hnot]
        exact update_self _ _ _
      · intro hb
        exact (tables_of_changed (map_changed hok.valid hmap) f hb).elim hfresh hnot

/-- The frames behind pages that have been mapped: all different, taken from
    the free ones, and zero. -/
structure Backed (p4 : Word) (s s' : Vm) (ws fs : List Word) : Prop where
  nodup : fs.Nodup
  fresh : ∀ f ∈ fs, f ∈ s.alloc.available ∧ f ∉ s'.alloc.available
  zeroed : ∀ f ∈ fs, s'.mem f = fun _ => 0#64
  mapped : (ws.map path).Nodup → List.Forall₂ (fun w f => ∀ v, path v = path w →
    (s'.space p4).entry.phys v = some (some (f + (v &&& 0xFFF#64)))) ws fs

/-- How the loop of sys_mmap ends, by how `fill` does. -/
def FillOutcome (p4 : Word) (s : Vm) (ws : List Word)
    (x : EStateM.Result (Stop SysError) Vm PUnit) : Space.Filled → Prop
  | .panic => ∃ s', x = .error .panic s'
  | .outOfMemory S' => ∃ s', x = .error (.err .outOfMemory) s' ∧ s'.Ok p4 ∧ s'.space p4 = S'
  | .done S' => ∃ s', x = .ok () s' ∧ s'.Ok p4 ∧ s'.space p4 = S' ∧
      Writes (tables p4 s.mem) s s' ∧ ∃ fs, Backed p4 s s' ws fs

/-- A page mapped first, and then others. -/
theorem Backed.cons (hrest : Backed p4 s₁ s' ws fs) (hflags : flags.contains .present = true)
    (hf : f ∈ s.alloc.available) (htaken : f ∉ s₁.alloc.available)
    (hwrites : Writes (tables p4 s.mem) s s₁) (hwrites' : Writes (tables p4 s₁.mem) s₁ s')
    (htable : f ∉ tables p4 s₁.mem) (hzero : s₁.mem f = fun _ => 0#64) (hframe : IsFrame f)
    {S : Space} (hmap : S.map w (pack f flags) = some (s₁.space p4))
    (hchanged : (s₁.space p4).Changed Q (Space.pathsOf ws) n (s'.space p4)) :
    Backed p4 s s' (w :: ws) (f :: fs) where
  nodup := List.nodup_cons.mpr ⟨fun hmem => htaken (hrest.fresh f hmem).1, hrest.nodup⟩
  fresh g hg := by
    rcases List.mem_cons.mp hg with rfl | hg
    · exact ⟨hf, fun h => htaken (hwrites'.free h)⟩
    · exact ⟨hwrites.free (hrest.fresh g hg).1, (hrest.fresh g hg).2⟩
  zeroed g hg := by
    rcases List.mem_cons.mp hg with rfl | hg
    · rw [hwrites'.mem g htable htaken, hzero]
    · exact hrest.zeroed g hg
  mapped hnodup := by
    rw [List.map_cons, List.nodup_cons] at hnodup
    refine .cons ?_ (hrest.mapped hnodup.2)
    intro v hv
    have hlater : path v ∉ Space.pathsOf ws := by
      rintro ⟨u, hu, huv⟩
      exact hnodup.1 (List.mem_map.mpr ⟨u, hu, huv.symm.trans hv⟩)
    have hpresent : Entry.isPresent (pack f flags) = true := by
      rw [Entry.isPresent, flags_pack hframe, hflags]
    rw [hchanged.phys v hlater, Space.phys_of_map hmap hv, leafPhys, hpresent,
      addr_pack hframe]
    rfl

theorem mmapPages_simulates (h : s.Ok p4) (hflags : flags.contains .present = true)
    (ws : List Word) : FillOutcome p4 s ws (ws.forM (mmapPage p p4 flags) s)
      (fill flags ws (s.space p4)) := by
  induction ws generalizing s with
  | nil =>
    refine ⟨s, rfl, h, rfl, ⟨fun _ _ _ => rfl, Finset.Subset.refl _, rfl⟩, [], ?_⟩
    exact ⟨nodup_nil, fun f hf => (nomatch hf), fun f hf => (nomatch hf), fun _ => .nil⟩
  | cons w ws ih =>
    have hloop : (w :: ws).forM (mmapPage p p4 flags) =
        (do mmapPage p p4 flags w; ws.forM (mmapPage p p4 flags)) := rfl
    rw [hloop]
    rcases mmapPage_cases h flags w with ⟨hempty, s', hrun, hok, hspace, -⟩ |
      ⟨hne, ⟨hmap, s', hrun⟩ | ⟨s₁, hmap, hrun, hok, hwrites, hzero, htaken, htable⟩⟩
    · rw [fill_of_empty hempty, bind_of_error hrun]
      exact ⟨s', rfl, hok, hspace⟩
    · rw [fill_of_none hne hmap, bind_of_error hrun]
      exact ⟨s', rfl⟩
    rw [fill_of_some hne hmap, bind_of_ok hrun]
    have hf := s.alloc.available.min'_mem hne
    have hnext := ih hok
    have hfirst := take_map_changed h.valid hf hmap
    cases hfill : fill flags ws (s₁.space p4) with
    | panic =>
      rwa [hfill] at hnext
    | outOfMemory S' =>
      rwa [hfill] at hnext
    | done S' =>
      rw [hfill] at hnext
      obtain ⟨s', hdone, hok', rfl, hwrites', fs, hbacked⟩ := hnext
      refine ⟨s', hdone, hok', rfl, hwrites.trans hwrites' (tables_of_changed hfirst),
        s.alloc.available.min' hne :: fs, ?_⟩
      exact hbacked.cons hflags hf htaken hwrites hwrites' htable hzero (h.ready.isFrame hf)
        hmap ((fill_changed hok.valid).1 _ hfill)

/-! ## sys_mprotect -/

/-- `protect_page_user` reaches the P1 entry and nothing else; P4 entries are no
    huge pages. -/
theorem protectPageUser_simulates (h : s.Ok p4) (flags : PageTableFlags)
    (hroot : ¬ (s.space p4).Blocked (level w 1)) :
    Ok p4 { s with mem := protectPageUser p4 w flags s.mem } ∧
      space p4 { s with mem := protectPageUser p4 w flags s.mem } =
        (s.space p4).protect flags w := by
  have hE := coherent_entryAt p4 s.mem
  have hstop : ∀ {k e}, 1 ≤ k → k < 4 → (s.space p4).entry (level w k) = some e →
      e.frame = none → protectPageUser p4 w flags s.mem = s.mem →
      Ok p4 { s with mem := protectPageUser p4 w flags s.mem } ∧
        space p4 { s with mem := protectPageUser p4 w flags s.mem } =
          (s.space p4).protect flags w := by
    intro k e hk hk4 he hframe hmem
    have hnone : (s.space p4).entry (path w) = none :=
      hE.none_below hk (by rw [show entryAt p4 s.mem (level w k) = some e from he]; exact hframe)
        hk4 (by decide)
    rw [hmem, protect, hnone]
    exact ⟨h, rfl⟩
  have hnext : ∀ {k a}, 1 ≤ k → k < 4 → tree p4 s.mem (level w k) = some a →
      (s.space p4).entry (level w (k + 1)) = some (s.mem a (levelIdx w (k + 1))) := by
    intro k a hk hk4 ha
    have hlen := length_level (v := w) (Nat.le_of_lt hk4)
    rw [level_succ hk4]
    exact entryAt_of_table (by omega) ha _
  have htree : ∀ {k a b}, k < 4 → tree p4 s.mem (level w k) = some a →
      (s.mem a (levelIdx w (k + 1))).frame = some b → tree p4 s.mem (level w (k + 1)) = some b := by
    intro k a b hk4 ha hb
    rw [level_succ hk4, tree_concat ha, hb]
  have h1 : (s.space p4).entry (level w 1) = some (s.mem p4 (p4Idx w)) :=
    entryAt_of_table (by simp) (tree_nil p4 s.mem) _
  cases hp4 : (s.mem p4 (p4Idx w)).isPresent with
  | false =>
    refine hstop (by decide) (by decide) h1 (frame_eq_none_of_not_present hp4) ?_
    simp [protectPageUser, hp4]
  | true =>
    have hh4 : (s.mem p4 (p4Idx w)).isHuge = false := by
      by_contra hhuge
      refine hroot ⟨_, h1, hp4, Bool.eq_true_of_not_eq_false hhuge, ?_⟩
      rintro ⟨hlen, -⟩
      rw [length_level (by decide)] at hlen
      omega
    have ht1 := htree (k := 0) (by decide) (tree_nil p4 s.mem)
      (frame_eq_some_of_present hp4 hh4)
    have h2 := hnext (by decide) (by decide) ht1
    cases hf3 : (s.mem (s.mem p4 (p4Idx w)).addr (p3Idx w)).frame with
    | none =>
      refine hstop (by decide) (by decide) h2 hf3 ?_
      simp only [protectPageUser, hp4, not_present_or_huge hf3]
      rfl
    | some l2 =>
      obtain ⟨hp3, hh3⟩ := present_of_frame hf3
      have ht2 := htree (by decide) ht1 (frame_eq_some_of_present hp3 hh3)
      have h3 := hnext (by decide) (by decide) ht2
      simp only [levelIdx] at ht2 h3
      generalize he3 : (s.mem (s.mem p4 (p4Idx w)).addr (p3Idx w)).addr = l2' at ht2 h3
      cases hf2 : (s.mem l2' (p2Idx w)).frame with
      | none =>
        refine hstop (by decide) (by decide) h3 hf2 ?_
        simp only [protectPageUser, hp4, hp3, hh3, he3, not_present_or_huge hf2]
        rfl
      | some l1 =>
        obtain ⟨hp2, hh2⟩ := present_of_frame hf2
        have ht3 := htree (by decide) ht2 (frame_eq_some_of_present hp2 hh2)
        have h4 := hnext (by decide) (by decide) ht3
        have hpage : (s.space p4).entry (path w) =
            some (s.mem (s.mem l2' (p2Idx w)).addr (p1Idx w)) := h4
        have hmem : protectPageUser p4 w flags s.mem =
            s.mem.setEntry (s.mem l2' (p2Idx w)).addr (p1Idx w)
              (reflag flags (s.mem (s.mem l2' (p2Idx w)).addr (p1Idx w))) := by
          simp only [protectPageUser, hp4, hp3, hh3, he3, hp2, hh2, reflag]
          cases (s.mem (s.mem l2' (p2Idx w)).addr (p1Idx w)).isPresent with
          | false => exact (setEntry_self s.mem _ _).symm
          | true => rfl
        rw [hmem, protect, hpage]
        obtain ⟨hok, hspace, -⟩ := h.leaf ht3
          (reflag flags (s.mem (s.mem l2' (p2Idx w)).addr (p1Idx w)))
        exact ⟨hok, hspace⟩

/-- The loop of sys_mprotect is `protectAll`, and always gets to its end. -/
theorem mprotectPages_simulates (h : s.Ok p4) (flags : PageTableFlags)
    (hroot : ∀ v, ¬ (s.space p4).Blocked (level v 1)) (ws : List Word) :
    ∃ s', ws.forM (mprotectPage p4 flags) s = .ok () s' ∧ s'.Ok p4 ∧
      s'.space p4 = protectAll flags ws (s.space p4) := by
  induction ws generalizing s with
  | nil => exact ⟨s, rfl, h, rfl⟩
  | cons w ws ih =>
    obtain ⟨hok, hspace⟩ := protectPageUser_simulates h flags (hroot w)
    have hchanged := protect_changed flags w h.valid
    rw [← hspace] at hchanged
    obtain ⟨s', hrun, hok', hspace'⟩ := ih hok fun v =>
      (hchanged.blocked v 1 (by decide) (by decide)).not.mpr (hroot v)
    refine ⟨s', hrun, hok', ?_⟩
    rw [hspace', hspace]
    rfl

end Vm

end OpenOS.Memory.PageTable
