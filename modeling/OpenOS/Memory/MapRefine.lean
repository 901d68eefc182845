/-
  `map_page` in memory does what it does on an address space.

  `Vm.space` forgets where the tables lie: what is left is the entry at the end
  of each path and the free frames.  While the tables form a tree and none of
  them is a free frame, each level of `map_page` is one `Space.enter`.
-/

import OpenOS.Memory.FrameRefine
import OpenOS.Memory.PageTree
import OpenOS.Memory.SpaceMap

namespace OpenOS.Memory

open Function OpenOS.Base OpenOS.Base.Comp List Option FrameAlloc RadixTree Finset

/-! ## The allocator -/

/-- The region lies on page boundaries and in physical memory, so that every
    frame of it is a frame. -/
structure FrameAlloc.Ready (s : FrameAlloc) : Prop extends s.WellFormed where
  aligned : s.frameRegionStart.toNat % 4096 = 0
  bounded : s.frameRegionEnd.toNat ≤ 2 ^ 52

variable {s : FrameAlloc}

theorem FrameAlloc.Ready.isFrame (hs : s.Ready) (hf : f ∈ s.available) : PageTable.IsFrame f := by
  obtain ⟨j, hj, rfl⟩ := (mem_regionFrames hs.sized).mp
    (available_subset hs.sized hf)
  have haddr := toNat_frameAddr hs.sized hj
  have hsized := hs.sized
  have hbounded := hs.bounded
  have haligned := hs.aligned
  unfold FrameAlloc.RegionSized at hsized
  constructor
  · omega
  · apply BitVec.eq_of_toNat_eq
    rw [BitVec.toNat_umod, haddr]
    show (s.frameRegionStart.toNat + j * 4096) % 4096 = 0
    omega

theorem FrameAlloc.Ready.allocFrame (p : Profile) (hs : s.Ready) :
    (s.available = ∅ ∧ ∃ s', s.allocFrame p = some (none, s') ∧ s'.available = ∅ ∧ s'.Ready ∧
        s'.frameRegionStart = s.frameRegionStart) ∨
      ∃ (h : s.available.Nonempty) (s' : FrameAlloc),
        s.allocFrame p = some (some (s.available.min' h), s') ∧
          s'.available = s.available.erase (s.available.min' h) ∧ s'.Ready ∧
          s'.frameRegionStart = s.frameRegionStart := by
  obtain ⟨r, s', halloc, hstep, hwf, hstart⟩ := allocFrame_refines p hs.toWellFormed
  have hready : s'.Ready := by
    have hend := hs.bounded
    have hsized := hs.sized
    have hsized' := hwf.sized
    unfold FrameAlloc.RegionSized at hsized hsized'
    rw [hstart] at hsized'
    exact ⟨hwf, by rw [hstart]; exact hs.aligned, by omega⟩
  rw [FirstFit.step] at hstep
  by_cases hne : s.available.Nonempty
  · rw [dif_pos hne] at hstep
    obtain ⟨hr, havail⟩ := Prod.mk.inj (some.inj hstep)
    obtain rfl := FirstFit.Res.allocated.inj hr
    exact .inr ⟨hne, s', halloc, havail.symm, hready, hstart⟩
  rw [dif_neg hne] at hstep
  obtain ⟨hr, havail⟩ := Prod.mk.inj (some.inj hstep)
  obtain rfl := FirstFit.Res.allocated.inj hr
  have hempty := not_nonempty_iff_eq_empty.mp hne
  exact .inl ⟨hempty, s', halloc, havail ▸ hempty, hready, hstart⟩

namespace PageTable

/-! ## The entries of memory -/

/-- The entry at the end of a path of up to four indices. -/
def entryAt (p4 : Word) (mem : PhysMem) : Entries := fun ρ =>
  if ρ.length ≤ 4 then
    ρ.getLast?.bind fun i => (tree p4 mem ρ.dropLast).map fun a => mem a i
  else none

theorem entryAt_concat (hπ : π.length < 4) (i : Fin 512) :
    entryAt p4 mem (π ++ [i]) = (tree p4 mem π).map fun a => mem a i := by
  rw [entryAt, if_pos (by rw [length_append, length_singleton]; omega)]
  simp

theorem entryAt_of_table (hπ : π.length < 4) (ha : tree p4 mem π = some a) (i : Fin 512) :
    entryAt p4 mem (π ++ [i]) = some (mem a i) := by
  rw [entryAt_concat hπ, ha, map_some]

theorem bind_frame_entryAt (hnil : ρ ≠ []) (hρ : ρ.length ≤ 4) :
    (entryAt p4 mem ρ).bind Entry.frame = tree p4 mem ρ := by
  obtain ⟨π, i, rfl⟩ : ∃ π i, ρ = π ++ [i] :=
    ⟨ρ.dropLast, ρ.getLast hnil, (dropLast_concat_getLast hnil).symm⟩
  rw [length_append, length_singleton] at hρ
  have hwalk : tree p4 mem (π ++ [i]) = (tree p4 mem π).bind fun a => (mem a i).frame :=
    walk_concat _ _ _ _
  rw [entryAt_concat (by omega), hwalk]
  cases tree p4 mem π with
  | none => rfl
  | some a => rfl

theorem coherent_entryAt (p4 : Word) (mem : PhysMem) : (entryAt p4 mem).Coherent where
  root v := by
    rfl
  below_level {v k} hk hk4 := by
    have hlen := length_level (v := v) (Nat.le_of_lt hk4)
    rw [level_succ hk4, entryAt_concat (by omega), bind_frame_entryAt _ (by omega)]
    · cases tree p4 mem (level v k) with
      | none => rfl
      | some a => rfl
    · intro h
      rw [h, length_nil] at hlen
      omega

theorem translate_eq_phys (p4 : Word) (mem : PhysMem) (v : Word) :
    translate p4 mem v = (entryAt p4 mem).phys v := by
  have h1 : entryAt p4 mem (level v 1) = some (mem p4 (p4Idx v)) :=
    entryAt_of_table (by simp) (tree_nil p4 mem) _
  have hnext : ∀ {k a}, 1 ≤ k → k < 4 → (entryAt p4 mem (level v k)).bind Entry.frame = some a →
      entryAt p4 mem (level v (k + 1)) = some (mem a (levelIdx v (k + 1))) := by
    intro k a hk hk4 ha
    have hlen := length_level (v := v) (Nat.le_of_lt hk4)
    rw [bind_frame_entryAt (by intro h; rw [h, length_nil] at hlen; omega) (by omega)] at ha
    rw [level_succ hk4]
    exact entryAt_of_table (by omega) ha _
  have hE := coherent_entryAt p4 mem
  cases hf4 : (mem p4 (p4Idx v)).frame with
  | none =>
    rw [hE.phys_of_leaf (by decide) (by decide) h1 hf4]
    simp [translate, leafPhys, hf4]
  | some l3 =>
    have h2 := hnext (k := 1) (by decide) (by decide) (by rw [h1]; exact hf4)
    obtain ⟨hp4, -⟩ := Entry.present_of_frame hf4
    cases hf3 : (mem l3 (p3Idx v)).frame with
    | none =>
      rw [hE.phys_of_leaf (by decide) (by decide) h2 hf3]
      simp only [translate, leafPhys, hf4, hp4, levelIdx]
      cases hp3 : (mem l3 (p3Idx v)).isPresent with
      | false => rfl
      | true =>
        rw [Entry.isHuge_of_frame_eq_none hp3 hf3]
        rfl
    | some l2 =>
      have h3 := hnext (k := 2) (by decide) (by decide) (by rw [h2]; exact hf3)
      obtain ⟨hp3, hh3⟩ := Entry.present_of_frame hf3
      cases hf2 : (mem l2 (p2Idx v)).frame with
      | none =>
        rw [hE.phys_of_leaf (by decide) (by decide) h3 hf2]
        simp only [translate, leafPhys, hf4, hp4, hf3, hp3, hh3, levelIdx]
        cases hp2 : (mem l2 (p2Idx v)).isPresent with
        | false => rfl
        | true =>
          rw [Entry.isHuge_of_frame_eq_none hp2 hf2]
          rfl
      | some l1 =>
        have h4 := hnext (k := 3) (by decide) (by decide) (by rw [h3]; exact hf2)
        obtain ⟨hp2, hh2⟩ := Entry.present_of_frame hf2
        rw [Entries.phys_of_page h4]
        simp only [translate, hf4, hp4, hf3, hp3, hh3, hf2, hp2, hh2]
        rfl

/-! ## Writing memory -/

section Write

variable {π : List (Fin 512)}

theorem entryAt_long (hq : 4 < q.length) : entryAt p4 mem q = none := by
  rw [entryAt, if_neg (by omega)]

/-- A path is empty, has at most four indices and a last one, or is too long. -/
theorem path_cases (q : List (Fin 512)) :
    q = [] ∨ (∃ σ j, σ.length < 4 ∧ q = σ ++ [j]) ∨ 4 < q.length := by
  rcases eq_nil_or_concat q with rfl | ⟨σ, j, rfl⟩
  · exact .inl rfl
  by_cases hσ : σ.length < 4
  · exact .inr (.inl ⟨σ, j, hσ, concat_eq_append⟩)
  · refine .inr (.inr ?_)
    rw [length_concat]
    omega

/-- Writing an entry, when the tables stay where they are. -/
theorem entryAt_setEntry (hisTree : RadixTree.IsTree (links mem) p4 4) (hπ : π.length < 4)
    (ha : tree p4 mem π = some a)
    (hsame : ∀ q : List (Fin 512), q.length < 4 → tree p4 (mem.setEntry a i e) q = tree p4 mem q) :
    entryAt p4 (mem.setEntry a i e) = update (entryAt p4 mem) (π ++ [i]) (some e) := by
  funext q
  rcases path_cases q with rfl | ⟨σ, j, hσ, rfl⟩ | hlong
  · rw [update_of_ne (by simp)]
    rfl
  · rw [entryAt_concat hσ, hsame σ hσ]
    by_cases hq : σ ++ [j] = π ++ [i]
    · obtain ⟨rfl, hj⟩ := append_inj' hq rfl
      obtain rfl : j = i := by simpa using hj
      rw [update_self, ha, map_some, setEntry_apply, if_pos ⟨rfl, rfl⟩]
    rw [update_of_ne hq, entryAt_concat hσ]
    cases hb : tree p4 mem σ with
    | none => rfl
    | some b =>
      have hne : ¬ (b = a ∧ j = i) := by
        rintro ⟨rfl, rfl⟩
        exact hq (by rw [hisTree σ π b hσ hπ hb ha])
      rw [map_some, map_some, setEntry_apply, if_neg hne]
  · have hne : q ≠ π ++ [i] := by
      rintro rfl
      rw [length_append, length_singleton] at hlong
      omega
    rw [update_of_ne hne, entryAt_long hlong, entryAt_long hlong]

/-- An entry that leads where it led moves no table. -/
theorem links_setEntry_of_frame (h : e.frame = (mem a i).frame) :
    links (mem.setEntry a i e) = links mem := by
  funext b j
  rw [links_setEntry, set_apply]
  split
  · rename_i hbj
    rw [hbj.1, hbj.2, h]
    rfl
  · rfl

theorem tree_setLeaf (hisTree : RadixTree.IsTree (links mem) p4 4) (hπ : π.length = 3)
    (ha : tree p4 mem π = some a) (hq : q.length < 4) :
    tree p4 (mem.setEntry a i e) q = tree p4 mem q := by
  rw [tree, links_setEntry]
  refine walk_set_of_not_isPrefix hisTree (by omega) ha (by omega) ?_
  intro hpre
  have := hpre.length_le
  rw [length_append, length_singleton] at this
  omega

/-! ### A new table -/

theorem tree_fill (hfresh : ∀ π : List (Fin 512), π.length < 4 → tree p4 mem π ≠ some f)
    (hq : q.length ≤ 4) : tree p4 (update mem f content) q = tree p4 mem q := by
  refine walk_congr ?_ hq
  intro π a hπ ha
  have hne : a ≠ f := by
    rintro rfl
    exact hfresh π hπ ha
  funext j
  rw [links, update_of_ne hne, links]

section

variable (hisTree : RadixTree.IsTree (links mem) p4 4)
  (hfresh : ∀ π : List (Fin 512), π.length < 4 → tree p4 mem π ≠ some f) (hπ : π.length < 3)
include hisTree hfresh hπ

/-- A table hung behind an entry that led nowhere. -/
theorem tree_hang (ha : tree p4 mem π = some a) (hnone : tree p4 mem (π ++ [i]) = none)
    (hframe : e.frame = some f) (hcontent : π.length + 1 < 3 → ∀ j, (content j).frame = none)
    (hq : q.length < 4) : tree p4 (PhysMem.setEntry (update mem f content) a i e) q =
      update (tree p4 mem) (π ++ [i]) (some f) q := by
  have hfill : ∀ q : List (Fin 512), q.length ≤ 4 →
      tree p4 (update mem f content) q = tree p4 mem q := fun q hq => tree_fill hfresh hq
  have hne : a ≠ f := fun h => hfresh π (by omega) (h ▸ ha)
  have hlen : (π ++ [i]).length = π.length + 1 := by simp
  have htree : RadixTree.IsTree (links (update mem f content)) p4 3 := by
    intro ρ σ b hρ hσ hwρ hwσ
    rw [← tree, hfill ρ (by omega)] at hwρ
    rw [← tree, hfill σ (by omega)] at hwσ
    exact hisTree ρ σ b (by omega) (by omega) hwρ hwσ
  rw [tree, links_setEntry, hframe,
    walk_set htree hπ ((hfill π (by omega)).trans ha) ?_ ?_ (by omega), update_apply, update_apply]
  · split
    · rfl
    · exact hfill q (by omega)
  · intro _ j
    refine walk_concat_of_none ?_ j
    rw [← tree, hfill _ (by omega), hnone]
  · intro h b hb j
    cases hb
    rw [set_apply, if_neg fun h => hne h.1.symm, links, update_self]
    exact hcontent h j

theorem entryAt_hang (ha : tree p4 mem π = some a) (hnone : tree p4 mem (π ++ [i]) = none)
    (hframe : e.frame = some f) (hcontent : π.length + 1 < 3 → ∀ j, (content j).frame = none) :
    entryAt p4 (PhysMem.setEntry (update mem f content) a i e) =
      (entryAt p4 mem).hang (π ++ [i]) e content := by
  have htree := fun {q} hq => tree_hang (q := q) hisTree hfresh hπ ha hnone hframe hcontent hq
  have hne : a ≠ f := fun h => hfresh π (by omega) (h ▸ ha)
  funext q
  rcases path_cases q with rfl | ⟨σ, j, hσ, rfl⟩ | hlong
  · rw [Entries.hang_other _ _ _ (by simp) (by simp)]
    rfl
  · rw [entryAt_concat hσ, htree hσ]
    by_cases hq : σ ++ [j] = π ++ [i]
    · obtain ⟨rfl, hj⟩ := append_inj' hq rfl
      obtain rfl : j = i := by simpa using hj
      rw [Entries.hang_self, update_of_ne (by simp), ha, map_some,
        setEntry_apply, if_pos ⟨rfl, rfl⟩]
    by_cases hσρ : σ = π ++ [i]
    · rw [hσρ, Entries.hang_child, update_self, map_some, setEntry_apply,
        if_neg fun h => hne h.1.symm, update_self]
    rw [Entries.hang_other _ _ _ hq (by rwa [dropLast_concat]), update_of_ne hσρ, entryAt_concat hσ]
    cases hb : tree p4 mem σ with
    | none => rfl
    | some b =>
      have hbf : b ≠ f := fun h => hfresh σ hσ (h ▸ hb)
      have hba : ¬ (b = a ∧ j = i) := by
        rintro ⟨rfl, rfl⟩
        exact hq (by rw [hisTree σ π b hσ (by omega) hb ha])
      rw [map_some, map_some, setEntry_apply, if_neg hba, update_of_ne hbf]
  · have hlen : (π ++ [i]).length = π.length + 1 := by simp
    rw [entryAt_long hlong, Entries.hang_other, entryAt_long hlong]
    · intro h
      rw [h] at hlong
      omega
    · intro h
      have := congrArg length h
      rw [length_dropLast] at this
      omega

end

end Write

/-! ## The address space of a state -/

namespace Vm

def space (p4 : Word) (s : Vm) : Space := ⟨entryAt p4 s.mem, s.alloc.available⟩

/-- The tables form a tree, and none of them is a free frame. -/
structure Ok (p4 : Word) (s : Vm) : Prop where
  isTree : RadixTree.IsTree (links s.mem) p4 4
  ready : s.alloc.Ready
  apart : ∀ π a, π.length < 4 → tree p4 s.mem π = some a → a ∉ s.alloc.available

theorem Ok.valid {s : Vm} (h : s.Ok p4) : (s.space p4).Valid :=
  ⟨coherent_entryAt p4 s.mem, fun _ hf => h.ready.isFrame hf⟩

theorem Ok.fresh {s : Vm} (h : s.Ok p4) (hf : f ∈ s.alloc.available) :
    ∀ π : List (Fin 512), π.length < 4 → tree p4 s.mem π ≠ some f :=
  fun π hπ ht => h.apart π f hπ ht hf

/-! ### Tables given by their entries -/

/-- The memory with these entries, and 0 elsewhere. -/
def ofEntries (es : List (Word × Fin 512 × Entry)) : PhysMem := fun a i =>
  ((es.find? fun x => x.1 = a ∧ x.2.1 = i).map fun x => x.2.2).getD 0#64

/-- The tables at a depth, with the paths to them. -/
def tablesOf (p4 : Word) (es : List (Word × Fin 512 × Entry)) : Nat → List (List (Fin 512) × Word)
  | 0 => [([], p4)]
  | n + 1 => (tablesOf p4 es n).flatMap fun x => es.filterMap fun y =>
      if y.1 = x.2 then y.2.2.frame.map fun f => (x.1 ++ [y.2.1], f) else none

/-- All tables. -/
def allTables (p4 : Word) (es : List (Word × Fin 512 × Entry)) : List (List (Fin 512) × Word) :=
  (List.range 4).flatMap (tablesOf p4 es)

theorem ofEntries_cases (es : List (Word × Fin 512 × Entry)) (a : Word) (i : Fin 512) :
    ofEntries es a i = 0#64 ∨ (a, i, ofEntries es a i) ∈ es := by
  unfold ofEntries
  cases hfind : es.find? fun x => x.1 = a ∧ x.2.1 = i with
  | none => exact .inl rfl
  | some x =>
    obtain ⟨b, j, e⟩ := x
    have hkey := find?_some hfind
    simp only [decide_eq_true_eq] at hkey
    obtain ⟨rfl, rfl⟩ := hkey
    exact .inr (mem_of_find?_eq_some hfind)

theorem mem_tablesOf (h : tree p4 (ofEntries es) π = some a) : (π, a) ∈ tablesOf p4 es π.length := by
  induction π using reverseRecOn generalizing a with
  | nil =>
    cases h
    exact List.mem_singleton_self _
  | append_singleton π i ih =>
    obtain ⟨b, hb, hframe⟩ := bind_eq_some_iff.mp ((walk_concat _ _ π i).symm.trans h)
    rw [length_append, length_singleton, tablesOf]
    refine mem_flatMap.mpr ⟨(π, b), ih hb, ?_⟩
    have hframe : (ofEntries es b i).frame = some a := hframe
    rcases ofEntries_cases es b i with hzero | hmem
    · rw [hzero, Entry.frame_zero] at hframe
      cases hframe
    · exact mem_filterMap.mpr ⟨_, hmem, by rw [if_pos rfl, hframe, map_some]⟩

theorem entry_ofEntries (h : entryAt p4 (ofEntries es) ρ = some e) :
    e = 0#64 ∨ ∃ a i, (a, i, e) ∈ es := by
  rcases path_cases ρ with rfl | ⟨σ, j, hσ, rfl⟩ | hlong
  · cases h
  · obtain ⟨a, -, rfl⟩ := map_eq_some_iff.mp ((entryAt_concat hσ j).symm.trans h)
    exact (ofEntries_cases es a j).imp_right fun hmem => ⟨a, j, hmem⟩
  · cases (entryAt_long hlong).symm.trans h

/-- It is enough to look at the tables that the entries lead to. -/
theorem ok_of_entries {alloc : FrameAlloc} (hready : alloc.Ready)
    (htree : ∀ x ∈ allTables p4 es, ∀ y ∈ allTables p4 es, x.2 = y.2 → x.1 = y.1)
    (hlow : ∀ x ∈ allTables p4 es, x.2.toNat < alloc.frameRegionStart.toNat) :
    Ok p4 ⟨ofEntries es, alloc⟩ := by
  have hall : ∀ π a, π.length < 4 → tree p4 (ofEntries es) π = some a → (π, a) ∈ allTables p4 es :=
    fun π a hπ ha => mem_flatMap.mpr ⟨π.length, List.mem_range.mpr hπ, mem_tablesOf ha⟩
  refine ⟨fun ρ σ a hρ hσ hwρ hwσ => ?_, hready, fun π a hπ ha hfree => ?_⟩
  · exact htree _ (hall ρ a hρ hwρ) _ (hall σ a hσ hwσ) rfl
  · have hlt := hlow _ (hall π a hπ ha)
    obtain ⟨j, hj, rfl⟩ :=
      (FrameAlloc.mem_regionFrames hready.sized).mp (FrameAlloc.available_subset hready.sized hfree)
    rw [FrameAlloc.toNat_frameAddr hready.sized hj] at hlt
    omega

/-- Only the tables `T` and free frames are written, and frames are only taken. -/
structure Writes (T : Set Word) (s s' : Vm) : Prop where
  mem : ∀ b, b ∉ T → b ∉ s.alloc.available → s'.mem b = s.mem b
  free : s'.alloc.available ⊆ s.alloc.available
  region : s'.alloc.frameRegionStart = s.alloc.frameRegionStart

variable {s' : Vm}

section Step

variable {s : Vm}

theorem Ok.patch (h : s.Ok p4) (hπ : π.length < 4) (ha : tree p4 s.mem π = some a)
    (he : e.frame = (s.mem a i).frame) :
    Ok p4 { s with mem := s.mem.setEntry a i e } ∧
      space p4 { s with mem := s.mem.setEntry a i e } =
        ⟨update (s.space p4).entry (π ++ [i]) (some e), (s.space p4).free⟩ ∧
      Writes {a} s { s with mem := s.mem.setEntry a i e } := by
  have hlinks := links_setEntry_of_frame he
  refine ⟨⟨?_, h.ready, ?_⟩, ?_, ⟨?_, Finset.Subset.refl _, rfl⟩⟩
  · rw [hlinks]
    exact h.isTree
  · intro ρ b hρ hb
    refine h.apart ρ b hρ ?_
    rwa [tree, hlinks] at hb
  · rw [space, entryAt_setEntry h.isTree hπ ha fun q _ => by rw [tree, hlinks, tree]]
    rfl
  · intro b hb _
    exact update_of_ne hb _ _

theorem Ok.leaf (h : s.Ok p4) (ha : tree p4 s.mem (level w 3) = some a) (e : Entry) :
    Ok p4 { s with mem := s.mem.setEntry a (p1Idx w) e } ∧
      space p4 { s with mem := s.mem.setEntry a (p1Idx w) e } = (s.space p4).setLeaf w e ∧
      Writes {a} s { s with mem := s.mem.setEntry a (p1Idx w) e } := by
  have hlen : (level w 3).length = 3 := length_level (by decide)
  have htree : ∀ q : List (Fin 512), q.length < 4 →
      tree p4 (s.mem.setEntry a (p1Idx w) e) q = tree p4 s.mem q :=
    fun q hq => tree_setLeaf h.isTree hlen ha hq
  refine ⟨⟨?_, h.ready, ?_⟩, ?_, ⟨?_, Finset.Subset.refl _, rfl⟩⟩
  · intro ρ σ b hρ hσ hwρ hwσ
    exact h.isTree ρ σ b hρ hσ ((htree ρ hρ).symm.trans hwρ) ((htree σ hσ).symm.trans hwσ)
  · intro ρ b hρ hb
    exact h.apart ρ b hρ ((htree ρ hρ).symm.trans hb)
  · rw [space, entryAt_setEntry h.isTree (by omega) ha htree]
    rfl
  · intro b hb _
    exact update_of_ne hb _ _

/-- A new table hung behind an entry that led nowhere. -/
theorem Ok.hang (h : s.Ok p4) (hπ : π.length < 3) (ha : tree p4 s.mem π = some a)
    (hnone : tree p4 s.mem (π ++ [i]) = none) (hf : f ∈ s.alloc.available)
    {content : Fin 512 → Entry} (hframe : e.frame = some f)
    (hcontent : π.length + 1 < 3 → ∀ j, (content j).frame = none) {alloc : FrameAlloc}
    (halloc : alloc.available = s.alloc.available.erase f) (hready : alloc.Ready)
    (hregion : alloc.frameRegionStart = s.alloc.frameRegionStart)
    (hs' : s' = ⟨PhysMem.setEntry (update s.mem f content) a i e, alloc⟩) :
    s'.Ok p4 ∧ s'.space p4 =
        ⟨(s.space p4).entry.hang (π ++ [i]) e content, (s.space p4).free.erase f⟩ ∧
      tree p4 s'.mem (π ++ [i]) = some f ∧ Writes {a} s s' := by
  subst hs'
  have hfresh := h.fresh hf
  have htree : ∀ q : List (Fin 512), q.length < 4 →
      tree p4 (PhysMem.setEntry (update s.mem f content) a i e) q =
        update (tree p4 s.mem) (π ++ [i]) (some f) q :=
    fun q hq => tree_hang h.isTree hfresh hπ ha hnone hframe hcontent hq
  have hlen : (π ++ [i]).length = π.length + 1 := by simp
  refine ⟨⟨?_, hready, ?_⟩, ?_, ?_, ⟨?_, ?_, hregion⟩⟩
  · refine h.isTree.of_update htree ?_
    intro _ g hg ρ hρ
    exact some.inj hg ▸ hfresh ρ hρ
  · intro ρ b hρ hb
    rw [htree ρ hρ, update_apply] at hb
    rw [halloc, mem_erase]
    split at hb
    · exact fun hmem => hmem.1 (some.inj hb).symm
    · exact fun hmem => h.apart ρ b hρ hb hmem.2
  · rw [space, entryAt_hang h.isTree hfresh hπ ha hnone hframe hcontent]
    rw [halloc]
    rfl
  · rw [htree _ (by omega), update_self]
  · intro b hb hfree
    have hbf : b ≠ f := fun h => hfree (h ▸ hf)
    show update _ a _ b = _
    rw [update_of_ne hb, update_of_ne hbf]
  · rw [halloc]
    exact erase_subset _ _

end Step

/-! ## Running map_page -/

section Run

variable {s : Vm}

theorem expectFrame_apply (hs : s.alloc.Ready) :
    (s.alloc.available = ∅ ∧ ∃ s', (expectFrame p : Comp ε Vm Word) s = .error .panic s') ∨
      ∃ (h : s.alloc.available.Nonempty) (alloc : FrameAlloc),
        (expectFrame p : Comp ε Vm Word) s =
            .ok (s.alloc.available.min' h) { s with alloc := alloc } ∧
          alloc.available = s.alloc.available.erase (s.alloc.available.min' h) ∧ alloc.Ready ∧
          alloc.frameRegionStart = s.alloc.frameRegionStart := by
  rcases hs.allocFrame p with ⟨hempty, s', halloc, -⟩ | ⟨hne, s', halloc, hspec⟩
  · refine .inl ⟨hempty, { s with alloc := s' }, ?_⟩
    have hrun : (allocFrame p : Comp ε Vm (Option Word)) s = .ok none { s with alloc := s' } := by
      rw [allocFrame, halloc]
    rw [expectFrame, bind_of_ok hrun]
    rfl
  refine .inr ⟨hne, s', ?_, hspec⟩
  have hrun : (allocFrame p : Comp ε Vm (Option Word)) s =
      .ok (some (s.alloc.available.min' hne)) { s with alloc := s' } := by
    rw [allocFrame, halloc]
  rw [expectFrame, bind_of_ok hrun]
  rfl

theorem fillTable_apply (h : ∀ i, (content i).isSome = true) :
    (fillTable table content : Comp ε Vm Unit) s =
      .ok () { s with mem := update s.mem table fun i => (content i).getD 0#64 } := by
  exact if_pos h

/-- `newTable` takes a frame and hangs it, empty, behind the entry. -/
theorem newTable_apply (hs : s.alloc.Ready) :
    (s.alloc.available = ∅ ∧ ∃ s', (newTable p a i : Comp ε Vm Word) s = .error .panic s') ∨
      ∃ (h : s.alloc.available.Nonempty) (alloc : FrameAlloc),
        (newTable p a i : Comp ε Vm Word) s = .ok (s.alloc.available.min' h)
            ⟨PhysMem.setEntry (update s.mem (s.alloc.available.min' h) fun _ => 0#64) a i
              (Entry.pack (s.alloc.available.min' h) .table), alloc⟩ ∧
          alloc.available = s.alloc.available.erase (s.alloc.available.min' h) ∧ alloc.Ready ∧
          alloc.frameRegionStart = s.alloc.frameRegionStart := by
  rcases expectFrame_apply hs with ⟨hempty, s', hrun⟩ | ⟨hne, alloc, hrun, hspec⟩
  · refine .inl ⟨hempty, s', ?_⟩
    rw [newTable, bind_of_error hrun]
  refine .inr ⟨hne, alloc, ?_, hspec⟩
  have hframe := hs.isFrame (s.alloc.available.min'_mem hne)
  rw [newTable, bind_of_ok hrun, bind_of_ok (fillTable_apply fun _ => rfl),
    Entry.setAddr_of_isFrame hframe]
  rfl

/-- `split_huge_page` does so with the pages of the 2 MiB page. -/
theorem splitHugePage_apply (hs : s.alloc.Ready) :
    ((s.alloc.available = ∅ ∨ ¬ (s.mem a i).Splittable) ∧
        ∃ s', (splitHugePage p a i : Comp ε Vm Word) s = .error .panic s') ∨
      ∃ (h : s.alloc.available.Nonempty) (alloc : FrameAlloc), (s.mem a i).Splittable ∧
        (splitHugePage p a i : Comp ε Vm Word) s = .ok (s.alloc.available.min' h)
            ⟨PhysMem.setEntry (update s.mem (s.alloc.available.min' h)
                fun j => ((s.mem a i).splitEntry j).getD 0#64) a i
              (Entry.pack (s.alloc.available.min' h) (s.mem a i).splitFlags), alloc⟩ ∧
          alloc.available = s.alloc.available.erase (s.alloc.available.min' h) ∧ alloc.Ready ∧
          alloc.frameRegionStart = s.alloc.frameRegionStart := by
  have hread : (entry a i : Comp ε Vm Entry) s = .ok (s.mem a i) s := rfl
  rcases expectFrame_apply hs with ⟨hempty, s', hrun⟩ | ⟨hne, alloc, hrun, hspec⟩
  · refine .inl ⟨.inl hempty, s', ?_⟩
    rw [splitHugePage, bind_of_ok hread, bind_of_error hrun]
  have hframe := hs.isFrame (s.alloc.available.min'_mem hne)
  by_cases hsplit : (s.mem a i).Splittable
  · refine .inr ⟨hne, alloc, hsplit, ?_, hspec⟩
    rw [splitHugePage, bind_of_ok hread, bind_of_ok hrun,
      bind_of_ok (fillTable_apply hsplit), Entry.setAddr_of_isFrame hframe]
    rfl
  refine .inl ⟨.inr hsplit, { s with alloc := alloc }, ?_⟩
  have hfill : (fillTable (s.alloc.available.min' hne) (s.mem a i).splitEntry :
      Comp ε Vm Unit) { s with alloc := alloc } = .error .panic { s with alloc := alloc } := by
    exact if_neg hsplit
  rw [splitHugePage, bind_of_ok hread, bind_of_ok hrun, bind_of_error hfill]

/-- A level: patch the entry, then walk, split or create. -/
theorem enter_apply (canSplit : Bool) :
    (enter p canSplit a i : Comp ε Vm Word) s =
      (if (s.mem a i).isPresent then
        if canSplit && (s.mem a i).isHuge then splitHugePage p a i
        else unwrap (s.mem a i).frame
      else newTable p a i) { s with mem := s.mem.setEntry a i (s.mem a i).patchUser } := by
  have hread : (entry a i : Comp ε Vm Entry) s = .ok (s.mem a i) s := rfl
  have hwrite : (setEntry a i (some (s.mem a i).patchUser) : Comp ε Vm Unit) s =
      .ok () { s with mem := s.mem.setEntry a i (s.mem a i).patchUser } := rfl
  have hread' : (entry a i : Comp ε Vm Entry)
      { s with mem := s.mem.setEntry a i (s.mem a i).patchUser } =
      .ok (s.mem a i).patchUser { s with mem := s.mem.setEntry a i (s.mem a i).patchUser } := by
    show EStateM.Result.ok (s.mem.setEntry a i (s.mem a i).patchUser a i) _ = _
    rw [setEntry_apply, if_pos ⟨rfl, rfl⟩]
  rw [enter, bind_of_ok hread, bind_of_ok hwrite, bind_of_ok hread',
    Entry.isPresent_patchUser, Entry.isHuge_patchUser, Entry.frame_patchUser]

end Run

theorem setEntry_self (mem : PhysMem) (a : Word) (i : Fin 512) :
    mem.setEntry a i (mem a i) = mem := by
  unfold PhysMem.setEntry
  rw [update_eq_self, update_eq_self]

/-- What is written first to an entry that is written again does not matter. -/
theorem setEntry_update_setEntry (mem : PhysMem) (i : Fin 512) (e e' : Entry)
    (content : Fin 512 → Entry) :
    PhysMem.setEntry (update (mem.setEntry a i e') f content) a i e =
      PhysMem.setEntry (update mem f content) a i e := by
  funext b j
  rw [setEntry_apply, setEntry_apply]
  split
  · rfl
  rename_i hbj
  rw [update_apply, update_apply]
  split
  · rfl
  · rw [setEntry_apply, if_neg hbj]

/-- The run `x` from `s` is one step of the address space: it panics if there
    is none, and otherwise leads to the space that it gives. -/
def Simulates {α : Type} (p4 : Word) (T : Set Word) (s : Vm)
    (x : EStateM.Result (Stop ε) Vm α) (step : Option Space) (Q : α → Vm → Prop) : Prop :=
  match step with
  | none => ∃ s', x = .error .panic s'
  | some S' => ∃ r s', x = .ok r s' ∧ s'.Ok p4 ∧ s'.space p4 = S' ∧ Writes T s s' ∧ Q r s'

theorem enter_simulates {s : Vm} (h : s.Ok p4) (hπ : π.length < 3)
    (ha : tree p4 s.mem π = some a) (hcan : canSplit = decide (π.length = 2)) :
    Simulates p4 {a} s ((enter p canSplit a i : Comp ε Vm Word) s) ((s.space p4).enter (π ++ [i]))
      fun t s' => tree p4 s'.mem (π ++ [i]) = some t := by
  have hentry : (s.space p4).entry (π ++ [i]) = some (s.mem a i) := entryAt_of_table (by omega) ha i
  have hlen : (π ++ [i]).length = π.length + 1 := by simp
  rw [enter_apply, Space.enter, hentry, map_some]
  dsimp only
  rw [Entry.isPresent_patchUser, Entry.isHuge_patchUser]
  cases hpresent : (s.mem a i).isPresent with
  | false =>
    rw [Entry.patchUser_of_not_present hpresent, setEntry_self]
    rcases newTable_apply h.ready with
      ⟨hempty, s', hrun⟩ | ⟨hne, alloc, hrun, halloc, hready, hregion⟩
    · have hnone : (s.space p4).hang (π ++ [i]) .table (fun _ => 0#64) = none := by
        rw [Space.hang, dif_neg]
        exact not_nonempty_iff_eq_empty.mpr hempty
      rw [hnone]
      exact ⟨s', hrun⟩
    have hf := s.alloc.available.min'_mem hne
    obtain ⟨hok, hspace, htree, hwrites⟩ := h.hang hπ ha
      (tree_eq_none_of_not_present ha hpresent) hf (Space.frame_table (h.ready.isFrame hf))
      (fun _ _ => Entry.frame_zero) halloc hready hregion rfl
    have hsome : (s.space p4).hang (π ++ [i]) .table (fun _ => 0#64) = some _ := dif_pos hne
    rw [hsome]
    exact ⟨_, _, hrun, hok, hspace, hwrites, htree⟩
  | true =>
    rw [if_pos rfl, if_pos rfl]
    cases hhuge : (s.mem a i).isHuge with
    | false =>
      obtain ⟨hok, hspace, hwrites⟩ := h.patch (by omega) ha
        (Entry.frame_patchUser (s.mem a i))
      rw [Bool.and_false, Entry.frame_eq_some_of_present hpresent hhuge]
      refine ⟨_, _, rfl, hok, hspace, hwrites, ?_⟩
      have htree : ∀ q, tree p4 (s.mem.setEntry a i (s.mem a i).patchUser) q =
          tree p4 s.mem q := by
        intro q
        rw [tree, links_setEntry_of_frame (Entry.frame_patchUser _), tree]
      show tree p4 (s.mem.setEntry a i (s.mem a i).patchUser) (π ++ [i]) = _
      rw [htree, tree_concat ha, Entry.frame_eq_some_of_present hpresent hhuge]
    | true =>
      have hframe : (s.mem a i).frame = none := by simp [Entry.frame, hhuge]
      rw [Bool.and_true, if_pos rfl, hframe]
      by_cases h2 : π.length = 2
      · rw [hcan, decide_eq_true h2, if_pos rfl]
        -- the page is split with the patched flags
        have hpatched : s.mem.setEntry a i (s.mem a i).patchUser a i =
            (s.mem a i).patchUser := by rw [setEntry_apply, if_pos ⟨rfl, rfl⟩]
        have hsplitRun := splitHugePage_apply (ε := ε) (p := p) (a := a) (i := i)
          (s := { s with mem := s.mem.setEntry a i (s.mem a i).patchUser }) h.ready
        dsimp only at hsplitRun
        rw [hpatched] at hsplitRun
        rcases hsplitRun with ⟨hwhy, s', hrun⟩ | ⟨hne, alloc, hsplit, hrun, halloc, hready, hregion⟩
        · have hnone : (if (π ++ [i]).length = 3 ∧ (s.mem a i).patchUser.Splittable then
              (s.space p4).hang (π ++ [i]) (s.mem a i).patchUser.splitFlags
                fun j => ((s.mem a i).patchUser.splitEntry j).getD 0#64
              else none) = none := by
            rcases hwhy with hempty | hnot
            · split
              · rw [Space.hang, dif_neg]
                exact not_nonempty_iff_eq_empty.mpr hempty
              · rfl
            · rw [if_neg fun h => hnot h.2]
          rw [hnone]
          exact ⟨s', hrun⟩
        · have hf := s.alloc.available.min'_mem hne
          have hne' : a ≠ s.alloc.available.min' hne := fun heq =>
            h.fresh hf π (by omega) (heq ▸ ha)
          rw [setEntry_update_setEntry s.mem] at hrun
          obtain ⟨hok, hspace, htree, hwrites⟩ := h.hang hπ ha
            ((tree_concat ha i).trans hframe) hf
            (Space.frame_splitFlags (h.ready.isFrame hf) hpresent)
            (fun hlt => by omega) halloc hready hregion rfl
          rw [if_pos ⟨by omega, hsplit⟩]
          have hsome : (s.space p4).hang (π ++ [i]) (s.mem a i).patchUser.splitFlags
              (fun j => ((s.mem a i).patchUser.splitEntry j).getD 0#64) = some _ := dif_pos hne
          rw [hsome]
          exact ⟨_, _, hrun, hok, hspace, hwrites, htree⟩
      · rw [hcan, decide_eq_false h2, if_neg Bool.false_ne_true, if_neg fun h => h2 (by omega)]
        exact ⟨_, rfl⟩

/-- One step after the other.  The second may write what the first may, and
    what was free before it. -/
theorem Simulates.bind {s : Vm} {f : α → Comp ε Vm β}
    {step : Option Space} {next : Space → Option Space}
    (hx : Simulates p4 T s (x s) step Q)
    (hf : ∀ r s', s'.Ok p4 → Writes T s s' → step = some (s'.space p4) → Q r s' →
      ∃ T'', (∀ b ∈ T'', b ∈ T' ∨ b ∈ s.alloc.available) ∧
        Simulates p4 T'' s' (f r s') (next (s'.space p4)) R)
    (hT : T ⊆ T') : Simulates p4 T' s ((x >>= f) s) (step.bind next) R := by
  cases step with
  | none =>
    obtain ⟨s', hrun⟩ := hx
    exact ⟨s', bind_of_error hrun f⟩
  | some S' =>
    obtain ⟨r, s', hrun, hok, hspace, hwrites, hQ⟩ := hx
    obtain ⟨T'', hT'', hnext⟩ := hf r s' hok hwrites (by rw [hspace]) hQ
    rw [bind_some, ← hspace, bind_of_ok hrun]
    cases hstep : next (s'.space p4) with
    | none =>
      rwa [hstep] at hnext
    | some S'' =>
      rw [hstep] at hnext
      obtain ⟨r', s'', hrun', hok', hspace', hwrites', hR⟩ := hnext
      refine ⟨r', s'', hrun', hok', hspace', ⟨?_, ?_, ?_⟩, hR⟩
      · intro b hb hfree
        have hb'' : b ∉ T'' := fun h => (hT'' b h).elim hb hfree
        rw [hwrites'.mem b hb'' fun h => hfree (hwrites.free h),
          hwrites.mem b (fun h => hb (hT h)) hfree]
      · exact hwrites'.free.trans hwrites.free
      · exact hwrites'.region.trans hwrites.region

/-- The tables on the path of an address. -/
def pathTables (p4 : Word) (mem : PhysMem) (w : Word) : Set Word :=
  { a | ∃ k ≤ 3, tree p4 mem (level w k) = some a }

/-- A level brings in no table but one that was free. -/
theorem table_of_enter {s : Vm} (h : s.Ok p4) (hk : 1 ≤ k) (hk3 : k ≤ 3)
    (henter : (s.space p4).enter (level w k) = some (s'.space p4)) :
    ∀ b ∈ pathTables p4 s'.mem w, b ∈ pathTables p4 s.mem w ∨ b ∈ s.alloc.available := by
  rintro b ⟨m, hm3, hb⟩
  by_cases hm : m = 0
  · subst hm
    exact .inl ⟨0, by decide, hb⟩
  have hnil : level w m ≠ [] := by
    intro h
    have := length_level (v := w) (show m ≤ 4 by omega)
    rw [h, length_nil] at this
    omega
  have hlen : (level w m).length ≤ 4 := by rw [length_level (by omega)]; omega
  rw [← bind_frame_entryAt hnil hlen] at hb
  rcases (Space.entered_of_enter henter).tableOf h.valid hk hk3 (by omega) hm3 hb with hold | hfree
  · left
    refine ⟨m, hm3, ?_⟩
    rwa [← bind_frame_entryAt hnil hlen]
  · exact .inr hfree

theorem mapPageUser_simulates {s : Vm} (h : s.Ok p4)
    (hleaf : Entry.setAddr phys flags = some leaf) :
    Simulates p4 (pathTables p4 s.mem w) s
      ((mapPageUser p p4 w phys flags : Comp ε Vm Unit) s) ((s.space p4).map w leaf)
      fun _ _ => True := by
  rw [Space.map_eq_bind]
  refine (enter_simulates h (by simp) (tree_nil p4 s.mem) (by simp)).bind ?_ ?_
  · intro l3 s₁ h₁ _ henter₁ ht₁
    refine ⟨pathTables p4 s₁.mem w, table_of_enter (k := 1) h (by decide) (by decide) henter₁, ?_⟩
    refine (enter_simulates (π := level w 1) h₁ (by rw [length_level] <;> decide) ht₁
      (by rw [length_level] <;> decide)).bind ?_ ?_
    · intro l2 s₂ h₂ _ henter₂ ht₂
      refine ⟨pathTables p4 s₂.mem w, table_of_enter (k := 2) h₁ (by decide) (by decide) henter₂, ?_⟩
      refine (enter_simulates (π := level w 2) h₂ (by rw [length_level] <;> decide) ht₂
        (by rw [length_level] <;> decide)).bind ?_ ?_
      · intro l1 s₃ h₃ _ henter₃ ht₃
        refine ⟨pathTables p4 s₃.mem w, table_of_enter (k := 3) h₂ (by decide) (by decide) henter₃, ?_⟩
        obtain ⟨hok, hspace, hwrites⟩ := h₃.leaf ht₃ leaf
        rw [hleaf]
        refine ⟨(), _, rfl, hok, hspace, ⟨?_, hwrites.free, hwrites.region⟩, trivial⟩
        intro b hb hfree
        refine hwrites.mem b ?_ hfree
        rintro rfl
        exact hb ⟨3, by decide, ht₃⟩
      · rintro b rfl
        exact ⟨2, by decide, ht₂⟩
    · rintro b rfl
      exact ⟨1, by decide, ht₁⟩
  · intro b hb
    rw [Set.mem_singleton_iff.mp hb]
    exact ⟨0, by decide, tree_nil p4 s.mem⟩

/-! ## map_page returns no error -/

section NoErr

variable (p : Profile)

theorem noErr_unwrap (o : Option α) : NoErr (unwrap o : Comp ε Vm α) := by
  cases o with
  | none => exact noErr_panic
  | some a => exact noErr_pure a

theorem noErr_allocFrame : NoErr (allocFrame p : Comp ε Vm (Option Word)) := by
  intro s e s' h
  unfold allocFrame at h
  split at h
  · cases h
  · cases h

theorem noErr_expectFrame : NoErr (expectFrame p : Comp ε Vm Word) := by
  refine (noErr_allocFrame p).bind fun o => ?_
  cases o with
  | none => exact noErr_panic
  | some f => exact noErr_pure f

theorem noErr_setEntry (table : Word) (i : Fin 512) (o : Option Entry) :
    NoErr (setEntry table i o : Comp ε Vm Unit) := by
  cases o with
  | none => exact noErr_panic
  | some e => exact fun _ _ _ h => nomatch h

theorem noErr_fillTable (table : Word) (content : Fin 512 → Option Entry) :
    NoErr (fillTable table content : Comp ε Vm Unit) := by
  intro s e s' h
  unfold fillTable at h
  split at h
  · cases h
  · cases h

theorem noErr_entry (table : Word) (i : Fin 512) : NoErr (entry table i : Comp ε Vm Entry) :=
  fun _ _ _ h => nomatch h

theorem noErr_newTable (table : Word) (i : Fin 512) : NoErr (newTable p table i : Comp ε Vm Word) :=
  (noErr_expectFrame p).bind fun f => (noErr_fillTable f _).bind fun _ =>
    (noErr_setEntry table i _).bind fun _ => noErr_pure f

theorem noErr_splitHugePage (table : Word) (i : Fin 512) :
    NoErr (splitHugePage p table i : Comp ε Vm Word) :=
  (noErr_entry table i).bind fun _ => (noErr_expectFrame p).bind fun f =>
    (noErr_fillTable f _).bind fun _ => (noErr_setEntry table i _).bind fun _ => noErr_pure f

theorem noErr_enter (canSplit : Bool) (table : Word) (i : Fin 512) :
    NoErr (enter p canSplit table i : Comp ε Vm Word) := by
  refine (noErr_entry table i).bind fun _ => (noErr_setEntry table i _).bind fun _ =>
    (noErr_entry table i).bind fun e => ?_
  split
  · split
    · exact noErr_splitHugePage p table i
    · exact noErr_unwrap _
  · exact noErr_newTable p table i

theorem noErr_mapPageUser (cr3 virt phys : Word) (flags : PageTableFlags) :
    NoErr (mapPageUser p cr3 virt phys flags : Comp ε Vm Unit) :=
  (noErr_enter p _ _ _).bind fun _ => (noErr_enter p _ _ _).bind fun _ =>
    (noErr_enter p _ _ _).bind fun _ => noErr_setEntry _ _ _

end NoErr

end Vm

end PageTable

end OpenOS.Memory
