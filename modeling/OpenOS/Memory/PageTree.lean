/-
  The page table as a radix tree of depth four: paths of up to three indices
  reach tables, paths of four indices reach mapped frames.

  The three ways `map_page` and `unmap_page` write memory (link a new table,
  write a P1 entry, cut off an empty table) each keep the invariant `Inv` and
  change the tree at one path.
-/

import OpenOS.Memory.PageTable

namespace OpenOS.Memory.PageTable

open Function OpenOS.Base Option List Entry RadixTree

/-- Where the entries of the tables point. -/
def links (mem : PhysMem) : RadixTree.Links Word (Fin 512) :=
  fun a i => (mem a i).frame

/-- What a path of indices from P4 leads to. -/
def tree (p4 : Word) (mem : PhysMem) (π : List (Fin 512)) : Option Word := walk (links mem) p4 π

theorem setEntry_apply (mem : PhysMem) (a : Word) (i : Fin 512) (e : Entry) (b : Word)
    (j : Fin 512) : mem.setEntry a i e b j = if b = a ∧ j = i then e else mem b j :=
  update_update_apply mem a i e b j

theorem zeroTable_apply (mem : PhysMem) (f b : Word) (j : Fin 512) :
    mem.zeroTable f b j = if b = f then 0#64 else mem b j := by
  unfold PhysMem.zeroTable
  by_cases hb : b = f
  · rw [hb, update_self, if_pos rfl]
  · rw [update_of_ne hb, if_neg hb]

theorem links_setEntry (mem : PhysMem) (a : Word) (i : Fin 512) (e : Entry) :
    links (mem.setEntry a i e) = set (links mem) a i e.frame := by
  funext b j
  rw [links, setEntry_apply, set_apply]
  split
  · rfl
  · rfl

theorem links_zeroTable (mem : PhysMem) (f : Word) :
    links (mem.zeroTable f) = clear (links mem) f := by
  funext b j
  rw [links, zeroTable_apply, clear_apply]
  split
  · exact frame_zero
  · rfl

/-! ## The invariant -/

structure Inv (p4 : Word) (M : Word → Option Word) (s : PageTables) : Prop where
  isTree : RadixTree.IsTree (links s.mem) p4 4
  /-- No present entry of a table is a huge page. -/
  clean : ∀ π a i, π.length < 4 → tree p4 s.mem π = some a →
    (s.mem a i).isPresent = true → (s.mem a i).isHuge = false
  /-- The frames held are the tables below P4. -/
  held : ∀ f, f ∈ s.frames ↔ ∃ π, π ≠ [] ∧ π.length < 4 ∧ tree p4 s.mem π = some f
  /-- The leaves are the pages of the map. -/
  pages : ∀ v, IsPage v → tree p4 s.mem (path v) = M v

section Primitives

variable {s : PageTables}

theorem tree_nil (p4 : Word) (mem : PhysMem) : tree p4 mem [] = some p4 := rfl

/-- Under the invariant the next table is what the entry's `frame()` says. -/
theorem tree_concat (ha : tree p4 mem π = some a) (i : Fin 512) :
    tree p4 mem (π ++ [i]) = (mem a i).frame :=
  walk_concat_of_some ha i

theorem tree_eq_none_of_not_present (ha : tree p4 mem π = some a)
    (hclear : (mem a i).isPresent = false) : tree p4 mem (π ++ [i]) = none := by
  rw [tree_concat ha, frame_eq_none_of_not_present hclear]

section

variable (inv : Inv p4 M s) (hπ : π.length < 4) (ha : tree p4 s.mem π = some a)
include inv hπ ha

theorem Inv.frame_of_present (hset : (s.mem a i).isPresent = true) :
    (s.mem a i).frame = some (s.mem a i).addr :=
  frame_eq_some_of_present hset (inv.clean π a i hπ ha hset)

theorem Inv.tree_of_present (hset : (s.mem a i).isPresent = true) :
    tree p4 s.mem (π ++ [i]) = some (s.mem a i).addr := by
  rw [tree_concat ha, inv.frame_of_present hπ ha hset]

theorem Inv.isPresent_eq : (s.mem a i).isPresent = (tree p4 s.mem (π ++ [i])).isSome := by
  cases hset : (s.mem a i).isPresent with
  | false => rw [tree_eq_none_of_not_present ha hset, isSome_none]
  | true => rw [inv.tree_of_present hπ ha hset, isSome_some]

end

theorem Inv.not_reached (inv : Inv p4 M s) (hfresh : f ∉ s.frames) (hp4 : f ≠ p4) :
    ∀ π : List (Fin 512), π.length < 4 → tree p4 s.mem π ≠ some f := by
  intro π hπ hf
  by_cases hnil : π = []
  · rw [hnil] at hf
    exact hp4 (some.inj hf).symm
  · exact hfresh ((inv.held f).mpr ⟨π, hnil, hπ, hf⟩)

/-! ### A table added or removed -/

/-- A table added or removed above the leaves changes no page. -/
theorem Inv.pages_of_update (inv : Inv p4 M s) (hπ : π.length < 3)
    (hupdate : ∀ q : List (Fin 512), q.length ≤ 4 →
      tree p4 mem q = update (tree p4 s.mem) (π ++ [i]) c q) :
    ∀ v, IsPage v → tree p4 mem (path v) = M v := by
  intro v hv
  have hne : path v ≠ π ++ [i] := by
    intro h
    have hlen := congrArg length h
    rw [length_path, length_append, length_singleton] at hlen
    omega
  rw [hupdate (path v) (Nat.le_of_eq (length_path v)), update_of_ne hne]
  exact inv.pages v hv

/-- The tables after the change: what the path leads to now, and those that
    other paths led to before. -/
theorem tables_of_update (hπ : π.length < 3) (hupdate : ∀ q : List (Fin 512), q.length ≤ 4 →
      tree p4 mem q = update (tree p4 s.mem) (π ++ [i]) c q) (f : Word) :
    (∃ ρ, ρ ≠ [] ∧ ρ.length < 4 ∧ tree p4 mem ρ = some f) ↔
      c = some f ∨ ∃ ρ, ρ ≠ [] ∧ ρ.length < 4 ∧ ρ ≠ π ++ [i] ∧ tree p4 s.mem ρ = some f := by
  have hlen : (π ++ [i]).length < 4 := by
    rw [length_append, length_singleton]
    omega
  constructor
  · rintro ⟨ρ, hnil, hρ, hf⟩
    rw [hupdate ρ (Nat.le_of_lt hρ), update_apply] at hf
    split at hf
    · exact .inl hf
    · rename_i hne
      exact .inr ⟨ρ, hnil, hρ, hne, hf⟩
  · rintro (hc | ⟨ρ, hnil, hρ, hne, hf⟩)
    · refine ⟨π ++ [i], by simp, hlen, ?_⟩
      rw [hupdate _ (Nat.le_of_lt hlen), update_self, hc]
    · refine ⟨ρ, hnil, hρ, ?_⟩
      rw [hupdate ρ (Nat.le_of_lt hρ), update_of_ne hne, hf]

section

variable (inv : Inv p4 M s)
include inv

section

variable (hπ : π.length < 3)
  (ha : tree p4 s.mem π = some a)
  (hnone : tree p4 s.mem (π ++ [i]) = none)
include hπ ha hnone

/-- Linking a new, zeroed table below a table changes the tree at one path. -/
theorem Inv.tree_link (hfresh : f ∉ s.frames) (hp4 : f ≠ p4)
    (hframe : e.frame = some f) (hq : q.length ≤ 4) :
    tree p4 ((s.mem.zeroTable f).setEntry a i e) q =
      update (tree p4 s.mem) (π ++ [i]) (some f) q := by
  have hunreached := inv.not_reached hfresh hp4
  have hne : a ≠ f := fun h => hunreached π (by omega) (h ▸ ha)
  -- zeroing the new table changes no path, so the memory is still a tree
  have hzero : ∀ q : List (Fin 512), q.length ≤ 4 →
      walk (clear (links s.mem) f) p4 q = tree p4 s.mem q :=
    fun q hq => walk_clear hunreached hq
  have htree : RadixTree.IsTree (clear (links s.mem) f) p4 4 := by
    intro ρ σ b hρ hσ hwρ hwσ
    rw [hzero ρ (by omega)] at hwρ
    rw [hzero σ (by omega)] at hwσ
    exact inv.isTree ρ σ b hρ hσ hwρ hwσ
  have hlen : (π ++ [i]).length = π.length + 1 := by simp
  have hbefore : π.length + 1 < 4 → ∀ j,
      walk (clear (links s.mem) f) p4 (π ++ [i] ++ [j]) = none := by
    intro _ j
    refine walk_concat_of_none ?_ j
    rw [hzero _ (by omega), hnone]
  have hafter : π.length + 1 < 4 → ∀ b, some f = some b → ∀ j,
      set (clear (links s.mem) f) a i (some f) b j = none := by
    intro _ b hb j
    cases hb
    rw [set_apply, if_neg (fun h => hne h.1.symm), clear_apply, if_pos rfl]
  rw [tree, links_setEntry, links_zeroTable, hframe,
    walk_set htree (by omega) ((hzero π (by omega)).trans ha) hbefore hafter hq,
    update_apply, update_apply]
  split
  · rfl
  · exact hzero q hq

theorem Inv.link (hfresh : f ∉ s.frames) (hp4 : f ≠ p4)
    (hhuge : e.isHuge = false) (hframe : e.frame = some f) (s' : PageTables)
    (hmem : s'.mem = (s.mem.zeroTable f).setEntry a i e) (hframes : s'.frames = insert f s.frames) :
    Inv p4 M s' ∧ ∀ q : List (Fin 512), q.length ≤ 4 →
      tree p4 s'.mem q = update (tree p4 s.mem) (π ++ [i]) (some f) q := by
  have hupdate : ∀ q : List (Fin 512), q.length ≤ 4 →
      tree p4 s'.mem q = update (tree p4 s.mem) (π ++ [i]) (some f) q := by
    intro q hq
    rw [hmem]
    exact inv.tree_link hπ ha hnone hfresh hp4 hframe hq
  refine ⟨⟨?_, ?_, ?_, inv.pages_of_update hπ hupdate⟩, hupdate⟩
  · refine inv.isTree.of_update (fun q hq => hupdate q (Nat.le_of_lt hq)) ?_
    intro _ g hg ρ hρ
    exact some.inj hg ▸ inv.not_reached hfresh hp4 ρ hρ
  · -- a table of the new tree is the new one, all zero, or an old one
    intro ρ b j hρ hb hpresent
    rw [hmem, setEntry_apply] at hpresent ⊢
    by_cases hentry : b = a ∧ j = i
    · rwa [if_pos hentry]
    rw [if_neg hentry, zeroTable_apply] at hpresent ⊢
    by_cases hbf : b = f
    · rw [if_pos hbf] at hpresent
      cases hpresent
    rw [if_neg hbf] at hpresent ⊢
    rw [hupdate ρ (by omega), update_apply] at hb
    split at hb
    · exact absurd (some.inj hb).symm hbf
    · exact inv.clean ρ b j hρ hb hpresent
  · intro g
    rw [hframes, Finset.mem_insert, inv.held, tables_of_update hπ hupdate, some.injEq, eq_comm]
    refine or_congr_right (exists_congr fun ρ => and_congr_right fun _ => and_congr_right fun _ => ?_)
    refine ⟨fun hg => ⟨?_, hg⟩, And.right⟩
    rintro rfl
    rw [hnone] at hg
    cases hg

end

theorem Inv.setLeaf (hv : IsPage v) (hpath : path v = π ++ [i])
    (ha : tree p4 s.mem π = some a) (hhuge : e.isPresent = true → e.isHuge = false)
    (s' : PageTables) (hmem : s'.mem = s.mem.setEntry a i e) (hframes : s'.frames = s.frames) :
    Inv p4 (update M v e.frame) s' ∧ ∀ q : List (Fin 512), q.length ≤ 4 →
      tree p4 s'.mem q = update (tree p4 s.mem) (path v) e.frame q := by
  -- the entry is at the last level, so there is nothing below it to exclude
  have hlen : π.length = 3 := by
    have h := congrArg length hpath
    rw [length_path, length_append, length_singleton] at h
    omega
  have hupdate : ∀ q : List (Fin 512), q.length ≤ 4 →
      tree p4 s'.mem q = update (tree p4 s.mem) (path v) e.frame q := by
    intro q hq
    rw [tree, hmem, links_setEntry, hpath]
    exact walk_set inv.isTree (by omega) ha (fun h => by omega) (fun h => by omega) hq
  -- tables are reached as before
  have hsame : ∀ ρ : List (Fin 512), ρ.length < 4 → tree p4 s'.mem ρ = tree p4 s.mem ρ := by
    intro ρ hρ
    have hne : ρ ≠ path v := by
      rintro rfl
      rw [length_path] at hρ
      omega
    rw [hupdate ρ (by omega), update_of_ne hne]
  refine ⟨⟨?_, ?_, ?_, ?_⟩, hupdate⟩
  · intro ρ σ b hρ hσ hwρ hwσ
    exact inv.isTree ρ σ b hρ hσ ((hsame ρ hρ).symm.trans hwρ) ((hsame σ hσ).symm.trans hwσ)
  · intro ρ b j hρ hb hpresent
    rw [hsame ρ hρ] at hb
    rw [hmem, setEntry_apply] at hpresent ⊢
    by_cases hentry : b = a ∧ j = i
    · rw [if_pos hentry] at hpresent ⊢
      exact hhuge hpresent
    · rw [if_neg hentry] at hpresent ⊢
      exact inv.clean ρ b j hρ hb hpresent
  · intro f
    rw [hframes, inv.held]
    refine exists_congr fun ρ => and_congr_right fun _ => and_congr_right fun hρ => ?_
    rw [hsame ρ hρ]
  · intro w hw
    rw [hupdate (path w) (Nat.le_of_eq (length_path w)), update_apply, update_apply, inv.pages w hw]
    by_cases hwv : w = v
    · rw [if_pos hwv, if_pos (by rw [hwv])]
    · rw [if_neg hwv, if_neg fun h => hwv (path_inj hw hv h)]

section

variable (hπ : π.length < 3)
  (ha : tree p4 s.mem π = some a)
  (hb : tree p4 s.mem (π ++ [i]) = some b)
include hπ ha hb

/-- Cutting off an empty table changes the tree at one path. -/
theorem Inv.tree_cut (hempty : tableIsEmpty (s.mem b) = true) (hq : q.length ≤ 4) :
    tree p4 (s.mem.setEntry a i 0#64) q = update (tree p4 s.mem) (π ++ [i]) none q := by
  have hbelow : ∀ j, tree p4 s.mem (π ++ [i] ++ [j]) = none := by
    intro j
    exact tree_eq_none_of_not_present hb ((tableIsEmpty_iff _).mp hempty j)
  rw [tree, links_setEntry]
  refine walk_set inv.isTree (by omega) ha (fun _ => hbelow) ?_ hq
  intro _ b h
  cases h

/-- Cut off an empty table and give its frame back. -/
theorem Inv.cut (hempty : tableIsEmpty (s.mem b) = true) :
    Inv p4 M (freeTableAndClearEntry s a i b) ∧ ∀ q : List (Fin 512), q.length ≤ 4 →
      tree p4 (freeTableAndClearEntry s a i b).mem q =
        update (tree p4 s.mem) (π ++ [i]) none q := by
  have hmem : (freeTableAndClearEntry s a i b).mem = s.mem.setEntry a i 0#64 := rfl
  have hlen : (π ++ [i]).length = π.length + 1 := by simp
  have hupdate : ∀ q : List (Fin 512), q.length ≤ 4 →
      tree p4 (freeTableAndClearEntry s a i b).mem q =
        update (tree p4 s.mem) (π ++ [i]) none q :=
    fun q hq => inv.tree_cut hπ ha hb hempty hq
  refine ⟨⟨?_, ?_, ?_, inv.pages_of_update hπ hupdate⟩, hupdate⟩
  · refine inv.isTree.of_update (fun q hq => hupdate q (Nat.le_of_lt hq)) ?_
    intro _ g hg
    cases hg
  · intro ρ c j hρ hc hpresent
    rw [hmem, setEntry_apply] at hpresent ⊢
    by_cases hentry : c = a ∧ j = i
    · rw [if_pos hentry] at hpresent
      cases hpresent
    rw [if_neg hentry] at hpresent ⊢
    rw [hupdate ρ (by omega), update_apply] at hc
    split at hc
    · cases hc
    · exact inv.clean ρ c j hρ hc hpresent
  · -- the tables left are those reached by another path, and only `b` is cut off
    intro f
    rw [tables_of_update hπ hupdate]
    show f ∈ s.frames.erase b ↔ _
    rw [Finset.mem_erase, inv.held]
    constructor
    · rintro ⟨hne, ρ, hnil, hρ, hf⟩
      refine .inr ⟨ρ, hnil, hρ, ?_, hf⟩
      rintro rfl
      exact hne (some.inj (hf.symm.trans hb))
    · rintro (hc | ⟨ρ, hnil, hρ, hne, hf⟩)
      · cases hc
      · refine ⟨?_, ρ, hnil, hρ, hf⟩
        rintro rfl
        exact hne (inv.isTree ρ (π ++ [i]) f hρ (by omega) hf hb)

end

end

end Primitives

/-! ## The start -/

/-- A P4 table without a present entry, and no frame held. -/
structure Empty (p4 : Word) (s : PageTables) : Prop where
  noEntry : ∀ i, (s.mem p4 i).isPresent = false
  noFrame : s.frames = ∅
  noFree : s.freeLog = []

theorem Empty.tree_eq (h : Empty p4 s) (π : List (Fin 512)) :
    tree p4 s.mem π = if π = [] then some p4 else none := by
  cases π with
  | nil => rfl
  | cons i π =>
    have hfirst : tree p4 s.mem [i] = none := by
      rw [show [i] = [] ++ [i] from rfl, tree_concat (tree_nil p4 s.mem)]
      exact frame_eq_none_of_not_present (h.noEntry i)
    exact walk_eq_none_of_isPrefix hfirst ⟨π, rfl⟩

theorem Empty.inv (h : Empty p4 s) : Inv p4 (fun _ => none) s := by
  refine ⟨isTree_of_root_empty 4 ?_, ?_, ?_, ?_⟩
  · intro i
    exact frame_eq_none_of_not_present (h.noEntry i)
  · intro π a i _ ha hpresent
    rw [h.tree_eq] at ha
    split at ha
    · cases ha
      rw [h.noEntry i] at hpresent
      cases hpresent
    · cases ha
  · intro f
    rw [h.noFrame]
    constructor
    · intro hf
      cases hf
    · rintro ⟨π, hnil, -, hf⟩
      rw [h.tree_eq, if_neg hnil] at hf
      cases hf
  · intro v _
    rw [h.tree_eq, if_neg (by simp [path])]

end OpenOS.Memory.PageTable
