/-
  `map_page` on an address space: which calls succeed, and what they change.

  `Changed` says what entering a set of levels and writing a set of leaves
  does to everything else, of one call and of any sequence of calls.
-/

import OpenOS.Memory.AddressSpace

namespace OpenOS.Memory.PageTable

open Function OpenOS.Base Finset Option

namespace Space

/-! ## What several levels change -/

/-- The paths of a set that lead to no table. -/
def lacking (S : Space) (Q : Finset (List (Fin 512))) : Finset (List (Fin 512)) :=
  Q.filter fun ρ => ¬ S.IsTable ρ

/-- The levels `Q` have been entered, the leaves `D` have been written, and `n`
    frames have been taken for pages. -/
structure Changed (S : Space) (Q : Finset (List (Fin 512))) (D : Set (List (Fin 512))) (n : Nat)
    (S' : Space) : Prop where
  valid : S'.Valid
  phys : ∀ v, path v ∉ D → S'.entry.phys v = S.entry.phys v
  writable : ∀ v, path v ∉ D → S.entry.Mapped v → (S'.entry.Writable v ↔ S.entry.Writable v)
  executable : ∀ v, path v ∉ D → S.entry.Mapped v →
    (S'.entry.Executable v ↔ S.entry.Executable v)
  userVia : ∀ v P, path v ∉ D → S.entry.Mapped v →
    (S'.entry.UserVia P v ↔ S.entry.UserVia (↑Q ∪ P) v)
  levels : ∀ ρ ∈ Q, ∃ v m, 1 ≤ m ∧ m ≤ 3 ∧ ρ = level v m
  isTable : ∀ v m, 1 ≤ m → m ≤ 3 →
    (S'.IsTable (level v m) ↔ level v m ∈ Q ∨ S.IsTable (level v m))
  tableOf : ∀ v m, 1 ≤ m → m ≤ 3 → ∀ b, (S'.entry (level v m)).bind Entry.frame = some b →
    (S.entry (level v m)).bind Entry.frame = some b ∨ b ∈ S.free
  blocked : ∀ v m, 1 ≤ m → m ≤ 3 → (S'.Blocked (level v m) ↔ S.Blocked (level v m))
  card : S.free.card = S'.free.card + (S.lacking Q).card + n
  free : S'.free ⊆ S.free

theorem lacking_union_card (S S' : Space) (h : ∀ ρ ∈ Q', (S'.IsTable ρ ↔ ρ ∈ Q ∨ S.IsTable ρ)) :
    (S.lacking (Q ∪ Q')).card = (S.lacking Q).card + (S'.lacking Q').card := by
  have hdisj : Disjoint (S.lacking Q) (S'.lacking Q') := by
    rw [disjoint_left]
    intro ρ hρ hρ'
    obtain ⟨hq, -⟩ := mem_filter.mp hρ
    obtain ⟨hq', hnot⟩ := mem_filter.mp hρ'
    exact hnot ((h ρ hq').mpr (.inl hq))
  rw [← card_union_of_disjoint hdisj]
  congr 1
  ext ρ
  simp only [lacking, mem_union, mem_filter]
  constructor
  · rintro ⟨hq | hq', hnot⟩
    · exact .inl ⟨hq, hnot⟩
    · by_cases hq : ρ ∈ Q
      · exact .inl ⟨hq, hnot⟩
      · exact .inr ⟨hq', fun ht => ((h ρ hq').mp ht).elim hq hnot⟩
  · rintro (⟨hq, hnot⟩ | ⟨hq', hnot⟩)
    · exact ⟨.inl hq, hnot⟩
    · exact ⟨.inr hq', fun ht => hnot ((h ρ hq').mpr (.inr ht))⟩

variable {S : Space}

theorem Changed.trans (h : S.Changed Q D n S₁) (h' : S₁.Changed Q' D' n' S₂) :
    S.Changed (Q ∪ Q') (D ∪ D') (n + n') S₂ where
  valid := h'.valid
  phys v hv := by
    rw [h'.phys v fun hd => hv (.inr hd), h.phys v fun hd => hv (.inl hd)]
  writable v hv hmapped := by
    have hD : path v ∉ D := fun hd => hv (.inl hd)
    have hmapped' : S₁.entry.Mapped v := by rwa [Entries.Mapped, h.phys v hD]
    rw [h'.writable v (fun hd => hv (.inr hd)) hmapped', h.writable v hD hmapped]
  executable v hv hmapped := by
    have hD : path v ∉ D := fun hd => hv (.inl hd)
    have hmapped' : S₁.entry.Mapped v := by rwa [Entries.Mapped, h.phys v hD]
    rw [h'.executable v (fun hd => hv (.inr hd)) hmapped', h.executable v hD hmapped]
  userVia v P hv hmapped := by
    have hD : path v ∉ D := fun hd => hv (.inl hd)
    have hmapped' : S₁.entry.Mapped v := by rwa [Entries.Mapped, h.phys v hD]
    rw [h'.userVia v P (fun hd => hv (.inr hd)) hmapped', h.userVia v _ hD hmapped,
      coe_union, Set.union_assoc]
  levels ρ hρ := by
    rcases mem_union.mp hρ with hq | hq'
    · exact h.levels ρ hq
    · exact h'.levels ρ hq'
  isTable v m hm hm3 := by
    rw [h'.isTable v m hm hm3, h.isTable v m hm hm3, mem_union]
    tauto
  tableOf v m hm hm3 b hb := by
    rcases h'.tableOf v m hm hm3 b hb with hb | hfree
    · exact h.tableOf v m hm hm3 b hb
    · exact .inr (h.free hfree)
  blocked v m hm hm3 := by
    rw [h'.blocked v m hm hm3, h.blocked v m hm hm3]
  card := by
    rw [h.card, h'.card, lacking_union_card S S₁]
    · omega
    · intro ρ hρ
      obtain ⟨v, m, hm, hm3, rfl⟩ := h'.levels ρ hρ
      exact h.isTable v m hm hm3
  free := h'.free.trans h.free

theorem Changed.refl (hS : S.Valid) : S.Changed ∅ ∅ 0 S where
  valid := hS
  phys _ _ := rfl
  writable _ _ _ := Iff.rfl
  executable _ _ _ := Iff.rfl
  userVia v P _ _ := by rw [coe_empty, Set.empty_union]
  levels ρ hρ := by cases hρ
  isTable v m _ _ := by simp
  tableOf _ _ _ _ _ hb := .inl hb
  blocked _ _ _ _ := Iff.rfl
  card := by simp [lacking]
  free := Finset.Subset.refl _

/-- A frame taken for a page. -/
def take (S : Space) (f : Word) : Space := { S with free := S.free.erase f }

theorem take_changed (hS : S.Valid) (hf : f ∈ S.free) : S.Changed ∅ ∅ 1 (S.take f) where
  valid := ⟨hS.coherent, fun g hg => hS.frames g (mem_of_mem_erase hg)⟩
  phys _ _ := rfl
  writable _ _ _ := Iff.rfl
  executable _ _ _ := Iff.rfl
  userVia v P _ _ := by
    rw [coe_empty, Set.empty_union]
    rfl
  levels ρ hρ := by cases hρ
  isTable v m _ _ := by
    rw [or_iff_right (notMem_empty _)]
    rfl
  tableOf _ _ _ _ _ hb := .inl hb
  blocked _ _ _ _ := Iff.rfl
  card := by
    exact (card_erase_add_one hf).symm
  free := erase_subset _ _

theorem Entered.changed (h : Entered S (level w k) S') (hS : S.Valid) (hk : 1 ≤ k) (hk3 : k ≤ 3) :
    S.Changed {level w k} ∅ 0 S' where
  valid := h.valid hS hk hk3
  phys v _ := h.phys hS hk hk3 v
  writable v _ hmapped := h.writable_iff hS hk hk3 hmapped
  executable v _ hmapped := h.executable_iff hS hk hk3 hmapped
  userVia v P _ hmapped := by
    rw [h.userVia_iff hS hk hk3 hmapped, coe_singleton, Set.singleton_union]
  levels ρ hρ := ⟨w, k, hk, hk3, mem_singleton.mp hρ⟩
  isTable v m hm hm3 := by
    rw [h.isTable_iff hS hk hk3 hm hm3, mem_singleton]
  tableOf v m hm hm3 b hb := h.tableOf hS hk hk3 hm hm3 hb
  blocked v m hm hm3 := h.blocked_iff hS hk hk3 hm hm3
  card := by
    rw [h.card_free, lacking, filter_singleton]
    by_cases ht : S.IsTable (level w k)
    · rw [if_pos ht, if_neg (not_not_intro ht), card_empty]
    · rw [if_neg ht, if_pos ht, card_singleton]
  free := h.free_subset

/-! ## One page -/

/-- The paths of `n` levels, from level `k` on. -/
def levelsFrom (w : Word) : Nat → Nat → Finset (List (Fin 512))
  | _, 0 => ∅
  | k, n + 1 => insert (level w k) (levelsFrom w (k + 1) n)

/-- The paths that `map_page` enters. -/
def levels (w : Word) : Finset (List (Fin 512)) := levelsFrom w 1 3

theorem mem_levelsFrom : ρ ∈ levelsFrom w k n ↔ ∃ j, k ≤ j ∧ j < k + n ∧ ρ = level w j := by
  induction n generalizing k with
  | zero =>
    constructor
    · intro h
      cases h
    · rintro ⟨j, hj, hj', -⟩
      omega
  | succ n ih =>
    rw [levelsFrom, mem_insert, ih]
    constructor
    · rintro (rfl | ⟨j, hj, hj', rfl⟩)
      · exact ⟨k, by omega, by omega, rfl⟩
      · exact ⟨j, by omega, by omega, rfl⟩
    · rintro ⟨j, hj, hj', rfl⟩
      by_cases hjk : j = k
      · exact .inl (by rw [hjk])
      · exact .inr ⟨j, by omega, by omega, rfl⟩

theorem mem_levels : ρ ∈ levels w ↔ ∃ j, 1 ≤ j ∧ j ≤ 3 ∧ ρ = level w j := by
  rw [levels, mem_levelsFrom]
  constructor
  · rintro ⟨j, hj, hj', rfl⟩
    exact ⟨j, hj, by omega, rfl⟩
  · rintro ⟨j, hj, hj', rfl⟩
    exact ⟨j, hj, by omega, rfl⟩

/-- The levels from `k` on are all passed, if no huge page is in the way and
    there are frames for the tables that are missing. -/
theorem isSome_enterFrom (hS : S.Valid) (hk : 1 ≤ k)
    (hkn : k + n ≤ 4) (hentry : (S.entry (level w k)).isSome = true) :
    (enterFrom w k n S).isSome = true ↔
      (∀ ρ ∈ levelsFrom w k n, ¬ S.Blocked ρ) ∧
        (S.lacking (levelsFrom w k n)).card ≤ S.free.card := by
  induction n generalizing k S with
  | zero => simp [enterFrom, levelsFrom, lacking]
  | succ n ih =>
    rw [enterFrom, levelsFrom, forall_mem_insert, insert_eq]
    cases henter : S.enter (level w k) with
    | none =>
      refine iff_of_false (by simp) ?_
      rintro ⟨⟨hfree, -⟩, hcard⟩
      have hnot := (isSome_enter hentry).not.mp (by rw [henter]; simp)
      -- then the entry leads to no table and there is no frame for one
      have hnone : ¬ S.IsTable (level w k) ∧ S.free = ∅ := by
        rw [not_and, not_or, not_nonempty_iff_eq_empty] at hnot
        exact hnot hfree
      have hmem : level w k ∈ S.lacking ({level w k} ∪ levelsFrom w (k + 1) n) := mem_filter.mpr
          ⟨mem_union_left _ (mem_singleton_self _), hnone.1⟩
      rw [hnone.2, card_empty] at hcard
      exact absurd (card_pos.mpr ⟨_, hmem⟩) (by omega)
    | some S₁ =>
      have hentered := entered_of_enter henter
      have hchanged := hentered.changed hS hk (by omega)
      have hlevel : ∀ ρ ∈ levelsFrom w (k + 1) n, ∃ m, 1 ≤ m ∧ m ≤ 3 ∧ ρ = level w m := by
        intro ρ hρ
        obtain ⟨m, hm, hm', rfl⟩ := mem_levelsFrom.mp hρ
        exact ⟨m, by omega, by omega, rfl⟩
      have hcard : (S.lacking ({level w k} ∪ levelsFrom w (k + 1) n)).card ≤ S.free.card ↔
          (S₁.lacking (levelsFrom w (k + 1) n)).card ≤ S₁.free.card := by
        rw [lacking_union_card S S₁, hchanged.card]
        · omega
        · intro ρ hρ
          obtain ⟨m, hm, hm3, rfl⟩ := hlevel ρ hρ
          exact hchanged.isTable w m hm hm3
      have hblocked : (∀ ρ ∈ levelsFrom w (k + 1) n, ¬ S.Blocked ρ) ↔
          ∀ ρ ∈ levelsFrom w (k + 1) n, ¬ S₁.Blocked ρ := by
        refine forall_congr' fun ρ => imp_congr_right fun hρ => not_congr ?_
        obtain ⟨m, hm, hm3, rfl⟩ := hlevel ρ hρ
        exact (hchanged.blocked w m hm hm3).symm
      rw [hcard, hblocked, and_iff_right (not_blocked_of_entered hentered)]
      cases n with
      | zero => simp [enterFrom, levelsFrom, lacking]
      | succ n =>
        refine ih hchanged.valid (by omega) (by omega) ?_
        exact (hchanged.valid.coherent.below_level hk (by omega)).mpr (hentered.isTable_self hS)

theorem changed_of_enterFrom (hS : S.Valid) (hk : 1 ≤ k) (hkn : k + n ≤ 4)
    (h : enterFrom w k n S = some S') : S.Changed (levelsFrom w k n) ∅ 0 S' := by
  induction n generalizing k S with
  | zero =>
    cases h
    exact .refl hS
  | succ n ih =>
    obtain ⟨S₁, henter, hrest⟩ := bind_eq_some_iff.mp h
    have hfirst := (entered_of_enter henter).changed hS hk (by omega)
    have hall := hfirst.trans (ih hfirst.valid (by omega) (by omega) hrest)
    rwa [Set.union_empty] at hall

/-! ### The leaf -/

theorem setLeaf_entry_of_lt (hm : m < 4) :
    (S.setLeaf w leaf).entry (level v m) = S.entry (level v m) := by
  refine update_of_ne ?_ _ _
  intro h
  have := eq_of_level_eq (by omega) (by decide : 4 ≤ 4) h
  omega

theorem setLeaf_entry_of_ne (hne : path v ≠ path w) (hm : m ≤ 4) :
    (S.setLeaf w leaf).entry (level v m) = S.entry (level v m) := by
  by_cases hm4 : m = 4
  · subst hm4
    exact update_of_ne hne _ _
  · exact setLeaf_entry_of_lt (by omega)

theorem setLeaf_entry_self : (S.setLeaf w leaf).entry (path w) = some leaf := update_self _ _ _

/-- Writing the leaf of one page changes nothing else. -/
theorem setLeaf_changed (leaf : Entry) (hS : S.Valid) (ht : S.IsTable (level w 3)) :
    S.Changed ∅ {path w} 0 (S.setLeaf w leaf) := by
  have hlow : ∀ {v m}, m < 4 → (S.setLeaf w leaf).entry (level v m) = S.entry (level v m) :=
    fun hm => setLeaf_entry_of_lt hm
  have hsome : ∀ q, ((S.setLeaf w leaf).entry q).isSome = (S.entry q).isSome := by
    intro q
    show (update S.entry (path w) (some leaf) q).isSome = _
    rw [update_apply]
    split
    · rename_i hq
      rw [hq]
      exact ((hS.coherent.below_level (by decide) (by decide)).mpr ht).symm
    · rfl
  have hgrants : ∀ {v c}, path v ∉ ({path w} : Set (List (Fin 512))) →
      ((S.setLeaf w leaf).entry.Grants c v ↔ S.entry.Grants c v) := by
    intro v c hne
    refine forall_congr' fun m => forall_congr' fun _ => forall_congr' fun hm4 => ?_
    rw [setLeaf_entry_of_ne hne hm4]
  refine
    { valid := ⟨⟨fun v => (hsome _).trans (hS.coherent.root v), ?_⟩, hS.frames⟩
      phys := fun v hne => Entries.phys_congr fun m _ hm4 => setLeaf_entry_of_ne hne hm4
      writable := fun v hne _ => hgrants hne
      executable := fun v hne _ => hgrants hne
      userVia := fun v P hne _ => ?_
      levels := fun ρ hρ => by cases hρ
      isTable := fun v m _ hm3 => ?_
      tableOf := fun v m _ hm3 b hb => .inl ?_
      blocked := fun v m _ hm3 => ?_
      card := by simp [setLeaf, lacking]
      free := Finset.Subset.refl _ }
  · intro v m hm hm4
    rw [hsome, hlow hm4]
    exact hS.coherent.below_level hm hm4
  · rw [coe_empty, Set.empty_union]
    exact hgrants hne
  · rw [IsTable, hlow (by omega)]
    simp [IsTable]
  · rwa [hlow (by omega)] at hb
  · rw [Blocked, hlow (by omega)]
    rfl

/-! ### The whole call -/

theorem map_eq_bind (S : Space) (w : Word) (leaf : Entry) :
    S.map w leaf = (S.enter (level w 1)).bind fun S₁ => (S₁.enter (level w 2)).bind fun S₂ =>
      (S₂.enter (level w 3)).bind fun S₃ => some (S₃.setLeaf w leaf) := by
  rw [map]
  simp only [enterFrom]
  cases S.enter (level w 1) with
  | none => rfl
  | some S₁ =>
    simp only [bind_some]
    cases S₁.enter (level w 2) with
    | none => rfl
    | some S₂ =>
      simp only [bind_some]
      cases S₂.enter (level w 3) with
      | none => rfl
      | some S₃ => rfl

theorem isSome_map (hS : S.Valid) (w : Word) (leaf : Entry) :
    (S.map w leaf).isSome = true ↔
      (∀ ρ ∈ levels w, ¬ S.Blocked ρ) ∧ (S.lacking (levels w)).card ≤ S.free.card := by
  rw [map, Option.isSome_map]
  exact isSome_enterFrom hS (by decide) (by decide) (hS.coherent.root w)

theorem map_changed (hS : S.Valid) (h : S.map w leaf = some S') :
    S.Changed (levels w) {path w} 0 S' := by
  obtain ⟨S₁, hlevels, rfl⟩ := map_eq_some_iff.mp h
  have hchanged := changed_of_enterFrom hS (by decide) (by decide) hlevels
  have ht : S₁.IsTable (level w 3) := (hchanged.isTable w 3 (by decide) (by decide)).mpr
      (.inl (mem_levels.mpr ⟨3, by decide, by decide, rfl⟩))
  have hall := hchanged.trans (setLeaf_changed leaf hchanged.valid ht)
  rwa [union_empty, Set.empty_union] at hall

theorem entry_of_map (h : S.map w leaf = some S') : S'.entry (path w) = some leaf := by
  obtain ⟨S₁, -, rfl⟩ := map_eq_some_iff.mp h
  exact setLeaf_entry_self

theorem phys_of_map (h : S.map w leaf = some S') (hv : path v = path w) :
    S'.entry.phys v = leafPhys 4 v leaf := by
  apply Entries.phys_of_page
  rw [hv]
  exact entry_of_map h

end Space

end OpenOS.Memory.PageTable
