/-
  What `map_page`, `unmap_page` and `translate` do to the radix tree:
  `mapPage_spec`, `unmapPage_spec` and `translate_spec` say what a caller sees
  and how the tree changes; later modules use nothing else.
-/

import OpenOS.Memory.PageTree

namespace OpenOS.Memory.PageTable

open Function OpenOS.Base List Option RadixTree Entry Prod

/-! ## The answers of the frame allocator -/

/-- The allocator fails or returns frames that are not in use: not P4, not held,
    and not the same one twice. -/
structure Fresh (p4 : Word) (s : PageTables) (answers : List (Option Word)) : Prop where
  nodup : (answers.filterMap id).Nodup
  unused : ∀ f, some f ∈ answers → f ∉ s.frames ∧ f ≠ p4
  isFrame : ∀ f, some f ∈ answers → f.toNat < 2 ^ 52 ∧ f % pageSize = 0

/-- The first `k` calls of the allocator succeed. -/
def CanAllocate : Nat → List (Option Word) → Prop
  | 0, _ => True
  | k + 1, some _ :: answers => CanAllocate k answers
  | _ + 1, _ => False

theorem not_canAllocate_succ (hfail : ∀ f rest, answers ≠ some f :: rest) (k : Nat) :
    ¬ CanAllocate (k + 1) answers := by
  intro hcan
  unfold CanAllocate at hcan
  split at hcan
  · omega
  · exact hfail _ _ rfl
  · exact hcan

/-- How many of the tables along `ρ` below `π` do not exist. -/
def missing (T : List (Fin 512) → Option Word) (π : List (Fin 512)) : List (Fin 512) → Nat
  | [] => 0
  | i :: ρ => (if (T (π ++ [i])).isNone then 1 else 0) + missing T (π ++ [i]) ρ

/-- The indices that lead to the P1 table of an address. -/
def tablePath (virt : Word) : List (Fin 512) := [p4Idx virt, p3Idx virt, p2Idx virt]

/-- The intermediate tables that the walk to a page still needs. -/
def missingTables (p4 : Word) (s : PageTables) (virt : Word) : Nat :=
  missing (tree p4 s.mem) [] (tablePath virt)

theorem Fresh.tail (h : Fresh p4 s (some f :: answers)) (hframes : s'.frames = insert f s.frames) :
    Fresh p4 s' answers := by
  have hnodup : f ∉ answers.filterMap id ∧ (answers.filterMap id).Nodup := nodup_cons.mp h.nodup
  refine ⟨hnodup.2, ?_, fun g hg => h.isFrame g (mem_cons_of_mem _ hg)⟩
  intro g hg
  obtain ⟨hheld, hp4⟩ := h.unused g (mem_cons_of_mem _ hg)
  refine ⟨?_, hp4⟩
  rw [hframes, Finset.mem_insert, not_or]
  refine ⟨?_, hheld⟩
  rintro rfl
  exact hnodup.1 (mem_filterMap.mpr ⟨some g, hg, rfl⟩)

/-- The count only looks at the paths below `π`. -/
theorem missing_congr (π ρ : List (Fin 512))
    (h : ∀ q : List (Fin 512), π.length < q.length → q.length ≤ π.length + ρ.length → T' q = T q) :
    missing T' π ρ = missing T π ρ := by
  induction ρ generalizing π with
  | nil => rfl
  | cons i ρ ih =>
    have hstep : T' (π ++ [i]) = T (π ++ [i]) := h _ (by simp) (by simp)
    have hrest := ih (π ++ [i]) fun q hlo hhi => by
      simp only [length_append, length_singleton] at hlo hhi
      exact h q (by omega) (by rw [length_cons]; omega)
    rw [missing, missing, hstep, hrest]

theorem missing_eq_zero (π ρ : List (Fin 512)) (h : tree p4 mem (π ++ ρ) ≠ none) :
    missing (tree p4 mem) π ρ = 0 := by
  induction ρ generalizing π with
  | nil => rfl
  | cons i ρ ih =>
    have happend : π ++ i :: ρ = π ++ [i] ++ ρ := by simp
    rw [happend] at h
    have hhere : tree p4 mem (π ++ [i]) ≠ none := walk_ne_none_of_isPrefix h (prefix_append _ _)
    have hsome : (tree p4 mem (π ++ [i])).isNone = false := by
      rwa [isNone_eq_false_iff, isSome_iff_ne_none]
    rw [missing, hsome, ih (π ++ [i]) h]
    rfl

/-! ## map_page -/

/-- From `s` to `s'` the tree only grew, and only along `ρ`. -/
structure Grown (p4 : Word) (s s' : PageTables) (ρ : List (Fin 512)) : Prop where
  log : s'.freeLog = s.freeLog
  away : ∀ q : List (Fin 512), q.length ≤ 4 → ¬ q <+: ρ → tree p4 s'.mem q = tree p4 s.mem q
  kept : ∀ q : List (Fin 512), q.length ≤ 4 → tree p4 s.mem q ≠ none →
    tree p4 s'.mem q = tree p4 s.mem q

theorem Grown.refl (s : PageTables) (ρ : List (Fin 512)) : Grown p4 s s ρ :=
  ⟨rfl, fun _ _ _ => rfl, fun _ _ _ => rfl⟩

theorem Grown.trans (h₁ : Grown p4 s₁ s₂ ρ) (h₂ : Grown p4 s₂ s₃ ρ) : Grown p4 s₁ s₃ ρ := by
  refine ⟨h₂.log.trans h₁.log, ?_, ?_⟩
  · intro q hq hnot
    rw [h₂.away q hq hnot, h₁.away q hq hnot]
  · intro q hq hsome
    have hfirst := h₁.kept q hq hsome
    rw [h₂.kept q hq (hfirst ▸ hsome), hfirst]

/-- A new table where the path led nowhere. -/
theorem Grown.of_update (hpre : π <+: ρ) (hlog : s'.freeLog = s.freeLog)
    (hnone : tree p4 s.mem π = none)
    (hupdate : ∀ q : List (Fin 512), q.length ≤ 4 →
      tree p4 s'.mem q = update (tree p4 s.mem) π c q) :
    Grown p4 s s' ρ := by
  refine ⟨hlog, ?_, ?_⟩
  · intro q hq hnot
    have hne : q ≠ π := by
      rintro rfl
      exact hnot hpre
    rw [hupdate q hq, update_of_ne hne]
  · intro q hq hsome
    have hne : q ≠ π := by
      rintro rfl
      exact hsome hnone
    rw [hupdate q hq, update_of_ne hne]

/-- Nothing grows along a path that is already there. -/
theorem Grown.eq_of_reached (h : Grown p4 s s' ρ) (hreached : tree p4 s.mem ρ ≠ none)
    (hq : q.length ≤ 4) : tree p4 s'.mem q = tree p4 s.mem q := by
  by_cases hpre : q <+: ρ
  · exact h.kept q hq (walk_ne_none_of_isPrefix hreached hpre)
  · exact h.away q hq hpre

section

variable (inv : Inv p4 M s) (hπ : π.length < 3) (ha : tree p4 s.mem π = some a)
include inv hπ ha

/-- A block on an entry that leads to a table. -/
theorem walkOrCreate_of_some (hb : tree p4 s.mem (π ++ [i]) = some b) (checkHuge : Bool)
    (answers : List (Option Word)) :
    walkOrCreate checkHuge s answers a i = some (.ok (b, answers), s) := by
  have hpresent : (s.mem a i).isPresent = true := by
    rw [inv.isPresent_eq (by omega) ha, hb, isSome_some]
  have hhuge := inv.clean π a i (by omega) ha hpresent
  rw [tree_concat ha] at hb
  simp [walkOrCreate, hpresent, hhuge, hb]

/-- A block on an empty entry, when the allocator has a frame. -/
theorem walkOrCreate_of_frame (hnone : tree p4 s.mem (π ++ [i]) = none) (checkHuge : Bool)
    (hfresh : Fresh p4 s (some f :: answers)) :
    ∃ s', walkOrCreate checkHuge s (some f :: answers) a i = some (.ok (f, answers), s') ∧
      Inv p4 M s' ∧ s'.freeLog = s.freeLog ∧ s'.frames = insert f s.frames ∧
      ∀ q : List (Fin 512), q.length ≤ 4 →
        tree p4 s'.mem q = update (tree p4 s.mem) (π ++ [i]) (some f) q := by
  obtain ⟨hheld, hp4⟩ := hfresh.unused f mem_cons_self
  obtain ⟨e, hset, hhuge, hframe⟩ :=
    setAddr_spec (f := .table) (hfresh.isFrame f mem_cons_self) (by decide) (by decide)
  have hpresent : (s.mem a i).isPresent = false := by
    rw [inv.isPresent_eq (by omega) ha, hnone, isSome_none]
  obtain ⟨inv', hupdate⟩ := inv.link hπ ha hnone hheld hp4 hhuge hframe
    { s with
      mem := (s.mem.zeroTable f).setEntry a i e
      frames := insert f s.frames } rfl rfl
  refine ⟨_, ?_, inv', rfl, rfl, hupdate⟩
  simp [walkOrCreate, hpresent, hset]

/-- A block on an empty entry, when the allocator fails. -/
theorem walkOrCreate_of_failure (hnone : tree p4 s.mem (π ++ [i]) = none) (checkHuge : Bool)
    (hfail : ∀ f rest, answers ≠ some f :: rest) :
    walkOrCreate checkHuge s answers a i = some (.error .outOfMemory, s) := by
  have hpresent : (s.mem a i).isPresent = false := by
    rw [inv.isPresent_eq (by omega) ha, hnone, isSome_none]
  simp [walkOrCreate, hpresent]

end

/-- All blocks: they reach the last table when the allocator has as many frames
    as tables are missing, and run out of memory otherwise. -/
theorem walkOrCreateAll_spec (blocks : List (Bool × Fin 512)) (π : List (Fin 512))
    (inv : Inv p4 M s) (hlen : π.length + blocks.length ≤ 3) (ha : tree p4 s.mem π = some a)
    (hfresh : Fresh p4 s answers) :
    ∃ r s', walkOrCreateAll blocks s answers a = some (r, s') ∧ Inv p4 M s' ∧
      Grown p4 s s' (π ++ blocks.map snd) ∧
      ((CanAllocate (missing (tree p4 s.mem) π (blocks.map snd)) answers ∧
        ∃ b, r = .ok b ∧ tree p4 s'.mem (π ++ blocks.map snd) = some b) ∨
      (¬ CanAllocate (missing (tree p4 s.mem) π (blocks.map snd)) answers ∧
        r = .error .outOfMemory)) := by
  -- induction on the blocks left; the path walked so far is `π`
  induction blocks generalizing π a s answers with
  | nil =>
    refine ⟨.ok a, s, rfl, inv, Grown.refl s _, .inl ⟨trivial, a, rfl, ?_⟩⟩
    rw [map_nil, append_nil, ha]
  | cons block blocks ih =>
    obtain ⟨checkHuge, i⟩ := block
    rw [length_cons] at hlen
    have hlen' : (π ++ [i]).length + blocks.length ≤ 3 := by
      rw [length_append, length_singleton]
      omega
    have hmap : π ++ ((checkHuge, i) :: blocks).map snd =
        π ++ [i] ++ blocks.map snd := by simp
    rw [hmap, map_cons, missing]
    cases hnext : tree p4 s.mem (π ++ [i]) with
    | some b =>
      -- the table exists
      have hblock := walkOrCreate_of_some inv (by omega) ha hnext checkHuge answers
      obtain ⟨r, s', hrun, hinv', hgrown, hres⟩ := ih (π ++ [i]) inv hlen' hnext hfresh
      refine ⟨r, s', ?_, hinv', hgrown, ?_⟩
      · rwa [walkOrCreateAll, hblock]
      · rwa [isNone_some, if_neg Bool.false_ne_true, Nat.zero_add]
    | none =>
      rw [Nat.add_comm]
      by_cases hanswer : ∃ f rest, answers = some f :: rest
      · -- a new table is linked, and the walk goes on below it
        obtain ⟨f, rest, rfl⟩ := hanswer
        obtain ⟨s₁, hblock, inv₁, hlog, hframes, hupdate⟩ :=
          walkOrCreate_of_frame inv (by omega) ha hnext checkHuge hfresh
        have hnew : tree p4 s₁.mem (π ++ [i]) = some f := by
          rw [hupdate _ (by simp; omega), update_self]
        obtain ⟨r, s', hrun, hinv', hgrown, hres⟩ :=
          ih (π ++ [i]) inv₁ hlen' hnew (hfresh.tail hframes)
        have hcount : missing (tree p4 s₁.mem) (π ++ [i]) (blocks.map snd) =
            missing (tree p4 s.mem) (π ++ [i]) (blocks.map snd) := by
          refine missing_congr _ _ ?_
          intro q hlo hhi
          have hne : q ≠ π ++ [i] := by
            rintro rfl
            omega
          rw [length_map] at hhi
          rw [hupdate q (by omega), update_of_ne hne]
        have hgrown₁ : Grown p4 s s₁ (π ++ [i] ++ blocks.map snd) :=
          Grown.of_update (prefix_append _ _) hlog hnext hupdate
        refine ⟨r, s', ?_, hinv', hgrown₁.trans hgrown, ?_⟩
        · rwa [walkOrCreateAll, hblock]
        · rwa [hcount] at hres
      · have hfail : ∀ f rest, answers ≠ some f :: rest := fun f rest h => hanswer ⟨f, rest, h⟩
        have hblock := walkOrCreate_of_failure inv (by omega) ha hnext checkHuge hfail
        refine ⟨.error .outOfMemory, s, ?_, inv, Grown.refl s _, .inr ⟨?_, rfl⟩⟩
        · rw [walkOrCreateAll, hblock]
        · exact not_canAllocate_succ hfail _

/-- The inputs of `map_page`: a page, a page frame, and the flags of a present
    4 KiB page. -/
structure MapInput (virt phys : Word) (flags : PageTableFlags) : Prop where
  page : IsPage virt
  frame_lt : phys.toNat < 2 ^ 52
  frame_aligned : phys % pageSize = 0
  present : flags.contains .present = true
  notHuge : flags.contains .hugePage = false

/-- The three ways a call of `map_page` ends. -/
inductive MapOutcome (p4 : Word) (M : Word → Option Word) (s : PageTables) (virt phys : Word)
    (answers : List (Option Word)) : Except PageTableError Unit → PageTables → Prop
  | ok {s' : PageTables} : M virt = none → CanAllocate (missingTables p4 s virt) answers →
      Inv p4 (update M virt (some phys)) s' →
      (∀ q : List (Fin 512), q <+: path virt → tree p4 s'.mem q ≠ none) →
      (∀ q : List (Fin 512), q.length ≤ 4 → ¬ q <+: path virt →
        tree p4 s'.mem q = tree p4 s.mem q) →
      MapOutcome p4 M s virt phys answers (.ok ()) s'
  | alreadyMapped {s' : PageTables} : M virt ≠ none → Inv p4 M s' →
      (∀ q : List (Fin 512), q.length ≤ 4 → tree p4 s'.mem q = tree p4 s.mem q) →
      MapOutcome p4 M s virt phys answers (.error .alreadyMapped) s'
  | outOfMemory {s' : PageTables} : M virt = none →
      ¬ CanAllocate (missingTables p4 s virt) answers → Inv p4 M s' →
      MapOutcome p4 M s virt phys answers (.error .outOfMemory) s'

theorem path_eq_concat (virt : Word) : path virt = tablePath virt ++ [p1Idx virt] := rfl

theorem tablePath_isPrefix (virt : Word) : tablePath virt <+: path virt := prefix_append _ _

theorem walkTables_spec (inv : Inv p4 M s) (virt : Word) (hfresh : Fresh p4 s answers) :
    ∃ r s', walkOrCreateAll [(false, p4Idx virt), (false, p3Idx virt), (true, p2Idx virt)]
        s answers p4 = some (r, s') ∧ Inv p4 M s' ∧ Grown p4 s s' (tablePath virt) ∧
      ((CanAllocate (missingTables p4 s virt) answers ∧
        ∃ l1, r = .ok l1 ∧ tree p4 s'.mem (tablePath virt) = some l1) ∨
      (¬ CanAllocate (missingTables p4 s virt) answers ∧ r = .error .outOfMemory)) :=
  walkOrCreateAll_spec [(false, p4Idx virt), (false, p3Idx virt), (true, p2Idx virt)] []
    inv (Nat.le_refl 3) (tree_nil p4 s.mem) hfresh

theorem Inv.leaf_isPresent (inv : Inv p4 M s) (hv : IsPage virt)
    (hl1 : tree p4 s.mem (tablePath virt) = some l1) :
    (s.mem l1 (p1Idx virt)).isPresent = (M virt).isSome := by
  rw [← inv.pages virt hv, path_eq_concat]
  exact inv.isPresent_eq (π := tablePath virt) (Nat.lt_succ_self 3) hl1

theorem Inv.tables_of_mapped (inv : Inv p4 M s) (hv : IsPage virt)
    (hM : M virt ≠ none) : tree p4 s.mem (tablePath virt) ≠ none := by
  rw [← inv.pages virt hv] at hM
  exact walk_ne_none_of_isPrefix hM (tablePath_isPrefix virt)

theorem mapPage_spec (inv : Inv p4 M s) {flags : PageTableFlags} (hin : MapInput virt phys flags)
    (hfresh : Fresh p4 s answers) :
    ∃ r s', mapPage p4 s virt phys flags answers = some (r, s') ∧ s'.freeLog = s.freeLog ∧
      MapOutcome p4 M s virt phys answers r s' := by
  obtain ⟨hv, hlt, halign, hpresent, hnotHuge⟩ := hin
  have haligned : ¬ (virt % pageSize ≠ 0 ∨ phys % pageSize ≠ 0) := by
    rw [not_or]
    exact ⟨not_not_intro hv.1, not_not_intro halign⟩
  obtain ⟨r, s₁, hwalk, inv₁, hgrown, hres⟩ := walkTables_spec inv virt hfresh
  rcases hres with ⟨hcan, l1, rfl, hl1⟩ | ⟨hcan, rfl⟩
  · have hleaf := inv₁.leaf_isPresent hv hl1
    by_cases hM : M virt = none
    · -- the entry is free and is written
      rw [hM] at hleaf
      obtain ⟨e, hset, hhuge, hframe⟩ := setAddr_spec ⟨hlt, halign⟩ hpresent hnotHuge
      obtain ⟨inv₂, hupdate⟩ := inv₁.setLeaf hv (path_eq_concat virt) hl1 (fun _ => hhuge)
        { s₁ with mem := s₁.mem.setEntry l1 (p1Idx virt) e } rfl rfl
      rw [hframe] at inv₂ hupdate
      refine ⟨.ok (), { s₁ with mem := s₁.mem.setEntry l1 (p1Idx virt) e }, ?_, hgrown.log,
        .ok hM hcan inv₂ ?_ ?_⟩
      · rw [mapPage, if_neg haligned, hwalk]
        simp [hleaf, hset]
      · intro q hpre
        refine walk_ne_none_of_isPrefix ?_ hpre
        show tree p4 (s₁.mem.setEntry l1 (p1Idx virt) e) (path virt) ≠ none
        rw [hupdate (path virt) (Nat.le_refl 4), update_self]
        exact some_ne_none phys
      · intro q hq hnot
        have hne : q ≠ path virt := by
          rintro rfl
          exact hnot (prefix_refl _)
        rw [hupdate q hq, update_of_ne hne]
        exact hgrown.away q hq fun hpre => hnot (hpre.trans (tablePath_isPrefix virt))
    · -- the whole path was there, so nothing grew
      rw [isSome_iff_ne_none.mpr hM] at hleaf
      refine ⟨.error .alreadyMapped, s₁, ?_, hgrown.log, .alreadyMapped hM inv₁ ?_⟩
      · rw [mapPage, if_neg haligned, hwalk]
        exact if_pos hleaf
      · intro q hq
        exact hgrown.eq_of_reached (inv.tables_of_mapped hv hM) hq
  · -- a mapped page needs no table, so the failed one belonged to an unmapped page
    have hunmapped : M virt = none := by
      by_contra hM
      rw [missingTables, missing_eq_zero [] (tablePath virt) (inv.tables_of_mapped hv hM)] at hcan
      exact hcan trivial
    refine ⟨.error .outOfMemory, s₁, ?_, hgrown.log, .outOfMemory hunmapped hcan inv₁⟩
    rw [mapPage, if_neg haligned, hwalk]

/-! ## unmap_page -/

/-- Every table below P4, `ρ` apart, has an entry. -/
def PrunedExcept (ρ : List (Fin 512)) (T : List (Fin 512) → Option Word) : Prop :=
  ∀ q, q ≠ [] → q ≠ ρ → q.length < 4 → T q ≠ none → ∃ i, T (q ++ [i]) ≠ none

/-- Every table below P4 has an entry. -/
def Pruned (T : List (Fin 512) → Option Word) : Prop := PrunedExcept [] T

/-- Removing what `π ++ [i]` leads to may leave the table at `π` empty, no other. -/
theorem PrunedExcept.cut (h : PrunedExcept (π ++ [i]) T)
    (hupdate : ∀ q : List (Fin 512), q.length ≤ 4 → T' q = update T (π ++ [i]) none q) :
    PrunedExcept π T' := by
  intro q hnil hne hlen hsome
  rw [hupdate q (by omega), update_apply] at hsome
  split at hsome
  · exact absurd rfl hsome
  rename_i hq
  obtain ⟨j, hj⟩ := h q hnil hq hlen hsome
  have hchild : q ++ [j] ≠ π ++ [i] := by
    intro heq
    exact hne (append_inj' heq rfl).1
  refine ⟨j, ?_⟩
  rwa [hupdate (q ++ [j]) (by simp; omega), update_of_ne hchild]

/-- A present entry of a table of level 4, 3 or 2 refers to `f`. -/
def RefersAsTable (p4 : Word) (mem : PhysMem) (f : Word) : Prop :=
  ∃ (π : List (Fin 512)) (a : Word) (i : Fin 512), π.length < 3 ∧ tree p4 mem π = some a ∧
    (mem a i).isPresent = true ∧ (mem a i).addr = f

/-- The P1 entry of a page is present and refers to `f`. -/
def RefersAsPage (p4 : Word) (mem : PhysMem) (f virt : Word) : Prop :=
  ∃ a, tree p4 mem (tablePath virt) = some a ∧
    (mem a (p1Idx virt)).isPresent = true ∧ (mem a (p1Idx virt)).addr = f

theorem Inv.not_refersAsTable (inv : Inv p4 M s) (hf : f ∉ s.frames) :
    ¬ RefersAsTable p4 s.mem f := by
  rintro ⟨π, a, i, hπ, ha, hpresent, haddr⟩
  refine hf ((inv.held f).mpr ⟨π ++ [i], by simp, by simp; omega, ?_⟩)
  rw [inv.tree_of_present (by omega) ha hpresent, haddr]

theorem Inv.eq_some_of_refersAsPage (inv : Inv p4 M s) (hv : IsPage virt)
    (h : RefersAsPage p4 s.mem f virt) : M virt = some f := by
  obtain ⟨a, ha, hpresent, haddr⟩ := h
  rw [← inv.pages virt hv, path_eq_concat,
    inv.tree_of_present (π := tablePath virt) (Nat.lt_succ_self 3) ha hpresent, haddr]

/-- What is known of the memory when a frame is given back, the map being `M`:
    no table entry refers to the frame, and a P1 entry only if the map does. -/
def FreedSafely (p4 : Word) (M : Word → Option Word) (x : Word × PhysMem) : Prop :=
  ¬ RefersAsTable p4 x.2 x.1 ∧
    ∀ virt, IsPage virt → RefersAsPage p4 x.2 x.1 virt → M virt = some x.1

/-- The log of `s'` continues that of `s` with frames given back safely. -/
def LogExtends (p4 : Word) (M : Word → Option Word) (s s' : PageTables) : Prop :=
  ∃ new, s'.freeLog = s.freeLog ++ new ∧ ∀ x ∈ new, FreedSafely p4 M x

theorem LogExtends.refl (s : PageTables) : LogExtends p4 M s s :=
  ⟨[], by rw [append_nil], fun x hx => (nomatch hx)⟩

theorem LogExtends.trans (h₁ : LogExtends p4 M s₁ s₂) (h₂ : LogExtends p4 M s₂ s₃) :
    LogExtends p4 M s₁ s₃ := by
  obtain ⟨new₁, hlog₁, hsafe₁⟩ := h₁
  obtain ⟨new₂, hlog₂, hsafe₂⟩ := h₂
  refine ⟨new₁ ++ new₂, by rw [hlog₂, hlog₁, append_assoc], ?_⟩
  intro x hx
  rcases mem_append.mp hx with hx | hx
  · exact hsafe₁ x hx
  · exact hsafe₂ x hx

/-- One stage of the reclamation: an empty table is cut off and its frame given
    back, which may leave its parent empty. -/
theorem freeTable_spec (inv : Inv p4 M s) (hπ : π.length < 3) (ha : tree p4 s.mem π = some a)
    (hb : tree p4 s.mem (π ++ [i]) = some b) (hempty : tableIsEmpty (s.mem b) = true) :
    Inv p4 M (freeTableAndClearEntry s a i b) ∧
      (∀ q : List (Fin 512), q.length ≤ π.length →
        tree p4 (freeTableAndClearEntry s a i b).mem q = tree p4 s.mem q) ∧
      (PrunedExcept (π ++ [i]) (tree p4 s.mem) →
        PrunedExcept π (tree p4 (freeTableAndClearEntry s a i b).mem)) ∧
      LogExtends p4 M s (freeTableAndClearEntry s a i b) := by
  obtain ⟨inv', hupdate⟩ := inv.cut hπ ha hb hempty
  refine ⟨inv', ?_, fun h => h.cut hupdate, ?_⟩
  · intro q hq
    have hne : q ≠ π ++ [i] := by
      rintro rfl
      rw [length_append, length_singleton] at hq
      omega
    rw [hupdate q (by omega), update_of_ne hne]
  · refine ⟨[(b, (freeTableAndClearEntry s a i b).mem)], rfl, ?_⟩
    intro x hx
    obtain rfl := mem_singleton.mp hx
    refine ⟨inv'.not_refersAsTable ?_, fun v hv h => inv'.eq_some_of_refersAsPage hv h⟩
    exact Finset.notMem_erase b _

theorem Inv.pruned_of_not_empty (inv : Inv p4 M s) (hρ : ρ.length < 4)
    (hb : tree p4 s.mem ρ = some b) (hne : tableIsEmpty (s.mem b) = false)
    (h : PrunedExcept ρ (tree p4 s.mem)) : Pruned (tree p4 s.mem) := by
  intro q hnil _ hlen hsome
  -- only the table at `ρ` is in doubt, and a present entry of it leads on
  by_cases hq : q = ρ
  · subst hq
    by_contra hnone
    have hall : ∀ i, (s.mem b i).isPresent = false := by
      intro i
      by_contra hpresent
      rw [Bool.not_eq_false, inv.isPresent_eq hρ hb, isSome_iff_ne_none] at hpresent
      exact hnone ⟨i, hpresent⟩
    rw [(tableIsEmpty_iff _).mpr hall] at hne
    cases hne
  · exact h q hnil hq hlen hsome

/-- The reclamation never panics, frees only what nothing refers to, and leaves
    no empty table when the P1 table was the only one in doubt. -/
theorem reclaim_spec (inv : Inv p4 M s) (h3 : tree p4 s.mem [p4Idx virt] = some l3)
    (h2 : tree p4 s.mem [p4Idx virt, p3Idx virt] = some l2)
    (h1 : tree p4 s.mem (tablePath virt) = some l1) :
    ∃ s', reclaim p4 l3 l2 l1 virt s = some s' ∧ Inv p4 M s' ∧
      (PrunedExcept (tablePath virt) (tree p4 s.mem) → Pruned (tree p4 s'.mem)) ∧
      LogExtends p4 M s s' := by
  cases hempty1 : tableIsEmpty (s.mem l1) with
  | false =>
    refine ⟨s, ?_, inv, inv.pruned_of_not_empty (Nat.lt_succ_self 3) h1 hempty1, LogExtends.refl s⟩
    simp [reclaim, hempty1]
  | true =>
    -- the P1 table goes
    obtain ⟨inv₁, hsame₁, hpruned₁, hlog₁⟩ := freeTable_spec inv
      (by simp) h2 h1 hempty1
    set s₁ := freeTableAndClearEntry s l2 (p2Idx virt) l1 with hs₁
    have h2₁ : tree p4 s₁.mem [p4Idx virt, p3Idx virt] = some l2 :=
      (hsame₁ [p4Idx virt, p3Idx virt] (by simp)).trans h2
    have h3₁ : tree p4 s₁.mem [p4Idx virt] = some l3 := (hsame₁ [p4Idx virt] (by simp)).trans h3
    cases hempty2 : tableIsEmpty (s₁.mem l2) with
    | false =>
      refine ⟨s₁, ?_, inv₁, fun h => inv₁.pruned_of_not_empty
        (by simp) h2₁ hempty2 (hpruned₁ h), hlog₁⟩
      simp [reclaim, hempty1, ← hs₁, hempty2]
    | true =>
      -- the P2 table goes
      obtain ⟨inv₂, hsame₂, hpruned₂, hlog₂⟩ := freeTable_spec inv₁
        (by simp) h3₁ h2₁ hempty2
      set s₂ := freeTableAndClearEntry s₁ l3 (p3Idx virt) l2 with hs₂
      have h3₂ : tree p4 s₂.mem [p4Idx virt] = some l3 := (hsame₂ [p4Idx virt] (by simp)).trans h3₁
      cases hempty3 : tableIsEmpty (s₂.mem l3) with
      | false =>
        refine ⟨s₂, ?_, inv₂, fun h => inv₂.pruned_of_not_empty
          (by simp) h3₂ hempty3 (hpruned₂ (hpruned₁ h)), hlog₁.trans hlog₂⟩
        simp [reclaim, hempty1, ← hs₁, hempty2, ← hs₂, hempty3]
      | true =>
        -- the P3 table goes; its frame is read back from the P4 entry
        obtain ⟨inv₃, -, hpruned₃, hlog₃⟩ := freeTable_spec inv₂ (π := [])
          (Nat.succ_pos 2) (tree_nil p4 s₂.mem) h3₂ hempty3
        have hframe : (s₂.mem p4 (p4Idx virt)).frame = some l3 := by
          rw [← h3₂, show [p4Idx virt] = [] ++ [p4Idx virt] from rfl,
            tree_concat (tree_nil p4 s₂.mem)]
        refine ⟨_, ?_, inv₃, fun h => hpruned₃ (hpruned₂ (hpruned₁ h)),
          (hlog₁.trans hlog₂).trans hlog₃⟩
        simp [reclaim, hempty1, ← hs₁, hempty2, ← hs₂, hempty3, hframe]

theorem walkDown_spec (inv : Inv p4 M s) (hπ : π.length < 3)
    (ha : tree p4 s.mem π = some a) (i : Fin 512) (checkHuge : Bool) :
    walkDown checkHuge s.mem a i =
      match tree p4 s.mem (π ++ [i]) with
      | none => some (.error .notMapped)
      | some b => some (.ok b) := by
  cases hpresent : (s.mem a i).isPresent with
  | false =>
    rw [tree_eq_none_of_not_present ha hpresent]
    simp [walkDown, hpresent]
  | true =>
    rw [inv.tree_of_present (by omega) ha hpresent]
    simp [walkDown, hpresent, inv.clean π a i (by omega) ha hpresent,
      inv.frame_of_present (by omega) ha hpresent]

/-- The two ways a call of `unmap_page` ends. -/
inductive UnmapOutcome (p4 : Word) (M : Word → Option Word) (s : PageTables) (virt : Word) :
    Except PageTableError Word → PageTables → Prop
  | notMapped : M virt = none → UnmapOutcome p4 M s virt (.error .notMapped) s
  | ok {f : Word} {s' : PageTables} : M virt = some f → Inv p4 (update M virt none) s' →
      (Pruned (tree p4 s.mem) → Pruned (tree p4 s'.mem)) →
      LogExtends p4 (update M virt none) s s' →
      UnmapOutcome p4 M s virt (.ok f) s'

/-- The end of `unmap_page` on a mapped page: erase the P1 entry, then reclaim. -/
theorem eraseLeaf_spec (inv : Inv p4 M s) (hv : IsPage virt)
    (h3 : tree p4 s.mem [p4Idx virt] = some l3)
    (h2 : tree p4 s.mem [p4Idx virt, p3Idx virt] = some l2)
    (h1 : tree p4 s.mem (tablePath virt) = some l1) : ∃ s', reclaim p4 l3 l2 l1 virt
        { s with mem := s.mem.setEntry l1 (p1Idx virt) 0#64 } = some s' ∧
      Inv p4 (update M virt none) s' ∧
      (Pruned (tree p4 s.mem) → Pruned (tree p4 s'.mem)) ∧
      LogExtends p4 (update M virt none) s s' := by
  obtain ⟨inv₁, hupdate⟩ := inv.setLeaf hv (path_eq_concat virt) h1
    (fun h => (nomatch isPresent_zero.symm.trans h))
    { s with mem := s.mem.setEntry l1 (p1Idx virt) 0#64 } rfl rfl
  have hsame : ∀ q : List (Fin 512), q.length < 4 →
      tree p4 (s.mem.setEntry l1 (p1Idx virt) 0#64) q = tree p4 s.mem q := by
    intro q hq
    have hne : q ≠ path virt := by
      rintro rfl
      exact absurd hq (Nat.lt_irrefl 4)
    exact (hupdate q (by omega)).trans (update_of_ne hne _ _)
  obtain ⟨s', hreclaim, inv', hpruned, hlog⟩ := reclaim_spec inv₁
    ((hsame [p4Idx virt] (by simp)).trans h3)
    ((hsame [p4Idx virt, p3Idx virt] (by simp)).trans h2)
    ((hsame (tablePath virt) (Nat.lt_succ_self 3)).trans h1)
  refine ⟨s', hreclaim, inv', ?_, hlog⟩
  intro hbefore
  have hexcept : PrunedExcept (path virt) (tree p4 s.mem) :=
    fun q hnil _ hlen => hbefore q hnil hnil hlen
  exact hpruned (hexcept.cut hupdate)

theorem unmapPage_spec (inv : Inv p4 M s) (hv : IsPage virt) :
    ∃ r s', unmapPage p4 s virt = some (r, s') ∧ UnmapOutcome p4 M s virt r s' := by
  have hunmapped : ∀ π : List (Fin 512), π <+: path virt → tree p4 s.mem π = none →
      M virt = none := by
    intro π hpre hnone
    rw [← inv.pages virt hv]
    exact walk_eq_none_of_isPrefix hnone hpre
  have hdown4 := walkDown_spec inv (π := []) (Nat.succ_pos 2) (tree_nil p4 s.mem)
    (p4Idx virt) false
  rw [unmapPage, if_neg (not_not_intro hv.1), hdown4, nil_append]
  -- the walk ends where the tree does
  cases h3 : tree p4 s.mem [p4Idx virt] with
  | none =>
    exact ⟨_, s, rfl, .notMapped (hunmapped [p4Idx virt] ⟨_, rfl⟩ h3)⟩
  | some l3 =>
    have hdown3 := walkDown_spec inv (by simp) h3 (p3Idx virt) true
    dsimp only
    rw [hdown3]
    cases h2 : tree p4 s.mem ([p4Idx virt] ++ [p3Idx virt]) with
    | none =>
      exact ⟨_, s, rfl, .notMapped (hunmapped [p4Idx virt, p3Idx virt] ⟨_, rfl⟩ h2)⟩
    | some l2 =>
      have hdown2 := walkDown_spec inv (π := [p4Idx virt, p3Idx virt]) (by simp) h2
        (p2Idx virt) true
      dsimp only
      rw [hdown2]
      cases h1 : tree p4 s.mem ([p4Idx virt, p3Idx virt] ++ [p2Idx virt]) with
      | none =>
        exact ⟨_, s, rfl, .notMapped (hunmapped (tablePath virt) (tablePath_isPrefix virt) h1)⟩
      | some l1 =>
        dsimp only
        cases hpresent : (s.mem l1 (p1Idx virt)).isPresent with
        | false =>
          exact ⟨.error .notMapped, s, rfl, .notMapped (hunmapped (path virt)
            (prefix_refl _) (tree_eq_none_of_not_present h1 hpresent))⟩
        | true =>
          have hM : M virt = some (s.mem l1 (p1Idx virt)).addr := by
            rw [← inv.pages virt hv]
            exact inv.tree_of_present (π := tablePath virt) (Nat.lt_succ_self 3) h1 hpresent
          obtain ⟨s', hreclaim, inv', hpruned, hlog⟩ := eraseLeaf_spec inv hv h3 h2 h1
          refine ⟨.ok (s.mem l1 (p1Idx virt)).addr, s', ?_, .ok hM inv' hpruned hlog⟩
          rw [hreclaim]
          rfl

/-! ## translate -/

/-- `translate` follows the tree to the page of the address and adds the offset. -/
theorem translate_spec (inv : Inv p4 M s) (hv : virt.toNat < 2 ^ 48) :
    translate p4 s.mem virt = some ((M (pageOf virt)).map fun f => f + (virt &&& 0xFFF#64)) := by
  have hM : tree p4 s.mem (path virt) = M (pageOf virt) := by
    rw [← path_pageOf]
    exact inv.pages _ (isPage_pageOf hv)
  rw [← hM, path]
  -- at each level, either nothing is present or the walk goes on
  have hlevel : ∀ (π : List (Fin 512)) (a : Word) (i : Fin 512), π.length < 4 →
      tree p4 s.mem π = some a →
      ((s.mem a i).isPresent = false ∧ tree p4 s.mem (π ++ [i]) = none) ∨
      ((s.mem a i).isPresent = true ∧ (s.mem a i).isHuge = false ∧
        (s.mem a i).frame = some (s.mem a i).addr ∧
        tree p4 s.mem (π ++ [i]) = some (s.mem a i).addr) := by
    intro π a i hπ ha
    cases hpresent : (s.mem a i).isPresent with
    | false => exact .inl ⟨rfl, tree_eq_none_of_not_present ha hpresent⟩
    | true =>
      exact .inr ⟨rfl, inv.clean π a i hπ ha hpresent, inv.frame_of_present hπ ha hpresent,
        inv.tree_of_present hπ ha hpresent⟩
  have hstop : ∀ π : List (Fin 512), π <+: path virt → tree p4 s.mem π = none →
      tree p4 s.mem [p4Idx virt, p3Idx virt, p2Idx virt, p1Idx virt] = none :=
    fun π hpre hnone => walk_eq_none_of_isPrefix hnone hpre
  unfold translate
  rcases hlevel [] p4 (p4Idx virt) (by decide) (tree_nil p4 s.mem) with
    ⟨hp4, hn4⟩ | ⟨hp4, -, hf4, ht4⟩
  · rw [hstop [p4Idx virt] ⟨_, rfl⟩ hn4]
    simp [hp4]
  simp only [hp4, hf4]
  rcases hlevel [p4Idx virt] _ (p3Idx virt) (by simp) ht4 with
    ⟨hp3, hn3⟩ | ⟨hp3, hh3, hf3, ht3⟩
  · rw [hstop [p4Idx virt, p3Idx virt] ⟨_, rfl⟩ hn3]
    simp [hp3]
  simp only [hp3, hh3, hf3]
  rcases hlevel [p4Idx virt, p3Idx virt] _ (p2Idx virt) (by simp) ht3 with
    ⟨hp2, hn2⟩ | ⟨hp2, hh2, hf2, ht2⟩
  · rw [hstop (tablePath virt) (tablePath_isPrefix virt) hn2]
    simp [hp2]
  simp only [hp2, hh2, hf2]
  rcases hlevel (tablePath virt) _ (p1Idx virt) (Nat.lt_succ_self 3) ht2 with
    ⟨hp1, hn1⟩ | ⟨hp1, -, -, ht1⟩
  · rw [hstop (path virt) (prefix_refl _) hn1]
    simp [hp1]
  · simp only [hp1, Bool.not_true, Bool.false_eq_true, if_false]
    have hleaf : tree p4 s.mem [p4Idx virt, p3Idx virt, p2Idx virt, p1Idx virt] = _ := ht1
    rw [hleaf, map_some]

end OpenOS.Memory.PageTable
