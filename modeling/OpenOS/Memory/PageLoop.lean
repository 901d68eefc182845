/-
  Mapping one page after the other: `mapAll` writes the same leaf for each,
  `fill` takes a frame for each and stops when there is none.

  Whether a loop gets to its end is a matter of counting: the frames it needs are
  the tables that the paths of all its pages lack, and for `fill` one for each
  page.
-/

import OpenOS.Memory.MapRefine

namespace OpenOS.Memory.PageTable

open OpenOS.Base List Finset Option Entry

/-- `n` pages from `virt` on. -/
def pages (virt : Word) (n : Nat) : List Word :=
  (List.range n).map fun i => virt + BitVec.ofNat 64 i * pageSize

namespace Space

/-! ## Counting -/

/-- The paths that mapping these pages enters. -/
def levelsOf (ws : List Word) : Finset (List (Fin 512)) := ws.foldr (fun w Q => levels w ∪ Q) ∅

/-- The paths of these pages. -/
def pathsOf (ws : List Word) : Set (List (Fin 512)) := { π | ∃ w ∈ ws, π = path w }

instance decidablePathsOf (ws : List Word) (π : List (Fin 512)) : Decidable (π ∈ pathsOf ws) :=
  inferInstanceAs (Decidable (∃ w ∈ ws, π = path w))

/-- How many tables mapping these pages needs. -/
def used (S : Space) (ws : List Word) : Nat := (S.lacking (levelsOf ws)).card

theorem levelsOf_cons (w : Word) (ws : List Word) :
    levelsOf (w :: ws) = levels w ∪ levelsOf ws := rfl

variable {S : Space}

theorem mem_levelsOf : ρ ∈ levelsOf ws ↔ ∃ w ∈ ws, ∃ j, 1 ≤ j ∧ j ≤ 3 ∧ ρ = level w j := by
  induction ws with
  | nil => simp [levelsOf]
  | cons w ws ih =>
    rw [levelsOf_cons, mem_union, ih, mem_levels]
    simp

theorem pathsOf_cons (w : Word) (ws : List Word) : pathsOf (w :: ws) = {path w} ∪ pathsOf ws := by
  ext π
  simp [pathsOf]

theorem used_nil (S : Space) : S.used [] = 0 := by
  simp [used, levelsOf, lacking]

/-- The tables needed are those of the first page, and then those still needed
    for the others. -/
theorem used_cons (h : S.Changed (levels w) D n S') (ws : List Word) :
    S.used (w :: ws) = (S.lacking (levels w)).card + S'.used ws := by
  refine lacking_union_card S S' ?_
  intro ρ hρ
  obtain ⟨v, -, m, hm, hm3, rfl⟩ := mem_levelsOf.mp hρ
  exact h.isTable v m hm hm3

/-- Nothing comes in the way of the pages of a list by mapping another. -/
theorem blocked_levelsOf (h : S.Changed Q D n S') (hρ : ρ ∈ levelsOf ws) :
    S'.Blocked ρ ↔ S.Blocked ρ := by
  obtain ⟨v, -, m, hm, hm3, rfl⟩ := mem_levelsOf.mp hρ
  exact h.blocked v m hm hm3

/-! ## The same leaf for every page -/

def mapAll (leaf : Entry) : List Word → Space → Option Space
  | [], S => some S
  | w :: ws, S => (S.map w leaf).bind (mapAll leaf ws)

theorem isSome_mapAll (hS : S.Valid) : (mapAll leaf ws S).isSome = true ↔
      (∀ ρ ∈ levelsOf ws, ¬ S.Blocked ρ) ∧ S.used ws ≤ S.free.card := by
  induction ws generalizing S with
  | nil => simp [mapAll, used, levelsOf, lacking]
  | cons w ws ih =>
    have hone := isSome_map hS w leaf
    have hsplit : (∀ ρ ∈ levelsOf (w :: ws), ¬ S.Blocked ρ) ↔
        (∀ ρ ∈ levels w, ¬ S.Blocked ρ) ∧ ∀ ρ ∈ levelsOf ws, ¬ S.Blocked ρ := by
      exact forall_mem_union
    rw [mapAll, hsplit]
    cases hmap : S.map w leaf with
    | none =>
      rw [hmap] at hone
      refine iff_of_false (by simp) ?_
      rintro ⟨⟨hfree, -⟩, hused⟩
      refine absurd (hone.mpr ⟨hfree, ?_⟩) (by simp)
      refine le_trans (card_le_card ?_) hused
      exact filter_subset_filter _ subset_union_left
    | some S' =>
      rw [hmap] at hone
      have hchanged := map_changed hS hmap
      have hcard := hchanged.card
      rw [bind_some, ih hchanged.valid, used_cons hchanged, and_iff_right (hone.mp rfl).1]
      refine and_congr ?_ (by omega)
      exact forall_congr' fun ρ => imp_congr_right fun hρ =>
        not_congr (blocked_levelsOf hchanged hρ)

theorem mapAll_changed (hS : S.Valid)
    (h : mapAll leaf ws S = some S') : S.Changed (levelsOf ws) (pathsOf ws) 0 S' := by
  induction ws generalizing S with
  | nil =>
    cases h
    have hrefl := Changed.refl hS
    rwa [show (∅ : Set (List (Fin 512))) = pathsOf [] by simp [pathsOf]] at hrefl
  | cons w ws ih =>
    obtain ⟨S₁, hmap, hrest⟩ := bind_eq_some_iff.mp h
    have hfirst := map_changed hS hmap
    rw [pathsOf_cons]
    exact hfirst.trans (ih hfirst.valid hrest)

/-- Every page has the leaf at the end. -/
theorem phys_of_mapAll (hS : S.Valid) (h : mapAll leaf ws S = some S') (hv : path v ∈ pathsOf ws) :
    S'.entry.phys v = leafPhys 4 v leaf := by
  induction ws generalizing S with
  | nil =>
    obtain ⟨w, hw, -⟩ := hv
    cases hw
  | cons w ws ih =>
    obtain ⟨S₁, hmap, hrest⟩ := bind_eq_some_iff.mp h
    have hvalid := (map_changed hS hmap).valid
    by_cases hlater : path v ∈ pathsOf ws
    · exact ih hvalid hrest hlater
    have hfirst : path v = path w := by
      rw [pathsOf_cons] at hv
      exact hv.resolve_right hlater
    rw [(mapAll_changed hvalid hrest).phys v hlater]
    exact phys_of_map hmap hfirst

/-! ## A frame for every page -/

/-- How `fill` ends. -/
inductive Filled
  | done (S : Space)
  | outOfMemory (S : Space)
  | panic

/-- Take the lowest free frame for each page and map it. -/
def fill (flags : PageTableFlags) : List Word → Space → Filled
  | [], S => .done S
  | w :: ws, S =>
    if h : S.free.Nonempty then
      match (S.take (S.free.min' h)).map w (pack (S.free.min' h) flags) with
      | none => .panic
      | some S' => fill flags ws S'
    else .outOfMemory S

section FillStep

variable {flags : PageTableFlags}

theorem fill_of_empty (h : S.free = ∅) : fill flags (w :: ws) S = .outOfMemory S := by
  rw [fill, dif_neg (not_nonempty_iff_eq_empty.mpr h)]

theorem fill_of_none (hne : S.free.Nonempty)
    (h : (S.take (S.free.min' hne)).map w (pack (S.free.min' hne) flags) = none) :
    fill flags (w :: ws) S = .panic := by
  rw [fill, dif_pos hne, h]

theorem fill_of_some (hne : S.free.Nonempty)
    (h : (S.take (S.free.min' hne)).map w (pack (S.free.min' hne) flags) = some S') :
    fill flags (w :: ws) S = fill flags ws S' := by
  rw [fill, dif_pos hne, h]

end FillStep

/-- Whenever a page gets its frame, there are enough for the tables on its path. -/
def Suffices (S : Space) (ws : List Word) : Prop :=
  ∀ i (hi : i < ws.length), S.used (ws.take i) + i < S.free.card →
    (∀ ρ ∈ levels ws[i], ¬ S.Blocked ρ) ∧ S.used (ws.take (i + 1)) + i + 1 ≤ S.free.card

variable {flags : PageTableFlags}

theorem take_map_changed (hS : S.Valid) (hf : f ∈ S.free) (h : (S.take f).map w leaf = some S') :
    S.Changed (levels w) {path w} 1 S' := by
  have htake := take_changed hS hf
  have hall := htake.trans (map_changed htake.valid h)
  rwa [Set.empty_union] at hall

/-- The condition for the first page and that for the others. -/
theorem suffices_cons (h : S.Changed (levels w) {path w} 1 S')
    (hfree : ∀ ρ ∈ levels w, ¬ S.Blocked ρ)
    (hused : ∀ l, S.used (w :: l) = S.used [w] + S'.used l) :
    S'.Suffices ws ↔ S.Suffices (w :: ws) := by
  have hcard : S.free.card = S'.free.card + S.used [w] + 1 := by
    rw [h.card, used_cons h [], used_nil]
    rfl
  have hlevel : ∀ v, (∀ ρ ∈ levels v, ¬ S'.Blocked ρ) ↔ ∀ ρ ∈ levels v, ¬ S.Blocked ρ := by
    intro v
    refine forall_congr' fun ρ => imp_congr_right fun hρ => not_congr ?_
    obtain ⟨m, hm, hm3, rfl⟩ := mem_levels.mp hρ
    exact h.blocked v m hm hm3
  constructor
  · intro hsuff i hi hlt
    cases i with
    | zero =>
      refine ⟨hfree, ?_⟩
      rw [take_succ_cons, take_zero]
      omega
    | succ i =>
      rw [take_succ_cons, hused (ws.take i)] at hlt
      rw [length_cons] at hi
      obtain ⟨hnext, hle⟩ := hsuff i (by omega) (by omega)
      rw [take_succ_cons, hused (ws.take (i + 1))]
      exact ⟨(hlevel _).mp hnext, by omega⟩
  · intro hsuff i hi hlt
    have hall := hsuff (i + 1) (by rw [length_cons]; omega)
    rw [take_succ_cons, take_succ_cons, hused (ws.take i), hused (ws.take (i + 1))] at hall
    obtain ⟨hnext, hle⟩ := hall (by omega)
    exact ⟨(hlevel _).mpr hnext, by omega⟩

theorem fill_ne_panic_iff (hS : S.Valid) : fill flags ws S ≠ .panic ↔ S.Suffices ws := by
  induction ws generalizing S with
  | nil => exact iff_of_true (by simp [fill]) fun i hi => absurd hi (Nat.not_lt_zero i)
  | cons w ws ih =>
    rw [fill]
    by_cases hne : S.free.Nonempty
    · rw [dif_pos hne]
      have hf := S.free.min'_mem hne
      have htake := take_changed hS hf
      have hone := isSome_map htake.valid w (pack (S.free.min' hne) flags)
      have hlack : ((S.take (S.free.min' hne)).lacking (levels w)).card = S.used [w] := by
        show (S.lacking (levels w)).card = (S.lacking (levels w ∪ ∅)).card
        rw [union_empty]
      have hcard : (S.take (S.free.min' hne)).free.card + 1 = S.free.card := card_erase_add_one hf
      cases hmap : (S.take (S.free.min' hne)).map w (pack (S.free.min' hne) flags) with
      | none =>
        rw [hmap] at hone
        refine iff_of_false (by simp) fun hsuff => ?_
        obtain ⟨hfree, hused⟩ := hsuff 0 (by simp) (by rw [take_zero, used_nil]; omega)
        refine absurd (hone.mpr ⟨hfree, ?_⟩) (by simp)
        simp only [take_succ_cons, take_zero] at hused
        omega
      | some S' =>
        rw [hmap] at hone
        have hchanged := take_map_changed hS hf hmap
        have hused : ∀ l, S.used (w :: l) = S.used [w] + S'.used l := by
          intro l
          rw [used_cons hchanged l, used_cons hchanged [], used_nil, Nat.add_zero]
        rw [ih hchanged.valid]
        exact suffices_cons hchanged (hone.mp rfl).1 hused
    · rw [dif_neg hne]
      refine iff_of_true (by simp) fun i hi hlt => ?_
      rw [not_nonempty_iff_eq_empty.mp hne, card_empty] at hlt
      omega

/-- The loop has mapped all pages, or those before the one without a frame. -/
theorem fill_changed (hS : S.Valid) :
    (∀ S', fill flags ws S = .done S' →
      S.Changed (levelsOf ws) (pathsOf ws) ws.length S') ∧
    ∀ S', fill flags ws S = .outOfMemory S' → S'.free = ∅ ∧ ∃ i < ws.length,
      S.Changed (levelsOf (ws.take i)) (pathsOf (ws.take i)) i S' := by
  have hnil : S.Changed (levelsOf []) (pathsOf []) 0 S := by
    have hrefl := Changed.refl hS
    rwa [show (∅ : Set (List (Fin 512))) = pathsOf [] by simp [pathsOf]] at hrefl
  induction ws generalizing S with
  | nil =>
    refine ⟨fun S' h => ?_, fun S' h => by cases h⟩
    obtain rfl := Filled.done.inj h
    exact hnil
  | cons w ws ih =>
    rw [fill]
    by_cases hne : S.free.Nonempty
    · rw [dif_pos hne]
      have hf := S.free.min'_mem hne
      cases hmap : (S.take (S.free.min' hne)).map w (pack (S.free.min' hne) flags) with
      | none => exact ⟨fun S' h => (nomatch h), fun S' h => (nomatch h)⟩
      | some S₁ =>
        have hfirst := take_map_changed hS hf hmap
        have hrefl := Changed.refl hfirst.valid
        rw [show (∅ : Set (List (Fin 512))) = pathsOf [] by simp [pathsOf]] at hrefl
        obtain ⟨hdone, hstop⟩ := ih hfirst.valid hrefl
        refine ⟨fun S' h => ?_, fun S' h => ?_⟩
        · rw [pathsOf_cons, length_cons, Nat.add_comm]
          exact hfirst.trans (hdone S' h)
        · obtain ⟨hempty, i, hi, hrest⟩ := hstop S' h
          refine ⟨hempty, i + 1, by rw [length_cons]; omega, ?_⟩
          rw [take_succ_cons, pathsOf_cons, Nat.add_comm]
          exact hfirst.trans hrest
    · rw [dif_neg hne]
      refine ⟨fun S' h => (nomatch h), fun S' h => ?_⟩
      obtain rfl := Filled.outOfMemory.inj h
      exact ⟨not_nonempty_iff_eq_empty.mp hne, 0, by simp, hnil⟩

theorem used_take_le (S : Space) (ws : List Word) (i : Nat) : S.used (ws.take i) ≤ S.used ws := by
  refine card_le_card (filter_subset_filter _ ?_)
  intro ρ hρ
  obtain ⟨w, hw, hlevel⟩ := mem_levelsOf.mp hρ
  exact mem_levelsOf.mpr ⟨w, mem_of_mem_take hw, hlevel⟩

/-- The loop gets to its end exactly if there are frames for all pages and
    their tables. -/
theorem fill_done_iff (hS : S.Valid) (hsuff : S.Suffices ws) :
    (∃ S', fill flags ws S = .done S') ↔ S.used ws + ws.length ≤ S.free.card := by
  obtain ⟨hdone, hstop⟩ : (∀ S', fill flags ws S = .done S' → _) ∧ _ := fill_changed hS
  cases hfill : fill flags ws S with
  | panic => exact absurd hfill ((fill_ne_panic_iff hS).mpr hsuff)
  | done S' =>
    have hcard : S.free.card = S'.free.card + S.used ws + ws.length := (hdone S' hfill).card
    exact iff_of_true ⟨S', rfl⟩ (by omega)
  | outOfMemory S' =>
    obtain ⟨hempty, i, hi, hchanged⟩ := hstop S' hfill
    have hcard : S.free.card = S'.free.card + S.used (ws.take i) + i := hchanged.card
    have hle := S.used_take_le ws i
    rw [hempty, card_empty] at hcard
    exact iff_of_false (fun ⟨S'', h⟩ => nomatch h) (by omega)

/-! ## New flags for every page -/

/-- `protect_page_user` on the P1 entry, if there is one. -/
def reflag (flags : PageTableFlags) (e : Entry) : Entry :=
  if e.isPresent then e.setFlags flags else e

def protect (flags : PageTableFlags) (w : Word) (S : Space) : Space :=
  match S.entry (path w) with
  | none => S
  | some e => S.setLeaf w (reflag flags e)

def protectAll (flags : PageTableFlags) : List Word → Space → Space
  | [], S => S
  | w :: ws, S => protectAll flags ws (S.protect flags w)

theorem reflag_reflag (hflags : flags.contains .present = true)
    (e : Entry) : reflag flags (reflag flags e) = reflag flags e := by
  unfold reflag
  cases hpresent : e.isPresent with
  | false => simp [hpresent]
  | true =>
    have hpresent' : (e.setFlags flags).isPresent = true := by
      rw [isPresent, flags_setFlags, hflags]
    rw [if_pos rfl, if_pos hpresent', setFlags, addr_setFlags, setFlags]

theorem entry_protect (flags : PageTableFlags) (w : Word) (S : Space) (q : List (Fin 512)) :
    (S.protect flags w).entry q =
      if q = path w then (S.entry q).map (reflag flags) else S.entry q := by
  unfold protect
  by_cases hq : q = path w
  · rw [if_pos hq, hq]
    cases he : S.entry (path w) with
    | none => exact he
    | some e => exact setLeaf_entry_self
  rw [if_neg hq]
  cases he : S.entry (path w) with
  | none => rfl
  | some e => exact Function.update_of_ne hq _ _

/-- Each P1 entry of the range gets the flags once, however often it is visited. -/
theorem entry_protectAll (hflags : flags.contains .present = true)
    (ws : List Word) (S : Space) (q : List (Fin 512)) :
    (protectAll flags ws S).entry q =
      if q ∈ pathsOf ws then (S.entry q).map (reflag flags) else S.entry q := by
  induction ws generalizing S with
  | nil =>
    rw [if_neg]
    · rfl
    · rintro ⟨w, hw, -⟩
      cases hw
  | cons w ws ih =>
    rw [protectAll, ih, entry_protect]
    have hmem : q ∈ pathsOf (w :: ws) ↔ q = path w ∨ q ∈ pathsOf ws := by
      rw [pathsOf_cons]
      rfl
    by_cases hw : q = path w
    · rw [if_pos (hmem.mpr (.inl hw))]
      split
      · rw [Option.map_map]
        congr 1
        funext e
        exact reflag_reflag hflags e
      · rfl
    · rw [if_neg hw]
      by_cases hws : q ∈ pathsOf ws
      · rw [if_pos hws, if_pos (hmem.mpr (.inr hws))]
      · rw [if_neg hws, if_neg fun h => (hmem.mp h).elim hw hws]

theorem protect_changed (flags : PageTableFlags) (w : Word) (hS : S.Valid) :
    S.Changed ∅ {path w} 0 (S.protect flags w) := by
  unfold protect
  cases he : S.entry (path w) with
  | none =>
    have hrefl := Changed.refl hS
    exact { hrefl with
      phys := fun v _ => hrefl.phys v (Set.notMem_empty _)
      writable := fun v _ => hrefl.writable v (Set.notMem_empty _)
      executable := fun v _ => hrefl.executable v (Set.notMem_empty _)
      userVia := fun v P _ => hrefl.userVia v P (Set.notMem_empty _) }
  | some e =>
    refine setLeaf_changed _ hS ?_
    refine (hS.coherent.below_level (by decide) (by decide)).mp ?_
    rw [level_four, he]
    rfl

end Space

end OpenOS.Memory.PageTable
