/-
  What mapping and protecting pages does to the permissions of an address.

  The processor grants what every entry on the path grants.  Mapping a page
  writes its P1 entry and makes the entries above it user-accessible, so other
  addresses can only gain user access; `mprotect` writes P1 entries only.
-/

import OpenOS.Memory.PageLoop

namespace OpenOS.Memory.PageTable

open OpenOS.Base List Entry Option Entries

/-- What flags allow. -/
def PageTableFlags.perm (flags : PageTableFlags) : Perm where
  writable := flags.contains .writable
  user := flags.contains .userAccessible
  executable := !flags.contains .noExecute

/-- What both allow. -/
def Perm.and (a b : Perm) : Perm where
  writable := a.writable && b.writable
  user := a.user && b.user
  executable := a.executable && b.executable

namespace Entries

/-- The entries above the P1 entry. -/
def passedTables (E : Entries) (v : Word) : List Entry := [1, 2, 3].filterMap fun k => E (level v k)

/-- What the entries above the P1 entry allow. -/
def tablePerm (E : Entries) (v : Word) : Perm where
  writable := (E.passedTables v).all isWritable
  user := (E.passedTables v).all isUser
  executable := (E.passedTables v).all fun e => !e.isNoExecute

variable {E E' : Entries}

theorem perm_congr (h : ∀ k, 1 ≤ k → k ≤ 4 → E' (level v k) = E (level v k)) :
    E'.perm v = E.perm v := by
  have hpassed : E'.passed v = E.passed v := by
    refine filterMap_congr fun k hk => ?_
    simp only [mem_cons, not_mem_nil, or_false] at hk
    exact h k (by omega) (by omega)
  rw [perm, perm, phys_congr h, hpassed]

theorem tablePerm_congr (h : ∀ k, 1 ≤ k → k ≤ 3 → E' (level v k) = E (level v k)) :
    E'.tablePerm v = E.tablePerm v := by
  have hpassed : E'.passedTables v = E.passedTables v := by
    refine filterMap_congr fun k hk => ?_
    simp only [mem_cons, not_mem_nil, or_false] at hk
    exact h k (by omega) (by omega)
  rw [tablePerm, tablePerm, hpassed]

theorem perm_of_page (he : E (path v) = some e) (hpresent : e.isPresent = true) :
    E.perm v = some ((E.tablePerm v).and e.flags.perm) := by
  have hphys : E.phys v = some (some (e.addr + (v &&& 0xFFF#64))) := by
    rw [phys_of_page he, leafPhys, hpresent]
    rfl
  have hpassed : E.passed v = E.passedTables v ++ [e] := by
    rw [passed, passedTables, show [1, 2, 3, 4] = [1, 2, 3] ++ [4] from rfl, filterMap_append]
    congr 1
    rw [filterMap_cons_some (by rw [level_four]; exact he)]
    rfl
  rw [perm, hphys, hpassed]
  simp only [all_append, all_cons, all_nil, Bool.and_true]
  rfl

/-- Only a huge P4 entry makes `translate` panic. -/
theorem Coherent.phys_ne_none (hE : E.Coherent)
    (h : ∀ e, E (level v 1) = some e → e.isPresent = true → e.isHuge = false) :
    E.phys v ≠ none := by
  obtain ⟨k, e, hk, hk4, he, hbelow⟩ := hE.exists_deepest v
  rw [phys_of_deepest hk hk4 he hbelow]
  by_cases hpresent : e.isPresent = true
  · by_cases hroot : k = 1
    · subst hroot
      have hframe : e.frame.isSome = true := by
        rw [frame_eq_some_of_present hpresent (h e he hpresent)]
        rfl
      have hnext := (hE.below_level (k := 1) (by decide) (by decide)).mpr
        (by rw [he]; exact hframe)
      rw [hbelow 2 (by decide) (by decide)] at hnext
      cases hnext
    · obtain rfl | rfl | rfl : k = 2 ∨ k = 3 ∨ k = 4 := by omega
      all_goals
        simp only [leafPhys, hpresent]
        exact some_ne_none _
  · unfold leafPhys
    rw [Bool.eq_false_iff.mpr hpresent]
    exact some_ne_none _

theorem UserVia.mono (h : E.UserVia P v) (hP : P ⊆ P') : E.UserVia P' v :=
  fun k hk hk4 e he => (h k hk hk4 e he).imp_right fun hmem => hP hmem

/-- Entries that are not passed do not matter. -/
theorem UserVia.of_disjoint (h : E.UserVia P v) (hP : ∀ k, 1 ≤ k → k ≤ 4 → level v k ∉ P) :
    E.UserVia ∅ v :=
  fun k hk hk4 e he => (h k hk hk4 e he).imp_right fun hmem => absurd hmem (hP k hk hk4)

end Entries

namespace Space

variable {S : Space}

/-- An address outside the mapped pages can only gain user access. -/
theorem Changed.perm_eq_iff (h : S.Changed Q D n S') (hv : path v ∉ D) :
    S'.entry.perm v = S.entry.perm v ↔
      (S.entry.Mapped v → S.entry.UserVia ↑Q v → S.entry.UserVia ∅ v) := by
  rw [Entries.perm_eq_iff (h.phys v hv)]
  refine imp_congr_right fun hmapped => ?_
  have huser := h.userVia v ∅ hv hmapped
  rw [Set.union_empty] at huser
  rw [and_iff_right (h.writable v hv hmapped), and_iff_right (h.executable v hv hmapped), huser]
  exact ⟨Iff.mp, fun hgain => ⟨hgain, fun h => h.mono (Set.empty_subset _)⟩⟩

/-- An address that shares no entry with the mapped pages is as before. -/
theorem Changed.same_of_apart (h : S.Changed Q D n S') (hv : path v ∉ D)
    (hQ : ∀ k, 1 ≤ k → k ≤ 4 → level v k ∉ Q) :
    S'.entry.phys v = S.entry.phys v ∧ S'.entry.perm v = S.entry.perm v :=
  ⟨h.phys v hv, (h.perm_eq_iff hv).mpr fun _ huser => huser.of_disjoint hQ⟩

theorem phys_ne_none_of_not_blocked (hS : S.Valid) (h : ¬ S.Blocked (level v 1)) :
    S.entry.phys v ≠ none := by
  refine hS.coherent.phys_ne_none fun e he hpresent => ?_
  by_contra hhuge
  refine h ⟨e, he, hpresent, Bool.eq_true_of_not_eq_false hhuge, ?_⟩
  rintro ⟨hlen, -⟩
  rw [length_level (by decide)] at hlen
  omega

/-- Unmapping pages leaves an address alone if it is not mapped, or if it is in
    none of the pages and does not become user-accessible. -/
theorem unmapAll_same_iff (hS : S.Valid) (h : mapAll 0#64 ws S = some S') :
    S'.entry.phys v = S.entry.phys v ∧ S'.entry.perm v = S.entry.perm v ↔
      (S.entry.Mapped v →
        path v ∉ pathsOf ws ∧ (S.entry.UserVia ↑(levelsOf ws) v → S.entry.UserVia ∅ v)) := by
  have hchanged := mapAll_changed hS h
  by_cases hv : path v ∈ pathsOf ws
  · have hafter : S'.entry.phys v = some none := phys_of_mapAll hS h hv
    have hfree : ¬ S.Blocked (level v 1) := by
      obtain ⟨w, hw, hpath⟩ := hv
      have hsome : (mapAll 0#64 ws S).isSome = true := by
        rw [h]
        rfl
      refine ((isSome_mapAll hS).mp hsome).1 _ (mem_levelsOf.mpr ?_)
      exact ⟨w, hw, 1, by decide, by decide, level_eq_of_le (k := 4) (by decide) hpath⟩
    rw [hafter]
    constructor
    · rintro ⟨hsame, -⟩ ⟨a, ha⟩
      rw [ha] at hsame
      cases hsame
    · intro hmapped
      have hbefore : S.entry.phys v = some none := by
        cases hphys : S.entry.phys v with
        | none => exact absurd hphys (phys_ne_none_of_not_blocked hS hfree)
        | some o =>
          cases o with
          | none => rfl
          | some a => exact absurd hv (hmapped ⟨a, hphys⟩).1
      refine ⟨hbefore.symm, ?_⟩
      rw [perm, perm, hafter, hbefore]
  · rw [and_iff_right (hchanged.phys v hv), hchanged.perm_eq_iff hv]
    exact imp_congr_right fun _ => (and_iff_right hv).symm

/-- New flags change nothing for an address exactly if its page has none of the
    range's P1 entries, or one that allowed the same below its tables. -/
theorem protectAll_same_iff {flags : PageTableFlags} (hflags : flags.contains .present = true)
    (ws : List Word) :
    (protectAll flags ws S).entry.phys v = S.entry.phys v ∧
        (protectAll flags ws S).entry.perm v = S.entry.perm v ↔
      (path v ∈ pathsOf ws → ∀ e, S.entry (path v) = some e → e.isPresent = true →
        (S.entry.tablePerm v).and flags.perm = (S.entry.tablePerm v).and e.flags.perm) := by
  have hentry := entry_protectAll hflags ws S
  have htables : ∀ k, 1 ≤ k → k ≤ 3 →
      (protectAll flags ws S).entry (level v k) = S.entry (level v k) := by
    intro k hk hk3
    rw [hentry, if_neg]
    rintro ⟨w, -, heq⟩
    have := eq_of_level_eq (by omega) (by decide) (heq.trans (level_four w).symm)
    omega
  have hsame : (protectAll flags ws S).entry (path v) = S.entry (path v) →
      (protectAll flags ws S).entry.phys v = S.entry.phys v ∧
        (protectAll flags ws S).entry.perm v = S.entry.perm v := by
    intro hpage
    have hall : ∀ k, 1 ≤ k → k ≤ 4 →
        (protectAll flags ws S).entry (level v k) = S.entry (level v k) := by
      intro k hk hk4
      by_cases hlast : k = 4
      · rwa [hlast]
      · exact htables k hk (by omega)
    exact ⟨phys_congr hall, perm_congr hall⟩
  by_cases hv : path v ∈ pathsOf ws
  · rw [forall_prop_of_true hv]
    have hpage := hentry (path v)
    rw [if_pos hv] at hpage
    cases he : S.entry (path v) with
    | none =>
      rw [he] at hpage hsame
      exact iff_of_true (hsame hpage) fun e h => nomatch h
    | some e =>
      rw [he, map_some] at hpage
      cases hpresent : e.isPresent with
      | false =>
        rw [reflag, hpresent] at hpage
        rw [he] at hsame
        refine iff_of_true (hsame hpage) fun e' h hpresent' => ?_
        cases h
        rw [hpresent] at hpresent'
        cases hpresent'
      | true =>
        rw [reflag, if_pos hpresent] at hpage
        have hpresent' : (e.setFlags flags).isPresent = true := by
          rw [isPresent, flags_setFlags, hflags]
        have hphys : (protectAll flags ws S).entry.phys v = S.entry.phys v := by
          rw [phys_of_page hpage, phys_of_page he, leafPhys, leafPhys, hpresent, hpresent',
            addr_setFlags]
        rw [and_iff_right hphys, perm_of_page hpage hpresent',
          perm_of_page he hpresent, flags_setFlags,
          tablePerm_congr htables, some.injEq]
        constructor
        · intro h e' he' _
          cases he'
          exact h
        · intro h
          exact h e rfl hpresent
  · have hpage := hentry (path v)
    rw [if_neg hv] at hpage
    exact iff_of_true (hsame hpage) fun h => absurd h hv

end Space

end OpenOS.Memory.PageTable
