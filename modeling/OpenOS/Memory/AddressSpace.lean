/-
  An address space, without its memory: the entry at the end of each path of
  indices, and the frames that are free.

  `map_page` goes down three levels and writes a leaf.  Each level is one
  `enter` here: it makes the entry accessible to user mode, and hangs a new
  table behind it if there is none.
-/

import Mathlib.Data.Finset.Card
import OpenOS.Memory.UserPages

namespace OpenOS.Memory.PageTable

open Function OpenOS.Base Option Entry PageTableFlags List Finset Set

/-! ## Entries by path -/

/-- The entry at the end of each path of indices from P4. -/
abbrev Entries := List (Fin 512) → Option Entry

/-- The first `k` indices of an address. -/
def level (v : Word) (k : Nat) : List (Fin 512) := (path v).take k

/-- What an entry at depth `k` that nothing lies below says of an address: a
    present P4 entry that is no table makes `translate` panic. -/
def leafPhys (k : Nat) (v : Word) (e : Entry) : Option (Option Word) :=
  if !e.isPresent then some none
  else
    match k with
    | 4 => some (some (e.addr + (v &&& 0xFFF#64)))
    | 3 => some (some (e.addr + (v &&& 0x1FFFFF#64)))
    | 2 => some (some (e.addr + (v &&& 0x3FFFFFFF#64)))
    | _ => none

namespace Entries

/-- `translate`: the deepest entry decides. -/
def phys (E : Entries) (v : Word) : Option (Option Word) :=
  match E (level v 4), E (level v 3), E (level v 2), E (level v 1) with
  | some e, _, _, _ => leafPhys 4 v e
  | none, some e, _, _ => leafPhys 3 v e
  | none, none, some e, _ => leafPhys 2 v e
  | none, none, none, some e => leafPhys 1 v e
  | none, none, none, none => none

/-- The address is mapped. -/
def Mapped (E : Entries) (v : Word) : Prop := ∃ a, E.phys v = some (some a)

/-- The entries the processor passes. -/
def passed (E : Entries) (v : Word) : List Entry := [1, 2, 3, 4].filterMap fun k => E (level v k)

end Entries

/-- What an access may do. -/
structure Perm where
  (writable user executable : Bool)
deriving DecidableEq

/-- The permissions of a mapped address: those that every entry grants. -/
def Entries.perm (E : Entries) (v : Word) : Option Perm :=
  match E.phys v with
  | some (some _) => some
      { writable := (E.passed v).all isWritable
        user := (E.passed v).all isUser
        executable := (E.passed v).all fun e => !e.isNoExecute }
  | _ => none

/-- Every entry of an address meets a condition. -/
def Entries.Grants (E : Entries) (c : List (Fin 512) → Entry → Prop) (v : Word) : Prop :=
  ∀ k, 1 ≤ k → k ≤ 4 → ∀ e, E (level v k) = some e → c (level v k) e

def Entries.Writable (E : Entries) : Word → Prop := E.Grants fun _ e => e.isWritable = true

def Entries.Executable (E : Entries) : Word → Prop := E.Grants fun _ e => e.isNoExecute = false

/-- Accessible to user mode, if the entries at the paths `P` were. -/
def Entries.UserVia (E : Entries) (P : Set (List (Fin 512))) : Word → Prop :=
  E.Grants fun ρ e => e.isUser = true ∨ ρ ∈ P

variable {E E' : Entries}

theorem Entries.all_passed : (E.passed v).all c = true ↔ E.Grants (fun _ e => c e = true) v := by
  simp only [Entries.passed, List.all_eq_true, List.mem_filterMap]
  constructor
  · intro h k hk hk4 e he
    refine h e ⟨k, ?_, he⟩
    simp only [List.mem_cons]
    omega
  · rintro h e ⟨k, hk, he⟩
    simp only [List.mem_cons, List.not_mem_nil, or_false] at hk
    exact h k (by omega) (by omega) e he

theorem Entries.executable_iff :
    E.Executable v ↔ (E.passed v).all (fun e => !e.isNoExecute) = true := by
  rw [Entries.all_passed]
  simp [Entries.Executable]

theorem Entries.userVia_empty_iff : E.UserVia ∅ v ↔ (E.passed v).all isUser = true := by
  rw [Entries.all_passed]
  simp [Entries.UserVia]

/-- Translation and permissions are the same if the translation is and, where
    there is one, the three kinds of access are. -/
theorem Entries.perm_eq_iff (hphys : E'.phys v = E.phys v) :
    E'.perm v = E.perm v ↔ (E.Mapped v → (E'.Writable v ↔ E.Writable v) ∧
      (E'.Executable v ↔ E.Executable v) ∧ (E'.UserVia ∅ v ↔ E.UserVia ∅ v)) := by
  unfold Entries.perm
  rw [hphys]
  by_cases hmapped : E.Mapped v
  · obtain ⟨a, ha⟩ := hmapped
    rw [ha]
    simp only [some.injEq, Perm.mk.injEq]
    have hw : E'.Writable v ↔ (E'.passed v).all isWritable = true := Entries.all_passed.symm
    have hw' : E.Writable v ↔ (E.passed v).all isWritable = true := Entries.all_passed.symm
    rw [hw, hw', Entries.executable_iff, Entries.executable_iff, Entries.userVia_empty_iff,
      Entries.userVia_empty_iff, ← Bool.eq_iff_iff, ← Bool.eq_iff_iff,
      ← Bool.eq_iff_iff]
    tauto
  · refine iff_of_true ?_ fun h => absurd h hmapped
    split
    · rename_i a ha
      exact absurd ⟨a, ha⟩ hmapped
    · rfl

/-! ## Paths -/

theorem length_level (hk : k ≤ 4) : (level v k).length = k := by
  rw [level, length_take, length_path]
  omega

theorem level_four (v : Word) : level v 4 = path v := rfl

/-- The last index of each level. -/
def levelIdx (v : Word) : Nat → Fin 512
  | 1 => p4Idx v
  | 2 => p3Idx v
  | 3 => p2Idx v
  | _ => p1Idx v

theorem level_succ (hk : k < 4) : level v (k + 1) = level v k ++ [levelIdx v (k + 1)] := by
  match k, hk with
  | 0, _ => rfl
  | 1, _ => rfl
  | 2, _ => rfl
  | 3, _ => rfl

theorem dropLast_level (hk : k < 4) : (level v (k + 1)).dropLast = level v k := by
  rw [level_succ hk, dropLast_concat]

theorem eq_of_level_eq (hj : j ≤ 4) (hk : k ≤ 4) (h : level v j = level w k) : j = k := by
  have hlen := congrArg length h
  rwa [length_level hj, length_level hk] at hlen

/-- Addresses that agree up to a level agree above it. -/
theorem level_eq_of_le (hjk : j ≤ k) (h : level v k = level w k) : level v j = level w j := by
  have htake : ∀ u, level u j = (level u k).take j := by
    intro u
    rw [level, level, take_take, Nat.min_eq_left hjk]
  rw [htake v, htake w, h]

/-! ## Reading an address space -/

namespace Entries

/-- Entries lie below those that lead to a table, and below no other. -/
structure Coherent (E : Entries) : Prop where
  root : ∀ v, (E (level v 1)).isSome
  below_level : ∀ {v k}, 1 ≤ k → k < 4 →
    ((E (level v (k + 1))).isSome ↔ ((E (level v k)).bind frame).isSome)

theorem Coherent.none_below (h : E.Coherent) (hk : 1 ≤ k)
    (hnone : (E (level v k)).bind frame = none) (hkm : k < m) (hm : m ≤ 4) :
    E (level v m) = none := by
  induction m with
  | zero => omega
  | succ m ih =>
    have hbelow := h.below_level (v := v) (k := m) (by omega) (by omega)
    rw [← not_isSome_iff_eq_none, hbelow, not_isSome_iff_eq_none]
    by_cases hlast : k = m
    · rw [← hlast, hnone]
    · rw [ih (by omega) (by omega), bind_none]

/-- An entry that nothing lies below decides the translation. -/
theorem phys_of_deepest (hk : 1 ≤ k) (hk4 : k ≤ 4) (he : E (level v k) = some e)
    (hnone : ∀ m, k < m → m ≤ 4 → E (level v m) = none) : E.phys v = leafPhys k v e := by
  have h4 := hnone 4
  have h3 := hnone 3
  have h2 := hnone 2
  unfold phys
  match k, hk, hk4 with
  | 4, _, _ => rw [he]
  | 3, _, _ => rw [h4 (by decide) (by decide), he]
  | 2, _, _ => rw [h4 (by decide) (by decide), h3 (by decide) (by decide), he]
  | 1, _, _ =>
    rw [h4 (by decide) (by decide), h3 (by decide) (by decide), h2 (by decide) (by decide), he]

theorem phys_of_page (he : E (path v) = some e) : E.phys v = leafPhys 4 v e :=
  phys_of_deepest (by decide) le_rfl he fun m hm hm4 => absurd hm (Nat.not_lt.mpr hm4)

theorem Coherent.phys_of_leaf (h : E.Coherent) (hk : 1 ≤ k) (hk4 : k ≤ 4)
    (he : E (level v k) = some e) (hleaf : e.frame = none) : E.phys v = leafPhys k v e :=
  phys_of_deepest hk hk4 he fun _ => h.none_below hk (by rw [he]; exact hleaf)

theorem Coherent.exists_deepest (h : E.Coherent) (v : Word) :
    ∃ k e, 1 ≤ k ∧ k ≤ 4 ∧ E (level v k) = some e ∧ ∀ m, k < m → m ≤ 4 → E (level v m) = none := by
  by_contra hnot
  -- a level with an entry that is not the deepest has one below
  have hsome : ∀ k, 1 ≤ k → k ≤ 4 → (E (level v k)).isSome := by
    refine Nat.le_induction (fun _ => h.root v) fun k hk ih hk4 => ?_
    obtain ⟨e, he⟩ := isSome_iff_exists.mp (ih (by omega))
    by_contra hnone
    rw [h.below_level hk (by omega), not_isSome_iff_eq_none] at hnone
    exact hnot ⟨k, e, hk, by omega, he, fun _ => h.none_below hk hnone⟩
  obtain ⟨e, he⟩ := isSome_iff_exists.mp (hsome 4 (by decide) le_rfl)
  exact hnot ⟨4, e, by decide, le_rfl, he, fun m hm hm4 => by omega⟩

theorem phys_congr (h : ∀ k, 1 ≤ k → k ≤ 4 → E' (level v k) = E (level v k)) :
    E'.phys v = E.phys v := by
  unfold phys
  rw [h 1 (by decide) (by decide), h 2 (by decide) (by decide), h 3 (by decide) (by decide),
    h 4 (by decide) (by decide)]

/-! ## Hanging a table behind an entry -/

/-- The entry `e` at `ρ`, and a table with this content behind it. -/
def hang (E : Entries) (ρ : List (Fin 512)) (e : Entry) (content : Fin 512 → Entry) : Entries :=
  fun q =>
    if q = ρ then some e
    else if q.dropLast = ρ then q.getLast?.map content
    else E q

@[simp] theorem hang_self (E : Entries) (ρ : List (Fin 512)) (e : Entry)
    (content : Fin 512 → Entry) : E.hang ρ e content ρ = some e := by
  rw [hang, if_pos rfl]

@[simp] theorem hang_child (E : Entries) (ρ : List (Fin 512)) (e : Entry)
    (content : Fin 512 → Entry) (j : Fin 512) :
    E.hang ρ e content (ρ ++ [j]) = some (content j) := by
  rw [hang]
  simp

theorem hang_other (E : Entries) (e : Entry) (content : Fin 512 → Entry) (hne : q ≠ ρ)
    (hchild : q.dropLast ≠ ρ) : E.hang ρ e content q = E q := by
  rw [hang, if_neg hne, if_neg hchild]

/-- Addresses that do not pass the entry keep all their entries. -/
theorem hang_level_of_ne (hne : level v k ≠ level w k) (hk : k ≤ 4) (hm : 1 ≤ m) (hm4 : m ≤ 4) :
    E.hang (level w k) e content (level v m) = E (level v m) := by
  refine hang_other E e content ?_ ?_
  · intro h
    obtain rfl := eq_of_level_eq hm4 hk h
    exact hne h
  · intro h
    obtain ⟨j, rfl⟩ : ∃ j, m = j + 1 := ⟨m - 1, by omega⟩
    rw [dropLast_level (by omega)] at h
    obtain rfl := eq_of_level_eq (by omega) hk h
    exact hne h

/-- So do those that pass it, but for that level and the next. -/
theorem hang_level_of_far (hk : k ≤ 4) (hm : 1 ≤ m) (hm4 : m ≤ 4) (hmk : m ≠ k)
    (hmk' : m ≠ k + 1) : E.hang (level w k) e content (level v m) = E (level v m) := by
  refine hang_other E e content ?_ ?_
  · intro h
    exact hmk (eq_of_level_eq hm4 hk h)
  · intro h
    obtain ⟨j, rfl⟩ : ∃ j, m = j + 1 := ⟨m - 1, by omega⟩
    rw [dropLast_level (by omega)] at h
    have := eq_of_level_eq (by omega) hk h
    omega

theorem hang_level_self (heq : level v k = level w k) :
    E.hang (level w k) e content (level v k) = some e := by
  rw [heq, hang_self]

theorem hang_level_child (heq : level v k = level w k) (hk : k < 4) :
    E.hang (level w k) e content (level v (k + 1)) = some (content (levelIdx v (k + 1))) := by
  rw [level_succ hk, heq, hang_child]

/-- The translation of an address that passes the entry, when nothing was
    below it: the new table decides. -/
theorem phys_hang (hE : E.Coherent) (heq : level v k = level w k) (hk : 1 ≤ k) (hk4 : k < 4)
    (hleaf : (E (level v k)).bind frame = none) :
    (E.hang (level w k) e content).phys v = leafPhys (k + 1) v (content (levelIdx v (k + 1))) := by
  refine phys_of_deepest (by omega) (by omega) (hang_level_child heq hk4) ?_
  intro m hm hm4
  rw [hang_level_of_far (by omega) (by omega) hm4 (by omega) (by omega)]
  exact hE.none_below hk hleaf (by omega) hm4

/-- A table hung behind an entry that led nowhere: nothing lies below it, unless
    it is a P1 table. -/
theorem Coherent.hang (hE : E.Coherent) (hk : 1 ≤ k) (hk4 : k < 4)
    (hentry : (E (level w k)).isSome) (hleaf : (E (level w k)).bind frame = none)
    (hframe : e.frame.isSome) (hcontent : k + 1 < 4 → ∀ j, (content j).frame = none) :
    (E.hang (level w k) e content).Coherent := by
  -- whether an entry exists and leads to a table, level by level
  have hview : ∀ {v : Word} {m : Nat}, 1 ≤ m → m < 4 → level v k = level w k →
      ((E.hang (level w k) e content (level v (m + 1))).isSome ↔
        ((E.hang (level w k) e content (level v m)).bind frame).isSome) := by
    intro v m hm hm4 heq
    by_cases hmk : m = k
    · subst hmk
      rw [hang_level_child heq hk4, hang_level_self heq]
      exact iff_of_true rfl hframe
    by_cases hmk' : m = k + 1
    · subst hmk'
      rw [hang_level_child heq hk4, bind_some, hcontent hm4,
        hang_level_of_far (by omega) (by omega) (by omega) (by omega) (by omega),
        hE.none_below hk (heq ▸ hleaf) (by omega) (by omega)]
    by_cases hmk'' : m + 1 = k
    · rw [hang_level_of_far (by omega) hm (by omega) hmk hmk', ← hE.below_level hm hm4]
      subst hmk''
      rw [hang_level_self heq, heq]
      exact iff_of_true rfl hentry
    · rw [hang_level_of_far (by omega) hm (by omega) hmk hmk',
        hang_level_of_far (by omega) (by omega) (by omega) hmk'' (by omega)]
      exact hE.below_level hm hm4
  constructor
  · intro v
    by_cases heq : level v k = level w k
    · by_cases hk1 : k = 1
      · subst hk1
        rw [hang_level_self heq]
        rfl
      · rw [hang_level_of_far (by omega) (by decide) (by decide) (by omega) (by omega)]
        exact hE.root v
    · rw [hang_level_of_ne heq (by omega) (by decide) (by decide)]
      exact hE.root v
  · intro v m hm hm4
    by_cases heq : level v k = level w k
    · exact hview hm hm4 heq
    · rw [hang_level_of_ne heq (by omega) (by omega) (by omega),
        hang_level_of_ne heq (by omega) hm (by omega)]
      exact hE.below_level hm hm4

/-- The conditions on the entries of an address, when an entry at level 3 with
    nothing below it becomes two. -/
theorem grants_hang (heq : level v 3 = level w 3) (he : E (level w 3) = some e)
    (h4 : E (level v 4) = none) (hother : ∀ q d, q ≠ level w 3 → (c q d ↔ c' q d))
    (hboth : c (level w 3) e' ∧ c (level v 4) (content (p1Idx v)) ↔ c' (level w 3) e) :
    (E.hang (level w 3) e' content).Grants c v ↔ E.Grants c' v := by
  have habove : ∀ m, 1 ≤ m → m < 3 → ∀ d, (c (level v m) d ↔ c' (level v m) d) := by
    intro m hm hm3 d
    refine hother _ d ?_
    intro h
    have := eq_of_level_eq (by omega) (by decide) h
    omega
  have h4' : E.hang (level w 3) e' content (level v 4) = some (content (p1Idx v)) :=
    hang_level_child heq (by decide)
  constructor
  · intro hg m hm hm4 d hd
    by_cases hm3 : m < 3
    · refine (habove m hm hm3 d).mp (hg m hm hm4 d ?_)
      rw [hang_level_of_far (by decide) hm hm4 (by omega) (by omega), hd]
    by_cases hm3' : m = 3
    · subst hm3'
      cases he.symm.trans (heq ▸ hd)
      rw [heq]
      exact hboth.mp ⟨heq ▸ hg 3 hm hm4 _ (hang_level_self heq), hg 4 (by decide) (by decide) _ h4'⟩
    · obtain rfl : m = 4 := by omega
      rw [h4] at hd
      cases hd
  · intro hg m hm hm4 d hd
    have hboth := hboth.mpr (heq ▸ hg 3 (by decide) (by decide) e (heq ▸ he))
    by_cases hm3 : m < 3
    · rw [hang_level_of_far (by decide) hm hm4 (by omega) (by omega)] at hd
      exact (habove m hm hm3 d).mpr (hg m hm hm4 d hd)
    by_cases hm3' : m = 3
    · subst hm3'
      rw [hang_level_self heq, some.injEq] at hd
      rw [← hd, heq]
      exact hboth.1
    obtain rfl : m = 4 := by omega
    rw [h4', some.injEq] at hd
    rw [← hd]
    exact hboth.2

end Entries

/-! ## Mapping a page -/

/-- The entries of an address space and the free frames. -/
structure Space where
  entry : Entries
  free : Finset Word

namespace Space

/-- The path leads to a table. -/
def IsTable (S : Space) (ρ : List (Fin 512)) : Prop := ((S.entry ρ).bind frame).isSome = true
deriving Decidable

/-- A huge page that `map_page` does not split is in the way: only the P2 level
    splits. -/
def Blocked (S : Space) (ρ : List (Fin 512)) : Prop :=
  ∃ e, S.entry ρ = some e ∧ e.isPresent = true ∧ e.isHuge = true ∧
    ¬ (ρ.length = 3 ∧ e.Splittable)

/-- Take the lowest free frame for a table behind `ρ`. -/
def hang (S : Space) (ρ : List (Fin 512)) (flags : PageTableFlags) (content : Fin 512 → Entry) :
    Option Space :=
  if h : S.free.Nonempty then
    some ⟨S.entry.hang ρ (pack (S.free.min' h) flags) content, S.free.erase (S.free.min' h)⟩
  else none

/-- One level of `map_page`. -/
def enter (S : Space) (ρ : List (Fin 512)) : Option Space :=
  match (S.entry ρ).map patchUser with
  | none => none
  | some e =>
    if e.isPresent then
      if e.isHuge then
        if ρ.length = 3 ∧ e.Splittable then
          S.hang ρ e.splitFlags fun i => (e.splitEntry i).getD 0#64
        else none
      else some { S with entry := update S.entry ρ (some e) }
    else S.hang ρ .table fun _ => 0#64

/-- `n` levels, from level `k` on. -/
def enterFrom (w : Word) : Nat → Nat → Space → Option Space
  | _, 0, S => some S
  | k, n + 1, S => (S.enter (level w k)).bind (enterFrom w (k + 1) n)

def setLeaf (S : Space) (w : Word) (leaf : Entry) : Space :=
  { S with entry := update S.entry (path w) (some leaf) }

/-- `map_page` -/
def map (S : Space) (w : Word) (leaf : Entry) : Option Space :=
  (enterFrom w 1 3 S).map fun S' => S'.setLeaf w leaf

/-- What one level does, by what it finds: a table, nothing, or a 2 MiB page. -/
inductive Entered (S : Space) (ρ : List (Fin 512)) : Space → Prop
  | pass {e : Entry} (he : S.entry ρ = some e) (hpresent : e.isPresent = true)
      (hhuge : e.isHuge = false) :
      Entered S ρ { S with entry := update S.entry ρ (some e.patchUser) }
  | link {e : Entry} {f : Word} (he : S.entry ρ = some e) (hpresent : e.isPresent = false)
      (hf : f ∈ S.free) :
      Entered S ρ ⟨S.entry.hang ρ (pack f table) fun _ => 0#64, S.free.erase f⟩
  | split {e : Entry} {f : Word} (he : S.entry ρ = some e) (hpresent : e.isPresent = true)
      (hhuge : e.isHuge = true) (hρ : ρ.length = 3) (hsplit : e.patchUser.Splittable)
      (hf : f ∈ S.free) :
      Entered S ρ ⟨S.entry.hang ρ (pack f e.patchUser.splitFlags)
        fun i => (e.patchUser.splitEntry i).getD 0#64, S.free.erase f⟩

variable {S : Space} {flags : PageTableFlags}
   {e : Entry}

theorem hang_eq_some (h : S.hang ρ flags content = some S') :
    ∃ f ∈ S.free, S' = ⟨S.entry.hang ρ (pack f flags) content, S.free.erase f⟩ := by
  unfold hang at h
  split at h
  · rename_i hne
    exact ⟨S.free.min' hne, S.free.min'_mem hne, (some.inj h).symm⟩
  · cases h

theorem isSome_hang : (S.hang ρ flags content).isSome = true ↔ S.free.Nonempty := by
  unfold hang
  split
  · rename_i hne
    exact iff_of_true rfl hne
  · rename_i hne
    exact iff_of_false (by simp) hne

theorem entered_of_enter (h : S.enter ρ = some S') : Entered S ρ S' := by
  unfold enter at h
  cases he : S.entry ρ with
  | none =>
    rw [he] at h
    cases h
  | some e =>
    rw [he, map_some] at h
    dsimp only at h
    rw [isPresent_patchUser, isHuge_patchUser] at h
    cases hpresent : e.isPresent with
    | false =>
      rw [hpresent] at h
      obtain ⟨f, hf, rfl⟩ := hang_eq_some h
      exact .link he hpresent hf
    | true =>
      rw [hpresent, if_pos rfl] at h
      cases hhuge : e.isHuge with
      | false =>
        rw [hhuge] at h
        cases h
        exact .pass he hpresent hhuge
      | true =>
        rw [hhuge, if_pos rfl] at h
        split at h
        · rename_i hsplit
          obtain ⟨f, hf, rfl⟩ := hang_eq_some h
          exact .split he hpresent hhuge hsplit.1 hsplit.2 hf
        · cases h

/-- A level is passed unless a huge page is in the way or a frame is missing. -/
theorem isSome_enter (hentry : (S.entry ρ).isSome = true) :
    (S.enter ρ).isSome = true ↔ ¬ S.Blocked ρ ∧ (S.IsTable ρ ∨ S.free.Nonempty) := by
  obtain ⟨e, he⟩ := isSome_iff_exists.mp hentry
  have htable : S.IsTable ρ ↔ e.frame.isSome = true := by rw [IsTable, he, bind_some]
  have hblocked : S.Blocked ρ ↔
      e.isPresent = true ∧ e.isHuge = true ∧ ¬ (ρ.length = 3 ∧ e.Splittable) := by
    constructor
    · rintro ⟨e', he', h⟩
      exact some.inj (he.symm.trans he') ▸ h
    · intro h
      exact ⟨e, he, h⟩
  rw [htable, hblocked, enter, he, map_some]
  dsimp only
  rw [isPresent_patchUser, isHuge_patchUser]
  cases hpresent : e.isPresent with
  | false =>
    rw [if_neg Bool.false_ne_true, isSome_hang, frame_eq_none_of_not_present hpresent]
    simp
  | true =>
    rw [if_pos rfl]
    cases hhuge : e.isHuge with
    | false =>
      rw [frame_eq_some_of_present hpresent hhuge]
      simp
    | true =>
      have hframe : e.frame = none := by simp [frame, hhuge]
      rw [if_pos rfl, hframe]
      split
      · rename_i h
        rw [splittable_patchUser] at h
        rw [isSome_hang]
        simp [h]
      · rename_i h
        rw [splittable_patchUser] at h
        simp [h]

/-! ## What a level changes -/

/-- The entries form a tree of tables, and the free frames are frames. -/
structure Valid (S : Space) : Prop where
  coherent : S.entry.Coherent
  frames : ∀ f ∈ S.free, IsFrame f

theorem leafPhys_of_not_present (h : e.isPresent = false) : leafPhys k v e = some none := by
  unfold leafPhys
  rw [h, Bool.not_false, if_pos rfl]

theorem leafPhys_patchUser (k : Nat) (v : Word) (e : Entry) :
    leafPhys k v e.patchUser = leafPhys k v e := by
  unfold leafPhys
  rw [isPresent_patchUser, addr_patchUser]

/-- A page of a split 2 MiB page is where it was. -/
theorem leafPhys_splitEntry (hpresent : e.isPresent = true)
    (h : e.splitEntry (p1Idx v) = some e') : leafPhys 4 v e' = leafPhys 3 v e := by
  have hpresent' : e'.isPresent = true :=
    (contains_flags_splitEntry h isBit_present (by decide)).trans hpresent
  have hoffset : BitVec.ofNat 64 (p1Idx v) * pageSize + (v &&& 0xFFF#64) =
      v &&& 0x1FFFFF#64 := by
    apply BitVec.eq_of_toNat_eq
    rw [BitVec.toNat_add, BitVec.toNat_mul, BitVec.toNat_ofNat, toNat_and_mask _ _ 12 rfl,
      toNat_and_mask _ _ 21 rfl, p1Idx, index_val, show pageSize.toNat = 4096 from rfl]
    omega
  unfold leafPhys
  rw [hpresent, hpresent', (splitEntry_eq_some h).2]
  show some (some (_ + _ + _)) = some (some (_ + _))
  rw [BitVec.add_assoc, hoffset]

/-- An address that does not pass the entry keeps all its entries. -/
theorem Entered.entry_of_ne (h : Entered S (level w k) S') (hk : k ≤ 4)
    (hne : level v k ≠ level w k) (hm : 1 ≤ m) (hm4 : m ≤ 4) :
    S'.entry (level v m) = S.entry (level v m) := by
  cases h with
  | pass he hpresent hhuge =>
    refine update_of_ne ?_ _ _
    intro heq
    obtain rfl := eq_of_level_eq hm4 hk heq
    exact hne heq
  | link he hpresent hf => exact Entries.hang_level_of_ne hne hk hm hm4
  | split he hpresent hhuge hρ hsplit hf => exact Entries.hang_level_of_ne hne hk hm hm4

theorem Entered.phys (h : Entered S (level w k) S') (hS : S.Valid) (hk : 1 ≤ k) (hk3 : k ≤ 3)
    (v : Word) : S'.entry.phys v = S.entry.phys v := by
  by_cases heq : level v k = level w k
  · cases h with
    | @pass e he hpresent hhuge =>
      -- the deepest entry stays where it is, patched if it is this one
      obtain ⟨m, d, hm, hm4, hd, hnone⟩ := hS.coherent.exists_deepest v
      have hnone' : ∀ j, m < j → j ≤ 4 →
          update S.entry (level w k) (some e.patchUser) (level v j) = none := by
        intro j hj hj4
        have hne : level v j ≠ level w k := by
          intro h
          rw [← h, hnone j hj hj4] at he
          cases he
        rw [update_of_ne hne, hnone j hj hj4]
      show Entries.phys (update S.entry (level w k) (some e.patchUser)) v = _
      rw [Entries.phys_of_deepest hm hm4 hd hnone]
      by_cases hmk : level v m = level w k
      · cases he.symm.trans (hmk ▸ hd)
        rw [← leafPhys_patchUser]
        refine Entries.phys_of_deepest hm hm4 ?_ hnone'
        rw [hmk, update_self]
      · refine Entries.phys_of_deepest hm hm4 ?_ hnone'
        rw [update_of_ne hmk, hd]
    | @link e f he hpresent hf =>
      have hleaf := frame_eq_none_of_not_present hpresent
      rw [Entries.phys_hang hS.coherent heq hk (by omega) (by rw [heq, he]; exact hleaf),
        hS.coherent.phys_of_leaf hk (by omega) (heq ▸ he) hleaf,
        leafPhys_of_not_present hpresent, leafPhys_of_not_present isPresent_zero]
    | @split e f he hpresent hhuge hρ hsplit hf =>
      rw [length_level (by omega)] at hρ
      subst hρ
      have hleaf : e.frame = none := by
        simp [frame, hhuge]
      obtain ⟨e', he'⟩ := isSome_iff_exists.mp (hsplit (p1Idx v))
      have hget : (e.patchUser.splitEntry (levelIdx v (3 + 1))).getD 0#64 = e' := by
        rw [show levelIdx v (3 + 1) = p1Idx v from rfl, he', getD_some]
      rw [Entries.phys_hang hS.coherent heq hk (by omega) (by rw [heq, he]; exact hleaf), hget,
        hS.coherent.phys_of_leaf hk (by omega) (heq ▸ he) hleaf,
        leafPhys_splitEntry (by rw [isPresent_patchUser, hpresent]) he', leafPhys_patchUser]
  · exact Entries.phys_congr fun m hm hm4 => h.entry_of_ne (by omega) heq hm hm4

/-- The permissions of a mapped address after a level: they are as if the entry
    had been patched, and the page split, before. -/
theorem Entered.grants_iff (h : Entered S (level w k) S') (hS : S.Valid) (hk : 1 ≤ k) (hk3 : k ≤ 3)
    (hmapped : S.entry.Mapped v)
    (hother : ∀ q e, q ≠ level w k → (c q e ↔ c' q e))
    (hpatch : ∀ e, e.isPresent = true → (c (level w k) e.patchUser ↔ c' (level w k) e))
    (hsplit : ∀ e f i e', e.isPresent = true → IsFrame f →
      e.patchUser.splitEntry i = some e' →
      (c (level w k) (pack f e.patchUser.splitFlags) ∧ c (level w k ++ [i]) e' ↔
        c' (level w k) e)) : S'.entry.Grants c v ↔ S.entry.Grants c' v := by
  by_cases heq : level v k = level w k
  · cases h with
    | @pass e he hpresent hhuge =>
      refine forall_congr' fun m => forall_congr' fun hm => forall_congr' fun hm4 => ?_
      show (∀ e', update S.entry (level w k) (some e.patchUser) (level v m) = some e' → _) ↔ _
      by_cases hmk : level v m = level w k
      · rw [hmk, update_self, he]
        simp only [some.injEq, forall_eq']
        exact hpatch e hpresent
      · rw [update_of_ne hmk]
        exact forall_congr' fun d => imp_congr_right fun _ => hother _ d hmk
    | @link e f he hpresent hf =>
      -- the address would not be mapped
      obtain ⟨a, ha⟩ := hmapped
      rw [hS.coherent.phys_of_leaf hk (by omega) (heq ▸ he)
        (frame_eq_none_of_not_present hpresent), leafPhys_of_not_present hpresent] at ha
      cases ha
    | @split e f he hpresent hhuge hρ hsp hf =>
      rw [length_level (by omega)] at hρ
      subst hρ
      have hleaf : (S.entry (level v 3)).bind frame = none := by
        rw [heq, he]
        simp [frame, hhuge]
      obtain ⟨e', he'⟩ := isSome_iff_exists.mp (hsp (p1Idx v))
      refine Entries.grants_hang heq he
        (hS.coherent.none_below hk hleaf (by decide) (by decide)) hother ?_
      rw [he', level_succ (k := 3) (by decide), heq]
      exact hsplit e f (p1Idx v) e' hpresent (hS.frames f hf) he'
  · refine forall_congr' fun m => forall_congr' fun hm => forall_congr' fun hm4 => ?_
    have hne : level v m ≠ level w k := by
      intro h
      obtain rfl := eq_of_level_eq hm4 (by omega) h
      exact heq h
    rw [h.entry_of_ne (by omega) heq hm hm4]
    exact forall_congr' fun d => imp_congr_right fun _ => hother _ d hne

/-- A level that is given a frame for its table. -/
theorem frame_table (hf : IsFrame f) : frame (pack f table) = some f :=
  frame_pack hf (by decide) (by decide)

theorem frame_splitFlags (hf : IsFrame f) (hpresent : e.isPresent = true) :
    frame (pack f e.patchUser.splitFlags) = some f := by
  refine frame_pack hf ?_ (splitFlags_not_huge _)
  rw [contains_splitFlags _ isBit_present (by decide)]
  rw [show (flags e.patchUser).contains .present = true from
    (isPresent_patchUser e).trans hpresent, Bool.true_or]

section

variable (h : Entered S (level w k) S') (hS : S.Valid)
include h hS

section

variable (hk : 1 ≤ k) (hk3 : k ≤ 3)
include hk hk3

theorem Entered.valid : S'.Valid := by
  cases h with
  | @pass e he hpresent hhuge =>
    have hframe : ∀ q, (update S.entry (level w k) (some e.patchUser) q).bind
        frame = (S.entry q).bind frame := by
      intro q
      rw [update_apply]
      split
      · rename_i hq
        rw [hq, he, bind_some, bind_some, frame_patchUser]
      · rfl
    have hsome : ∀ q, (update S.entry (level w k) (some e.patchUser) q).isSome =
        (S.entry q).isSome := by
      intro q
      rw [update_apply]
      split
      · rename_i hq
        rw [hq, he]
        rfl
      · rfl
    refine ⟨⟨fun v => (hsome _).trans (hS.coherent.root v), ?_⟩, hS.frames⟩
    intro v m hm hm4
    rw [hsome, hframe]
    exact hS.coherent.below_level hm hm4
  | @link e f he hpresent hf =>
    refine ⟨hS.coherent.hang hk (by omega) (by rw [he]; rfl) ?_ ?_ ?_, ?_⟩
    · rw [he, bind_some, frame_eq_none_of_not_present hpresent]
    · rw [frame_table (hS.frames f hf)]
      rfl
    · exact fun _ _ => frame_zero
    · exact fun g hg => hS.frames g (mem_of_mem_erase hg)
  | @split e f he hpresent hhuge hρ hsplit hf =>
    rw [length_level (by omega)] at hρ
    refine ⟨hS.coherent.hang hk (by omega) (by rw [he]; rfl) ?_ ?_ (fun h => by omega), ?_⟩
    · rw [he]
      simp [frame, hhuge]
    · rw [frame_splitFlags (hS.frames f hf) hpresent]
      rfl
    · exact fun g hg => hS.frames g (mem_of_mem_erase hg)

theorem Entered.writable_iff (hmapped : S.entry.Mapped v) :
    S'.entry.Writable v ↔ S.entry.Writable v := by
  refine h.grants_iff hS hk hk3 hmapped (fun _ _ _ => Iff.rfl) ?_ ?_
  · intro e _
    rw [isWritable_patchUser]
  · intro e f i e' _ hf he'
    have hbit := isBit_writable
    have htable : isWritable (pack f e.patchUser.splitFlags) = true := by
      rw [isWritable, flags_pack hf, contains_splitFlags _ hbit (by decide)]
      simp [PageTableFlags.contains]
    have hpage : e'.isWritable = e.patchUser.isWritable :=
      contains_flags_splitEntry he' hbit (by decide)
    rw [htable, hpage, isWritable_patchUser, eq_self_iff_true, true_and]

theorem Entered.executable_iff (hmapped : S.entry.Mapped v) :
    S'.entry.Executable v ↔ S.entry.Executable v := by
  refine h.grants_iff hS hk hk3 hmapped (fun _ _ _ => Iff.rfl) ?_ ?_
  · intro e _
    rw [isNoExecute_patchUser]
  · intro e f i e' _ hf he'
    have hbit := isBit_noExecute
    have htable : isNoExecute (pack f e.patchUser.splitFlags) = e.patchUser.isNoExecute := by
      rw [isNoExecute, flags_pack hf, contains_splitFlags _ hbit (by decide),
        show contains .writable .noExecute = false by decide, Bool.or_false]
      rfl
    have hpage : e'.isNoExecute = e.patchUser.isNoExecute :=
      contains_flags_splitEntry he' hbit (by decide)
    rw [htable, hpage, isNoExecute_patchUser, and_self]

/-- User access is as if the entry had had USER_ACCESSIBLE before. -/
theorem Entered.userVia_iff (hmapped : S.entry.Mapped v) (P : Set (List (Fin 512))) :
    S'.entry.UserVia P v ↔ S.entry.UserVia (insert (level w k) P) v := by
  refine h.grants_iff hS hk hk3 hmapped ?_ ?_ ?_
  · intro q e hq
    rw [mem_insert_iff, or_iff_right hq]
  · intro e hpresent
    exact iff_of_true (.inl (isUser_patchUser hpresent)) (.inr (mem_insert _ _))
  · intro e f i e' hpresent hf he'
    have hbit := isBit_userAccessible
    have htable : isUser (pack f e.patchUser.splitFlags) = true := by
      rw [isUser, flags_pack hf, contains_splitFlags _ hbit (by decide),
        show (flags e.patchUser).contains .userAccessible = true from
          isUser_patchUser hpresent, Bool.true_or]
    have hpage : e'.isUser = true := (contains_flags_splitEntry he' hbit (by decide)).trans
        (isUser_patchUser hpresent)
    exact iff_of_true ⟨.inl htable, .inl hpage⟩ (.inr (mem_insert _ _))

/-- Above the leaves, a level changes the entry itself, and makes empty entries
    in a new table. -/
theorem Entered.entry_cases (hm : 1 ≤ m) (hm3 : m ≤ 3) :
    level v m = level w k ∨ S'.entry (level v m) = S.entry (level v m) ∨
      (S.entry (level v m) = none ∧ S'.entry (level v m) = some 0#64) := by
  by_cases heq : level v k = level w k
  · by_cases hmk : m = k
    · exact .inl (hmk ▸ heq)
    right
    cases h with
    | pass he hpresent hhuge =>
      left
      refine update_of_ne ?_ _ _
      intro h
      exact hmk (eq_of_level_eq (by omega) (by omega) h)
    | @link e f he hpresent hf =>
      by_cases hchild : m = k + 1
      · subst hchild
        right
        refine ⟨hS.coherent.none_below hk ?_ (by omega) (by omega),
          Entries.hang_level_child heq (by omega)⟩
        rw [heq, he, bind_some, frame_eq_none_of_not_present hpresent]
      · left
        exact Entries.hang_level_of_far (by omega) hm (by omega) hmk hchild
    | split he hpresent hhuge hρ hsplit hf =>
      rw [length_level (by omega)] at hρ
      left
      exact Entries.hang_level_of_far (by omega) hm (by omega) hmk (by omega)
  · exact .inr (.inl (h.entry_of_ne (by omega) heq hm (by omega)))

end

theorem Entered.isTable_self : S'.IsTable (level w k) := by
  cases h with
  | @pass e he hpresent hhuge =>
    show ((update S.entry (level w k) (some e.patchUser) (level w k)).bind _).isSome = true
    rw [update_self, bind_some, frame_patchUser, frame_eq_some_of_present hpresent hhuge]
    rfl
  | @link e f he hpresent hf =>
    show ((Entries.hang _ (level w k) _ _ (level w k)).bind _).isSome = true
    rw [Entries.hang_self, bind_some, frame_table (hS.frames f hf)]
    rfl
  | @split e f he hpresent hhuge hρ hsplit hf =>
    show ((Entries.hang _ (level w k) _ _ (level w k)).bind _).isSome = true
    rw [Entries.hang_self, bind_some, frame_splitFlags (hS.frames f hf) hpresent]
    rfl

/-- Paths lead to the tables they led to, or to one that was free. -/
theorem Entered.tableOf (hk : 1 ≤ k) (hk3 : k ≤ 3) (hm : 1 ≤ m) (hm3 : m ≤ 3)
    (hb : (S'.entry (level v m)).bind frame = some b) :
    (S.entry (level v m)).bind frame = some b ∨ b ∈ S.free := by
  rcases h.entry_cases hS hk hk3 hm hm3 with hself | hsame | ⟨hnone, hzero⟩
  · rw [hself] at hb ⊢
    cases h with
    | @pass e he hpresent hhuge =>
      left
      rw [show S.entry (level w k) = some e from he]
      have hnew : update S.entry (level w k) (some e.patchUser) (level w k) =
        some e.patchUser := update_self _ _ _
      rw [show Space.entry _ (level w k) = some e.patchUser from hnew, bind_some,
        frame_patchUser] at hb
      exact hb
    | @link e f he hpresent hf =>
      right
      rw [show Space.entry _ (level w k) = some (pack f table) from
        Entries.hang_self _ _ _ _, bind_some, frame_table (hS.frames f hf)] at hb
      exact some.inj hb ▸ hf
    | @split e f he hpresent hhuge hρ hsplit hf =>
      right
      rw [show Space.entry _ (level w k) = some (pack f e.patchUser.splitFlags) from
        Entries.hang_self _ _ _ _, bind_some, frame_splitFlags (hS.frames f hf) hpresent] at hb
      exact some.inj hb ▸ hf
  · left
    rwa [hsame] at hb
  · rw [hzero] at hb
    cases hb

/-- One more path leads to a table. -/
theorem Entered.isTable_iff (hk : 1 ≤ k) (hk3 : k ≤ 3) (hm : 1 ≤ m)
    (hm3 : m ≤ 3) : S'.IsTable (level v m) ↔ level v m = level w k ∨ S.IsTable (level v m) := by
  rcases h.entry_cases hS hk hk3 hm hm3 with hself | hsame | ⟨hnone, hzero⟩
  · rw [hself]
    exact iff_of_true (h.isTable_self hS) (.inl rfl)
  · constructor
    · intro ht
      right
      rwa [IsTable, hsame] at ht
    · rintro (hself | ht)
      · rw [hself]
        exact h.isTable_self hS
      · rwa [IsTable, hsame]
  · constructor
    · intro ht
      rw [IsTable, hzero] at ht
      cases ht
    · rintro (hself | ht)
      · rw [hself]
        exact h.isTable_self hS
      · rw [IsTable, hnone] at ht
        cases ht

end

theorem not_blocked_of_isTable (h : S.IsTable ρ) : ¬ S.Blocked ρ := by
  rintro ⟨e, he, hpresent, hhuge, -⟩
  rw [IsTable, he, bind_some, frame, hpresent, hhuge] at h
  cases h

theorem not_blocked_of_entered (h : Entered S ρ S') : ¬ S.Blocked ρ := by
  rintro ⟨d, hd, hdpresent, hdhuge, hnot⟩
  cases h with
  | pass he hpresent hhuge =>
    rw [some.inj (hd.symm.trans he), hhuge] at hdhuge
    cases hdhuge
  | link he hpresent hf =>
    rw [some.inj (hd.symm.trans he), hpresent] at hdpresent
    cases hdpresent
  | split he hpresent hhuge hρ hsplit hf =>
    rw [some.inj (hd.symm.trans he)] at hnot
    exact hnot ⟨hρ, (splittable_patchUser _).mp hsplit⟩

/-- A level puts nothing in the way of another, and clears nothing away. -/
theorem Entered.blocked_iff (h : Entered S (level w k) S') (hS : S.Valid) (hk : 1 ≤ k)
    (hk3 : k ≤ 3) (hm : 1 ≤ m) (hm3 : m ≤ 3) : S'.Blocked (level v m) ↔ S.Blocked (level v m) := by
  rcases h.entry_cases hS hk hk3 hm hm3 with hself | hsame | ⟨hnone, hzero⟩
  · rw [hself]
    exact iff_of_false (not_blocked_of_isTable (h.isTable_self hS)) (not_blocked_of_entered h)
  · rw [Blocked, hsame]
    rfl
  refine iff_of_false ?_ ?_
  · rintro ⟨e, he, hpresent, -⟩
    cases hzero.symm.trans he
    cases hpresent
  · rintro ⟨e, he, -⟩
    rw [hnone] at he
    cases he

/-- A level takes a frame exactly if the entry led to no table. -/
theorem Entered.card_free (h : Entered S (level w k) S') :
    S.free.card = S'.free.card + if S.IsTable (level w k) then 0 else 1 := by
  cases h with
  | @pass e he hpresent hhuge =>
    have ht : S.IsTable (level w k) := by
      rw [IsTable, he, bind_some, frame_eq_some_of_present hpresent hhuge]
      rfl
    rw [if_pos ht]
    rfl
  | @link e f he hpresent hf =>
    have ht : ¬ S.IsTable (level w k) := by
      rw [IsTable, he, bind_some, frame_eq_none_of_not_present hpresent]
      simp
    rw [if_neg ht]
    exact (card_erase_add_one hf).symm
  | @split e f he hpresent hhuge hρ hsplit hf =>
    have ht : ¬ S.IsTable (level w k) := by
      rw [IsTable, he, bind_some, frame, hhuge]
      simp
    rw [if_neg ht]
    exact (card_erase_add_one hf).symm

theorem Entered.free_subset (h : Entered S ρ S') : S'.free ⊆ S.free := by
  cases h with
  | pass he hpresent hhuge => exact Finset.Subset.refl _
  | link he hpresent hf => exact erase_subset _ _
  | split he hpresent hhuge hρ hsplit hf => exact erase_subset _ _

end Space

end OpenOS.Memory.PageTable
