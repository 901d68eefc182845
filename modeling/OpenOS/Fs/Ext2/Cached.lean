/-
  What the file system sees of the block cache (kernel/src/fs/block_cache.rs).

  `Disk` forgets the slots and the order of eviction: a sector holds what its
  valid entry or the device holds, and what else counts is which sectors are in
  dirty entries and how many entries are not dirty.  `read_cached` and
  `write_cached` of the cache do to this what those of `Volume` say, as long as
  the access counter has not come round.
-/

import Mathlib.Data.Fintype.Card
import OpenOS.Fs.BlockCache
import OpenOS.Fs.Ext2.Volume

namespace OpenOS.Fs.Ext2

open Base Base.Comp Finset BlockCache BlockCache.Store
open List (length_ofFn mem_finRange ofFn)
open Function (update update_of_ne update_self)

/-- A sector of the cache, as bytes. -/
def bytesOf (x : BlockCache.Sector) : Sector := ⟨ofFn x, length_ofFn⟩

variable {s s' : BlockCache.Store} {A : Content} {dev : Word} {d : Disk} {l : Nat}
  {x : BlockCache.Sector} {i : Fin cacheSize}

/-- The file system on device `dev` sees `d` of the cache `s`. -/
structure Shows (s : BlockCache.Store) (A : Content) (dev : Word) (d : Disk) : Prop where
  sound : s.Sound A
  young : ∀ i, (s.entries i).accessCounter < BitVec.allOnes 64
  cached : ∀ i, ∀ l < 2 ^ 64, s.At i dev (.ofNat 64 l) → d.sectors l ≠ none
  sectors : ∀ l < 2 ^ 64, ∀ x, d.sectors l = some x → (A dev (.ofNat 64 l)).map bytesOf = some x
  dirty : ∀ l < 2 ^ 64, l ∈ d.dirty ↔ ∃ i, s.At i dev (.ofNat 64 l) ∧ s.Dirty i
  room : d.room = #{i | ¬ s.Dirty i}

/-- The cache of a file system that is mounted first. -/
theorem shows_initial (disk : Word → Option (Word → BlockCache.Sector)) (dev : Word) :
    Shows (initial disk) (initial disk).onDisk dev
      ⟨fun l => ((initial disk).onDisk dev (.ofNat 64 l)).map bytesOf, [], cacheSize⟩ where
  sound := sound_initial disk
  young _ := show (0 : Word) < BitVec.allOnes 64 by decide
  cached _ _ _ hat := nomatch hat.1
  sectors _ _ _ hx := hx
  dirty _ _ := iff_of_false nofun fun ⟨_, hat, _⟩ => nomatch hat.1
  room := by
    have hclean : ∀ i, ¬ (initial disk).Dirty i := fun _ hi => nomatch hi.1
    simp [hclean]

theorem room_pos (h : Shows s A dev d) (hi : ¬ s.Dirty i) : 0 < d.room := by
  rw [h.room, card_pos]
  exact ⟨i, mem_filter.mpr ⟨mem_univ i, hi⟩⟩

theorem victim_isSome_iff (h : Shows s A dev d) : s.findLruVictim.isSome ↔ 0 < d.room := by
  have hfree : ∀ i, s.Free (BitVec.allOnes 64) i ↔ ¬ s.Dirty i := by
    intro i
    rw [Store.Free, and_iff_left (h.young i), Store.Dirty, not_and_or, Bool.not_eq_true,
      Bool.not_eq_true]
  rw [findLruVictim, isSome_victimFrom, h.room, card_pos]
  constructor
  · rintro (hnone | ⟨i, -, hi⟩)
    · cases hnone
    · exact ⟨i, mem_filter.mpr ⟨mem_univ i, (hfree i).mp hi⟩⟩
  · rintro ⟨i, hi⟩
    exact .inr ⟨i, mem_finRange i, (hfree i).mpr (mem_filter.mp hi).2⟩

theorem ofNat_inj {l l' : Nat} (hl : l < 2 ^ 64) (hl' : l' < 2 ^ 64)
    (h : BitVec.ofNat 64 l = BitVec.ofNat 64 l') : l = l' := by
  have htoNat := congrArg BitVec.toNat h
  rwa [BitVec.toNat_ofNat, BitVec.toNat_ofNat, Nat.mod_eq_of_lt hl, Nat.mod_eq_of_lt hl'] at htoNat

/-! ## One slot -/

theorem dirty_setEntry_of_ne (hji : j ≠ i) (e : CacheEntry) :
    (s.nextCounter.setEntry i e).Dirty j ↔ s.Dirty j := by
  rw [Store.Dirty, entries_setEntry_of_ne _ hji]
  rfl

theorem dirty_setEntry_self (s : BlockCache.Store) (i : Fin cacheSize) (e : CacheEntry) :
    (s.nextCounter.setEntry i e).Dirty i ↔ e.valid = true ∧ e.dirty = true := by
  rw [Store.Dirty, entries_setEntry_self]

theorem Shows.young_setEntry (h : Shows s A dev d) (i : Fin cacheSize) (e : CacheEntry)
    (he : e.accessCounter < BitVec.allOnes 64) (j : Fin cacheSize) :
    ((s.nextCounter.setEntry i e).entries j).accessCounter < BitVec.allOnes 64 := by
  by_cases hji : j = i
  · rwa [hji, entries_setEntry_self]
  · rw [entries_setEntry_of_ne _ hji]
    exact h.young j

theorem not_dirty_of_victim (hi : s.findLruVictim = some i) : ¬ s.Dirty i := by
  rintro ⟨hvalid, hdirty⟩
  rcases evictable_of_victim hi with hev | hev
  · exact absurd hvalid (by rw [hev]; decide)
  · exact absurd hdirty (by rw [hev]; decide)

/-! ## Reading -/

/-- A slot keeps its sector, or it is not dirty and gets one that the file system sees. -/
theorem Shows.of_read (h : Shows s A dev d) (i : Fin cacheSize) (e : CacheEntry)
    (he : e.accessCounter < BitVec.allOnes 64) (hsound : (s.nextCounter.setEntry i e).Sound A)
    (hdirty : e.valid = true ∧ e.dirty = true ↔ s.Dirty i)
    (hkey : s.Dirty i → ∀ l, e.valid = true ∧ e.deviceIdx = dev ∧ e.lba = l ↔ s.At i dev l)
    (hseen : ∀ l < 2 ^ 64, e.valid = true ∧ e.deviceIdx = dev ∧ e.lba = .ofNat 64 l →
      d.sectors l ≠ none) :
    Shows (s.nextCounter.setEntry i e) A dev d := by
  have hsame : ∀ j, (s.nextCounter.setEntry i e).Dirty j ↔ s.Dirty j := by
    intro j
    by_cases hji : j = i
    · rw [hji, dirty_setEntry_self, hdirty]
    · exact dirty_setEntry_of_ne hji e
  refine ⟨hsound, h.young_setEntry i e he, ?_, h.sectors, ?_, ?_⟩
  · intro j l hl hj
    by_cases hji : j = i
    · subst hji
      exact hseen l hl (at_setEntry_self.mp hj)
    · exact h.cached j l hl ((at_setEntry_of_ne hji e).mp hj)
  · intro l hl
    rw [h.dirty l hl]
    refine exists_congr fun j => ?_
    rw [hsame]
    refine and_congr_left fun hj => ?_
    by_cases hji : j = i
    · subst hji
      rw [at_setEntry_self, hkey hj]
    · exact (at_setEntry_of_ne hji e).symm
  · rw [h.room]
    simp only [hsame]

theorem Shows.get_of_hit (h : Shows s A dev d) (hl : l < 2 ^ 64)
    (hat : s.At i dev (.ofNat 64 l)) : d.get l = some (bytesOf (s.entries i).data) := by
  have hserved : l ∈ d.dirty ∨ 0 < d.room := by
    by_cases hdirty : s.Dirty i
    · exact .inl ((h.dirty l hl).mpr ⟨i, hat, hdirty⟩)
    · exact .inr (room_pos h hdirty)
  obtain ⟨x, hx⟩ := Option.ne_none_iff_exists'.mp (h.cached i l hl hat)
  have hA := h.sectors l hl x hx
  rw [h.sound.cached i dev _ hat] at hA
  rw [Disk.get, if_pos hserved, hx]
  exact hA.symm

theorem Shows.get_of_miss (h : Shows s A dev d) (hl : l < 2 ^ 64)
    (hmiss : ∀ i, ¬ s.At i dev (.ofNat 64 l)) :
    l ∉ d.dirty ∧ d.get l = if 0 < d.room then d.sectors l else none := by
  have hmem : l ∉ d.dirty := fun hmem => by
    obtain ⟨i, hat, -⟩ := (h.dirty l hl).mp hmem
    exact hmiss i hat
  exact ⟨hmem, if_congr (or_iff_right hmem) rfl rfl⟩

/-- `read_cached` returns what the file system sees, and changes none of it; the device
    reads the sectors that are seen. -/
theorem Shows.readCached (h : Shows s A dev d) (hl : l < 2 ^ 64)
    (hcounter : s.counter + 1 < BitVec.allOnes 64) (writeOk : Bool) :
    Shows (s.readCached dev (.ofNat 64 l) (d.sectors l).isSome writeOk).2 A dev d ∧
      Ext2.readCached l d = (s.readCached dev (.ofNat 64 l) (d.sectors l).isSome writeOk).1.elim
        (.error (.err ()) d) fun x => .ok (bytesOf x).val d := by
  have hsound := (h.sound.readCached dev (.ofNat 64 l) (d.sectors l).isSome writeOk).2
  have hrun : ∀ o : Option _, d.get l = o.map bytesOf →
      Ext2.readCached l d = o.elim (.error (.err ()) d) fun x => .ok (bytesOf x).val d := by
    rintro (_ | x) hget <;> rw [Ext2.readCached, hget] <;> rfl
  unfold Store.readCached at hsound ⊢
  split
  · -- a hit
    rename_i i hfind
    simp only [hfind] at hsound
    have hat := find_eq_some hfind
    exact ⟨h.of_read i _ hcounter hsound .rfl (fun _ _ => .rfl) (h.cached i),
      hrun (some _) (h.get_of_hit hl hat)⟩
  · -- a miss
    rename_i hfind
    have hA := h.sound.uncached dev _ (find_eq_none hfind)
    obtain ⟨-, hget⟩ := h.get_of_miss hl (find_eq_none hfind)
    have hnone : d.sectors l = none → d.get l = none := by
      intro hl
      rw [hget, hl, ite_self]
    simp only [hfind] at hsound
    split
    · rename_i hdisk
      refine ⟨h, hrun none (hnone ?_)⟩
      by_contra hne
      obtain ⟨x, hx⟩ := Option.ne_none_iff_exists'.mp hne
      have hsector := h.sectors l hl x hx
      rw [hA, onDisk, hdisk] at hsector
      cases hsector
    rename_i c hdisk
    split
    · rename_i hbad
      exact ⟨h, hrun none (hnone (by simpa using hbad))⟩
    rename_i hread
    obtain ⟨x, hx⟩ := Option.ne_none_iff_exists'.mp (by simpa using hread : d.sectors l ≠ none)
    have hvictim := victim_isSome_iff h
    simp only [hdisk, hx, Option.isSome_some, Bool.not_true, if_neg Bool.false_ne_true] at hsound
    split
    · rename_i hinsert
      have hfull : ¬ 0 < d.room := by
        intro hroom
        obtain ⟨i, hi⟩ := Option.isSome_iff_exists.mp (hvictim.mpr hroom)
        simp only [Store.insert, hi] at hinsert
        cases hinsert
      exact ⟨h, hrun none (hget.trans (if_neg hfull))⟩
    · rename_i s' hinsert
      simp only [hinsert] at hsound
      unfold Store.insert at hinsert
      split at hinsert
      · cases hinsert
      rename_i i hi
      have hevict : s.nextCounter.Evictable i := evictable_of_victim hi
      have hnot := not_dirty_of_victim hi
      dsimp only at hinsert
      rw [evict_of_evictable hevict] at hinsert
      cases hinsert
      refine ⟨h.of_read i _ hcounter hsound ?_ (fun hd => absurd hd hnot) ?_, hrun (some _) ?_⟩
      · exact iff_of_false (fun hd => Bool.false_ne_true hd.2) hnot
      · rintro l' hl' ⟨-, -, heq⟩
        rw [← ofNat_inj hl hl' heq, hx]
        exact Option.some_ne_none x
      · have hsector := h.sectors l hl x hx
        rw [hA, onDisk, hdisk] at hsector
        rw [hget, if_pos (room_pos h hnot), hx]
        exact hsector.symm

/-! ## Writing -/

/-- The slot `i` holds the sector that was written; it was in it, or the slot was not
    dirty. -/
theorem Shows.of_write (h : Shows s A dev d) (hl : l < 2 ^ 64) (i : Fin cacheSize) (c : Word)
    (hc : c < BitVec.allOnes 64)
    (hsound : (s.nextCounter.setEntry i ⟨dev, .ofNat 64 l, x, true, true, c⟩).Sound
      (A.set dev (.ofNat 64 l) x))
    (hold : s.At i dev (.ofNat 64 l) ∨ ¬ s.Dirty i ∧ ∀ j, ¬ s.At j dev (.ofNat 64 l)) :
    ∃ d', Ext2.writeCached l (bytesOf x) d = .ok () d' ∧
      Shows (s.nextCounter.setEntry i ⟨dev, .ofNat 64 l, x, true, true, c⟩)
        (A.set dev (.ofNat 64 l) x) dev d' := by
  have hmem : l ∈ d.dirty ↔ s.Dirty i := by
    rw [h.dirty l hl]
    rcases hold with hat | ⟨hnot, hnone⟩
    · exact ⟨fun ⟨j, hj, hd⟩ => h.sound.unique j i _ _ hj hat ▸ hd, fun hd => ⟨i, hat, hd⟩⟩
    · exact iff_of_false (fun ⟨j, hj, _⟩ => hnone j hj) hnot
  have hyoung := h.young_setEntry i ⟨dev, .ofNat 64 l, x, true, true, c⟩ hc
  generalize hs' : s.nextCounter.setEntry i ⟨dev, .ofNat 64 l, x, true, true, c⟩ = s'
    at hsound hyoung ⊢
  have hself : s'.At i dev (.ofNat 64 l) ∧ s'.Dirty i := by
    subst hs'
    exact ⟨at_setEntry_self.mpr ⟨rfl, rfl, rfl⟩, (dirty_setEntry_self s i _).mpr ⟨rfl, rfl⟩⟩
  have hne : ∀ j, j ≠ i → (∀ l', s'.At j dev l' ↔ s.At j dev l') ∧ (s'.Dirty j ↔ s.Dirty j) := by
    intro j hji
    subst hs'
    exact ⟨fun l' => at_setEntry_of_ne hji _, dirty_setEntry_of_ne hji _⟩
  have hcached : ∀ j, ∀ l' < 2 ^ 64, s'.At j dev (.ofNat 64 l') →
      update d.sectors l (some (bytesOf x)) l' ≠ none := by
    intro j l' hl' hj
    by_cases heq : l' = l
    · rw [heq, update_self]
      nofun
    rw [update_of_ne heq]
    by_cases hji : j = i
    · exact absurd (ofNat_inj hl' hl ((hji ▸ hj).2.2.symm.trans hself.1.2.2)) heq
    · exact h.cached j l' hl' (((hne j hji).1 _).mp hj)
  have hsectors : ∀ l' < 2 ^ 64, ∀ y, update d.sectors l (some (bytesOf x)) l' = some y →
      (A.set dev (.ofNat 64 l) x dev (.ofNat 64 l')).map bytesOf = some y := by
    intro l' hl' y hy
    by_cases heq : l' = l
    · subst heq
      rw [update_self] at hy
      rwa [Content.set, if_pos ⟨rfl, rfl⟩]
    · rw [update_of_ne heq] at hy
      rw [Content.set, if_neg fun hkey => heq (ofNat_inj hl' hl hkey.2)]
      exact h.sectors l' hl' y hy
  -- what holds of both outcomes: `l` is dirty now, and nothing else has changed
  have hdirty : ∀ l' < 2 ^ 64, (∃ j, s'.At j dev (.ofNat 64 l') ∧ s'.Dirty j) ↔
      l' = l ∨ l' ∈ d.dirty := by
    intro l' hl'
    by_cases heq : l' = l
    · subst heq
      exact iff_of_true ⟨i, hself⟩ (.inl rfl)
    rw [or_iff_right heq, h.dirty l' hl']
    refine exists_congr fun j => ?_
    by_cases hji : j = i
    · subst hji
      refine iff_of_false (fun hj => heq ?_) fun hj => heq ?_
      · exact ofNat_inj hl' hl (hj.1.2.2.symm.trans hself.1.2.2)
      · have hat := hold.resolve_right fun hcase => hcase.1 hj.2
        exact ofNat_inj hl' hl (hj.1.2.2.symm.trans hat.2.2)
    · rw [(hne j hji).1, (hne j hji).2]
  by_cases hin : l ∈ d.dirty
  · refine ⟨{ d with sectors := update d.sectors l (some (bytesOf x)) }, if_pos hin, hsound, hyoung,
      hcached, hsectors, fun l' hl' => ?_, ?_⟩
    · rw [hdirty l' hl', or_iff_right_of_imp]
      rintro rfl
      exact hin
    · refine h.room.trans (congrArg card (filter_congr fun j _ => not_congr ?_))
      by_cases hji : j = i
      · rw [hji]
        exact iff_of_true (hmem.mp hin) hself.2
      · exact (hne j hji).2.symm
  · have hnot : ¬ s.Dirty i := fun hd => hin (hmem.mpr hd)
    have hfilter : ({j | ¬ s'.Dirty j} : Finset (Fin cacheSize)) =
        ({j | ¬ s.Dirty j} : Finset (Fin cacheSize)).erase i := by
      ext j
      simp only [mem_filter, mem_univ, true_and, mem_erase]
      by_cases hji : j = i
      · rw [hji]
        exact iff_of_false (fun hd => hd hself.2) fun hd => hd.1 rfl
      · rw [(hne j hji).2, and_iff_right hji]
    refine ⟨⟨update d.sectors l (some (bytesOf x)), l :: d.dirty, d.room - 1⟩, ?_, hsound, hyoung,
      hcached, hsectors, fun l' hl' => ?_, ?_⟩
    · rw [Ext2.writeCached, if_neg hin, if_neg (Nat.ne_of_gt (room_pos h hnot))]
    · rw [hdirty l' hl', List.mem_cons]
    · rw [hfilter, card_erase_of_mem (mem_filter.mpr ⟨mem_univ i, hnot⟩), h.room]

/-- `write_cached` does what the file system sees of it, and refuses when it does. -/
theorem Shows.writeCached (h : Shows s A dev d) (hl : l < 2 ^ 64)
    (hcounter : s.counter + 1 < BitVec.allOnes 64) (x : BlockCache.Sector) (writeOk : Bool) :
    ((s.writeCached dev (.ofNat 64 l) x writeOk).1 = .ok () →
      ∃ d', Ext2.writeCached l (bytesOf x) d = .ok () d' ∧
        Shows (s.writeCached dev (.ofNat 64 l) x writeOk).2 (A.set dev (.ofNat 64 l) x) dev d') ∧
    ((s.writeCached dev (.ofNat 64 l) x writeOk).1 = .error () →
      Ext2.writeCached l (bytesOf x) d = .error (.err ()) d ∧
        (s.writeCached dev (.ofNat 64 l) x writeOk).2 = s) := by
  have hsound := h.sound.writeCached dev (.ofNat 64 l) x writeOk
  unfold Store.writeCached at hsound ⊢
  cases hfind : s.find dev (.ofNat 64 l) with
  | some i =>
    simp only [hfind] at hsound ⊢
    have hat := find_eq_some hfind
    -- the entry keeps its key
    have hkey : (s.nextCounter.entries i).deviceIdx = dev ∧
        (s.nextCounter.entries i).lba = .ofNat 64 l ∧ (s.nextCounter.entries i).valid = true :=
      ⟨hat.2.1, hat.2.2, hat.1⟩
    rw [hkey.1, hkey.2.1, hkey.2.2] at hsound ⊢
    exact ⟨fun _ => h.of_write hl i _ hcounter hsound (.inl hat), nofun⟩
  | none =>
    simp only [hfind] at hsound ⊢
    have hvictim := victim_isSome_iff h
    unfold Store.insert at hsound ⊢
    cases hi : s.findLruVictim with
    | none =>
      rw [hi] at hvictim
      have hroom : d.room = 0 := Nat.eq_zero_of_not_pos fun hpos => nomatch hvictim.mpr hpos
      obtain ⟨hmem, -⟩ := h.get_of_miss hl (find_eq_none hfind)
      exact ⟨nofun, fun _ => ⟨by rw [Ext2.writeCached, if_neg hmem, if_pos hroom], rfl⟩⟩
    | some i =>
      have hevict : s.nextCounter.Evictable i := evictable_of_victim hi
      simp only [hi, evict_of_evictable hevict] at hsound ⊢
      exact ⟨fun _ => h.of_write hl i _ hcounter hsound
        (.inr ⟨not_dirty_of_victim hi, find_eq_none hfind⟩), nofun⟩

end OpenOS.Fs.Ext2
