/-
  The LRU block cache (kernel/src/fs/block_cache.rs) over the block devices.

  A device keeps the sectors last written to it; any read or write of it may
  fail.  The cache and the devices together are one map from sectors to data:
  a valid entry decides, and the device where there is none.
-/

import Mathlib.Data.List.FinRange
import OpenOS.Base.Run
import OpenOS.Base.Word

namespace OpenOS.Fs.BlockCache

open Function Base Option List Bool

abbrev cacheSize : Nat := 64

/-- A sector, `[u8; SECTOR_SIZE]`. -/
abbrev Sector := Fin 512 → BitVec 8

structure CacheEntry where
  deviceIdx : Word
  lba : Word
  data : Sector
  dirty : Bool
  valid : Bool
  accessCounter : Word

def CacheEntry.empty : CacheEntry := ⟨0, 0, fun _ => 0, false, false, 0⟩

/-- The cache and the devices: what each registered device keeps. -/
structure Store where
  entries : Fin cacheSize → CacheEntry
  counter : Word
  disk : Word → Option (Word → Sector)

namespace Store

/-- The cache of `BlockCache::new` over the devices. -/
def initial (disk : Word → Option (Word → Sector)) : Store := ⟨fun _ => .empty, 0, disk⟩

def find (s : Store) (deviceIdx lba : Word) : Option (Fin cacheSize) :=
  (finRange cacheSize).find? fun i =>
    (s.entries i).valid && (s.entries i).deviceIdx = deviceIdx && (s.entries i).lba = lba

/-- The loop of `find_lru_victim`, from the best slot so far. -/
def victimFrom (s : Store) :
    List (Fin cacheSize) → Option (Fin cacheSize) → Word → Option (Fin cacheSize)
  | [], bestIdx, _ => bestIdx
  | i :: is, bestIdx, bestCounter =>
    if !(s.entries i).valid then some i
    else if !(s.entries i).dirty && (s.entries i).accessCounter < bestCounter then
      s.victimFrom is (some i) (s.entries i).accessCounter
    else s.victimFrom is bestIdx bestCounter

def findLruVictim (s : Store) : Option (Fin cacheSize) :=
  s.victimFrom (finRange cacheSize) none (BitVec.allOnes 64)

def nextCounter (s : Store) : Store := { s with counter := s.counter + 1 }

def setEntry (s : Store) (i : Fin cacheSize) (e : CacheEntry) : Store :=
  { s with entries := update s.entries i e }

section

variable (s : Store) (deviceIdx lba : Word) (data : Sector)

/-- `get_device(..)` and `write_sector`, which succeeds if `ok`. -/
def writeSector (ok : Bool) : Option Store :=
  match s.disk deviceIdx with
  | none => none
  | some c =>
    if ok then
      some { s with
        disk := update s.disk deviceIdx (some (update c lba data)) }
    else none

/-- Write a dirty victim back before its slot is taken; the outcome is not
    looked at. -/
def evict (i : Fin cacheSize) (writeOk : Bool) : Store :=
  if (s.entries i).valid && (s.entries i).dirty then
    (s.writeSector (s.entries i).deviceIdx (s.entries i).lba (s.entries i).data writeOk).getD s
  else s

/-- Put a sector into a victim's slot; `none` if there is no victim. -/
def insert (dirty writeOk : Bool) : Option Store :=
  match s.findLruVictim with
  | none => none
  | some i =>
    let s := s.nextCounter
    some ((s.evict i writeOk).setEntry i ⟨deviceIdx, lba, data, dirty, true, s.counter⟩)

/-- `read_cached`; `readOk` and `writeOk` are the outcomes of the device
    accesses it makes. -/
def readCached (readOk writeOk : Bool) : Option Sector × Store :=
  match s.find deviceIdx lba with
  | some i =>
    let s := s.nextCounter
    (some (s.entries i).data, s.setEntry i { s.entries i with accessCounter := s.counter })
  | none =>
    match s.disk deviceIdx with
    | none => (none, s)
    | some c =>
      if !readOk then (none, s)
      else
        match s.insert deviceIdx lba (c lba) false writeOk with
        | none => (none, s)
        | some s' => (some (c lba), s')

def writeCached (writeOk : Bool) : Except Unit Unit × Store :=
  match s.find deviceIdx lba with
  | some i =>
    let s := s.nextCounter
    (.ok (), s.setEntry i { s.entries i with data := data, dirty := true, accessCounter := s.counter })
  | none =>
    match s.insert deviceIdx lba data true writeOk with
    | none => (.error (), s)
    | some s' => (.ok (), s')

/-- A turn of the loop of `flush_all`, with the number of failures so far. -/
def flushEntry (i : Fin cacheSize) (ok : Bool) (failures : Nat) : Nat × Store :=
  if (s.entries i).valid && (s.entries i).dirty then
    match s.writeSector (s.entries i).deviceIdx (s.entries i).lba (s.entries i).data ok with
    | some s' => (failures, s'.setEntry i { s.entries i with dirty := false })
    | none => (failures + 1, s)
  else (failures, s)

/-- The loop of `flush_all`. -/
def flushFrom (outcome : Fin cacheSize → Bool) : List (Fin cacheSize) → Nat → Store → Nat × Store
  | [], failures, s => (failures, s)
  | i :: is, failures, s =>
    let q := s.flushEntry i (outcome i) failures
    flushFrom outcome is q.1 q.2

/-- `flush_all`; `outcome` says which writes succeed. -/
def flushAll (outcome : Fin cacheSize → Bool) : Nat × Store :=
  flushFrom outcome (finRange cacheSize) 0 s

end

/-! ## The component -/

/-- The calls, with the outcomes of the device accesses. -/
inductive Op
  | read (deviceIdx lba : Word) (readOk writeOk : Bool)
  | write (deviceIdx lba : Word) (data : Sector) (writeOk : Bool)
  | flush (outcome : Fin cacheSize → Bool)

inductive Res
  | read (data : Option Sector)
  | write (r : Except Unit Unit)
  | flush (failures : Nat)

def step : StepFn Store Op Res
  | s, .read deviceIdx lba readOk writeOk =>
    let q := s.readCached deviceIdx lba readOk writeOk
    some (.read q.1, q.2)
  | s, .write deviceIdx lba data writeOk =>
    let q := s.writeCached deviceIdx lba data writeOk
    some (.write q.1, q.2)
  | s, .flush outcome =>
    let q := s.flushAll outcome
    some (.flush q.1, q.2)

/-! ## One map of sectors -/

/-- The data of each sector of each device. -/
abbrev Content := Word → Word → Option Sector

/-- What the devices keep. -/
def onDisk (s : Store) : Content := fun d l => (s.disk d).map fun c => c l

/-- The content with one sector written. -/
def Content.set (A : Content) (d l : Word) (data : Sector) : Content :=
  fun d' l' => if d' = d ∧ l' = l then some data else A d' l'

/-- A slot holds a sector. -/
def At (s : Store) (i : Fin cacheSize) (d l : Word) : Prop :=
  (s.entries i).valid = true ∧ (s.entries i).deviceIdx = d ∧ (s.entries i).lba = l

/-- Cache and devices together keep the content `A`. -/
structure Sound (s : Store) (A : Content) : Prop where
  unique : ∀ i j d l, s.At i d l → s.At j d l → i = j
  cached : ∀ i d l, s.At i d l → A d l = some (s.entries i).data
  clean : ∀ i d l, s.At i d l → (s.entries i).dirty = false →
    s.onDisk d l = some (s.entries i).data
  uncached : ∀ d l, (∀ i, ¬ s.At i d l) → A d l = s.onDisk d l

theorem sound_initial (disk : Word → Option (Word → Sector)) :
    (initial disk).Sound (initial disk).onDisk where
  unique _ _ _ _ h := nomatch h.1
  cached _ _ _ h := nomatch h.1
  clean _ _ _ h := nomatch h.1
  uncached _ _ _ := rfl

variable {s s' : Store} {A : Content}

theorem find_eq_some (h : s.find d l = some i) : s.At i d l := by
  have hi := find?_some h
  simp only [and_eq_true, decide_eq_true_eq] at hi
  exact ⟨hi.1.1, hi.1.2, hi.2⟩

theorem find_eq_none (h : s.find d l = none) (i : Fin cacheSize) : ¬ s.At i d l := by
  rintro ⟨hvalid, hd, hl⟩
  have hi := find?_eq_none.mp h i (mem_finRange i)
  simp [hvalid, hd, hl] at hi

/-! ## Slots -/

/-- Nothing is lost with the slot: it is empty or clean. -/
def Evictable (s : Store) (i : Fin cacheSize) : Prop :=
  (s.entries i).valid = false ∨ (s.entries i).dirty = false

/-- The search ends in an evictable slot, if the best so far is one. -/
theorem evictable_victimFrom (s : Store) (is : List (Fin cacheSize)) (best : Option (Fin cacheSize))
    (bestCounter : Word) (hbest : ∀ i, best = some i → s.Evictable i)
    (h : s.victimFrom is best bestCounter = some i) : s.Evictable i := by
  induction is generalizing best bestCounter with
  | nil => exact hbest i h
  | cons j is ih =>
    simp only [victimFrom] at h
    split at h
    · rename_i hj
      cases h
      exact .inl (by simpa using hj)
    split at h
    · rename_i hj
      simp only [and_eq_true, not_eq_true'] at hj
      refine ih _ _ (fun i' hi' => ?_) h
      cases hi'
      exact .inr hj.1
    · exact ih _ _ hbest h

theorem evictable_of_victim (h : s.findLruVictim = some i) : s.Evictable i :=
  s.evictable_victimFrom _ none _ (fun _ h => nomatch h) h

/-- So the write-back before an eviction never happens. -/
theorem evict_of_evictable (h : s.Evictable i) (writeOk : Bool) : s.evict i writeOk = s := by
  rw [evict, if_neg]
  rw [and_eq_true]
  rintro ⟨hvalid, hdirty⟩
  rcases h with h | h
  · exact absurd hvalid (by rw [h]; exact nofun)
  · exact absurd hdirty (by rw [h]; exact nofun)

theorem entries_setEntry_self (s : Store) (i : Fin cacheSize) (e : CacheEntry) :
    (s.setEntry i e).entries i = e := by
  simp [setEntry]

theorem entries_setEntry_of_ne (s : Store) (hj : j ≠ i) (e : CacheEntry) :
    (s.setEntry i e).entries j = s.entries j := by
  simp [setEntry, update_of_ne hj]

theorem at_setEntry_self :
    (s.setEntry i e).At i d l ↔ e.valid = true ∧ e.deviceIdx = d ∧ e.lba = l := by
  rw [At, entries_setEntry_self]

theorem at_setEntry_of_ne (hj : j ≠ i) (e : CacheEntry) :
    (s.setEntry i e).At j d l ↔ s.At j d l := by
  rw [At, entries_setEntry_of_ne s hj, At]

/-- A slot is filled by a sector that no other slot holds, clean only if the device has
    it, where nothing or the same sector is lost. -/
theorem Sound.setEntry (h : s.Sound A) (hvalid : e.valid = true)
    (hothers : ∀ j, j ≠ i → ¬ s.At j e.deviceIdx e.lba)
    (hclean : e.dirty = false → s.onDisk e.deviceIdx e.lba = some e.data)
    (hold : s.Evictable i ∨ s.At i e.deviceIdx e.lba) :
    (s.setEntry i e).Sound (A.set e.deviceIdx e.lba e.data) := by
  have hself := s.entries_setEntry_self i e
  have hne : ∀ j, j ≠ i → (s.setEntry i e).entries j = s.entries j :=
    fun j hj => s.entries_setEntry_of_ne hj e
  refine ⟨?_, ?_, ?_, ?_⟩
  · intro j k d l hj hk
    by_cases hji : j = i
    · by_cases hki : k = i
      · rw [hji, hki]
      · rw [hji, at_setEntry_self] at hj
        rw [at_setEntry_of_ne hki] at hk
        exact absurd hk (hj.2.1 ▸ hj.2.2 ▸ hothers k hki)
    rw [at_setEntry_of_ne hji] at hj
    by_cases hki : k = i
    · rw [hki, at_setEntry_self] at hk
      exact absurd hj (hk.2.1 ▸ hk.2.2 ▸ hothers j hji)
    · rw [at_setEntry_of_ne hki] at hk
      exact h.unique j k d l hj hk
  · intro j d l hj
    by_cases hji : j = i
    · subst hji
      rw [at_setEntry_self] at hj
      rw [hself, Content.set, if_pos ⟨hj.2.1.symm, hj.2.2.symm⟩]
    rw [at_setEntry_of_ne hji] at hj
    rw [hne j hji, Content.set, if_neg, h.cached j d l hj]
    rintro ⟨rfl, rfl⟩
    exact hothers j hji hj
  · intro j d l hj hdirty
    by_cases hji : j = i
    · subst hji
      rw [at_setEntry_self] at hj
      rw [hself] at hdirty ⊢
      rw [← hj.2.1, ← hj.2.2]
      exact hclean hdirty
    · rw [at_setEntry_of_ne hji] at hj
      rw [hne j hji] at hdirty ⊢
      exact h.clean j d l hj hdirty
  · intro d l hnone
    have hkey : ¬ (d = e.deviceIdx ∧ l = e.lba) := by
      rintro ⟨rfl, rfl⟩
      exact hnone i (at_setEntry_self.mpr ⟨hvalid, rfl, rfl⟩)
    rw [Content.set, if_neg hkey]
    by_cases hi : s.At i d l
    · -- the sector that was in the slot is clean, so the device has it
      have hdirty : (s.entries i).dirty = false := by
        rcases hold with (hinvalid | hdirty) | hsame
        · exact absurd hi.1 (by rw [hinvalid]; exact nofun)
        · exact hdirty
        · exact absurd ⟨hi.2.1.symm.trans hsame.2.1, hi.2.2.symm.trans hsame.2.2⟩ hkey
      rw [h.cached i d l hi]
      exact (h.clean i d l hi hdirty).symm
    · refine h.uncached d l fun j hj => ?_
      by_cases hji : j = i
      · exact hi (hji ▸ hj)
      · exact hnone j ((at_setEntry_of_ne hji e).mpr hj)

theorem Content.set_self (h : A d l = some data) : A.set d l data = A := by
  funext d' l'
  rw [Content.set]
  split
  · rename_i hkey
    rw [hkey.1, hkey.2, h]
  · rfl

theorem Sound.nextCounter (h : s.Sound A) : s.nextCounter.Sound A :=
  ⟨h.unique, h.cached, h.clean, h.uncached⟩

/-! ## Reads and writes -/

/-- A hit: the slot gets data for its sector. -/
theorem Sound.hit (h : s.Sound A) (hi : s.At i d l) (hvalid : e.valid = true) (hd : e.deviceIdx = d)
    (hl : e.lba = l) (hclean : e.dirty = false → s.onDisk d l = some e.data) :
    (s.setEntry i e).Sound (A.set d l e.data) := by
  have hothers : ∀ j, j ≠ i → ¬ s.At j d l := fun j hj hat => hj (h.unique j i d l hat hi)
  subst hd hl
  exact h.setEntry hvalid hothers hclean (.inr hi)

/-- A miss that finds a slot: the sector is now in it. -/
theorem Sound.insert (h : s.Sound A) (hmiss : s.find d l = none)
    (hclean : dirty = false → s.onDisk d l = some data)
    (hrun : s.insert d l data dirty writeOk = some s') : s'.Sound (A.set d l data) := by
  unfold Store.insert at hrun
  split at hrun
  · cases hrun
  rename_i i hvictim
  have hevict : s.nextCounter.Evictable i := evictable_of_victim hvictim
  cases hrun
  rw [evict_of_evictable hevict]
  exact h.nextCounter.setEntry rfl (fun j _ => find_eq_none hmiss j) hclean (.inl hevict)

theorem Sound.readCached (h : s.Sound A) (d l : Word) (readOk writeOk : Bool) :
    (∀ v, (s.readCached d l readOk writeOk).1 = some v → A d l = some v) ∧
      (s.readCached d l readOk writeOk).2.Sound A := by
  unfold Store.readCached
  split
  · rename_i i hfind
    have hat := find_eq_some hfind
    have hA := h.cached i d l hat
    refine ⟨fun v hv => hA.trans hv, ?_⟩
    have hsound := h.nextCounter.hit hat (e := { s.entries i with
      accessCounter := s.nextCounter.counter }) hat.1 hat.2.1 hat.2.2 (h.clean i d l hat)
    rwa [Content.set_self hA] at hsound
  · rename_i hfind
    have hA := h.uncached d l (find_eq_none hfind)
    split
    · exact ⟨nofun, h⟩
    rename_i c hdisk
    have hc : s.onDisk d l = some (c l) := by rw [onDisk, hdisk, map_some]
    split
    · exact ⟨nofun, h⟩
    split
    · exact ⟨nofun, h⟩
    rename_i s' hinsert
    refine ⟨fun v hv => ?_, ?_⟩
    · rwa [hA, hc]
    · have hsound := h.insert hfind (fun _ => hc) hinsert
      rwa [Content.set_self (hA.trans hc)] at hsound

theorem Sound.writeCached (h : s.Sound A) (d l : Word) (data : Sector) (writeOk : Bool) :
    (s.writeCached d l data writeOk).2.Sound
      (match (s.writeCached d l data writeOk).1 with
        | .ok () => A.set d l data
        | .error () => A) := by
  unfold Store.writeCached
  split
  · rename_i i hfind
    have hat := find_eq_some hfind
    exact h.nextCounter.hit hat hat.1 hat.2.1 hat.2.2
      (fun hdirty => nomatch hdirty)
  rename_i hfind
  split
  · exact h
  · rename_i s' hinsert
    have hdirty : true = false → s.onDisk d l = some data := nofun
    exact h.insert hfind hdirty hinsert

/-! ## Flushing -/

theorem writeSector_eq_some (h : s.writeSector d l data ok = some s') :
    s'.entries = s.entries ∧ s'.onDisk = Content.set s.onDisk d l data := by
  unfold writeSector at h
  split at h
  · cases h
  rename_i c hdisk
  split at h
  · cases h
    refine ⟨rfl, ?_⟩
    funext d' l'
    rw [Content.set]
    show (update s.disk d (some (update c l data)) d').map (fun c => c l') = _
    by_cases hd : d' = d
    · subst hd
      rw [update_self, map_some]
      by_cases hl : l' = l
      · rw [hl, update_self, if_pos ⟨rfl, rfl⟩]
      · rw [update_of_ne hl, if_neg (fun h => hl h.2), onDisk, hdisk, map_some]
    · rw [update_of_ne hd, if_neg (fun h => hd h.1)]
      rfl
  · cases h

theorem Sound.writeBack (h : s.Sound A) (hi : s.At i d l) (hentries : s'.entries = s.entries)
    (hdisk : s'.onDisk = Content.set s.onDisk d l (s.entries i).data) : s'.Sound A := by
  have hat : ∀ j d' l', s'.At j d' l' ↔ s.At j d' l' := by
    intro j d' l'
    rw [At, hentries, At]
  refine ⟨?_, ?_, ?_, ?_⟩
  · intro j k d' l' hj hk
    exact h.unique j k d' l' ((hat j d' l').mp hj) ((hat k d' l').mp hk)
  · intro j d' l' hj
    rw [hentries]
    exact h.cached j d' l' ((hat j d' l').mp hj)
  · intro j d' l' hj hdirty
    rw [hentries] at hdirty ⊢
    rw [hdisk, Content.set]
    split
    · rename_i hkey
      have hji : j = i := h.unique j i d l (hkey.1 ▸ hkey.2 ▸ (hat j d' l').mp hj) hi
      rw [hji]
    · exact h.clean j d' l' ((hat j d' l').mp hj) hdirty
  · intro d' l' hnone
    have hkey : ¬ (d' = d ∧ l' = l) := by
      rintro ⟨rfl, rfl⟩
      exact hnone i ((hat i d' l').mpr hi)
    rw [hdisk, Content.set, if_neg hkey]
    exact h.uncached d' l' fun j hj => hnone j ((hat j d' l').mpr hj)

/-- The slot holds a write that is not on its device yet. -/
def Dirty (s : Store) (i : Fin cacheSize) : Prop :=
  (s.entries i).valid = true ∧ (s.entries i).dirty = true
deriving Decidable

/-- A turn of `flush_all`: the content stays, no entry becomes dirty, and the
    entry is clean unless a failure is counted. -/
theorem flushEntry_spec (h : s.Sound A) (i : Fin cacheSize) (ok : Bool) (failures : Nat) :
    (s.flushEntry i ok failures).2.Sound A ∧
      (∀ j, (s.flushEntry i ok failures).2.Dirty j → s.Dirty j) ∧
      failures ≤ (s.flushEntry i ok failures).1 ∧
      ((s.flushEntry i ok failures).1 = failures → ¬ (s.flushEntry i ok failures).2.Dirty i) := by
  unfold flushEntry
  split
  · rename_i hi
    rw [and_eq_true] at hi
    split
    · rename_i s' hwrite
      obtain ⟨hentries, hdisk⟩ := writeSector_eq_some hwrite
      have hat : s.At i (s.entries i).deviceIdx (s.entries i).lba := ⟨hi.1, rfl, rfl⟩
      have hback := h.writeBack hat hentries hdisk
      have hat' : s'.At i (s.entries i).deviceIdx (s.entries i).lba := by
        rwa [At, hentries]
      have hnow : s'.onDisk (s.entries i).deviceIdx (s.entries i).lba = some (s.entries i).data := by
        rw [hdisk, Content.set, if_pos ⟨rfl, rfl⟩]
      have hsound := hback.hit hat' (e := { s.entries i with dirty := false }) hi.1 rfl rfl
        fun _ => hnow
      rw [Content.set_self (h.cached i _ _ hat)] at hsound
      have hclean : ¬ (s'.setEntry i { s.entries i with dirty := false }).Dirty i := by
        rw [Dirty, setEntry]
        simp
      refine ⟨hsound, fun j hj => ?_, le_rfl, fun _ => hclean⟩
      have hji : j ≠ i := fun heq => hclean (heq ▸ hj)
      rw [Dirty, setEntry] at hj
      simp only [update_of_ne hji, hentries] at hj
      exact hj
    · exact ⟨h, fun j hj => hj, Nat.le_succ failures, fun heq => absurd heq (by omega)⟩
  · rename_i hi
    rw [and_eq_true] at hi
    exact ⟨h, fun j hj => hj, le_rfl, fun _ => hi⟩

theorem flushFrom_spec (outcome : Fin cacheSize → Bool) (is : List (Fin cacheSize))
    (h : s.Sound A) (failures : Nat) : (flushFrom outcome is failures s).2.Sound A ∧
      (∀ j, (flushFrom outcome is failures s).2.Dirty j → s.Dirty j) ∧
      failures ≤ (flushFrom outcome is failures s).1 ∧
      ((flushFrom outcome is failures s).1 = failures →
        ∀ j ∈ is, ¬ (flushFrom outcome is failures s).2.Dirty j) := by
  induction is generalizing s failures with
  | nil => exact ⟨h, fun j hj => hj, le_rfl, fun _ j hj => nomatch hj⟩
  | cons i is ih =>
    obtain ⟨hsound, hdirty, hle, hclean⟩ := flushEntry_spec h i (outcome i) failures
    obtain ⟨hsound', hdirty', hle', hclean'⟩ := ih hsound (s.flushEntry i (outcome i) failures).1
    refine ⟨hsound', fun j hj => hdirty j (hdirty' j hj), hle.trans hle', fun heq j hj => ?_⟩
    -- no failure in the whole loop is none in this turn and none in the rest
    have hthis : (s.flushEntry i (outcome i) failures).1 = failures :=
      le_antisymm (hle'.trans_eq heq) hle
    rcases mem_cons.mp hj with rfl | hj
    · exact fun hd => hclean hthis (hdirty' j hd)
    · exact hclean' (heq.trans hthis.symm) j hj

theorem Sound.onDisk_of_clean (h : s.Sound A) (hclean : ∀ i, ¬ s.Dirty i) : s.onDisk = A := by
  funext d l
  by_cases hat : ∃ i, s.At i d l
  · obtain ⟨i, hi⟩ := hat
    have hdirty : (s.entries i).dirty = false := by
      rw [← not_eq_true]
      exact fun hd => hclean i ⟨hi.1, hd⟩
    rw [h.clean i d l hi hdirty, h.cached i d l hi]
  · exact (h.uncached d l fun i hi => hat ⟨i, hi⟩).symm

/-- `flush_all` keeps the content, and with answer 0 has brought it to the
    devices. -/
theorem Sound.flushAll (h : s.Sound A) (outcome : Fin cacheSize → Bool) :
    (s.flushAll outcome).2.Sound A ∧
      ((s.flushAll outcome).1 = 0 → (s.flushAll outcome).2.onDisk = A) := by
  obtain ⟨hsound, -, -, hclean⟩ := flushFrom_spec outcome (finRange cacheSize) h 0
  exact ⟨hsound, fun heq => hsound.onDisk_of_clean fun i => hclean heq i (mem_finRange i)⟩

/-! ## Runs -/

abbrev CacheEvent := Transition Store Op Res

/-- The content after a call: a successful write sets its sector. -/
def Content.after (A : Content) (e : CacheEvent) : Content :=
  match e.op, e.res with
  | .write d l data _, .write (.ok ()) => A.set d l data
  | _, _ => A

/-- The content after a run: of each sector the data of the latest successful
    write, or what its device had at the start. -/
def contentAfter (disk : Word → Option (Word → Sector)) (tr : List CacheEvent) : Content :=
  tr.foldl Content.after (initial disk).onDisk

/-- What the content before a call says of its answer. -/
structure Transparent (A : Content) (e : CacheEvent) : Prop where
  read : ∀ d l readOk writeOk v, e.op = .read d l readOk writeOk → e.res = .read (some v) →
    A d l = some v
  flushed : ∀ outcome, e.op = .flush outcome → e.res = .flush 0 → e.post.onDisk = A

/-- What the cache and the devices have of the content. -/
structure Holds (s : Store) (A : Content) : Prop where
  unique : ∀ i j d l, s.At i d l → s.At j d l → i = j
  /-- A sector that its device does not have is in a dirty entry. -/
  kept : ∀ d l, s.onDisk d l = A d l ∨
    ∃ i, s.At i d l ∧ (s.entries i).dirty = true ∧ A d l = some (s.entries i).data

theorem Sound.holds (h : s.Sound A) : s.Holds A where
  unique := h.unique
  kept d l := by
    by_cases hat : ∃ i, s.At i d l
    · obtain ⟨i, hi⟩ := hat
      by_cases hdirty : (s.entries i).dirty = true
      · exact .inr ⟨i, hi, hdirty, h.cached i d l hi⟩
      · rw [not_eq_true] at hdirty
        exact .inl ((h.clean i d l hi hdirty).trans (h.cached i d l hi).symm)
    · exact .inl (h.uncached d l fun i hi => hat ⟨i, hi⟩).symm

theorem step_sound (h : s.Sound A) (hstep : step s op = some (r, s')) :
    s'.Sound (A.after ⟨s, op, r, s'⟩) ∧ Transparent A ⟨s, op, r, s'⟩ := by
  cases op with
  | read d l readOk writeOk =>
    obtain ⟨hread, hsound⟩ := h.readCached d l readOk writeOk
    cases hstep
    refine ⟨hsound, ?_, nofun⟩
    rintro _ _ _ _ v ⟨⟩ hres
    exact hread v (Res.read.inj hres)
  | write d l data writeOk =>
    have hsound := h.writeCached d l data writeOk
    cases hstep
    refine ⟨?_, nofun, nofun⟩
    cases hr : (s.writeCached d l data writeOk).1 with
    | ok _ =>
      simpa only [Content.after, hr] using hsound
    | error _ =>
      simpa only [Content.after, hr] using hsound
  | flush outcome =>
    obtain ⟨hsound, hflushed⟩ := h.flushAll outcome
    simp only [step] at hstep
    -- the loop over the slots stays closed
    generalize s.flushAll outcome = q at hsound hflushed hstep
    cases hstep
    refine ⟨hsound, nofun, ?_⟩
    rintro _ - hres
    exact hflushed (Res.flush.inj hres)

/-- The cache is transparent: each read returns the content before it, each flush
    without failures leaves the content on the devices, and the state reached has each
    sector in at most one entry and loses no write. -/
theorem cache_transparent {disk : Word → Option (Word → Sector)} {tr : List CacheEvent} {s : Store}
    (hrun : Run step (initial disk) tr s) :
    s.Holds (contentAfter disk tr) ∧
      ∀ tr₁ e, tr₁ ++ [e] <+: tr → Transparent (contentAfter disk tr₁) e := by
  have hinv : ∀ {tr : List CacheEvent} {s : Store}, Run step (initial disk) tr s →
      s.Sound (contentAfter disk tr) := by
    intro tr s hrun
    refine Run.invariant (I := fun tr s => s.Sound (contentAfter disk tr)) (sound_initial disk) ?_ hrun
    intro tr s op r s' hsound hstep
    rw [contentAfter, foldl_append]
    exact (step_sound hsound hstep).1
  refine ⟨(hinv hrun).holds, fun tr₁ e hpre => ?_⟩
  obtain ⟨s₁, hrun₁⟩ := hrun.of_isPrefix hpre
  obtain ⟨hbefore, hstep, -⟩ := hrun₁.of_concat
  exact (step_sound (hinv hbefore) hstep).2

/-- One device of zeros; a sector is written, read, flushed in vain and then
    flushed. -/
def oneDevice : Word → Option (Word → Sector) := fun d => if d = 0 then some fun _ _ => 0 else none

def writeReadFlush : List Op :=
  [.write 0 5 (fun _ => 7) true, .read 0 5 true true, .flush fun _ => false, .flush fun _ => true]

theorem run_writeReadFlush :
    ∃ tr s, Run step (initial oneDevice) tr s ∧ tr.map Transition.op = writeReadFlush :=
  ⟨_, _, .snoc (.snoc (.snoc (.snoc .nil rfl) rfl) rfl) rfl, rfl⟩

theorem cache_transparent_writeReadFlush :
    ∃ tr s, Run step (initial oneDevice) tr s ∧ tr.map Transition.op = writeReadFlush ∧
      s.Holds (contentAfter oneDevice tr) ∧
      ∀ tr₁ e, tr₁ ++ [e] <+: tr → Transparent (contentAfter oneDevice tr₁) e := by
  obtain ⟨tr, s, hrun, hops⟩ := run_writeReadFlush
  exact ⟨tr, s, hrun, hops, cache_transparent hrun⟩

/-! ## A cache full of dirty entries -/

/-- The device that is read from is there, and no access fails. -/
def Working (e : CacheEvent) : Prop :=
  match e.op with
  | .read d _ readOk writeOk => (e.pre.disk d).isSome ∧ readOk = true ∧ writeOk = true
  | .write _ _ _ writeOk => writeOk = true
  | .flush outcome => ∀ i, outcome i = true

/-- The call has succeeded. -/
def Served (r : Res) : Prop := r ≠ .read none ∧ r ≠ .write (.error ())

/-- A slot that `find_lru_victim` can choose. -/
def Free (s : Store) (c : Word) (i : Fin cacheSize) : Prop :=
  (s.entries i).valid = false ∨ (s.entries i).dirty = false ∧ (s.entries i).accessCounter < c

/-- The sector is cached, or some slot is not dirty. -/
def Room (s : Store) (d l : Word) : Prop := (∃ i, s.At i d l) ∨ ∃ i, s.Free (BitVec.allOnes 64) i

def HasRoom (e : CacheEvent) : Prop :=
  match e.op with
  | .read d l .. | .write d l .. => e.pre.Room d l
  | .flush _ => True

theorem isSome_victimFrom (s : Store) (is : List (Fin cacheSize)) (best : Option (Fin cacheSize))
    (c : Word) : (s.victimFrom is best c).isSome ↔ best.isSome ∨ ∃ i ∈ is, s.Free c i := by
  induction is generalizing best c with
  | nil => simp [victimFrom]
  | cons i is ih =>
    rw [victimFrom]
    by_cases hvalid : (s.entries i).valid
    · by_cases hclean : (s.entries i).dirty = false ∧ (s.entries i).accessCounter < c
      · simp [hvalid, hclean, ih, Free]
      · rw [if_neg (by simp [hvalid]), if_neg (by simpa using hclean), ih]
        simp [Free, hvalid, hclean]
    · simp [hvalid, Free]

/-- A call is served on a hit, and on a miss that finds a slot. -/
theorem room_iff (data : Sector) (dirty writeOk : Bool) :
    s.Room d l ↔ (s.find d l).isSome ∨ (s.insert d l data dirty writeOk).isSome := by
  have hfind : (s.find d l).isSome ↔ ∃ i, s.At i d l := by
    simp only [find, At]
    grind
  have hvictim : s.findLruVictim.isSome ↔ ∃ i, s.Free (BitVec.allOnes 64) i := by
    simp [findLruVictim, isSome_victimFrom]
  rw [Room, ← hvictim, Store.insert]
  split <;> simp [*]

theorem served_iff (hstep : step s op = some (r, s'))
    (h : Working ⟨s, op, r, s'⟩) : Served r ↔ HasRoom ⟨s, op, r, s'⟩ := by
  cases op with
  | flush outcome =>
    cases hstep
    exact iff_of_true ⟨nofun, nofun⟩ trivial
  | read d l readOk writeOk =>
    obtain ⟨hdisk, hread, -⟩ := h
    obtain ⟨c, hc⟩ : ∃ c, s.disk d = some c := isSome_iff_exists.mp hdisk
    cases hstep
    refine .trans ?_ (room_iff (c l) false writeOk).symm
    rw [Store.readCached]
    cases s.find d l with
    | some i => simp [Served]
    | none => cases hins : s.insert d l (c l) false writeOk <;> simp [Served, hc, hread, hins]
  | write d l data writeOk =>
    cases hstep
    refine .trans ?_ (room_iff data true writeOk).symm
    rw [Store.writeCached]
    cases s.find d l with
    | some i => simp [Served]
    | none => cases hins : s.insert d l data true writeOk <;> simp [Served]

/-- On working devices every call succeeds exactly when each that misses finds a slot that is
    not dirty. -/
theorem served_iff_hasRoom {disk : Word → Option (Word → Sector)} {tr : List CacheEvent} {s : Store}
    (hrun : Run step (initial disk) tr s) (hworking : ∀ e ∈ tr, Working e) :
    (∀ e ∈ tr, Served e.res) ↔ ∀ e ∈ tr, HasRoom e := by
  refine forall₂_congr fun e he => ?_
  obtain ⟨-, -, -, hstep⟩ := hrun.of_mem he
  exact served_iff hstep (hworking e he)

/-- As many sectors are read as there are slots, and another one is written. -/
def fillThenWrite : List Op :=
  (range cacheSize).map (fun l => .read 0 (.ofNat 64 l) true true) ++
    [.write 0 64 (fun _ => 7) true]

/-- The write evicts the entry that was read first. -/
theorem served_iff_hasRoom_write : ∃ tr s, Run step (initial oneDevice) tr s ∧
    tr.map Transition.op = fillThenWrite ∧ (∀ e ∈ tr, Served e.res) ∧ s.find 0 0 = none := by
  obtain ⟨tr, s, hrun, hops, hval⟩ := exists_run_of_exec step (initial oneDevice) fillThenWrite
    (fun tr s => (tr.all fun e => (e.pre.disk 0).isSome && e.pre.findLruVictim.isSome) &&
      decide (s.find 0 0 = none)) (by decide +kernel)
  rw [and_eq_true, List.all_eq_true, decide_eq_true_eq] at hval
  have hop : ∀ e ∈ tr, (∃ l, e.op = .read 0 l true true) ∨ ∃ l x, e.op = .write 0 l x true := by
    intro e he
    have hmem := mem_map_of_mem (f := Transition.op) he
    rw [hops] at hmem
    grind [fillThenWrite]
  refine ⟨tr, s, hrun, hops, (served_iff_hasRoom hrun fun e he => ?_).2 fun e he => ?_, hval.2⟩
  · have hdisk := (and_eq_true_iff.mp (hval.1 e he)).1
    rcases hop e he with ⟨l, h⟩ | ⟨l, x, h⟩ <;> rw [Working, h]
    exact ⟨hdisk, rfl, rfl⟩
  · have hfree : ∃ i, e.pre.Free (BitVec.allOnes 64) i := by
      simpa [findLruVictim, isSome_victimFrom] using (and_eq_true_iff.mp (hval.1 e he)).2
    rcases hop e he with ⟨l, h⟩ | ⟨l, x, h⟩ <;> rw [HasRoom, h] <;> exact .inr hfree

/-- A write to a device that works. -/
def Op.isWrite : Op → Bool
  | .write _ _ _ writeOk => writeOk
  | _ => false

def Res.isRefused : Res → Bool
  | .write (.error _) => true
  | _ => false

/-- One sector more is written than there are slots, and the last write is refused. -/
theorem not_served_of_all_dirty :
    ∃ tr s, Run step (initial oneDevice) tr s ∧ (∀ e ∈ tr, Working e) ∧
      ¬ ∀ e ∈ tr, Served e.res := by
  have hexec : (exec step (initial oneDevice) ((range (cacheSize + 1)).map fun l =>
      .write 0 (BitVec.ofNat 64 l) (fun _ => 7) true)).map
      (fun q => q.1.all (·.op.isWrite) && q.1.any (·.res.isRefused)) = some true := by
    decide +kernel
  obtain ⟨tr, s, hrun, h⟩ := run_of_exec hexec
  rw [and_eq_true, List.all_eq_true, List.any_eq_true] at h
  refine ⟨tr, s, hrun, fun ⟨s, op, r, s'⟩ he => ?_, fun hall => ?_⟩
  · have hwrite := h.1 _ he
    cases op with
    | write => exact hwrite
    | read | flush => cases hwrite
  · obtain ⟨⟨s, op, r, s'⟩, he, hr⟩ := h.2
    cases r with
    | write r =>
      cases r with
      | ok => cases hr
      | error => exact (hall _ he).2 rfl
    | read | flush => cases hr

end Store

end OpenOS.Fs.BlockCache
