/-
  The inode tables of a well laid out volume (kernel/src/fs/ext2.rs): inodes have
  places of their own, and `write_inode` changes the one it is given.
-/

import OpenOS.Fs.Ext2.Alloc

namespace OpenOS.Fs.Ext2.Ext2Fs

open Base Option Function Comp Nat

variable {fs : Ext2Fs}

/-- The number of inodes. -/
def inodeCount (fs : Ext2Fs) : Nat := fs.groupDescriptors.length * fs.superblock.inodesPerGroup

/-- Where the place of an inode is: in which table, which block of it and how far
    into that. -/
theorem Layout.place_spec (h : fs.Layout M) (hp : fs.place n = some (b, off)) :
    n ≠ 0 ∧ ∃ k, fs.metaAt (.inodeTable ((n - 1) / fs.superblock.inodesPerGroup) k) = some b ∧
      k * fs.blockSize + off = (n - 1) % fs.superblock.inodesPerGroup * fs.inodeBytes ∧
      off + fs.inodeBytes ≤ fs.blockSize := by
  unfold place at hp
  split at hp
  · cases hp
  rename_i hn
  obtain ⟨desc, hdesc, heq⟩ := map_eq_some_iff.mp hp
  cases heq
  rw [show max fs.superblock.inodeSize minInodeSize = fs.inodeBytes from rfl]
  have hbs := Nat.pos_of_ne_zero h.blockSize_ne_zero
  have hper := Nat.pos_of_ne_zero h.inodesPerGroup
  have hbytes : 0 < fs.inodeBytes := Nat.lt_of_lt_of_le (by decide) (Nat.le_max_right _ minInodeSize)
  have hlt : (n - 1) % fs.superblock.inodesPerGroup * fs.inodeBytes <
      fs.superblock.inodesPerGroup * fs.inodeBytes :=
    Nat.mul_lt_mul_of_pos_right (Nat.mod_lt _ hper) hbytes
  have hdvd : fs.inodeBytes ∣ (n - 1) % fs.superblock.inodesPerGroup * fs.inodeBytes :=
    Nat.dvd_mul_left _ _
  generalize (n - 1) % fs.superblock.inodesPerGroup * fs.inodeBytes = offset at hlt hdvd ⊢
  refine ⟨hn, offset / fs.blockSize, ?_, ?_, ?_⟩
  · have hle : offset / fs.blockSize * fs.blockSize ≤ offset := Nat.div_mul_le_self _ _
    rw [metaAt, if_pos (by omega), hdesc, map_some]
  · rw [Nat.mul_comm]
    exact Nat.div_add_mod _ _
  · -- the block is a whole number of inodes
    obtain ⟨k, hk⟩ := h.inodeBytes_dvd
    obtain ⟨j, hj⟩ := (Nat.dvd_mod_iff h.inodeBytes_dvd).mpr hdvd
    have hmod := Nat.mod_lt offset hbs
    rw [hj] at hmod ⊢
    rw [hk] at hmod ⊢
    have hjk := Nat.lt_of_mul_lt_mul_left hmod
    calc fs.inodeBytes * j + fs.inodeBytes = fs.inodeBytes * (j + 1) := (Nat.mul_succ _ _).symm
      _ ≤ fs.inodeBytes * k := Nat.mul_le_mul_left _ hjk

theorem Layout.minInodeSize_le (fs : Ext2Fs) : minInodeSize ≤ fs.inodeBytes := le_max_right _ _

theorem Layout.place_disjoint (h : fs.Layout M) (hne : m ≠ n) (hn : fs.place n = some (b, off))
    (hm : fs.place m = some (b, off')) : off' + minInodeSize ≤ off ∨ off + minInodeSize ≤ off' := by
  obtain ⟨hn0, k, hmeta, hoff, -⟩ := h.place_spec hn
  obtain ⟨hm0, k', hmeta', hoff', -⟩ := h.place_spec hm
  obtain ⟨hgroup, rfl⟩ := MetaRef.inodeTable.inj (h.metadata_inj _ _ _ hmeta hmeta')
  have hle := Layout.minInodeSize_le fs
  have hindex : (n - 1) % fs.superblock.inodesPerGroup ≠ (m - 1) % fs.superblock.inodesPerGroup := by
    intro heq
    have hdiv := div_add_mod (n - 1) fs.superblock.inodesPerGroup
    rw [hgroup, heq, div_add_mod] at hdiv
    omega
  -- in one block of the table the offsets differ as the indices do
  rcases lt_or_gt_of_ne hindex with hlt | hlt
  · right
    have hmul := mul_le_mul_right fs.inodeBytes (succ_le_of_lt hlt)
    rw [succ_mul] at hmul
    omega
  left
  have hmul := mul_le_mul_right fs.inodeBytes (succ_le_of_lt hlt)
  rw [succ_mul] at hmul
  omega

theorem Layout.exists_place (h : fs.Layout M) (hn : n ≠ 0) (hend : n ≤ fs.inodeCount) :
    ∃ b off, fs.place n = some (b, off) := by
  have hper := Nat.pos_of_ne_zero h.inodesPerGroup
  have hgroup : (n - 1) / fs.superblock.inodesPerGroup < fs.groupDescriptors.length := by
    rw [Nat.div_lt_iff_lt_mul hper]
    unfold inodeCount at hend
    omega
  unfold place
  rw [if_neg hn, List.getElem?_eq_getElem hgroup]
  exact ⟨_, _, rfl⟩

theorem place_lt (h : fs.Layout M) (hn : fs.inodeCount < n) : fs.place n = none := by
  have hgroup : fs.groupDescriptors.length ≤ (n - 1) / fs.superblock.inodesPerGroup := by
    rw [Nat.le_div_iff_mul_le (Nat.pos_of_ne_zero h.inodesPerGroup)]
    unfold inodeCount at hn
    omega
  unfold place
  rw [if_neg (by omega), List.getElem?_eq_none hgroup]
  rfl

theorem inodeAt_eq_some (h : fs.inodeAt v n = some inode) :
    ∃ b off data, fs.place n = some (b, off) ∧ v b = some data ∧
      inode = .fromBytes (window data off 128) := by
  obtain ⟨⟨b, off⟩, hplace, h⟩ := bind_eq_some_iff.mp h
  obtain ⟨data, hdata, h⟩ := bind_eq_some_iff.mp h
  split at h
  · cases h
  · cases h
    exact ⟨b, off, data, hplace, hdata, rfl⟩

theorem Layout.inodeAt_congr (h : fs.Layout M)
    (hv : ∀ g k b, fs.metaAt (.inodeTable g k) = some b → v' b = v b) :
    fs.inodeAt v' = fs.inodeAt v := by
  funext n
  unfold inodeAt
  cases hp : fs.place n with
  | none => rfl
  | some slot =>
    obtain ⟨-, k, hmeta, -⟩ := h.place_spec (show fs.place n = some (slot.1, slot.2) from hp)
    rw [bind_some, bind_some, hv _ _ _ hmeta]

/-- When only block bitmaps and blocks for data change, the inodes and their marks
    stay. -/
theorem Layout.inodes_eq_of_fixed (h : fs.Layout M) (v v' : View)
    (hfixed : ∀ x, x ∈ M → x ∉ fs.blockRow.maps → v' x = v x) :
    fs.inodeAt v' = fs.inodeAt v ∧ fs.inodeUsed v' = fs.inodeUsed v := by
  have hmeta : ∀ r b, (∀ g, r ≠ .blockBitmap g) → fs.metaAt r = some b → v' b = v b := by
    intro r b hr hb
    refine hfixed b (h.metadata_mem _ _ hb) fun hmem => ?_
    obtain ⟨g, hg⟩ := metaAt_of_mem_blockRow hmem
    exact hr g (h.metadata_inj _ _ _ hb hg)
  refine ⟨h.inodeAt_congr fun g k b hb => hmeta _ b (fun _ heq => by cases heq) hb, ?_⟩
  refine inodeUsed_congr fun b hb => ?_
  obtain ⟨g, hg⟩ := metaAt_of_mem_inodeRow hb
  exact hmeta _ b (fun _ heq => by cases heq) hg

/-- Inode `n` is `inode` now; only its table has changed. -/
structure SetsInode (fs : Ext2Fs) (v : View) (n : Nat) (inode : Inode) (v' : View) : Prop where
  inodes : fs.inodeAt v' = update (fs.inodeAt v) n (some inode)
  covers : fs.Covers v'
  same : ∀ x, (∀ g k, fs.metaAt (.inodeTable g k) ≠ some x) → v' x = v x

theorem Layout.writeInode_gives (h : fs.Layout M) (hv : fs.Covers (fs.view d)) (hn : n ≠ 0)
    (hend : n ≤ fs.inodeCount) (inode : Inode) :
    Gives (writeInode p fs n inode) d fun _ d' => fs.SetsInode (fs.view d) n inode (fs.view d') := by
  obtain ⟨b, off, hplace⟩ := h.exists_place hn hend
  obtain ⟨-, k, hmeta, -, hfit⟩ := h.place_spec hplace
  have hle := Layout.minInodeSize_le fs
  have hbytes := Inode.length_toBytes inode
  have hmin : minInodeSize = 128 := rfl
  refine Reads.gives_bind (.inl (h.inodeSlot_eq n d)) fun slot hslot => ?_
  cases hslot.symm.trans hplace
  refine (h.readBlock_reads b d).gives_bind fun old hold => .bind_orPanic fun data hcopy => ?_
  have hlen := (length_of_copyAt hcopy).trans (h.length_view hold)
  refine (h.writeBlock_gives hlen b d).mono fun _ d' hview => ⟨?_, ?_, ?_⟩
  · funext m
    rw [hview]
    by_cases hm : m = n
    · subst hm
      rw [update_self, inodeAt, hplace, bind_some]
      rw [update_self, bind_some, if_neg (by omega)]
      have hwin := window_copyAt_self hcopy
      rw [hbytes] at hwin
      rw [hwin, Inode.fromBytes_toBytes]
    · rw [update_of_ne hm]
      unfold inodeAt
      cases hp : fs.place m with
      | none => rfl
      | some slot =>
        rw [bind_some, bind_some]
        by_cases hb : slot.1 = b
        · obtain ⟨b', off'⟩ := slot
          subst hb
          have hdisj := h.place_disjoint hm hplace hp
          rw [update_self, hold, bind_some, bind_some, window_copyAt_of_disjoint hcopy (by omega)]
        · rw [update_of_ne hb]
  · rw [hview]
    exact hv.update hlen
  · intro x hx
    rw [hview, update_of_ne]
    rintro rfl
    exact hx _ _ hmeta

end OpenOS.Fs.Ext2.Ext2Fs
