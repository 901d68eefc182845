/-
  Lookups on a volume with a sane geometry, as functions of the view of the
  device: the place of an inode, the inode there, and the physical block of a
  logical one, which is found by following pointers along a path of indices.  A
  lookup gives what the function says, or an error when the cache refuses.
-/

import OpenOS.Fs.Ext2.BlockTree
import OpenOS.Fs.Ext2.Store

namespace OpenOS.Fs.Ext2.Ext2Fs

open Base Base.Comp Nat

/-- A sane superblock and group table: one of the three block sizes, groups that are not
    empty, data from block 0 or 1 on, and inode tables that end below 2^32. -/
structure Geometry (fs : Ext2Fs) : Prop where
  blockSize : fs.blockSize = 1024 ∨ fs.blockSize = 2048 ∨ fs.blockSize = 4096
  blocksPerGroup : fs.superblock.blocksPerGroup ≠ 0
  inodesPerGroup : fs.superblock.inodesPerGroup ≠ 0
  firstDataBlock : fs.superblock.firstDataBlock ≤ 1
  inodeTables : ∀ desc ∈ fs.groupDescriptors, desc.inodeTable +
    fs.superblock.inodesPerGroup * max fs.superblock.inodeSize minInodeSize / fs.blockSize < 2 ^ 32

/-- What reading gives: the value, or an error, with the device as it was. -/
def answer {α : Type} (d : Disk) : Option α → EStateM.Result (Stop Unit) Disk α
  | none => .error (.err ()) d
  | some a => .ok a d

/-- Code that only reads, with the answer `o` unless the cache refuses. -/
def Reads {α : Type} (x : DiskM α) (d : Disk) (o : Option α) : Prop :=
  x d = answer d o ∨ d.room = 0 ∧ x d = answer d none

section Reads

variable {α β : Type} {x : DiskM α} {f : α → DiskM β} {d : Disk} {a : α} {o : Option α}
  {g : α → Option β} {q : Option β} {R : β → Disk → Prop}

theorem Reads.bind (hx : Reads x d o) (hf : ∀ a, o = some a → Reads (f a) d (g a)) :
    Reads (x >>= f) d (o.bind g) := by
  rcases hx with hx | ⟨hroom, hx⟩
  · cases o with
    | none => exact .inl (bind_of_error hx f)
    | some a =>
      unfold Reads
      rw [bind_of_ok hx]
      exact hf a rfl
  · exact .inr ⟨hroom, bind_of_error hx f⟩

theorem Reads.bind_some (hx : Reads x d (some a)) (hf : Reads (f a) d q) : Reads (x >>= f) d q :=
  hx.bind fun _ hb => Option.some.inj hb ▸ hf

/-- After a computation that reads nothing. -/
theorem Reads.after (hx : x d = answer d (some a)) (hf : Reads (f a) d q) : Reads (x >>= f) d q :=
  .bind_some (.inl hx) hf

theorem Reads.of_none (h : Reads x d none) : x d = .error (.err ()) d := h.elim id And.right

theorem Reads.gives (h : Reads x d o) : Gives x d fun a d' => o = some a ∧ d' = d := by
  rcases h with h | ⟨-, h⟩
  · cases o with
    | none => exact .of_error h
    | some a => exact .of_ok h ⟨rfl, rfl⟩
  · exact .of_error h

/-- What comes after reading, if the reading succeeds. -/
theorem Reads.gives_bind (hx : Reads x d o) (hf : ∀ a, o = some a → Gives (f a) d R) :
    Gives (x >>= f) d R :=
  hx.gives.bind fun a _ ⟨ha, hd⟩ => hd ▸ hf a ha

theorem still_of_reads {o : Disk → Option α} (h : ∀ d, Reads x d (o d)) : Still x := by
  intro d
  rcases h d with h | ⟨-, h⟩
  · rw [h]
    cases o d <;> rfl
  · rw [h]
    rfl

end Reads

/-! ## Inodes -/

/-- The block of an inode and its offset there. -/
def place (fs : Ext2Fs) (n : Nat) : Option (Nat × Nat) :=
  if n = 0 then none
  else
    fs.groupDescriptors[(n - 1) / fs.superblock.inodesPerGroup]?.map fun desc =>
      let offset := (n - 1) % fs.superblock.inodesPerGroup * max fs.superblock.inodeSize minInodeSize
      (desc.inodeTable + offset / fs.blockSize, offset % fs.blockSize)

/-- The inode with a number. -/
def inodeAt (fs : Ext2Fs) (v : Nat → Option (List Byte)) (n : Nat) : Option Inode :=
  (fs.place n).bind fun slot =>
    (v slot.1).bind fun data =>
      if fs.blockSize < slot.2 + minInodeSize then none
      else some (.fromBytes (window data slot.2 128))

section Inodes

variable {fs : Ext2Fs}

theorem Geometry.blockSize_ne_zero (h : fs.Geometry) : fs.blockSize ≠ 0 := by
  rcases h.blockSize with hb | hb | hb <;> rw [hb] <;> decide

theorem Geometry.sector_dvd (h : fs.Geometry) : sectorSize ∣ fs.blockSize := by
  rcases h.blockSize with hb | hb | hb <;> rw [hb] <;> decide

theorem readBlock_reads_of_dvd (hbs : sectorSize ∣ fs.blockSize) (b : Nat) (d : Disk) :
    Reads (fs.readBlock b) d (fs.view d b) := by
  have hread := Ext2Fs.readBlock_eq hbs d b
  unfold Reads
  rcases gather_get d (b * (fs.blockSize / sectorSize)) (fs.blockSize / sectorSize) with
    heq | ⟨hroom, hnone⟩
  · left
    rw [hread, heq, view]
    split <;> rename_i hview <;> rw [hview] <;> rfl
  · right
    rw [hread, hnone]
    exact ⟨hroom, rfl⟩

theorem Geometry.readBlock_reads (h : fs.Geometry) (b : Nat) (d : Disk) :
    Reads (fs.readBlock b) d (fs.view d b) :=
  readBlock_reads_of_dvd h.sector_dvd b d

theorem Geometry.length_view (h : fs.Geometry) (hv : fs.view d b = some data) :
    data.length = fs.blockSize :=
  Ext2Fs.length_view h.sector_dvd hv

theorem u32_eq (h : n < 2 ^ 32) (d : Disk) : u32 p n d = answer d (some n) := by
  rw [u32, p.fit_of_lt h]
  rfl

theorem divide_eq (h : k ≠ 0) (d : Disk) : divide n k d = answer d (some (n / k)) := by
  rw [divide, if_neg h]
  rfl

theorem Geometry.inodeSlot_eq (h : fs.Geometry) (n : Nat) (d : Disk) :
    inodeSlot p fs n d = answer d (fs.place n) := by
  unfold inodeSlot place
  by_cases hn : n = 0
  · rw [if_pos hn, if_pos hn]
    rfl
  rw [if_neg hn, if_neg hn]
  have hgroup := divide_eq (n := n - 1) h.inodesPerGroup d
  rw [bind_of_ok hgroup]
  cases hdesc : fs.groupDescriptors[(n - 1) / fs.superblock.inodesPerGroup]? with
  | none => rfl
  | some desc =>
    have hmem := List.mem_of_getElem? hdesc
    have htable := h.inodeTables desc hmem
    have hoff : (n - 1) % fs.superblock.inodesPerGroup *
        max fs.superblock.inodeSize minInodeSize / fs.blockSize ≤
        fs.superblock.inodesPerGroup * max fs.superblock.inodeSize minInodeSize /
          fs.blockSize := by
      apply Nat.div_le_div_right
      exact Nat.mul_le_mul_right _
        (Nat.le_of_lt (Nat.mod_lt _ (Nat.pos_of_ne_zero h.inodesPerGroup)))
    have hblock := divide_eq (n := (n - 1) % fs.superblock.inodesPerGroup *
      max fs.superblock.inodeSize minInodeSize) h.blockSize_ne_zero d
    simp only []
    rw [bind_of_ok hblock, mod_eq_of_lt (by omega), bind_of_ok (u32_eq (by omega) d)]
    rfl

theorem Geometry.readInode_reads (h : fs.Geometry) (n : Nat) (d : Disk) :
    Reads (readInode p fs n) d (fs.inodeAt (fs.view d) n) := by
  refine Reads.bind (.inl (h.inodeSlot_eq n d)) fun slot _ => ?_
  refine (h.readBlock_reads slot.1 d).bind fun data hdata => ?_
  rw [h.length_view hdata]
  split <;> exact .inl rfl

end Inodes

/-! ## Blocks of an inode -/

/-- An entry of a pointer block. -/
def pointer (fs : Ext2Fs) (v : Nat → Option (List Byte)) (b index : Nat) : Option (BitVec 32) :=
  (v b).bind fun data =>
    if fs.blockSize < index * 4 + 4 then none else some (u32At data (index * 4))

/-- Follow a path of indices; a pointer that is zero leads nowhere. -/
def follow (fs : Ext2Fs) (v : Nat → Option (List Byte)) :
    BitVec 32 → List Nat → Option (BitVec 32)
  | b, [] => some b
  | b, i :: is => if b = 0 then some 0 else (fs.pointer v b.toNat i).bind fun c => fs.follow v c is

/-- The path of a logical block: its root in the inode and the indices from there. -/
def locate (fs : Ext2Fs) (l : Nat) : Fin 15 × List Nat :=
  let e := fs.entriesPerBlock
  if h : l < 12 then (⟨l, lt_trans h (by decide)⟩, [])
  else if l < 12 + e then (12, [l - 12])
  else if l < 12 + e + e * e then
    let i := l - (12 + e)
    (13, [i / e, i % e])
  else
    let i := l - (12 + e + e * e)
    (14, [i / (e * e), i % (e * e) / e, i % (e * e) % e])

/-- The physical block of a logical one. -/
def blockOf (fs : Ext2Fs) (v : Nat → Option (List Byte)) (inode : Inode) (l : Nat) :
    Option (BitVec 32) :=
  fs.follow v (inode.block (fs.locate l).1) (fs.locate l).2

section Blocks

variable {fs : Ext2Fs}

section

variable (h : fs.Geometry)
include h

theorem Geometry.entries : fs.blockSize = 4 * fs.entriesPerBlock ∧
    256 ≤ fs.entriesPerBlock ∧ fs.entriesPerBlock ≤ 1024 := by
  unfold entriesPerBlock
  rcases h.blockSize with hb | hb | hb <;> rw [hb] <;> decide

theorem Geometry.square_le : fs.entriesPerBlock * fs.entriesPerBlock ≤ 2 ^ 20 := by
  obtain ⟨-, -, hle⟩ := h.entries
  exact (Nat.mul_le_mul hle hle).trans (by decide)

theorem Geometry.square_ne_zero : fs.entriesPerBlock * fs.entriesPerBlock ≠ 0 := by
  obtain ⟨-, hge, -⟩ := h.entries
  exact mul_ne_zero (by omega) (by omega)

theorem Geometry.pointerAt_reads (b : Nat) (hi : i * 4 < 2 ^ 32) (d : Disk) :
    Reads (pointerAt p fs b i) d (fs.pointer (fs.view d) b i) := by
  refine (h.readBlock_reads b d).bind fun data hdata => .after (u32_eq hi d) ?_
  rw [h.length_view hdata]
  split <;> exact .inl rfl

theorem Geometry.readIndirect_reads (b : BitVec 32) (hi : i * 4 < 2 ^ 32) (d : Disk) :
    Reads (readIndirect p fs b i) d (fs.follow (fs.view d) b [i]) := by
  unfold readIndirect
  rw [follow]
  by_cases hb : b = 0
  · rw [if_pos hb, if_pos hb]
    exact .inl rfl
  · rw [if_neg hb, if_neg hb, show (fun c => fs.follow (fs.view d) c []) = some from rfl,
      Option.bind_fun_some]
    exact h.pointerAt_reads b.toNat hi d

theorem Geometry.readDoubleIndirect_reads (b : BitVec 32) (hi : i < 2 ^ 32) (d : Disk) :
    Reads (readDoubleIndirect p fs b i) d
      (fs.follow (fs.view d) b [i / fs.entriesPerBlock, i % fs.entriesPerBlock]) := by
  obtain ⟨-, hge, hle⟩ := h.entries
  have hdiv : i / fs.entriesPerBlock * 4 < 2 ^ 32 := by
    have := div_le_div_left hge (by decide) (a := i)
    omega
  have hmod := mod_lt i (show 0 < fs.entriesPerBlock by omega)
  unfold readDoubleIndirect
  rw [follow]
  by_cases hb : b = 0
  · rw [if_pos hb, if_pos hb]
    exact .inl rfl
  · rw [if_neg hb, if_neg hb]
    refine .after (divide_eq (by omega) d) ((h.pointerAt_reads b.toNat hdiv d).bind fun c _ => ?_)
    exact h.readIndirect_reads c (by omega) d

/-- The places of an index in a triple indirect block and in the blocks below it. -/
theorem Geometry.square_bounds (hi : i < 2 ^ 32) :
    i / (fs.entriesPerBlock * fs.entriesPerBlock) * 4 < 2 ^ 32 ∧
      i % (fs.entriesPerBlock * fs.entriesPerBlock) < 2 ^ 32 := by
  obtain ⟨-, hge, -⟩ := h.entries
  have hsq : 4 ≤ fs.entriesPerBlock * fs.entriesPerBlock :=
    le_trans (by decide) (Nat.mul_le_mul hge hge)
  exact ⟨((Nat.mul_le_mul_left _ hsq).trans (Nat.div_mul_le_self _ _)).trans_lt hi,
    (Nat.mod_le _ _).trans_lt hi⟩

theorem Geometry.readTripleIndirect_reads (b : BitVec 32) (hi : i < 2 ^ 32) (d : Disk) :
    Reads (readTripleIndirect p fs b i) d
      (fs.follow (fs.view d) b [i / (fs.entriesPerBlock * fs.entriesPerBlock),
        i % (fs.entriesPerBlock * fs.entriesPerBlock) / fs.entriesPerBlock,
        i % (fs.entriesPerBlock * fs.entriesPerBlock) % fs.entriesPerBlock]) := by
  have hsq := h.square_le
  have hne := h.square_ne_zero
  obtain ⟨hdiv, hmod⟩ := h.square_bounds hi
  unfold readTripleIndirect
  rw [follow]
  by_cases hb : b = 0
  · rw [if_pos hb, if_pos hb]
    exact .inl rfl
  rw [if_neg hb, if_neg hb]
  refine .after (u32_eq (by omega) d) (.after (divide_eq hne d) ?_)
  exact (h.pointerAt_reads b.toNat hdiv d).bind fun c _ => h.readDoubleIndirect_reads c (by omega) d

theorem Geometry.resolveBlock_reads (inode : Inode) (hl : l < 2 ^ 32) (d : Disk) :
    Reads (resolveBlock p fs inode l) d (fs.blockOf (fs.view d) inode l) := by
  have hsq := h.square_le
  obtain ⟨-, hge, hle⟩ := h.entries
  unfold resolveBlock blockOf locate directBlocks
  by_cases h12 : l < 12
  · rw [dif_pos h12, dif_pos h12]
    exact .inl rfl
  rw [dif_neg h12, dif_neg h12]
  by_cases hsingle : l < 12 + fs.entriesPerBlock
  · rw [if_pos hsingle, if_pos hsingle]
    exact h.readIndirect_reads _ (by omega) d
  rw [if_neg hsingle, if_neg hsingle]
  have hbase : tripleBase p fs d = answer d
      (some (12 + fs.entriesPerBlock + fs.entriesPerBlock * fs.entriesPerBlock)) := by
    unfold tripleBase directBlocks
    rw [bind_of_ok (u32_eq (by omega) d)]
    exact u32_eq (by omega) d
  refine .after hbase ?_
  by_cases hdouble : l < 12 + fs.entriesPerBlock + fs.entriesPerBlock * fs.entriesPerBlock
  · rw [if_pos hdouble, if_pos hdouble]
    exact h.readDoubleIndirect_reads _ (by omega) d
  · rw [if_neg hdouble, if_neg hdouble]
    exact h.readTripleIndirect_reads _ (by omega) d

end

/-- The roots from 12 on are those of the pointer trees. -/
theorem twelve_le_locate (fs : Ext2Fs) (h : 12 ≤ l) : 12 ≤ (fs.locate l).1.val := by
  unfold locate
  rw [dif_neg (by omega)]
  split
  · exact le_refl 12
  · split
    · exact le_add_right 12 1
    · exact le_add_right 12 2

theorem locate_of_lt (h : l < 12) : fs.locate l = (⟨l, lt_trans h (by decide)⟩, []) := dif_pos h

/-- The number of logical blocks that the triple indirect tree ends with. -/
def maxBlocks (fs : Ext2Fs) : Nat :=
  12 + fs.entriesPerBlock + fs.entriesPerBlock * fs.entriesPerBlock +
    fs.entriesPerBlock * fs.entriesPerBlock * fs.entriesPerBlock

theorem Geometry.maxBlocks_le (h : fs.Geometry) : fs.maxBlocks ≤ 2 ^ 30 + 2 ^ 21 := by
  have hsq := h.square_le
  obtain ⟨-, -, hle⟩ := h.entries
  have hcube : fs.entriesPerBlock * fs.entriesPerBlock * fs.entriesPerBlock ≤ 2 ^ 20 * 1024 :=
    Nat.mul_le_mul hsq hle
  unfold maxBlocks
  omega

theorem Geometry.maxSize_lt (h : fs.Geometry) : fs.maxBlocks * fs.blockSize < 2 ^ 64 := by
  obtain ⟨hbs, -, hle⟩ := h.entries
  have hmul : fs.maxBlocks * fs.blockSize ≤ (2 ^ 30 + 2 ^ 21) * 4096 :=
    Nat.mul_le_mul h.maxBlocks_le (by omega)
  omega

/-- Past the triple indirect tree the path leaves its first block. -/
theorem Geometry.locate_of_maxBlocks_le (h : fs.Geometry) (hl : fs.maxBlocks ≤ l) :
    ∃ i rest, fs.locate l = (14, i :: rest) ∧ fs.entriesPerBlock ≤ i := by
  unfold maxBlocks at hl
  unfold locate
  rw [dif_neg (by omega), if_neg (by omega), if_neg (by omega)]
  refine ⟨_, _, rfl, ?_⟩
  rw [Nat.le_div_iff_mul_le (Nat.pos_of_ne_zero h.square_ne_zero), ← Nat.mul_assoc]
  omega

/-- The lookup of such a block fails, if there is a triple indirect block. -/
theorem Geometry.blockOf_eq_none (h : fs.Geometry) (v : Nat → Option (List Byte))
    (hroot : inode.block 14 ≠ 0) (hl : fs.maxBlocks ≤ l) : fs.blockOf v inode l = none := by
  obtain ⟨hbs, -, -⟩ := h.entries
  obtain ⟨i, rest, hlocate, hi⟩ := h.locate_of_maxBlocks_le hl
  have hpointer : fs.pointer v (inode.block 14).toNat i = none := by
    unfold pointer
    cases v (inode.block 14).toNat with
    | none => rfl
    | some data => exact if_pos (by omega)
  rw [blockOf, hlocate, follow, if_neg hroot, hpointer]
  rfl

theorem Geometry.blockOf_of_maxBlocks_le (h : fs.Geometry) (v : Nat → Option (List Byte))
    (inode : Inode) (hl : fs.maxBlocks ≤ l) (hb : fs.blockOf v inode l = some b) : b = 0 := by
  by_cases hroot : inode.block 14 = 0
  · obtain ⟨i, rest, hlocate, -⟩ := h.locate_of_maxBlocks_le hl
    rw [blockOf, hlocate, follow, if_pos hroot] at hb
    exact (Option.some.inj hb).symm
  · rw [h.blockOf_eq_none v hroot hl] at hb
    cases hb

end Blocks

end OpenOS.Fs.Ext2.Ext2Fs
