/-
  Allocation on a well laid out volume (kernel/src/fs/ext2.rs): the bitmaps of
  the groups are a row of bits, `alloc_block` and `alloc_inode` set one that was
  clear, `free_block` and `free_inode` clear one, and nothing else changes.
-/

import OpenOS.Base.Bitmap
import OpenOS.Fs.Ext2.Lookup
import Mathlib.Data.List.Nodup

namespace OpenOS.Fs.Ext2

open Base Base.Comp List Nat
open Option (any_some bind_some map_some some)
open Function (update update_of_ne update_self)

/-- What a device keeps in each block. -/
abbrev View := Nat → Option (List Byte)

/-! ## Bits of a block -/

namespace Ext2Fs

theorem length_setBit (data : List Byte) (j : Nat) : (setBit data j).length = data.length :=
  length_set ..

/-- One byte is replaced by one that differs in one bit. -/
theorem bitAt_set (hj : j / 8 < data.length)
    (hb : ∀ k < 8, b.getLsbD k = if k = j % 8 then on else (byteAt data (j / 8)).getLsbD k)
    (m : Nat) : bitAt (data.set (j / 8) b) m = if m = j then on else bitAt data m := by
  have hbyte : byteAt (data.set (j / 8) b) (m / 8) =
      if m / 8 = j / 8 then b else byteAt data (m / 8) := by
    unfold byteAt
    rw [getD_eq_getElem?_getD, getD_eq_getElem?_getD, getElem?_set]
    by_cases h : m / 8 = j / 8
    · rw [if_pos h.symm, if_pos hj, if_pos h, Option.getD_some]
    · rw [if_neg (Ne.symm h), if_neg h]
  unfold bitAt
  rw [hbyte]
  by_cases h : m / 8 = j / 8
  · rw [if_pos h, hb _ (mod_lt _ (by decide)), h]
    by_cases hm : m = j
    · rw [if_pos hm, if_pos (by rw [hm])]
    · rw [if_neg hm, if_neg (by omega)]
  · rw [if_neg h, if_neg (by rintro rfl; exact h rfl)]

theorem bitAt_setBit (hj : j / 8 < data.length) (m : Nat) :
    bitAt (setBit data j) m = if m = j then true else bitAt data m :=
  bitAt_set hj (fun _ hk => Bitmap.getLsbD_or_mask _ hk) m

theorem bitAt_clearBit (hj : j / 8 < data.length) (m : Nat) :
    bitAt (clearBit data j) m = if m = j then false else bitAt data m :=
  bitAt_set hj (fun _ hk => Bitmap.getLsbD_and_not_mask _ hk) m

/-- Set or clear a bit. -/
def putBit (data : List Byte) (j : Nat) (on : Bool) : List Byte :=
  if on then setBit data j else clearBit data j

theorem length_putBit (data : List Byte) (j : Nat) (on : Bool) :
    (putBit data j on).length = data.length := by
  cases on with
  | false => exact length_clearBit data j
  | true => exact length_setBit data j

theorem bitAt_putBit (hj : j / 8 < data.length) (on : Bool) (m : Nat) :
    bitAt (putBit data j on) m = if m = j then on else bitAt data m := by
  cases on with
  | false => exact bitAt_clearBit hj m
  | true => exact bitAt_setBit hj m

end Ext2Fs

/-! ## Rows of bitmap blocks -/

/-- Bitmap blocks with `per` bits used in each. -/
structure BitRow where
  per : Nat
  maps : List Nat

namespace BitRow

variable {r : BitRow}

/-- Bit `i` of the row. -/
def bit (r : BitRow) (v : View) (i : Nat) : Bool :=
  (r.maps[i / r.per]?.bind v).any fun data => Ext2Fs.bitAt data (i % r.per)

/-- The view with bit `i` of the row set or cleared. -/
def put (r : BitRow) (v : View) (i : Nat) (on : Bool) : View :=
  match r.maps[i / r.per]? with
  | none => v
  | some m => update v m ((v m).map fun data => Ext2Fs.putBit data (i % r.per) on)

/-- The bitmaps are different blocks, can be accessed and have room. -/
structure Ok (r : BitRow) (v : View) : Prop where
  per_ne_zero : r.per ≠ 0
  nodup : r.maps.Nodup
  room : ∀ m ∈ r.maps, ∃ data, v m = some data ∧ r.per ≤ 8 * data.length

/-- The bits are those of the bitmaps. -/
theorem bit_congr (h : ∀ m ∈ r.maps, v' m = v m) : r.bit v' = r.bit v := by
  funext i
  unfold bit
  cases hm : r.maps[i / r.per]? with
  | none => rfl
  | some m => rw [bind_some, bind_some, h m (mem_of_getElem? hm)]

/-- No other block is written. -/
theorem put_of_notMem (hx : x ∉ r.maps) (i : Nat) (on : Bool) : r.put v i on x = v x := by
  unfold put
  cases hm : r.maps[i / r.per]? with
  | none => rfl
  | some m =>
    refine update_of_ne ?_ _ _
    rintro rfl
    exact hx (mem_of_getElem? hm)

theorem map_length_put (r : BitRow) (v : View) (i : Nat) (on : Bool) (x : Nat) :
    (r.put v i on x).map length = (v x).map length := by
  unfold put
  cases hm : r.maps[i / r.per]? with
  | none => rfl
  | some m =>
    by_cases hx : x = m
    · subst hx
      simp only [update_self, Option.map_map]
      congr 1
      funext data
      exact Ext2Fs.length_putBit _ _ _
    · simp [update_of_ne hx]

/-- The bit that was put is read back, and no other changes. -/
theorem Ok.bit_put (h : r.Ok v) (hi : i < r.maps.length * r.per) (on : Bool) (j : Nat) :
    r.bit (r.put v i on) j = if j = i then on else r.bit v j := by
  have hper : 0 < r.per := Nat.pos_of_ne_zero h.per_ne_zero
  have hgroup : i / r.per < r.maps.length := (div_lt_iff_lt_mul hper).mpr hi
  obtain ⟨data, hdata, hroom⟩ := h.room _ (getElem_mem hgroup)
  have hbyte : i % r.per / 8 < data.length := by
    have hmod := mod_lt i hper
    omega
  unfold bit BitRow.put
  rw [getElem?_eq_getElem hgroup]
  dsimp only
  cases hm : r.maps[j / r.per]? with
  | none =>
    have hji : j ≠ i := by
      rintro rfl
      rw [getElem?_eq_getElem hgroup] at hm
      cases hm
    rw [if_neg hji]
    rfl
  | some m =>
    rw [bind_some, bind_some]
    by_cases hsame : j / r.per = i / r.per
    · have hmm : m = r.maps[i / r.per] := by
        rw [hsame, getElem?_eq_getElem hgroup] at hm
        exact (some.inj hm).symm
      subst hmm
      rw [update_self, hdata, map_some, any_some, any_some,
        Ext2Fs.bitAt_putBit hbyte]
      have hiff : j % r.per = i % r.per ↔ j = i := by
        constructor
        · intro hmod
          rw [← div_add_mod j r.per, ← div_add_mod i r.per, hsame, hmod]
        · rintro rfl
          rfl
      by_cases hji : j = i
      · rw [if_pos hji, if_pos (hiff.mpr hji)]
      · rw [if_neg hji, if_neg fun hmod => hji (hiff.mp hmod)]
    · have hne : m ≠ r.maps[i / r.per] := by
        rintro rfl
        have hsome := getElem?_eq_getElem hgroup
        exact hsame ((getElem?_inj hgroup h.nodup).mp (hsome.trans hm.symm)).symm
      rw [update_of_ne hne, if_neg (by rintro rfl; exact hsame rfl)]

end BitRow

/-! ## Layouts -/

/-- A block of metadata that the code reads and writes. -/
inductive MetaRef where
  | blockBitmap (group : Nat)
  | inodeBitmap (group : Nat)
  | inodeTable (group index : Nat)

namespace Ext2Fs

/-- The bytes of an inode in the table. -/
def inodeBytes (fs : Ext2Fs) : Nat := max fs.superblock.inodeSize minInodeSize

/-- Where a block of metadata is. -/
def metaAt (fs : Ext2Fs) : MetaRef → Option Nat
  | .blockBitmap group => fs.groupDescriptors[group]?.map (·.blockBitmap)
  | .inodeBitmap group => fs.groupDescriptors[group]?.map (·.inodeBitmap)
  | .inodeTable group index =>
    if index * fs.blockSize < fs.superblock.inodesPerGroup * fs.inodeBytes then
      fs.groupDescriptors[group]?.map (·.inodeTable + index)
    else none

/-- The block bitmaps. -/
def blockRow (fs : Ext2Fs) : BitRow :=
  ⟨fs.superblock.blocksPerGroup, fs.groupDescriptors.map (·.blockBitmap)⟩

/-- The inode bitmaps. -/
def inodeRow (fs : Ext2Fs) : BitRow :=
  ⟨fs.superblock.inodesPerGroup, fs.groupDescriptors.map (·.inodeBitmap)⟩

/-- A block is marked as used. -/
def blockUsed (fs : Ext2Fs) (v : View) (b : Nat) : Bool :=
  fs.superblock.firstDataBlock ≤ b && fs.blockRow.bit v (b - fs.superblock.firstDataBlock)

/-- An inode is marked as used. -/
def inodeUsed (fs : Ext2Fs) (v : View) (n : Nat) : Bool := n ≠ 0 && fs.inodeRow.bit v (n - 1)

/-- A sane geometry in which the blocks of `M` are those not for data: metadata, each in
    its own block, what is before the first data block, and what the bitmaps cover past
    the end of the device. -/
structure Layout (fs : Ext2Fs) (M : Set Nat) : Prop extends Geometry fs where
  blockBits : fs.superblock.blocksPerGroup ≤ 8 * fs.blockSize
  inodeBits : fs.superblock.inodesPerGroup ≤ 8 * fs.blockSize
  blocksCount : fs.superblock.blocksCount ≤ fs.superblock.firstDataBlock +
    fs.groupDescriptors.length * fs.superblock.blocksPerGroup
  blockEnd : fs.superblock.firstDataBlock +
    fs.groupDescriptors.length * fs.superblock.blocksPerGroup ≤ 2 ^ 32
  inodeEnd : fs.groupDescriptors.length * fs.superblock.inodesPerGroup < 2 ^ 32
  inodeBytes_dvd : fs.inodeBytes ∣ fs.blockSize
  metadata_lt : ∀ r b, fs.metaAt r = some b → b < fs.superblock.blocksCount
  metadata_mem : ∀ r b, fs.metaAt r = some b → b ∈ M
  metadata_inj : ∀ r r' b, fs.metaAt r = some b → fs.metaAt r' = some b → r = r'
  before : ∀ b, b < fs.superblock.firstDataBlock ∨ b = 0 → b ∈ M
  after : ∀ b, fs.superblock.blocksCount ≤ b → b ∈ M

/-- Every block of the device can be accessed, and is one block long. -/
def Covers (fs : Ext2Fs) (v : View) : Prop :=
  ∀ b, b < fs.superblock.blocksCount → ∃ data, v b = some data ∧ data.length = fs.blockSize

variable {g : Nat}

section Layout

variable {fs : Ext2Fs}

theorem blockBitmap_at (fs : Ext2Fs) (g : Nat) :
    fs.blockRow.maps[g]? = fs.metaAt (.blockBitmap g) := getElem?_map ..

theorem inodeBitmap_at (fs : Ext2Fs) (g : Nat) :
    fs.inodeRow.maps[g]? = fs.metaAt (.inodeBitmap g) := getElem?_map ..

theorem metaAt_of_mem_blockRow (hb : b ∈ fs.blockRow.maps) :
    ∃ g, fs.metaAt (.blockBitmap g) = some b := by
  simpa only [← blockBitmap_at] using mem_iff_getElem?.mp hb

theorem metaAt_of_mem_inodeRow (hb : b ∈ fs.inodeRow.maps) :
    ∃ g, fs.metaAt (.inodeBitmap g) = some b := by
  simpa only [← inodeBitmap_at] using mem_iff_getElem?.mp hb

/-- The bitmaps of one kind are distinct blocks of the device, large enough for their groups. -/
theorem Layout.row_ok (h : fs.Layout M) (hv : fs.Covers v) {r : BitRow} {ref : Nat → MetaRef}
    (hat : ∀ g, r.maps[g]? = fs.metaAt (ref g)) (hinj : ∀ g g', ref g = ref g' → g = g')
    (hper : r.per ≠ 0) (hbits : r.per ≤ 8 * fs.blockSize) : r.Ok v := by
  refine ⟨hper, ?_, fun m hm => ?_⟩
  · rw [nodup_iff_getElem?_ne_getElem?]
    intro g g' hlt hlen heq
    have hb := getElem?_eq_getElem hlen
    have hsame := hinj _ _ (h.metadata_inj _ _ _ ((hat g).symm.trans (heq.trans hb))
      ((hat g').symm.trans hb))
    omega
  · obtain ⟨g, hg⟩ := mem_iff_getElem?.mp hm
    obtain ⟨data, hdata, hlen⟩ := hv m (h.metadata_lt _ _ ((hat g).symm.trans hg))
    exact ⟨data, hdata, by rwa [hlen]⟩

theorem Layout.blockRow_ok (h : fs.Layout M) (hv : fs.Covers v) : fs.blockRow.Ok v :=
  h.row_ok hv fs.blockBitmap_at (fun _ _ => MetaRef.blockBitmap.inj) h.blocksPerGroup h.blockBits

theorem Layout.inodeRow_ok (h : fs.Layout M) (hv : fs.Covers v) : fs.inodeRow.Ok v :=
  h.row_ok hv fs.inodeBitmap_at (fun _ _ => MetaRef.inodeBitmap.inj) h.inodesPerGroup h.inodeBits

theorem blockUsed_congr (h : ∀ b ∈ fs.blockRow.maps, v' b = v b) :
    fs.blockUsed v' = fs.blockUsed v := by
  funext b
  rw [blockUsed, BitRow.bit_congr h, blockUsed]

theorem inodeUsed_congr (h : ∀ b ∈ fs.inodeRow.maps, v' b = v b) :
    fs.inodeUsed v' = fs.inodeUsed v := by
  funext n
  rw [inodeUsed, BitRow.bit_congr h, inodeUsed]

/-- To mark a block changes the mark of no other. -/
theorem Layout.blockUsed_put (h : fs.Layout M) (hv : fs.Covers v)
    (hfirst : fs.superblock.firstDataBlock ≤ b)
    (hb : b - fs.superblock.firstDataBlock <
      fs.groupDescriptors.length * fs.superblock.blocksPerGroup) (on : Bool) (x : Nat) :
    fs.blockUsed (fs.blockRow.put v (b - fs.superblock.firstDataBlock) on) x =
      if x = b then on else fs.blockUsed v x := by
  have hlen : b - fs.superblock.firstDataBlock < fs.blockRow.maps.length * fs.blockRow.per := by
    rwa [blockRow, length_map]
  unfold blockUsed
  rw [(h.blockRow_ok hv).bit_put hlen]
  by_cases hx : fs.superblock.firstDataBlock ≤ x
  · by_cases hxb : x = b
    · rw [if_pos hxb, if_pos (by rw [hxb]), decide_eq_true hx, Bool.true_and]
    · rw [if_neg hxb, if_neg (by omega)]
  · rw [decide_eq_false hx, Bool.false_and, Bool.false_and, if_neg (by omega)]

/-- To mark an inode changes the mark of no other. -/
theorem Layout.inodeUsed_put (h : fs.Layout M) (hv : fs.Covers v) (hn : n ≠ 0)
    (hend : n ≤ fs.groupDescriptors.length * fs.superblock.inodesPerGroup) (on : Bool) (x : Nat) :
    fs.inodeUsed (fs.inodeRow.put v (n - 1) on) x = if x = n then on else fs.inodeUsed v x := by
  have hlen : n - 1 < fs.inodeRow.maps.length * fs.inodeRow.per := by
    rw [inodeRow, length_map]
    show n - 1 < fs.groupDescriptors.length * fs.superblock.inodesPerGroup
    omega
  unfold inodeUsed
  rw [(h.inodeRow_ok hv).bit_put hlen]
  by_cases hx : x = 0
  · rw [hx, if_neg (Ne.symm hn)]
    rfl
  · by_cases hxn : x = n
    · rw [if_pos hxn, if_pos (by rw [hxn]), decide_eq_true hx, Bool.true_and]
    · rw [if_neg hxn, if_neg (by omega)]

theorem Covers.update (hv : fs.Covers v) (hlen : data.length = fs.blockSize) :
    fs.Covers (update v b (some data)) := by
  intro x hx
  by_cases hxb : x = b
  · subst hxb
    exact ⟨data, update_self .., hlen⟩
  · rw [update_of_ne hxb]
    exact hv x hx

theorem Covers.put (hv : fs.Covers v) (r : BitRow) (i : Nat) (on : Bool) :
    fs.Covers (r.put v i on) := by
  intro x hx
  obtain ⟨data, hdata, hlen⟩ := hv x hx
  have hput := BitRow.map_length_put r v i on x
  rw [hdata] at hput
  obtain ⟨data', hdata', hlen'⟩ := Option.map_eq_some_iff.mp hput
  exact ⟨data', hdata', hlen'.trans hlen⟩

end Layout

/-! ## Blocks -/

section Blocks

variable {fs : Ext2Fs}

theorem Layout.writeBlock_gives (h : fs.Layout M) (hlen : data.length = fs.blockSize) (b : Nat)
    (d : Disk) :
    Gives (fs.writeBlock b data) d fun _ d' => fs.view d' = update (fs.view d) b (some data) :=
  Ext2Fs.writeBlock_gives h.sector_dvd hlen b d

theorem group_div_mod (r : BitRow) (g : Nat) (hj : j < r.per) :
    (g * r.per + j) / r.per = g ∧ (g * r.per + j) % r.per = j := by
  rw [mul_comm, mul_add_div (by omega), div_eq_of_lt hj, mul_add_mod, mod_eq_of_lt hj]
  exact ⟨rfl, rfl⟩

/-- A bitmap with one bit changed is written back. -/
theorem Layout.writeBlock_putBit (h : fs.Layout M) (r : BitRow) (hj : j < r.per)
    (hb : r.maps[g]? = some b) (hdata : fs.view d b = some data) (on : Bool) :
    Gives (fs.writeBlock b (putBit data j on)) d fun _ d' =>
      fs.view d' = r.put (fs.view d) (g * r.per + j) on := by
  have hlen := (length_putBit data j on).trans (h.length_view hdata)
  refine (h.writeBlock_gives hlen b d).mono fun _ d' hview => ?_
  obtain ⟨hdiv, hmod⟩ := group_div_mod r g hj
  rw [hview, BitRow.put, hdiv, hmod, hb]
  simp [hdata]

/-- Bit `j` of group `g`. -/
theorem bit_of_group (r : BitRow) (hj : j < r.per) (hb : r.maps[g]? = some b)
    (hdata : v b = some data) : r.bit v (g * r.per + j) = bitAt data j := by
  obtain ⟨hdiv, hmod⟩ := group_div_mod r g hj
  rw [BitRow.bit, hdiv, hmod, hb, bind_some, hdata, any_some]

/-- The scan covers the whole block. -/
theorem Layout.bitsScanned_eq (h : fs.Layout M) (hlen : data.length = fs.blockSize) (d : Disk) :
    bitsScanned p fs data d = .ok (8 * fs.blockSize) d := by
  have hbs : fs.blockSize * 8 < 2 ^ 32 := by
    rcases h.blockSize with hb | hb | hb <;> rw [hb] <;> decide
  unfold bitsScanned
  rw [bind_of_ok (u32_eq hbs d), pure_apply]
  congr 2
  omega

/-- An allocator that succeeds has set a bit of the row that was clear. -/
def Takes (r : BitRow) (fs : Ext2Fs) (base : Nat) (x : DiskM (Option Nat)) (d : Disk) : Prop :=
  Gives x d fun o d' => ∀ n, o = some n → ∃ i, n = base + i ∧ i < r.maps.length * r.per ∧
    r.bit (fs.view d) i = false ∧ fs.view d' = r.put (fs.view d) i true

theorem takes_none (r : BitRow) (fs : Ext2Fs) (base : Nat) (d d' : Disk) :
    Gives (pure none : DiskM (Option Nat)) d' fun o d' => ∀ n, o = some n → ∃ i, n = base + i ∧
      i < r.maps.length * r.per ∧ r.bit (fs.view d) i = false ∧
      fs.view d' = r.put (fs.view d) i true :=
  .pure nofun

theorem index_lt (hg : g < n) (hj : j < per) : g * per + j < n * per := by
  calc g * per + j < g * per + per := Nat.add_lt_add_left hj _
    _ = (g + 1) * per := (succ_mul g per).symm
    _ ≤ n * per := mul_le_mul_right per hg

/-- The group that an allocator is at. -/
theorem drop_eq_cons {l : List α} (h : l.drop g = a :: rest) :
    g < l.length ∧ l[g]? = some a ∧ l.drop (g + 1) = rest := by
  have hlt : g < l.length := by
    by_contra hge
    rw [drop_eq_nil_of_le (Nat.le_of_not_lt hge)] at h
    cases h
  rw [drop_eq_getElem_cons hlt] at h
  obtain ⟨ha, hrest⟩ := cons.inj h
  exact ⟨hlt, by rw [getElem?_eq_getElem hlt, ha], hrest⟩

/-- The loop over the groups, by induction on those left. -/
theorem Layout.allocBlockFrom_takes (h : fs.Layout M)
    (hdescs : fs.groupDescriptors.drop g = descs) (d : Disk) :
    Takes fs.blockRow fs fs.superblock.firstDataBlock (allocBlockFrom p fs descs g) d := by
  induction descs generalizing g with
  | nil => exact takes_none _ _ _ d d
  | cons desc descs ih =>
    obtain ⟨hlt, hdesc, hrest⟩ := drop_eq_cons hdescs
    have hmap : fs.blockRow.maps[g]? = some desc.blockBitmap := by
      rw [blockRow, getElem?_map, hdesc, map_some]
    have ih := ih hrest
    unfold allocBlockFrom
    by_cases hfree : desc.freeBlocksCount = 0
    · rwa [if_pos hfree]
    rw [if_neg hfree]
    refine .bind_toOption (takes_none _ _ _ d) ?_
    refine (h.readBlock_reads desc.blockBitmap d).gives.mono ?_
    rintro bitmap _ ⟨hbitmap, rfl⟩
    refine .bind_of_ok (h.bitsScanned_eq (h.length_view hbitmap) _) ?_
    cases hfind : (range (8 * fs.blockSize)).find? fun j => !bitAt bitmap j with
    | none => exact ih
    | some j =>
      simp only []
      by_cases hper : fs.superblock.blocksPerGroup ≤ j
      · rw [if_pos hper]
        exact takes_none _ _ _ _ _
      rw [if_neg hper]
      have hj : j < fs.blockRow.per := Nat.lt_of_not_le hper
      have hi : g * fs.superblock.blocksPerGroup + j <
          fs.groupDescriptors.length * fs.superblock.blocksPerGroup := index_lt hlt hj
      have hend := h.blockEnd
      refine .bind_of_ok (u32_eq (by omega) _) (.bind_of_ok (u32_eq (by omega) _)
        (.bind_of_ok (u32_eq (by omega) _) (.bind_toOption (takes_none _ _ _ _) ?_)))
      refine (h.writeBlock_putBit fs.blockRow hj hmap hbitmap true).mono fun _ d' hview => .pure ?_
      rintro n ⟨⟩
      refine ⟨g * fs.superblock.blocksPerGroup + j, by omega, ?_, ?_, hview⟩
      · rwa [blockRow, length_map]
      · have hclear := find?_some hfind
        rw [Bool.not_eq_true'] at hclear
        exact (bit_of_group fs.blockRow hj hmap hbitmap).trans hclear

/-- `alloc_block` takes a block that was not in use. -/
theorem Layout.allocBlock_takes (h : fs.Layout M) (d : Disk) :
    Takes fs.blockRow fs fs.superblock.firstDataBlock (allocBlock p fs) d :=
  h.allocBlockFrom_takes (g := 0) drop_zero d

end Blocks

/-! ## Inodes -/

/-- The search for a free inode leaves the device as it is; what it finds is free. -/
theorem Layout.freeInodeFrom_eq (h : fs.Layout M) (bitmap : List Byte)
    (hg : g < fs.groupDescriptors.length) (n j : Nat) :
    ∃ r, freeInodeFrom p fs bitmap g n j d = .ok r d ∧
      ∀ k m, r = some (some (k, m)) → k < fs.superblock.inodesPerGroup ∧
        bitAt bitmap k = false ∧ m = g * fs.superblock.inodesPerGroup + k + 1 ∧
        fs.superblock.firstIno ≤ m := by
  induction n generalizing j with
  | zero => exact ⟨none, rfl, nofun⟩
  | succ n ih =>
    unfold freeInodeFrom
    cases hbit : bitAt bitmap j with
    | true => exact ih (j + 1)
    | false =>
      rw [if_neg (by decide)]
      by_cases hper : fs.superblock.inodesPerGroup ≤ j
      · rw [if_pos hper]
        exact ⟨some none, rfl, nofun⟩
      rw [if_neg hper]
      have hi := index_lt hg (Nat.lt_of_not_le hper)
      have hend := h.inodeEnd
      rw [bind_of_ok (u32_eq (by omega) d), bind_of_ok (u32_eq (by omega) d),
        bind_of_ok (u32_eq (by omega) d)]
      by_cases hfirst : g * fs.superblock.inodesPerGroup + j + 1 < fs.superblock.firstIno
      · rw [if_pos hfirst]
        exact ih (j + 1)
      rw [if_neg hfirst]
      refine ⟨_, rfl, ?_⟩
      rintro k m ⟨⟩
      exact ⟨Nat.lt_of_not_le hper, hbit, rfl, Nat.le_of_not_lt hfirst⟩

theorem Layout.allocInodeFrom_takes (h : fs.Layout M)
    (hdescs : fs.groupDescriptors.drop g = descs) (d : Disk) :
    Takes fs.inodeRow fs 1 (allocInodeFrom p fs descs g) d := by
  induction descs generalizing g with
  | nil => exact takes_none _ _ _ d d
  | cons desc descs ih =>
    obtain ⟨hlt, hdesc, hrest⟩ := drop_eq_cons hdescs
    have hmap : fs.inodeRow.maps[g]? = some desc.inodeBitmap := by
      rw [inodeRow, getElem?_map, hdesc, map_some]
    have ih := ih hrest
    unfold allocInodeFrom
    by_cases hfree : desc.freeInodesCount = 0
    · rwa [if_pos hfree]
    rw [if_neg hfree]
    refine .bind_toOption (takes_none _ _ _ d) ?_
    refine (h.readBlock_reads desc.inodeBitmap d).gives.mono ?_
    rintro bitmap _ ⟨hbitmap, rfl⟩
    obtain ⟨r, hr, hfound⟩ := h.freeInodeFrom_eq bitmap hlt (8 * fs.blockSize) 0
    refine .bind_of_ok (h.bitsScanned_eq (h.length_view hbitmap) _) (.bind_of_ok hr ?_)
    match r with
    | none => exact ih
    | some none => exact takes_none _ _ _ _ _
    | some (some (j, n)) =>
      obtain ⟨hj, hbit, rfl, -⟩ := hfound j n rfl
      refine .bind_toOption (takes_none _ _ _ _) ?_
      refine (h.writeBlock_putBit fs.inodeRow hj hmap hbitmap true).mono fun _ d' hview => .pure ?_
      rintro n ⟨⟩
      refine ⟨g * fs.superblock.inodesPerGroup + j, by omega, ?_, ?_, hview⟩
      · rw [inodeRow, length_map]
        exact index_lt hlt hj
      · exact (bit_of_group fs.inodeRow hj hmap hbitmap).trans hbit

/-- `alloc_inode` takes an inode that was not in use. -/
theorem Layout.allocInode_takes (h : fs.Layout M) (d : Disk) :
    Takes fs.inodeRow fs 1 (allocInode p fs) d :=
  h.allocInodeFrom_takes (g := 0) drop_zero d

end Ext2Fs

end OpenOS.Fs.Ext2
