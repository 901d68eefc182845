/-
  What the steps of the calls do to a sound volume (kernel/src/fs/ext2.rs):
  searching a directory does nothing, `add_dir_entry` and
  `remove_dir_entry_from_disk` write a data block of the directory or append one,
  and `write_inode` changes an inode.
-/

import OpenOS.Fs.Ext2.Calls
import OpenOS.Fs.Ext2.Content

namespace OpenOS.Fs.Ext2.Ext2Fs

open Base Base.Comp Option
open Function (update update_apply update_idem update_of_ne update_self)

variable {fs : Ext2Fs}

/-! ## Searching -/

theorem still_u32 (n : Nat) : Still (u32 p n) := still_orPanic _

theorem still_divide (n k : Nat) : Still (divide n k) := by
  unfold divide
  split
  · exact still_throw _
  · exact still_pure _

section

variable (h : fs.Geometry)
include h

theorem Geometry.still_readBlock (b : Nat) : Still (fs.readBlock b) :=
  still_of_reads fun d => h.readBlock_reads b d

theorem Geometry.still_pointerAt (b i : Nat) : Still (pointerAt p fs b i) := by
  refine (h.still_readBlock b).bind fun data => (still_u32 _).bind fun offset => ?_
  split
  · exact still_throw _
  · exact still_pure _

theorem Geometry.still_readIndirect (b : BitVec 32) (i : Nat) : Still (readIndirect p fs b i) := by
  unfold readIndirect
  split
  · exact still_pure _
  · exact h.still_pointerAt _ _

theorem Geometry.still_readDoubleIndirect (b : BitVec 32) (i : Nat) :
    Still (readDoubleIndirect p fs b i) := by
  unfold readDoubleIndirect
  split
  · exact still_pure _
  · exact (still_divide _ _).bind fun _ => (h.still_pointerAt _ _).bind fun _ =>
      h.still_readIndirect _ _

theorem Geometry.still_resolveBlock (inode : Inode) (l : Nat) :
    Still (resolveBlock p fs inode l) := by
  unfold resolveBlock
  split
  · exact still_pure _
  split
  · exact h.still_readIndirect _ _
  refine ((still_u32 _).bind fun _ => still_u32 _).bind fun base => ?_
  split
  · exact h.still_readDoubleIndirect _ _
  unfold readTripleIndirect
  split
  · exact still_pure _
  · exact (still_u32 _).bind fun _ => (still_divide _ _).bind fun _ =>
      (h.still_pointerAt _ _).bind fun _ => h.still_readDoubleIndirect _ _

theorem Geometry.still_readDirFrom (inode : Inode) (fileSize rounds l bytes : Nat) :
    Still (readDirFrom p fs inode fileSize rounds l bytes) := by
  induction rounds generalizing l bytes with
  | zero => exact still_throw _
  | succ rounds ih =>
    refine (still_u32 _).bind fun next => ?_
    split
    · exact still_pure _
    refine (h.still_resolveBlock _ _).bind fun c => ?_
    split
    · exact (still_u32 _).bind fun _ => ih _ _
    · exact (h.still_readBlock _).bind fun _ => (still_orPanic _).bind fun _ =>
        (ih _ _).bind fun _ => still_pure _

theorem Geometry.still_readDirEntries (inode : Inode) : Still (readDirEntries p fs inode) := by
  unfold readDirEntries
  split
  · exact still_throw _
  · exact h.still_readDirFrom _ _ _ _ _

theorem Geometry.still_findEntry (inode : Inode) (name : List Byte) :
    Still (findEntry p fs inode name) := by
  refine ((h.still_readDirEntries inode).toOption).bind fun entries => ?_
  cases entries with
  | none => exact still_pure _
  | some entries => exact still_pure _

end

/-- The inode number of a call that goes on. -/
theorem gives_inodeNumOf_bind {f : Nat → CallM α} (hf : Gives (f ino.toNat) d R) :
    Gives (inodeNumOf ino >>= f) d R := by
  unfold inodeNumOf
  split
  · exact .bind_of_ok rfl hf
  · exact .of_error (bind_of_error rfl _)

/-! ## Blocks of a directory -/

theorem u32_lt (h : u32 p n d = .ok m d') : m < 2 ^ 32 := by
  unfold u32 Profile.fit at h
  split at h
  · cases h
    assumption
  cases p with
  | dev => cases h
  | release =>
    cases h
    exact Nat.mod_lt _ (by decide)

theorem length_writeRecord (h : writeRecord data offset inode len name fileType = some data') :
    data'.length = data.length := by
  obtain ⟨data₁, h₁, h⟩ := bind_eq_some_iff.mp h
  obtain ⟨data₂, h₂, h⟩ := bind_eq_some_iff.mp h
  obtain ⟨data₃, h₃, h⟩ := bind_eq_some_iff.mp h
  obtain ⟨data₄, h₄, h⟩ := bind_eq_some_iff.mp h
  rw [length_of_copyAt h, length_of_copyAt h₄, length_of_copyAt h₃, length_of_copyAt h₂,
    length_of_copyAt h₁]

theorem length_insertAt (h : insertAt data offset inode name fileType = some (some data')) :
    data'.length = data.length := by
  unfold insertAt at h
  dsimp only at h
  split at h
  · split at h
    · obtain ⟨data₁, h₁, h⟩ := bind_eq_some_iff.mp h
      obtain ⟨data₂, h₂, h⟩ := bind_eq_some_iff.mp h
      cases h
      rw [length_writeRecord h₂, length_of_copyAt h₁]
    · cases h
  · split at h
    · obtain ⟨data₁, h₁, h⟩ := bind_eq_some_iff.mp h
      cases h
      exact length_writeRecord h₁
    · cases h

theorem length_insertFrom
    (h : insertFrom p fs data inode name fileType rounds offset bytes = some (.inl data')) :
    data'.length = data.length := by
  induction rounds generalizing offset bytes with
  | zero => cases h
  | succ rounds ih =>
    unfold insertFrom at h
    split at h
    · split at h
      · cases h
      obtain ⟨r, hr, h⟩ := bind_eq_some_iff.mp h
      cases r with
      | some data₁ =>
        cases h
        exact length_insertAt hr
      | none =>
        obtain ⟨bytes', -, h⟩ := bind_eq_some_iff.mp h
        exact ih h
    · cases h

/-- The data block `c` of inode `n`, at logical block `l`, is `data'` now; nothing else
    has changed. -/
structure SetsBlock (fs : Ext2Fs) (I : Owners) (n : Nat) (v : View) (l c : Nat)
    (data data' : List Byte) (v' : View) : Prop where
  node : fs.nodeAt I v (fs.pathOf n l) = some (.block c 0)
  before : v c = some data
  length : data'.length = fs.blockSize
  after : v' = update v c (some data')

section

variable (hl : fs.Layout M) (h : fs.Sound M I v) (hs : fs.SetsBlock I n v l c data data' v')
include hl h hs

theorem SetsBlock.extended : fs.Extended M n I v I v' := by
  rw [hs.after]
  exact (h.ready_self hs.node).wrote hl hs.length

theorem SetsBlock.inodeAt_eq : fs.inodeAt v' = fs.inodeAt v := by
  refine (hl.inodes_eq_of_fixed v v' fun x hx _ => ?_).1
  rw [hs.after, update_of_ne]
  rintro rfl
  exact (h.owned _ _ _ hs.node).1 hx

end

variable {inode : Inode}

/-- The outer loop of `add_dir_entry`: one block of the directory, or nothing. -/
theorem Layout.insertInBlocks_gives (hl : fs.Layout M) (hn : I n = some inode) (hll : l < 2 ^ 32) :
    Gives (insertInBlocks p fs inode dirSize entry name fileType rounds l bytes) d
      fun done d' => (done = false ∧ d' = d) ∨ (done = true ∧ ∃ l' c data data' bytes',
        insertFrom p fs data entry name fileType fs.blockSize 0 bytes' = some (.inl data') ∧
        fs.SetsBlock I n (fs.view d) l' c data data' (fs.view d')) := by
  induction rounds generalizing l bytes with
  | zero => exact .throw
  | succ rounds ih =>
    unfold insertInBlocks
    split
    · exact .pure (.inl ⟨rfl, rfl⟩)
    refine (hl.resolveBlock_reads inode hll d).gives_bind fun c hc => ?_
    have hnode := nodeAt_pathOf hn hc
    split
    · refine (still_u32 _).gives_bind fun bytes' _ => (still_u32 _).gives_bind fun next hnext => ?_
      exact ih (u32_lt hnext)
    rename_i hzero
    rw [child_of_ne hzero] at hnode
    refine (hl.readBlock_reads c.toNat d).gives_bind fun data hdata => ?_
    refine .bind_orPanic fun r hr => ?_
    cases r with
    | inl data' =>
      have hlen := (length_insertFrom hr).trans (hl.length_view hdata)
      refine (hl.writeBlock_gives hlen _ d).bind fun _ d' hview =>
        .pure (.inr ⟨rfl, l, c.toNat, data, data', bytes, hr, ?_⟩)
      exact ⟨hnode, hdata, hlen, hview⟩
    | inr bytes' =>
      refine (still_u32 _).gives_bind fun next hnext => ?_
      exact ih (u32_lt hnext)

/-! ## Inodes -/

section

variable (h : fs.SetsInode v n inode v') (hl : fs.Layout M)
include h hl

theorem SetsInode.eq_off (hx : x ∉ M) : v' x = v x :=
  h.same x fun _ _ hmeta => hx (hl.metadata_mem _ _ hmeta)

theorem SetsInode.blockUsed_eq : fs.blockUsed v' = fs.blockUsed v := by
  refine blockUsed_congr fun b hb => h.same b fun g k hmeta => ?_
  obtain ⟨g', hg'⟩ := metaAt_of_mem_blockRow hb
  cases hl.metadata_inj _ _ _ hmeta hg'

theorem SetsInode.inodeUsed_eq : fs.inodeUsed v' = fs.inodeUsed v := by
  refine inodeUsed_congr fun b hb => h.same b fun g k hmeta => ?_
  obtain ⟨g', hg'⟩ := metaAt_of_mem_inodeRow hb
  cases hl.metadata_inj _ _ _ hmeta hg'

theorem SetsInode.sound (hs : fs.Sound M I v) :
    fs.Sound M I v' ∧ fs.nodeAt I v' = fs.nodeAt I v := by
  have hnode := hs.nodeAt_of_eq_off fun b hb => h.eq_off hl hb
  refine ⟨⟨h.covers, ?_, ?_, ?_⟩, hnode⟩
  · rw [h.blockUsed_eq hl]
    exact hs.reserved
  · rw [h.blockUsed_eq hl, hnode]
    exact hs.owned
  · rw [hnode]
    exact hs.once

end

theorem nodeAt_eq_of_block (h : ∀ m, (I' m).map Inode.block = (I m).map Inode.block) (v : View) :
    fs.nodeAt I' v = fs.nodeAt I v := by
  have hlinks : fs.links I' v = fs.links I v := by
    funext x j
    rcases x with - | n | ⟨b, - | k⟩
    · have hj := h j
      simp only [links]
      cases hI : I j with
      | none =>
        rw [hI, map_none, map_eq_none_iff] at hj
        rw [hj]
      | some inode =>
        rw [hI] at hj
        obtain ⟨inode', hI', -⟩ := map_eq_some_iff.mp hj
        rw [hI']
        rfl
    · have hn := h n
      simp only [links]
      cases hI : I n with
      | none =>
        rw [hI, map_none, map_eq_none_iff] at hn
        rw [hn]
      | some inode =>
        rw [hI] at hn
        obtain ⟨inode', hI', hblock⟩ := map_eq_some_iff.mp hn
        rw [hI', bind_some, bind_some, hblock]
    · rfl
    · rfl
  unfold nodeAt
  rw [hlinks]

theorem nodeAt_update_owner (hn : I n = some inode)
    (hblock : inode'.block = inode.block) (v : View) :
    fs.nodeAt (update I n (some inode')) v = fs.nodeAt I v := by
  refine nodeAt_eq_of_block (fun m => ?_) v
  by_cases hm : m = n
  · rw [hm, update_self, hn, map_some, map_some, hblock]
  · rw [update_of_ne hm]

theorem Sound.of_nodeAt_eq (h : fs.Sound M I v) (hnode : fs.nodeAt I' v = fs.nodeAt I v) :
    fs.Sound M I' v where
  covers := h.covers
  reserved := h.reserved
  owned := by rw [hnode]; exact h.owned
  once := by rw [hnode]; exact h.once

/-! ## Changes to a file -/

theorem SetsInode.extended (h : fs.SetsInode v n inode' v') (hl : fs.Layout M)
    (hs : fs.Sound M I v) (hn : I n = some inode) (hblock : inode'.block = inode.block) :
    fs.Extended M n I v (update I n (some inode')) v' := by
  obtain ⟨hsound, hview⟩ := h.sound hl hs
  have hnode : fs.nodeAt (update I n (some inode')) v' = fs.nodeAt I v := by
    rw [nodeAt_update_owner hn hblock, hview]
  have hused := h.blockUsed_eq hl
  constructor
  case toChanged =>
    constructor
    case sound => exact hsound.of_nodeAt_eq (nodeAt_update_owner hn hblock v')
    case owners => exact fun m hm => update_of_ne hm _ _
    case stay =>
      intro q a _ hq
      rw [hnode, hq]
    case leaf =>
      intro q b _ hq
      rwa [hnode] at hq
    case used =>
      intro x hx
      rwa [hused]
    case others =>
      intro q b _ hq
      exact h.eq_off hl (hs.owned q b 0 hq).1
    case free => exact fun x hx _ => h.eq_off hl hx
    case inodes =>
      intro m hm
      rw [h.inodes, update_of_ne hm]
    case inodeUsed => exact h.inodeUsed_eq hl
  case keep =>
    intro q a hq
    rw [hnode, hq]
  case marked =>
    intro x hx
    rw [hused] at hx
    exact .inl hx

/-! ## Adding an entry -/

/-- The logical block that a directory grows by. -/
def endBlock (fs : Ext2Fs) (dirSize : Nat) : Nat :=
  dirSize / fs.blockSize + if dirSize % fs.blockSize = 0 then 0 else 1

/-- A directory with another size. -/
def sized (inode : Inode) (size : Nat) : Inode :=
  { inode with
    sizeLow := BitVec.ofNat 32 size
    blocks := BitVec.ofNat 32 ((size + 511) / 512) }

/-- The directory `n` has one more block, with one record. -/
structure Appended (fs : Ext2Fs) (M : Set Nat) (I : Owners) (n : Nat) (inode : Inode) (v : View)
    (dirSize : Nat) (entry : BitVec 32) (name : List Byte) (fileType : Byte) (c : Nat)
    (inode' : Inode) (v' : View) : Prop where
  fresh : ∃ data v₁ v₂ inode₁, writeRecord (zeros fs.blockSize) 0 entry
      (BitVec.ofNat 16 fs.blockSize) name fileType = some data ∧
    fs.Fresh M I v c v₁ ∧ v₁ c = some data ∧ inode₁.block = inode'.block ∧
    fs.Placed M n I v₁ c (fs.pathOf n (fs.endBlock dirSize)) (update I n (some inode₁)) v₂ ∧
    fs.SetsInode v₂ n inode' v'
  mode : inode'.mode = inode.mode
  nlink : inode'.nlink = inode.nlink
  size : (fs.endBlock dirSize + 1) * fs.blockSize < 2 ^ 32 →
    inode'.sizeLow = BitVec.ofNat 32 ((fs.endBlock dirSize + 1) * fs.blockSize)

theorem Sound.appendBlock_gives (hl : fs.Layout M) (h : fs.Sound M I (fs.view d))
    (hn : I n = some inode) (hn0 : n ≠ 0) (hend : n ≤ fs.inodeCount) (hsize : dirSize < 2 ^ 32) :
    Gives (appendBlock p fs inode n dirSize entry name fileType) d fun _ d' =>
      ∃ c inode', fs.Appended M I n inode (fs.view d) dirSize entry name fileType c inode'
        (fs.view d') := by
  have hlast : fs.endBlock dirSize < 2 ^ 31 := by
    obtain ⟨hbs4, hge, -⟩ := hl.entries
    have hdiv := Nat.div_le_div_left (show 1024 ≤ fs.blockSize by omega) (by decide) (a := dirSize)
    unfold endBlock
    split <;> omega
  refine (h.needBlock_gives hl).bind fun new d₁ ⟨hnew, hf, _⟩ => .bind_orPanic fun data hdata => ?_
  have hlen := (length_writeRecord hdata).trans (length_zeros _)
  refine (hl.writeBlock_gives hlen _ d₁).bind fun _ d₂ hview => ?_
  have hf₂ := hf.filled hl hlen
  rw [← hview] at hf₂
  have hcu : fs.blockUsed (fs.view d₂) new.toNat = true := by rw [hf₂.used, if_pos rfl]
  refine .bind_of_ok (divide_eq hl.blockSize_ne_zero d₂) ?_
  change Gives (do
    let dirInode ← setBlockPointer p fs inode (fs.endBlock dirSize) new
    let count ← u32 p (fs.endBlock dirSize + 1)
    let newSize ← u32 p (count * fs.blockSize)
    writeInode p fs n (sized dirInode newSize)) d₂ _
  refine (hf₂.sound.setBlockPointer_gives hl hf₂.notMem hcu hn (by omega)).bind ?_
  rintro inode₁ d₃ ⟨⟨f, rfl⟩, hplaced⟩
  refine .bind_of_ok (u32_eq (by omega) d₃) ?_
  refine (still_u32 _).gives_bind fun newSize hnewSize => ?_
  have hcontent : fs.view d₂ new.toNat = some data := by rw [hview, update_self]
  refine (hl.writeInode_gives hplaced.sound.covers hn0 hend
    (sized { inode with block := f } newSize)).mono fun _ d₄ hsets =>
    ⟨new.toNat, sized { inode with block := f } newSize, ?fresh, ?mode, ?nlink, ?size⟩
  case fresh => exact ⟨data, _, _, { inode with block := f }, hdata, hf₂, hcontent, rfl, hplaced, hsets⟩
  case mode => rfl
  case nlink => rfl
  case size =>
    intro hfits
    rw [u32_eq hfits] at hnewSize
    cases hnewSize
    rfl

theorem Appended.changed (hl : fs.Layout M) (h : fs.Sound M I v)
    (ha : fs.Appended M I n inode v dirSize entry name fileType c inode' v') :
    fs.Changed M n I v (update I n (some inode')) v' ∧ fs.inodeAt v' n = some inode' := by
  obtain ⟨data, v₁, v₂, inode₁, -, hf, -, hblock, hplaced, hsets⟩ := ha.fresh
  have hfirst := hf.changed hl h hplaced
  have hsecond := hsets.extended hl hplaced.sound (update_self ..) hblock.symm
  rw [update_idem] at hsecond
  exact ⟨hfirst.trans hsecond.toChanged, by rw [hsets.inodes, update_self]⟩

/-- `add_dir_entry`: a block of the directory is written, or one is appended. -/
theorem Sound.addDirEntry_gives (hl : fs.Layout M) (h : fs.Sound M I (fs.view d))
    (hn : I n = some inode) (hn0 : n ≠ 0) (hend : n ≤ fs.inodeCount) :
    Gives (addDirEntry p fs inode n entry name fileType) d fun _ d' =>
      (∃ l c data data' bytes,
        insertFrom p fs data entry name fileType fs.blockSize 0 bytes = some (.inl data') ∧
        fs.SetsBlock I n (fs.view d) l c data data' (fs.view d')) ∨
      ∃ c inode', fs.Appended M I n inode (fs.view d) (inode.size % 2 ^ 32) entry name fileType c
        inode' (fs.view d') := by
  refine (hl.insertInBlocks_gives hn (by decide)).bind ?_
  rintro done d₁ (⟨rfl, rfl⟩ | ⟨rfl, hsets⟩)
  · exact (h.appendBlock_gives hl hn hn0 hend (Nat.mod_lt _ (by decide))).mono
      fun _ _ hgrown => .inr hgrown
  · exact .pure (.inl hsets)

/-! ## Marks of inodes -/

/-- Inode `n` is marked as used, or no longer is; nothing else has changed. -/
structure MarksInode (fs : Ext2Fs) (v : View) (n : Nat) (on : Bool) (v' : View) : Prop where
  used : fs.inodeUsed v' = update (fs.inodeUsed v) n on
  covers : fs.Covers v'
  same : ∀ x, x ∉ fs.inodeRow.maps → v' x = v x

theorem Layout.marksInode_put (hl : fs.Layout M) (hv : fs.Covers v) (hn : n ≠ 0)
    (hend : n ≤ fs.inodeCount) (on : Bool) :
    fs.MarksInode v n on (fs.inodeRow.put v (n - 1) on) where
  used := by
    funext x
    rw [hl.inodeUsed_put hv hn hend, update_apply]
  covers := hv.put _ _ _
  same x hx := BitRow.put_of_notMem hx _ _

section

variable (h : fs.MarksInode v n on v') (hl : fs.Layout M)
include h hl

theorem MarksInode.eq_off (hx : x ∉ M) : v' x = v x :=
  h.same x (mt hl.mem_of_mem_inodeRow hx)

theorem MarksInode.blockUsed_eq : fs.blockUsed v' = fs.blockUsed v := by
  refine blockUsed_congr fun b hb => h.same b fun hmem => ?_
  obtain ⟨g, hg⟩ := metaAt_of_mem_blockRow hb
  obtain ⟨g', hg'⟩ := metaAt_of_mem_inodeRow hmem
  cases hl.metadata_inj _ _ _ hg hg'

theorem MarksInode.inodeAt_eq : fs.inodeAt v' = fs.inodeAt v := by
  refine hl.inodeAt_congr fun g k b hb => h.same b fun hmem => ?_
  obtain ⟨g', hg'⟩ := metaAt_of_mem_inodeRow hmem
  cases hl.metadata_inj _ _ _ hb hg'

end

theorem Layout.allocInode_gives (hl : fs.Layout M) (hv : fs.Covers (fs.view d)) :
    Gives (allocInode p fs) d fun o d' => ∀ n, o = some n → n ≠ 0 ∧ n ≤ fs.inodeCount ∧
      fs.inodeUsed (fs.view d) n = false ∧ fs.MarksInode (fs.view d) n true (fs.view d') := by
  refine (hl.allocInode_takes d).mono fun o d' htakes n hn => ?_
  obtain ⟨i, rfl, hi, hbit, hview⟩ := htakes n hn
  rw [inodeRow, List.length_map] at hi
  replace hi : i < fs.inodeCount := hi
  refine ⟨by omega, by omega, ?_, ?_⟩
  · rw [inodeUsed, Nat.add_sub_cancel_left, hbit, Bool.and_false]
  · rw [hview]
    have hput := hl.marksInode_put hv (n := 1 + i) (by omega) (by omega) true
    rwa [Nat.add_sub_cancel_left] at hput

/-! ## Larger blocks -/

theorem gives_writeSectors (hi : i * sectorSize ≤ data.length)
    (hend : data.length < (i + n) * sectorSize) :
    Gives (writeSectors start data n i) d fun _ _ => False := by
  induction n generalizing i d with
  | zero => exact absurd hend (Nat.not_lt.mpr hi)
  | succ n ih =>
    refine .bind_orPanic fun sector hsector => .bind (fun _ _ h => h) fun _ _ _ => ih ?_ ?_
    · unfold sectorOf at hsector
      split at hsector
      · rwa [Nat.succ_mul]
      · cases hsector
    · rwa [Nat.add_assoc, Nat.add_comm 1]

/-- `mkdir` makes a block of 1024 bytes: on a volume with larger ones it never succeeds. -/
theorem mkdir_ne_ok {p : Profile} {parent ino : Word} {name : List Byte} {d d' : Disk}
    (hbs : stdBlockSize + sectorSize ≤ fs.blockSize) :
    fs.mkdir p parent name d ≠ .ok ino d' := by
  have hnever : Gives (fs.mkdir p parent name) d fun _ _ => False := by
    -- the new block is too short to be written
    refine .bind (fun _ _ h => h) fun _ _ _ => .bind (fun _ _ h => h) fun _ _ _ =>
      .bind_orErr fun _ _ => .bind (fun _ _ h => h) fun _ _ _ => .bind_orPanic fun data hdata =>
      .bind (.mapErr (gives_writeSectors (Nat.zero_le _) ?_)) fun _ _ => False.elim
    unfold dotBlock at hdata
    obtain ⟨data₁, hdot, hdotdot⟩ := bind_eq_some_iff.mp hdata
    rw [length_writeRecord hdotdot, length_writeRecord hdot, length_zeros]
    unfold stdBlockSize sectorSize at *
    omega
  exact hnever ino d'

theorem mkdir_ne_ok_4096 : stdBlockSize + sectorSize ≤ 4096 ∧ ∀ d ino d',
    mkdir .dev { smallFs with blockSize := 4096 } 2 [0x61] d ≠ .ok ino d' :=
  ⟨by decide, fun _ _ _ => mkdir_ne_ok (by decide)⟩

end OpenOS.Fs.Ext2.Ext2Fs
