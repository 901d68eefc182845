/-
  Calls on a device with any content whatever (kernel/src/fs/ext2.rs).

  Nothing that comes from the disk is checked when it is mounted, so that a
  crafted superblock makes the kernel divide by zero.  With a sane geometry the
  calls return: a lookup is bounded by the reach of the triple indirect tree, and
  past it every round of a directory loop counts a whole block.  What is left to
  the content of the disk is the size of directories, whose byte counters are
  `u32`, and the names of the records that unlink and rmdir slice.
-/

import OpenOS.Base.Run
import OpenOS.Fs.Ext2.Calls
import OpenOS.Fs.Ext2.Lookup

namespace OpenOS.Fs.Ext2

open Base Base.Comp Option Bool Nat Ends

/-! ## Steps that do not change the device -/

/-- The code does not panic and leaves the device as it is. -/
abbrev Looks {α : Type} (x : DiskM α) (d : Disk) (Q : α → Prop) : Prop :=
  Ends x d fun a d' => d' = d ∧ Q a

theorem Ext2Fs.Reads.looks (h : Ext2Fs.Reads x d o) : Looks x d fun a => o = some a := by
  unfold Looks Ends
  rcases h with h | ⟨-, h⟩
  · rw [h]
    cases o with
    | none => trivial
    | some a => exact ⟨rfl, rfl⟩
  · rw [h]
    trivial

theorem looks_of_answer (h : x d = Ext2Fs.answer d o) : Looks x d fun a => o = some a :=
  Ext2Fs.Reads.looks (.inl h)

theorem Looks.bind (hx : Looks x d Q) (hf : ∀ a, Q a → Ends (f a) d R) : Ends (x >>= f) d R := by
  refine Ends.bind hx ?_
  rintro a _ ⟨rfl, ha⟩
  exact hf a ha

theorem ends_writeSectors (h : (i + n) * sectorSize ≤ data.length) :
    Ends (writeSectors start data n i) d fun _ _ => True := by
  induction n generalizing i d with
  | zero => trivial
  | succ n ih =>
    have hfits : i * sectorSize + sectorSize ≤ data.length := by
      refine le_trans ?_ h
      rw [← succ_mul]
      exact mul_le_mul_right _ (by omega)
    refine (Ends.orPanic (dif_pos hfits)).bind ?_
    intro sector d₁ _
    refine Ends.bind (Q := fun _ _ => True) ?_ ?_
    · unfold Ends writeCached
      dsimp only
      split_ifs <;> trivial
    · intro _ d' _
      refine ih (le_trans (le_of_eq ?_) h)
      rw [add_assoc, add_comm 1 n]

/-- A block of the right length can always be written, or is refused. -/
theorem ends_writeBlock {fs : Ext2Fs} (h : data.length = fs.blockSize) :
    Ends (fs.writeBlock b data) d fun _ _ => True := by
  apply ends_writeSectors
  rw [zero_add, h]
  exact div_mul_le_self _ _

namespace Ext2Fs

/-! ## Directory loops -/

/-- The byte counters of the directory loops stay below 2^32. -/
def SmallDir (inode : Inode) : Prop := inode.size % 2 ^ 32 + 2 ^ 17 ≤ 2 ^ 32

theorem recLen_lt (data : List Byte) (offset : Nat) : recLen data offset < 2 ^ 16 :=
  (u16At data (offset + 4)).isLt

theorem scanEntries_spec (hsmall : fileSize + 2 ^ 16 ≤ 2 ^ 32)
    (blockSize : Nat) (data : List Byte) (rounds offset : Nat)
    (hread : bytesRead < 2 ^ 32) :
    ∃ entries bytesRead', scanEntries p blockSize fileSize data rounds offset bytesRead =
      some (entries, bytesRead') ∧ bytesRead ≤ bytesRead' ∧ bytesRead' < 2 ^ 32 := by
  induction rounds generalizing offset bytesRead with
  | zero => exact ⟨[], bytesRead, rfl, le_refl _, hread⟩
  | succ rounds ih =>
    unfold scanEntries
    split
    · rename_i hround
      split
      · exact ⟨[], bytesRead, rfl, le_refl _, hread⟩
      have hlen := recLen_lt data offset
      have hsum : bytesRead + recLen data offset < 2 ^ 32 := by omega
      rw [p.fit_of_lt hsum]
      obtain ⟨rest, bytesRead', hrest, hle, hlt⟩ := ih (offset + recLen data offset) hsum
      refine ⟨entryAt blockSize data offset ++ rest, bytesRead', ?_, by omega, hlt⟩
      simp only [bind_eq_bind, bind_some, hrest]
      rfl
    · exact ⟨[], bytesRead, rfl, le_refl _, hread⟩

/-- What the counters of a loop over logical blocks satisfy: past the last block
    that can be there, every round has counted a block. -/
structure Counted (fs : Ext2Fs) (logical bytes : Nat) : Prop where
  bytes_lt : bytes < 2 ^ 32
  past : (logical - fs.maxBlocks) * fs.blockSize ≤ bytes

theorem Geometry.counted_lt (h : fs.Geometry)
    (hc : Counted fs logical bytes) : logical + 1 < 2 ^ 32 := by
  have hmax := h.maxBlocks_le
  obtain ⟨hbs, hge, -⟩ := h.entries
  have hmul : (logical - fs.maxBlocks) * 1024 ≤ (logical - fs.maxBlocks) * fs.blockSize :=
    mul_le_mul_left _ (by omega)
  have hlt := hc.bytes_lt
  have hpast := hc.past
  omega

theorem counted_hole (hc : Counted fs logical bytes) (hlt : bytes + fs.blockSize < 2 ^ 32) :
    Counted fs (logical + 1) (bytes + fs.blockSize) := by
  refine ⟨hlt, ?_⟩
  have hpast := hc.past
  have hstep : logical + 1 - fs.maxBlocks ≤ logical - fs.maxBlocks + 1 := by omega
  calc (logical + 1 - fs.maxBlocks) * fs.blockSize
      ≤ (logical - fs.maxBlocks + 1) * fs.blockSize := mul_le_mul_right _ hstep
    _ = (logical - fs.maxBlocks) * fs.blockSize + fs.blockSize := succ_mul _ _
    _ ≤ bytes + fs.blockSize := Nat.add_le_add_right hpast _

theorem Geometry.counted_block (h : fs.Geometry)
    (hblock : fs.blockOf v inode logical = some b) (hb : b ≠ 0) (hlt : bytes < 2 ^ 32) :
    logical < fs.maxBlocks ∧ Counted fs (logical + 1) bytes := by
  have hlog : logical < fs.maxBlocks := by
    by_contra hle
    exact hb (h.blockOf_of_maxBlocks_le v inode (Nat.le_of_not_lt hle) hblock)
  refine ⟨hlog, hlt, ?_⟩
  rw [Nat.sub_eq_zero_of_le (Nat.succ_le_of_lt hlog), Nat.zero_mul]
  exact Nat.zero_le _

/-- The rounds that are left to a directory loop. -/
def roundsLeft (fs : Ext2Fs) (fileSize logical bytes : Nat) : Nat :=
  (fs.maxBlocks - logical) + (fileSize - bytes)

theorem Geometry.looks_readDirFrom (h : fs.Geometry) (inode : Inode)
    (hsmall : fileSize + 2 ^ 16 ≤ 2 ^ 32) (hc : Counted fs logical bytes)
    (hrounds : roundsLeft fs fileSize logical bytes < rounds) :
    Looks (readDirFrom p fs inode fileSize rounds logical bytes) d fun _ => True := by
  obtain ⟨hbs, hge, -⟩ := h.entries
  have hle := (h.entries).2.2
  induction rounds generalizing logical bytes with
  | zero => exact absurd hrounds (not_lt_zero _)
  | succ rounds ih =>
    refine Looks.bind (looks_of_answer (u32_eq (h.counted_lt hc) d)) fun next hnext => ?_
    cases hnext
    by_cases hdone : fileSize ≤ bytes
    · rw [if_pos hdone]
      exact ⟨rfl, trivial⟩
    rw [if_neg hdone]
    have hlog := h.counted_lt hc
    refine Looks.bind ((h.resolveBlock_reads inode (by omega) d).looks) fun b hb => ?_
    unfold roundsLeft at hrounds
    by_cases hzero : b = 0
    · rw [if_pos hzero]
      have hsum : bytes + fs.blockSize < 2 ^ 32 := by omega
      refine Looks.bind (looks_of_answer (u32_eq hsum d)) fun bytes' hbytes => ?_
      cases hbytes
      refine ih (counted_hole hc hsum) ?_
      unfold roundsLeft
      omega
    · rw [if_neg hzero]
      refine Looks.bind ((h.readBlock_reads b.toNat d).looks) fun data hdata => ?_
      obtain ⟨entries, bytes', hscan, hmono, hlt⟩ :=
        scanEntries_spec hsmall fs.blockSize data fs.blockSize 0 hc.bytes_lt
      obtain ⟨hin, hc'⟩ := h.counted_block hb hzero hlt
      refine Ends.bind (Ends.orPanic hscan) ?_
      rintro _ _ ⟨rfl, rfl⟩
      refine Looks.bind (ih hc' ?_) fun rest _ => ⟨rfl, trivial⟩
      unfold roundsLeft
      omega

theorem Geometry.roundsLeft_lt (h : fs.Geometry)
    (hsmall : fileSize + 2 ^ 16 ≤ 2 ^ 32) : roundsLeft fs fileSize 0 0 < maxRounds := by
  have hmax := h.maxBlocks_le
  unfold roundsLeft maxRounds
  omega

theorem counted_start (fs : Ext2Fs) : Counted fs 0 0 :=
  ⟨by decide, by rw [Nat.zero_sub, Nat.zero_mul]⟩

theorem Geometry.looks_readDirEntries (h : fs.Geometry) (hsmall : SmallDir inode) :
    Looks (readDirEntries p fs inode) d fun _ => True := by
  unfold readDirEntries
  split
  · trivial
  have hsmall' : inode.size % 2 ^ 32 + 2 ^ 16 ≤ 2 ^ 32 := by
    unfold SmallDir at hsmall
    omega
  exact h.looks_readDirFrom inode hsmall' (counted_start fs) (h.roundsLeft_lt hsmall')

theorem Geometry.looks_findEntry (h : fs.Geometry) (hsmall : SmallDir inode) (name : List Byte) :
    Ends (findEntry p fs inode name) d fun o d' => ∀ n, o = some n → d' = d := by
  refine Ends.bind (h.looks_readDirEntries hsmall).toOption ?_
  intro o d' ho
  cases o with
  | none => exact fun _ hn => nomatch hn
  | some entries => exact fun _ _ => (ho entries rfl).1

/-! ## Removing a record -/

/-- An offset at which the loops find a record. -/
inductive Record (blockSize : Nat) (data : List Byte) : Nat → Prop
  | first : Record blockSize data 0
  | next {offset : Nat} (h : Record blockSize data offset) (hin : offset + 8 ≤ blockSize)
      (hlen : recLen data offset ≠ 0) : Record blockSize data (offset + recLen data offset)

/-- The name of each record ends inside the block. -/
def NamesInside (blockSize : Nat) (data : List Byte) : Prop :=
  ∀ offset, Record blockSize data offset → offset + 8 ≤ blockSize → recLen data offset ≠ 0 →
    offset + 8 + recNameLen data offset ≤ blockSize

theorem exists_removeAt (hin : offset + 8 ≤ data.length)
    (hprev : ∀ o, prev = some o → o + 8 ≤ data.length) :
    ∃ data', removeAt data offset prev = some data' ∧ data'.length = data.length := by
  obtain ⟨freed, hwrite⟩ : ∃ freed, writeU32 data offset 0 = some freed :=
    exists_copyAt (by rw [length_leBytes]; omega)
  have hlen : freed.length = data.length := length_of_copyAt hwrite
  unfold removeAt
  rw [hwrite]
  cases prev with
  | none => exact ⟨freed, rfl, hlen⟩
  | some o =>
    by_cases hfree : recInode freed o = 0
    · have ho := hprev o rfl
      obtain ⟨joined, hjoined⟩ : ∃ joined, writeU16 freed (o + 4)
          (BitVec.ofNat 16 (recLen freed o + recLen data offset)) = some joined :=
        exists_copyAt (by rw [length_leBytes]; omega)
      refine ⟨joined, ?_, (length_of_copyAt hjoined).trans hlen⟩
      simp only [bind_eq_bind, bind_some, if_pos hfree]
      exact hjoined
    · refine ⟨freed, ?_, hlen⟩
      simp only [bind_eq_bind, bind_some, if_neg hfree]
      rfl

/-- The inner loop of a removal, from a record on. -/
theorem removeFrom_spec (p : Profile) (hlen : data.length = fs.blockSize)
    (hnames : NamesInside fs.blockSize data) (name : List Byte)
    (hstart : start + fs.blockSize + 2 ^ 16 ≤ 2 ^ 32) (rounds : Nat) (prev : Option Nat)
    (hrec : Record fs.blockSize data offset) (hprev : ∀ o, prev = some o → o + 8 ≤ data.length) :
    (∃ data' ino, removeFrom p fs data name rounds offset prev (start + offset) =
      some (.inl (data', ino)) ∧ data'.length = fs.blockSize) ∨
    ∃ bytes, removeFrom p fs data name rounds offset prev (start + offset) = some (.inr bytes) ∧
      start ≤ bytes ∧ (offset < fs.blockSize + 2 ^ 16 → bytes < 2 ^ 32) := by
  induction rounds generalizing offset prev with
  | zero => exact .inr ⟨start + offset, rfl, by omega, by omega⟩
  | succ rounds ih =>
    unfold removeFrom
    by_cases hin : offset + 8 ≤ fs.blockSize
    · rw [if_pos hin]
      by_cases hzero : recLen data offset = 0
      · rw [if_pos hzero]
        exact .inr ⟨start + offset, rfl, by omega, by omega⟩
      rw [if_neg hzero, if_neg (by have := hnames offset hrec hin hzero; omega)]
      split
      · obtain ⟨data', hremove, hlen'⟩ := exists_removeAt (hlen ▸ hin) hprev
        refine .inl ⟨data', recInode data offset, ?_, hlen'.trans hlen⟩
        rw [hremove]
        rfl
      have hrl := recLen_lt data offset
      have hsum : start + offset + recLen data offset < 2 ^ 32 := by omega
      rw [p.fit_of_lt hsum, add_assoc]
      have hnext := ih (some offset) (hrec.next hin hzero)
        (by rintro _ ⟨⟩; exact hlen ▸ hin)
      rcases hnext with hinl | ⟨bytes, hrun, hge, hlt⟩
      · exact .inl hinl
      · exact .inr ⟨bytes, hrun, hge, fun _ => hlt (by omega)⟩
    · rw [if_neg hin]
      exact .inr ⟨start + offset, rfl, by omega, by omega⟩

/-- Every block of the directory has its names inside. -/
def NamedDir (fs : Ext2Fs) (v : Nat → Option (List Byte)) (inode : Inode) : Prop :=
  ∀ l b data, fs.blockOf v inode l = some b → b ≠ 0 → v b.toNat = some data →
    NamesInside fs.blockSize data

theorem Geometry.ends_removeInBlocks (h : fs.Geometry) {dirSize : Nat}
    (hsmall : dirSize + 2 ^ 17 ≤ 2 ^ 32) (hnamed : NamedDir fs (fs.view d) inode) (name : List Byte)
    (hc : Counted fs logical bytes) (hrounds : roundsLeft fs dirSize logical bytes < rounds) :
    Ends (removeInBlocks p fs inode dirSize name rounds logical bytes) d fun _ _ => True := by
  obtain ⟨hbs, hge, hle⟩ := h.entries
  induction rounds generalizing logical bytes with
  | zero => exact absurd hrounds (not_lt_zero _)
  | succ rounds ih =>
    unfold removeInBlocks
    by_cases hdone : dirSize ≤ bytes
    · rw [if_pos hdone]
      trivial
    rw [if_neg hdone]
    have hlog := h.counted_lt hc
    refine Looks.bind ((h.resolveBlock_reads inode (by omega) d).looks) fun b hb => ?_
    unfold roundsLeft at hrounds
    by_cases hzero : b = 0
    · rw [if_pos hzero]
      have hsum : bytes + fs.blockSize < 2 ^ 32 := by omega
      refine Looks.bind (looks_of_answer (u32_eq hsum d)) fun bytes' hbytes => ?_
      cases hbytes
      refine Looks.bind (looks_of_answer (u32_eq hlog d)) fun next hnext => ?_
      cases hnext
      refine ih (counted_hole hc hsum) ?_
      unfold roundsLeft
      omega
    · rw [if_neg hzero]
      refine Looks.bind ((h.readBlock_reads b.toNat d).looks) fun data hdata => ?_
      have hlen := h.length_view hdata
      have hroom : bytes + fs.blockSize + 2 ^ 16 ≤ 2 ^ 32 := by omega
      have hinner := removeFrom_spec p hlen (hnamed logical b data hb hzero hdata) name hroom
        fs.blockSize none .first nofun
      rcases hinner with ⟨data', ino, hrun, hlen'⟩ | ⟨bytes', hrun, hmono, hlt⟩
      · rw [add_zero] at hrun
        refine Ends.bind (Ends.orPanic hrun) ?_
        rintro _ _ ⟨rfl, rfl⟩
        exact (ends_writeBlock hlen').bind fun _ _ _ => trivial
      refine Ends.bind (Ends.orPanic hrun) ?_
      rintro _ _ ⟨rfl, rfl⟩
      refine Looks.bind (looks_of_answer (u32_eq hlog _)) fun next hnext => ?_
      cases hnext
      obtain ⟨hin, hc'⟩ := h.counted_block hb hzero (hlt (by omega))
      refine ih hc' ?_
      unfold roundsLeft
      omega

/-! ## Data and bitmaps -/

section Data

variable {fs : Ext2Fs}

section

variable (h : fs.Geometry)
include h

theorem Geometry.looks_readDataFrom (inode : Inode) (d : Disk) (rounds fileOffset n : Nat) :
    Looks (readDataFrom p fs inode rounds fileOffset n) d fun _ => True := by
  induction rounds generalizing fileOffset n with
  | zero => exact ⟨rfl, trivial⟩
  | succ rounds ih =>
    unfold readDataFrom
    by_cases hn : n = 0
    · rw [if_pos hn]
      exact ⟨rfl, trivial⟩
    rw [if_neg hn]
    refine Looks.bind (looks_of_answer (divide_eq h.blockSize_ne_zero d)) fun block _ => ?_
    have hlog : block % 2 ^ 32 < 2 ^ 32 := mod_lt _ (by decide)
    refine Looks.bind ((h.resolveBlock_reads inode hlog d).looks) fun b _ => ?_
    split
    · exact Looks.bind (ih _ _) fun rest _ => ⟨rfl, trivial⟩
    · refine Looks.bind ((h.readBlock_reads b.toNat d).looks) fun data _ => ?_
      exact Looks.bind (ih _ _) fun rest _ => ⟨rfl, trivial⟩

/-- With data from block 0 or 1 on, every block number but zero can be freed. -/
theorem Geometry.ends_freeBlock (block : Nat) (d : Disk) :
    Ends (freeBlock p fs block) d fun _ _ => True := by
  unfold freeBlock
  by_cases hzero : block = 0
  · rw [if_pos hzero]
    trivial
  rw [if_neg hzero]
  have hfirst := h.firstDataBlock
  refine Ends.bind (Ends.orPanic (p.fitSub_of_le (show _ ≤ block by omega))) ?_
  rintro relative _ ⟨-, rfl⟩
  refine Looks.bind (looks_of_answer (divide_eq h.blocksPerGroup _)) fun group _ => ?_
  split
  · trivial
  rename_i desc _
  refine Looks.bind ((h.readBlock_reads desc.blockBitmap _).looks) fun data hdata => ?_
  split
  · trivial
  · exact ends_writeBlock ((length_clearBit _ _).trans (h.length_view hdata))

theorem Geometry.ends_freeTree (depth : Nat) (block : BitVec 32) (d : Disk) :
    Ends (freeTree p fs depth block) d fun _ _ => True := by
  induction depth generalizing block d with
  | zero => exact h.ends_freeBlock block.toNat d
  | succ depth ih =>
    refine Looks.bind ((h.readBlock_reads block.toNat d).looks) fun data _ => ?_
    refine Ends.bind (forM ?_ _ d) fun _ d' _ => h.ends_freeBlock block.toNat d'
    intro b d'
    split
    · trivial
    · exact ih b d'

theorem Geometry.ends_freeEach (depth : Nat) (bs : List (BitVec 32)) (d : Disk) :
    Ends (freeEach (freeTree p fs depth) bs) d fun _ _ => True := by
  refine forM ?_ bs d
  intro b d'
  split
  · trivial
  · exact h.ends_freeTree depth b d'

theorem Geometry.ends_freeInodeBlocks (inode : Inode) (d : Disk) :
    Ends (freeInodeBlocks p fs inode) d fun _ _ => True := by
  refine (h.ends_freeEach 0 _ d).bind fun _ d₁ _ => ?_
  refine (h.ends_freeEach 1 _ d₁).bind fun _ d₂ _ => ?_
  exact (h.ends_freeEach 2 _ d₂).bind fun _ d₃ _ => h.ends_freeEach 3 _ d₃

theorem Geometry.ends_freeInode (n : Nat) (d : Disk) : Ends (fs.freeInode n) d fun _ _ => True := by
  unfold freeInode
  by_cases hzero : n = 0
  · rw [if_pos hzero]
    trivial
  rw [if_neg hzero]
  refine Looks.bind (looks_of_answer (divide_eq h.inodesPerGroup d)) fun group _ => ?_
  split
  · trivial
  rename_i desc _
  refine Looks.bind ((h.readBlock_reads desc.inodeBitmap d).looks) fun data hdata => ?_
  split
  · trivial
  · exact ends_writeBlock ((length_clearBit _ _).trans (h.length_view hdata))

theorem Geometry.ends_writeInode {old : Inode} (hread : fs.inodeAt v n = some old) (inode : Inode)
    (d : Disk) : Ends (writeInode p fs n inode) d fun _ _ => True := by
  obtain ⟨slot, hslot, hread⟩ := bind_eq_some_iff.mp hread
  obtain ⟨data, -, hfits⟩ := bind_eq_some_iff.mp hread
  have hin : slot.2 + minInodeSize ≤ fs.blockSize := by
    by_contra hlt
    rw [if_pos (by omega)] at hfits
    cases hfits
  refine Looks.bind (looks_of_answer (h.inodeSlot_eq n d)) fun slot' hslot' => ?_
  cases hslot.symm.trans hslot'
  refine Looks.bind ((h.readBlock_reads slot.1 d).looks) fun data hdata => ?_
  have hlen := h.length_view hdata
  obtain ⟨data', hcopy⟩ : ∃ data', copyAt data slot.2 inode.toBytes = some data' := by
    apply exists_copyAt
    rwa [hlen]
  refine Ends.bind (Ends.orPanic hcopy) ?_
  rintro _ _ ⟨rfl, rfl⟩
  exact ends_writeBlock ((length_of_copyAt hcopy).trans hlen)

end

end Data

/-! ## The calls -/

inductive Call
  | openPath (path : String)
  | read (ino offset : Word) (len : Nat)
  | readdir (ino : Word)
  | stat (ino : Word)
  | unlink (parent : Word) (name : List Byte)
  | rmdir (parent : Word) (name : List Byte)

inductive Reply
  | ino (ino : Word)
  | bytes (data : List Byte)
  | entries (entries : List DirEntry)
  | info (attrs : InodeMeta)
  | done
  | err (e : FsError)

/-- The outcome of a call; `none` is a panic or a loop that does not end. -/
def outcome {α : Type} (f : α → Reply) (x : CallM α) (d : Disk) : Option (Reply × Disk) :=
  match x d with
  | .ok a d' => some (f a, d')
  | .error (.err e) d' => some (.err e, d')
  | .error .panic _ => none

def callStep (p : Profile) (fs : Ext2Fs) : StepFn Disk Call Reply
  | d, .openPath path => outcome .ino (openPath p fs path) d
  | d, .read ino offset len => outcome .bytes (read p fs ino offset len) d
  | d, .readdir ino => outcome .entries (readdir p fs ino) d
  | d, .stat ino => outcome .info (stat p fs ino) d
  | d, .unlink parent name => outcome (fun _ => .done) (unlink p fs parent name) d
  | d, .rmdir parent name => outcome (fun _ => .done) (rmdir p fs parent name) d

/-- Every directory on the device is small enough for the byte counters. -/
def SmallDirs (fs : Ext2Fs) (d : Disk) : Prop :=
  ∀ n inode, fs.inodeAt (fs.view d) n = some inode → inode.isDir = true → SmallDir inode

/-- The condition on a call. -/
def Sane (fs : Ext2Fs) (d : Disk) : Call → Prop
  | .openPath _ | .readdir _ => fs.SmallDirs d
  | .read _ _ _ | .stat _ => True
  | .unlink parent _ | .rmdir parent _ => fs.SmallDirs d ∧
    ∀ inode, fs.inodeAt (fs.view d) parent.toNat = some inode → inode.isDir = true →
      NamedDir fs (fs.view d) inode

section Calls

variable {fs : Ext2Fs}

theorem exists_outcome (h : Ends x d Q) : ∃ r d', outcome f x d = some (r, d') := by
  unfold Ends at h
  unfold outcome
  split at h
  · rename_i hx
    exact ⟨_, _, by rw [hx]⟩
  · rename_i hx
    exact ⟨_, _, by rw [hx]⟩
  · exact h.elim

theorem Geometry.ends_readInode_bind (h : fs.Geometry) (n : Nat) (e : FsError)
    (hf : ∀ inode, fs.inodeAt (fs.view d) n = some inode → Ends (f inode) d R) :
    Ends (orFs e (readInode p fs n) >>= f) d R := by
  refine Ends.bind (mapErr ((h.readInode_reads n d).looks)) ?_
  rintro inode _ ⟨rfl, hinode⟩
  exact hf inode hinode

theorem ends_inodeNumOf_bind (ino : Word) (hf : Ends (f ino.toNat) d R) :
    Ends (inodeNumOf ino >>= f) d R := by
  unfold inodeNumOf
  by_cases hino : ino.toNat < 2 ^ 32
  · rwa [if_pos hino]
  · rw [if_neg hino]
    trivial

section

variable (h : fs.Geometry)
include h

theorem Geometry.ends_resolveFrom (hsmall : fs.SmallDirs d) (components : List (List Byte))
    (n : Nat) : Ends (resolveFrom p fs components n) d fun _ _ => True := by
  induction components generalizing n with
  | nil => trivial
  | cons c cs ih =>
    refine Looks.bind ((h.readInode_reads n d).looks) fun inode hinode => ?_
    split
    · trivial
    rename_i hdir
    rw [not_eq_true, not_eq_false'] at hdir
    refine Ends.bind (h.looks_findEntry (hsmall n inode hinode hdir) c) ?_
    intro o d' ho
    cases o with
    | none => trivial
    | some next =>
      rw [ho next rfl]
      exact ih next

theorem Geometry.ends_release (n : Nat) (inode : Inode) (d : Disk) :
    Ends (release p fs n inode) d fun _ _ => True :=
  (mapErr (h.ends_freeInodeBlocks inode d)).bind fun _ d' _ =>
    mapErr (h.ends_freeInode n d')

theorem Geometry.ends_findEntry_bind (hsmall : SmallDir inode) (name : List Byte)
    {f : Nat → CallM α} (hf : ∀ n, Ends (f n) d R) :
    Ends (do
      let found ← orFs .ioError (findEntry p fs inode name)
      let n ← orErr .notFound found
      f n) d R := by
  refine Ends.bind (mapErr (h.looks_findEntry hsmall name)) ?_
  intro o d' ho
  cases o with
  | none => trivial
  | some n =>
    rw [ho n rfl]
    exact hf n

theorem Geometry.ends_remove_bind (hsmall : SmallDir inode) (hnamed : NamedDir fs (fs.view d) inode)
    (name : List Byte) (hf : ∀ d', Ends f d' R) :
    Ends (do
      let _ ← orFs .ioError (removeDirEntryFromDisk p fs inode name)
      f) d R := by
  have hrounds : roundsLeft fs (inode.size % 2 ^ 32) 0 0 < maxRounds := by
    apply h.roundsLeft_lt
    unfold SmallDir at hsmall
    omega
  have hremove := h.ends_removeInBlocks (p := p) hsmall hnamed name (counted_start fs) hrounds
  exact Ends.bind (mapErr hremove) fun _ d' _ => hf d'

theorem Geometry.ends_unlink (parent : Word) (name : List Byte)
    (hsane : fs.Sane d (.unlink parent name)) :
    Ends (unlink p fs parent name) d fun _ _ => True := by
  obtain ⟨hsmall, hnamed⟩ := hsane
  refine ends_inodeNumOf_bind parent ?_
  refine h.ends_readInode_bind parent.toNat .notFound fun inode hinode => ?_
  split
  · trivial
  rename_i hdir
  rw [not_eq_true, not_eq_false'] at hdir
  have hs := hsmall _ inode hinode hdir
  refine h.ends_findEntry_bind hs name fun n => ?_
  refine h.ends_remove_bind hs (hnamed inode hinode hdir) name fun d' => ?_
  exact h.ends_readInode_bind n .ioError fun target _ => h.ends_release n target d'

theorem Geometry.ends_rmdir (parent : Word) (name : List Byte)
    (hsane : fs.Sane d (.rmdir parent name)) : Ends (rmdir p fs parent name) d fun _ _ => True := by
  obtain ⟨hsmall, hnamed⟩ := hsane
  refine ends_inodeNumOf_bind parent ?_
  refine h.ends_readInode_bind parent.toNat .notFound fun inode hinode => ?_
  split
  · trivial
  rename_i hdir
  rw [not_eq_true, not_eq_false'] at hdir
  have hs := hsmall _ inode hinode hdir
  refine h.ends_findEntry_bind hs name fun n => ?_
  refine h.ends_readInode_bind n .ioError fun target htarget => ?_
  split
  · trivial
  rename_i hdir'
  rw [not_eq_true, not_eq_false'] at hdir'
  refine Ends.bind (mapErr (h.looks_readDirEntries (hsmall n target htarget hdir'))) ?_
  rintro entries _ ⟨rfl, -⟩
  split
  · trivial
  refine h.ends_remove_bind hs (hnamed inode hinode hdir) name fun d' => ?_
  refine (h.ends_release n target d').bind fun _ d₁ _ => ?_
  -- the parent was read before, so there is a place to write it to
  refine h.ends_readInode_bind parent.toNat .ioError fun again hagain => ?_
  exact mapErr (h.ends_writeInode hagain _ d₁)

theorem Geometry.exists_callStep (hsane : fs.Sane d call) :
    ∃ r d', callStep p fs d call = some (r, d') := by
  cases call with
  | openPath path =>
    refine exists_outcome (Q := fun _ _ => True) (Ends.bind (mapErr (Q := fun _ _ => True) ?_)
      fun _ _ _ => trivial)
    unfold resolvePath
    split
    · trivial
    · exact h.ends_resolveFrom hsane _ _
  | read ino offset len =>
    refine exists_outcome (Q := fun _ _ => True) (ends_inodeNumOf_bind ino ?_)
    refine h.ends_readInode_bind ino.toNat .ioError fun inode _ => ?_
    refine mapErr ?_
    unfold readInodeData
    split
    · trivial
    · exact (h.looks_readDataFrom inode d _ _ _).mono fun _ _ _ => trivial
  | readdir ino =>
    refine exists_outcome (Q := fun _ _ => True) (ends_inodeNumOf_bind ino ?_)
    refine h.ends_readInode_bind ino.toNat .notFound fun inode hinode => ?_
    split
    · trivial
    rename_i hdir
    rw [not_eq_true, not_eq_false'] at hdir
    exact Ends.bind (mapErr (h.looks_readDirEntries (hsane _ inode hinode hdir)))
      fun _ _ _ => trivial
  | stat ino =>
    refine exists_outcome (Q := fun _ _ => True) (ends_inodeNumOf_bind ino ?_)
    exact h.ends_readInode_bind ino.toNat .notFound fun inode _ => trivial
  | unlink parent name => exact exists_outcome (h.ends_unlink parent name hsane)
  | rmdir parent name => exact exists_outcome (h.ends_rmdir parent name hsane)

end

end Calls

end Ext2Fs

/-! ## Mounting -/

/-- The superblock of a device, if it can be read and has the magic number. -/
def superblockOf (d : Disk) : Option Superblock :=
  (d.get 2).bind fun s0 => (d.get 3).bind fun s1 => Superblock.fromBytes (s0.val ++ s1.val)

theorem readCached_eq (lba : Nat) (d : Disk) :
    readCached lba d = Ext2Fs.answer d ((d.get lba).map Subtype.val) := by
  unfold readCached
  cases d.get lba <;> rfl

theorem looks_readGroups (table : List Byte) (n i : Nat) :
    Looks (readGroups table n i) d fun _ => True := by
  induction n generalizing i with
  | zero => exact ⟨rfl, trivial⟩
  | succ n ih =>
    unfold readGroups
    split
    · trivial
    · exact Looks.bind (ih (i + 1)) fun _ _ => ⟨rfl, trivial⟩

theorem sector_dvd_blockSizeOf {log : Nat} (h : blockSizeOf log = some bs) : sectorSize ∣ bs := by
  unfold blockSizeOf at h
  split at h
  · cases h
    have hmul : sectorSize ∣ 1024 * 2 ^ log := ⟨2 * 2 ^ log, by rw [← mul_assoc]; rfl⟩
    exact (dvd_mod_iff (by decide)).mpr hmul
  · cases h

/-- The part of `mount` behind the superblock and the block size. -/
theorem ends_mount_tail (hbs : sectorSize ∣ bs) (hbpg : sb.blocksPerGroup ≠ 0) :
    Ends (do
      let quotient ← divide sb.blocksCount sb.blocksPerGroup
      let numGroups := quotient + if sb.blocksCount % sb.blocksPerGroup = 0 then 0 else 1
      let table ← readBlockStatic (if bs ≤ 1024 then 2 else 1) bs
      let groupDescriptors ← readGroups table numGroups 0
      return (⟨sb, groupDescriptors, bs⟩ : Ext2Fs)) d fun _ d' => d' = d := by
  refine Looks.bind (looks_of_answer (Ext2Fs.divide_eq hbpg d)) fun quotient _ => ?_
  let fs : Ext2Fs := ⟨sb, [], bs⟩
  have hread : Ext2Fs.Reads (fs.readBlock (if bs ≤ 1024 then 2 else 1)) d
      (fs.view d (if bs ≤ 1024 then 2 else 1)) := by
    apply Ext2Fs.readBlock_reads_of_dvd
    exact hbs
  refine Looks.bind hread.looks fun table _ => ?_
  exact Looks.bind (looks_readGroups table _ 0) fun _ _ => rfl

/-- Mounting panics on a superblock with empty groups, and on no other. -/
theorem ends_mount_iff (d : Disk) :
    Ends mount d (fun _ d' => d' = d) ↔
      ∀ sb, superblockOf d = some sb → sb.logBlockSize < 32 → sb.blocksPerGroup ≠ 0 := by
  unfold mount superblockOf
  have h2 := readCached_eq 2 d
  have h3 := readCached_eq 3 d
  cases hs2 : d.get 2 with
  | none =>
    rw [hs2] at h2
    refine iff_of_true ?_ nofun
    exact Ends.bind (looks_of_answer h2) fun _ _ h => nomatch h.2
  | some s0 =>
    rw [hs2] at h2
    cases hs3 : d.get 3 with
    | none =>
      rw [hs3] at h3
      refine iff_of_true ?_ nofun
      unfold Ends
      rw [bind_of_ok h2, bind_of_error h3]
      trivial
    | some s1 =>
      rw [hs3] at h3
      unfold Ends
      rw [bind_of_ok h2, bind_of_ok h3]
      simp only [bind_some]
      cases hsb : Superblock.fromBytes (s0.val ++ s1.val) with
      | none => exact iff_of_true trivial nofun
      | some sb =>
        have hok : (orErr () (some sb) : DiskM Superblock) d = .ok sb d := rfl
        rw [bind_of_ok hok]
        cases hbs : blockSizeOf sb.logBlockSize with
        | none =>
          have hlog : ¬ sb.logBlockSize < 32 := by
            intro hlt
            rw [blockSizeOf, if_pos hlt] at hbs
            cases hbs
          refine iff_of_true trivial ?_
          rintro _ ⟨⟩ hlt
          exact absurd hlt hlog
        | some bs =>
          have hok' : (orErr () (some bs) : DiskM Nat) d = .ok bs d := rfl
          rw [bind_of_ok hok']
          have hlog : sb.logBlockSize < 32 := by
            by_contra hlt
            rw [blockSizeOf, if_neg hlt] at hbs
            cases hbs
          by_cases hbpg : sb.blocksPerGroup = 0
          · refine iff_of_false ?_ fun hall => hall sb rfl hlog hbpg
            have hpanic : divide sb.blocksCount sb.blocksPerGroup d = .error .panic d := by
              rw [divide, if_pos hbpg]
              rfl
            rw [bind_of_error hpanic]
            exact not_false
          · refine iff_of_true (ends_mount_tail (sector_dvd_blockSizeOf hbs) hbpg) ?_
            rintro _ ⟨⟩ _
            exact hbpg

/-! ## Any content -/

open Ext2Fs in
/-- For every content of the device mounting returns unless the superblock has empty
    groups; and on a volume with a sane geometry each sane call returns, in every state
    that a run of them reaches. -/
theorem mount_and_calls_return (p : Profile) (d₀ : Disk) :
    (Ends mount d₀ (fun _ d => d = d₀) ↔
      ∀ sb, superblockOf d₀ = some sb → sb.logBlockSize < 32 → sb.blocksPerGroup ≠ 0) ∧
    ∀ fs d, mount d₀ = .ok fs d → fs.Geometry → ∀ tr s, Run (callStep p fs) d tr s →
      (∀ e ∈ tr, fs.Sane e.pre e.op) → ∀ call, fs.Sane s call →
        ∃ r s', callStep p fs s call = some (r, s') :=
  ⟨ends_mount_iff d₀, fun _ _ _ hgeo _ _ _ _ _ hsane => hgeo.exists_callStep hsane⟩

/-! ## A small volume -/

section Small

open Ext2Fs

theorem geometry_smallFs : smallFs.Geometry where
  blockSize := .inl rfl
  blocksPerGroup := by decide
  inodesPerGroup := by decide
  firstDataBlock := by decide
  inodeTables := by decide

theorem place_smallFs_of_le (h : 8 < n) : smallFs.place n = none := by
  have hgroup : smallFs.groupDescriptors[(n - 1) / 8]? = none := by
    apply List.getElem?_eq_none
    show 1 ≤ (n - 1) / 8
    omega
  rw [place, if_neg (by omega)]
  show (smallFs.groupDescriptors[(n - 1) / 8]?).map _ = none
  rw [hgroup]
  rfl

theorem smallDirs_small : smallFs.SmallDirs (smallDisk smallBlocks) := by
  intro n inode hinode hdir
  have hn : n ≤ 8 := by
    by_contra hlt
    rw [inodeAt, place_smallFs_of_le (by omega)] at hinode
    cases hinode
  have hall : ∀ n ≤ 8, (smallFs.inodeAt (smallFs.view (smallDisk smallBlocks)) n).all (fun inode =>
      !inode.isDir || decide (inode.size % 2 ^ 32 + 2 ^ 17 ≤ 2 ^ 32)) = true := by
    decide +kernel
  have hone := hall n hn
  rwa [hinode, all_some, hdir, Bool.not_true, Bool.false_or, decide_eq_true_eq] at hone

/-- The records of the root directory and the ends of their names. -/
theorem smallRootDir_records (hdata : smallFs.view (smallDisk smallBlocks) 6 = some data) :
    (recLen data 0 = 12 ∧ recLen data 12 = 12 ∧ recLen data 24 = 1000) ∧
      recNameLen data 0 = 1 ∧ recNameLen data 12 = 2 ∧ recNameLen data 24 = 1 := by
  have hfacts : (smallFs.view (smallDisk smallBlocks) 6).all (fun data =>
      decide ((recLen data 0 = 12 ∧ recLen data 12 = 12 ∧ recLen data 24 = 1000) ∧
        recNameLen data 0 = 1 ∧ recNameLen data 12 = 2 ∧ recNameLen data 24 = 1)) = true := by
    decide +kernel
  rwa [hdata, all_some, decide_eq_true_eq] at hfacts

theorem namesInside_smallRootDir (hdata : smallFs.view (smallDisk smallBlocks) 6 = some data) :
    NamesInside 1024 data := by
  obtain ⟨⟨h0, h12, h24⟩, hn0, hn12, hn24⟩ := smallRootDir_records hdata
  have hoff : ∀ offset, Record 1024 data offset →
      offset = 0 ∨ offset = 12 ∨ offset = 24 ∨ offset = 1024 := by
    intro offset hrec
    induction hrec with
    | first => exact .inl rfl
    | next _ hin _ ih =>
      rcases ih with rfl | rfl | rfl | rfl
      · rw [h0]
        exact .inr (.inl rfl)
      · rw [h12]
        exact .inr (.inr (.inl rfl))
      · rw [h24]
        exact .inr (.inr (.inr rfl))
      · omega
  intro offset hrec hin _
  rcases hoff offset hrec with rfl | rfl | rfl | rfl
  · rw [hn0]
    decide
  · rw [hn12]
    decide
  · rw [hn24]
    decide
  · omega

theorem namedDir_smallRoot : NamedDir smallFs (smallFs.view (smallDisk smallBlocks)) smallRoot := by
  intro l b data hblock hb hdata
  have hroot : smallRoot.block (smallFs.locate l).1 ≠ 0 := by
    intro hzero
    rw [blockOf, hzero] at hblock
    cases hpath : (smallFs.locate l).2 with
    | nil =>
      rw [hpath] at hblock
      exact hb (some.inj hblock).symm
    | cons i is =>
      rw [hpath] at hblock
      exact hb (some.inj hblock).symm
  have hl : l = 0 := by
    by_contra hne
    refine hroot (if_neg fun heq => ?_)
    have hval := congrArg Fin.val heq
    by_cases h12 : l < 12
    · rw [locate_of_lt h12] at hval
      exact hne hval
    · have hle := twelve_le_locate smallFs (Nat.le_of_not_lt h12)
      rw [hval] at hle
      exact absurd hle (by decide)
  subst hl
  obtain rfl : (6 : BitVec 32) = b := some.inj hblock
  exact namesInside_smallRootDir hdata

theorem inodeAt_smallRoot :
    smallFs.inodeAt (smallFs.view (smallDisk smallBlocks)) (2 : Word).toNat = some smallRoot := by
  have hplace : smallFs.place (2 : Word).toNat = some (5, 128) := by
    decide
  have hbytes : (smallFs.view (smallDisk smallBlocks) 5).map (fun data => window data 128 128) =
      some smallRoot.toBytes := by
    decide +kernel
  obtain ⟨data, hdata, hwin⟩ := map_eq_some_iff.mp hbytes
  rw [inodeAt, hplace, bind_some, hdata, bind_some, if_neg (by decide), hwin,
    smallRoot.fromBytes_toBytes]

theorem mount_smallDisk : mount (smallDisk smallBlocks) = .ok smallFs (smallDisk smallBlocks) := by
  have hfs : (match mount (smallDisk smallBlocks) with
      | .ok fs _ => some fs
      | _ => none) = some smallFs := by
    decide +kernel
  have hsb : superblockOf (smallDisk smallBlocks) = some smallFs.superblock := by
    decide +kernel
  generalize smallDisk smallBlocks = d at hfs hsb
  have hends := (ends_mount_iff d).mpr (by
    rintro _ hsb' _
    rw [← some.inj (hsb.symm.trans hsb')]
    decide)
  unfold Ends at hends
  cases hm : mount d with
  | ok fs d' =>
    rw [hm] at hfs hends
    rw [some.inj hfs, show d' = d from hends]
  | error e d' =>
    rw [hm] at hfs
    cases hfs

/-- The volume is mounted, its geometry is sane, and the file `a` can be unlinked. -/
theorem mount_and_calls_return_unlink :
    ∃ fs d, mount (smallDisk smallBlocks) = .ok fs d ∧ fs.Geometry ∧
      fs.Sane d (.unlink 2 [0x61]) ∧
      ∃ r s, callStep .dev fs d (.unlink 2 [0x61]) = some (r, s) := by
  have hsane : smallFs.Sane (smallDisk smallBlocks) (.unlink 2 [0x61]) := by
    refine ⟨smallDirs_small, fun inode hinode _ => ?_⟩
    rw [← some.inj (inodeAt_smallRoot.symm.trans hinode)]
    exact namedDir_smallRoot
  exact ⟨smallFs, _, mount_smallDisk, geometry_smallFs, hsane,
    (mount_and_calls_return .dev _).2 smallFs _ mount_smallDisk geometry_smallFs [] _ .nil nofun _
      hsane⟩

end Small

/-- A superblock that is zero but for its magic number. -/
def craftedDisk : Disk where
  sectors lba :=
    if lba < 8 then
      some ⟨if lba = 2 then zeros 56 ++ [0x53, 0xEF] ++ zeros 454 else zeros 512, by
        split <;> simp [sectorSize]⟩
    else none
  dirty := []
  room := 64

theorem mount_divides_by_zero : ∃ d, mount craftedDisk = .error .panic d := by
  have hpanic : (match mount craftedDisk with
      | .error .panic _ => true
      | _ => false) = true := by
    decide +kernel
  split at hpanic
  · rename_i d h
    exact ⟨d, h⟩
  · cases hpanic

end OpenOS.Fs.Ext2
