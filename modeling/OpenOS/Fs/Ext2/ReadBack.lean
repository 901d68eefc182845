/-
  Reading after writing (kernel/src/fs/ext2.rs), against a store of byte strings.

  A block that is allocated for a write keeps what it held, a logical block
  number is cut to 32 bits, and past the reach of the triple indirect tree an
  insertion indexes outside its block.  Where the blocks that are not in use hold
  zeros and writes end within that reach, `read` gives what the store says.
-/

import OpenOS.Base.Run
import OpenOS.Fs.Ext2.Owner

namespace OpenOS.Fs.Ext2.Ext2Fs

open Function Base Base.RadixTree List Option Comp Nat

variable {fs : Ext2Fs}

/-! ## Reading -/

/-- The indices of the path of a block that the trees can hold. -/
theorem Geometry.locate_lt (h : fs.Geometry) (hl : l < fs.maxBlocks) :
    ∀ i ∈ (fs.locate l).2, i < fs.entriesPerBlock := by
  obtain ⟨-, hge, -⟩ := h.entries
  have hpos : 0 < fs.entriesPerBlock := by omega
  have hne := Nat.pos_of_ne_zero h.square_ne_zero
  unfold maxBlocks at hl
  unfold locate
  split
  · nofun
  dsimp only
  split
  · rintro i (_ | ⟨_, hi⟩)
    · omega
    · cases hi
  split
  · simp only [mem_cons, not_mem_nil, or_false]
    rintro i (rfl | rfl)
    · rw [Nat.div_lt_iff_lt_mul hpos]
      omega
    · exact Nat.mod_lt _ hpos
  simp only [mem_cons, not_mem_nil, or_false]
  rintro i (rfl | rfl | rfl)
  · rw [Nat.div_lt_iff_lt_mul hne, ← Nat.mul_assoc]
    omega
  · rw [Nat.div_lt_iff_lt_mul hpos]
    exact Nat.mod_lt _ hne
  · exact Nat.mod_lt _ hpos

theorem Sound.exists_follow (hl : fs.Layout M) (h : fs.Sound M I v)
    (his : ∀ i ∈ is, i < fs.entriesPerBlock) (hk : is.length ≤ k)
    (hπ : fs.nodeAt I v π = child k c) : ∃ c', fs.follow v c is = some c' := by
  induction is generalizing c k π with
  | nil => exact ⟨c, rfl⟩
  | cons i is ih =>
    rw [follow]
    by_cases hc : c = 0
    · exact ⟨0, if_pos hc⟩
    rw [if_neg hc]
    rw [length_cons] at hk
    obtain ⟨k, rfl⟩ : ∃ k', k = k' + 1 := ⟨k - 1, by omega⟩
    rw [child_of_ne hc] at hπ
    obtain ⟨data, hdata, hlen⟩ := h.exists_data hl hπ
    obtain ⟨hbs, -, -⟩ := hl.entries
    have hi := his i mem_cons_self
    have hpointer : fs.pointer v c.toNat i = some (u32At data (i * 4)) := by
      rw [pointer, hdata, bind_some, if_neg (by omega)]
    rw [hpointer]
    refine ih (fun j hj => his j (mem_cons_of_mem i hj)) (k := k) (by omega)
      (π := π ++ [i]) ?_
    rw [nodeAt_concat, hπ]
    simp [links, hpointer]

variable {inode : Inode}

theorem Sound.exists_blockOf (hl : fs.Layout M) (h : fs.Sound M I v) (hn : I n = some inode)
    (hlt : l < fs.maxBlocks) : ∃ c, fs.blockOf v inode l = some c :=
  h.exists_follow hl (hl.locate_lt hlt) (le_of_eq (length_locate fs l)) (nodeAt_root fs v hn _)

theorem byteAt_window (hi : i < n) : byteAt (window data off n) i = byteAt data (off + i) := by
  unfold byteAt window
  rw [getD_eq_getElem?_getD, getElem?_take_of_lt hi, getElem?_drop, getD_eq_getElem?_getD]

theorem length_window (h : off + n ≤ data.length) : (window data off n).length = n := by
  unfold window
  rw [length_take, length_drop]
  omega

theorem byteAt_append (first second : List Byte) (i : Nat) : byteAt (first ++ second) i =
    if i < first.length then byteAt first i else byteAt second (i - first.length) := by
  unfold byteAt
  split
  · rename_i hlt
    rw [getD_append _ _ _ _ hlt]
  · rename_i hge
    rw [getD_append_right _ _ _ _ (by omega)]

theorem div_mod_add (hb : 0 < b) (h : offset % b + i < b) :
    (offset + i) / b = offset / b ∧ (offset + i) % b = offset % b + i := by
  refine (Nat.div_mod_unique hb).mpr ⟨?_, h⟩
  have := Nat.div_add_mod offset b
  omega

theorem Sound.readDataFrom_reads (hl : fs.Layout M) (h : fs.Sound M I (fs.view d))
    (hn : I n = some inode) {len : Nat} (hrounds : len ≤ rounds)
    (hmax : offset + len ≤ fs.maxBlocks * fs.blockSize) :
    ∃ out, Reads (readDataFrom p fs inode rounds offset len) d (some out) ∧ out.length = len ∧
      ∀ i, i < len → byteAt out i = fs.byteOf I (fs.view d) n (offset + i) := by
  have hbs := Nat.pos_of_ne_zero hl.blockSize_ne_zero
  induction rounds generalizing offset len with
  | zero =>
    obtain rfl := Nat.le_zero.mp hrounds
    exact ⟨[], .inl rfl, rfl, nofun⟩
  | succ rounds ih =>
    unfold readDataFrom
    by_cases hzero : len = 0
    · rw [hzero]
      exact ⟨[], .inl rfl, rfl, nofun⟩
    rw [if_neg hzero]
    have hmod := Nat.mod_lt offset hbs
    have hblock : offset / fs.blockSize < fs.maxBlocks := by
      rw [Nat.div_lt_iff_lt_mul hbs]
      omega
    have hblocks := hl.maxBlocks_le
    generalize hcopy : min len (fs.blockSize - offset % fs.blockSize) = copyLen
    obtain ⟨rest, hrest, hrestlen, hrestbytes⟩ :=
      @ih (offset + copyLen) (len - copyLen) (by omega) (by omega)
    obtain ⟨c, hc⟩ := h.exists_blockOf hl hn hblock
    have hnode := nodeAt_pathOf hn hc
    have hresolve : Reads (resolveBlock p fs inode (offset / fs.blockSize)) d (some c) :=
      hc ▸ hl.resolveBlock_reads inode (by omega) d
    -- a chunk that holds the bytes of its block is put before the rest
    have hjoin : ∀ chunk : List Byte, chunk.length = copyLen →
        (∀ i, i < copyLen → byteAt chunk i = fs.byteOf I (fs.view d) n (offset + i)) →
        (chunk ++ rest).length = len ∧ ∀ i, i < len →
          byteAt (chunk ++ rest) i = fs.byteOf I (fs.view d) n (offset + i) := by
      intro chunk hlen hbytes
      refine ⟨by rw [length_append]; omega, fun i hi => ?_⟩
      rw [byteAt_append, hlen]
      split
      · exact hbytes i (by assumption)
      · rw [hrestbytes _ (by omega)]
        congr 1
        omega
    have hsame : ∀ i, i < copyLen → (offset + i) / fs.blockSize = offset / fs.blockSize ∧
        (offset + i) % fs.blockSize = offset % fs.blockSize + i :=
      fun i hi => div_mod_add hbs (by omega)
    dsimp only
    rw [hcopy]
    by_cases hc0 : c = 0
    · rw [hc0, child_zero] at hnode
      refine ⟨zeros copyLen ++ rest, ?_, hjoin _ (length_zeros _) fun i hi => ?_⟩
      · refine .after (divide_eq hl.blockSize_ne_zero d) ?_
        rw [Nat.mod_eq_of_lt (by omega)]
        refine hresolve.bind_some ?_
        rw [if_pos hc0]
        exact hrest.bind_some (.inl rfl)
      · rw [byteAt_zeros, byteOf_of_none (by rw [(hsame i hi).1, hnode])]
    rw [child_of_ne hc0] at hnode
    obtain ⟨data, hdata, hlen⟩ := h.exists_data hl hnode
    refine ⟨window data (offset % fs.blockSize) copyLen ++ rest, ?_,
      hjoin _ (length_window (by omega)) fun i hi => ?_⟩
    · refine .after (divide_eq hl.blockSize_ne_zero d) ?_
      rw [Nat.mod_eq_of_lt (by omega)]
      refine hresolve.bind_some ?_
      rw [if_neg hc0]
      have hread : Reads (fs.readBlock c.toNat) d (some data) := hdata ▸ hl.readBlock_reads c.toNat d
      exact hread.bind_some (hrest.bind_some (.inl rfl))
    · rw [byteAt_window hi, byteOf_of_node (by rw [(hsame i hi).1, hnode]) hdata, (hsame i hi).2]

/-! ## Contents of files -/

theorem eq_of_byteAt (hlen : a.length = b.length)
    (h : ∀ i, i < a.length → byteAt a i = byteAt b i) : a = b := by
  refine ext_getElem hlen fun i hi hi' => ?_
  have hbyte := h i hi
  unfold byteAt at hbyte
  rwa [getD_eq_getElem _ _ hi, getD_eq_getElem _ _ hi'] at hbyte

/-- The first bytes of a file. -/
def bytesUpTo (fs : Ext2Fs) (I : Owners) (v : View) (n size : Nat) : List Byte :=
  (range size).map (fs.byteOf I v n)

theorem length_bytesUpTo (fs : Ext2Fs) (I : Owners) (v : View) (n size : Nat) :
    (fs.bytesUpTo I v n size).length = size := by
  rw [bytesUpTo, length_map, length_range]

theorem byteAt_bytesUpTo {size : Nat} (hi : i < size) :
    byteAt (fs.bytesUpTo I v n size) i = fs.byteOf I v n i := by
  unfold byteAt bytesUpTo
  rw [getD_eq_getElem _ _ (by rwa [length_map, length_range]), getElem_map, getElem_range]

theorem byteAt_of_length_le (h : data.length ≤ i) : byteAt data i = 0 := by
  unfold byteAt
  rw [getD_eq_getElem?_getD, getElem?_eq_none h, getD_none]

theorem byteAt_overwrite (data elems : List Byte) (pos i : Nat) :
    byteAt (overwrite 0 data pos elems) i =
      if pos ≤ i ∧ i < pos + elems.length then byteAt elems (i - pos) else byteAt data i := by
  rw [overwrite_eq, byteAt_append, byteAt_append, length_append, length_take_padTo]
  by_cases hpos : i < pos
  · rw [if_pos (by omega), if_pos hpos, if_neg (by omega)]
    unfold byteAt
    rw [getD_eq_getElem?_getD, getElem?_take_of_lt hpos, padTo, getD_eq_getElem?_getD]
    by_cases hlt : i < data.length
    · rw [getElem?_append_left hlt]
    · rw [getElem?_append_right (by omega), getElem?_replicate, getElem?_eq_none (by omega)]
      split <;> rfl
  · by_cases hend : i < pos + elems.length
    · rw [if_pos hend, if_neg hpos, if_pos ⟨by omega, hend⟩]
    rw [if_neg hend, if_neg (by omega)]
    unfold byteAt
    rw [getD_eq_getElem?_getD, getElem?_drop]
    congr 2
    omega

/-- The content of a regular file in use. -/
def fileAt (fs : Ext2Fs) (v : View) (n : Nat) : Option (List Byte) :=
  (fs.owners v n).bind fun inode =>
    if inode.isReg then some (fs.bytesUpTo (fs.owners v) v n inode.size) else none

theorem fileAt_of_owner (h : fs.owners v n = some inode) (hreg : inode.isReg = true) :
    fs.fileAt v n = some (fs.bytesUpTo (fs.owners v) v n inode.size) := by
  rw [fileAt, h, bind_some, if_pos hreg]

theorem exists_owner_of_fileAt (h : fs.fileAt v n = some content) : ∃ inode,
    fs.owners v n = some inode ∧ inode.isReg = true ∧
      content = fs.bytesUpTo (fs.owners v) v n inode.size := by
  obtain ⟨inode, howner, h⟩ := bind_eq_some_iff.mp h
  split at h
  · rename_i hreg
    cases h
    exact ⟨inode, howner, hreg, rfl⟩
  · cases h

/-- What a read depends on: blocks not in use hold zeros, files are not larger than the
    trees can hold, and past its end a file holds zeros. -/
structure Clean (fs : Ext2Fs) (M : Set Nat) (v : View) : Prop where
  sound : fs.Sound M (fs.owners v) v
  zeroFree : fs.ZeroFree M v
  small : ∀ n inode, fs.owners v n = some inode → inode.isReg = true →
    inode.size ≤ fs.maxBlocks * fs.blockSize
  tail : ∀ n inode, fs.owners v n = some inode → inode.isReg = true → ∀ pos, inode.size ≤ pos →
    fs.byteOf (fs.owners v) v n pos = 0

theorem isReg_of_isDir (h : inode.isDir = true) : inode.isReg = false := by
  unfold Inode.isDir at h
  rw [decide_eq_true_eq] at h
  rw [Inode.isReg, h]
  rfl

theorem isDir_of_isReg (h : inode.isReg = true) : inode.isDir = false := by
  cases hd : inode.isDir with
  | false => rfl
  | true =>
    rw [isReg_of_isDir hd] at h
    cases h

theorem Reads.orFs_eq {x : DiskM α} (h : Reads x d (some a)) (e : FsError) :
    orFs e x d = .ok a d ∨ d.room = 0 ∧ orFs e x d = .error (.err e) d := by
  rcases h with h | ⟨hroom, h⟩
  · exact .inl (mapErr_of_ok h e)
  · refine .inr ⟨hroom, ?_⟩
    rw [orFs, mapErr, h]
    rfl

/-- `read` gives the content, unless the cache refuses. -/
theorem Clean.read_eq (hl : fs.Layout M) (h : fs.Clean M (fs.view d)) {content : List Byte}
    (hfile : fs.fileAt (fs.view d) ino.toNat = some content) :
    read p fs ino offset len d = .ok (window content offset.toNat len) d ∨
      d.room = 0 ∧ read p fs ino offset len d = .error (.err .ioError) d := by
  obtain ⟨inode, howner, hreg, rfl⟩ := exists_owner_of_fileAt hfile
  obtain ⟨-, hinode, -⟩ := owners_eq_some.mp howner
  obtain ⟨-, hcount⟩ := hl.num_of_inodeAt hinode
  have hend := hl.inodeEnd
  have hnum : ino.toNat < 2 ^ 32 := lt_of_le_of_lt hcount hend
  have hnumOf : inodeNumOf ino d = .ok ino.toNat d := by
    rw [inodeNumOf, if_pos hnum]
    rfl
  have hread : Reads (readInode p fs ino.toNat) d (some inode) :=
    hinode ▸ hl.readInode_reads ino.toNat d
  unfold read
  rw [bind_of_ok hnumOf]
  rcases hread.orFs_eq .ioError with hread | ⟨hroom, hread⟩
  · rw [bind_of_ok hread]
    refine Reads.orFs_eq ?_ _
    unfold readInodeData
    have hlen := length_bytesUpTo fs (fs.owners (fs.view d)) (fs.view d) ino.toNat inode.size
    by_cases hpast : inode.size ≤ offset.toNat
    · rw [if_pos hpast, window, drop_eq_nil_of_le (by omega), take_nil]
      exact .inl rfl
    rw [if_neg hpast]
    have hsmall := h.small _ _ howner hreg
    generalize htoRead : min len (inode.size - offset.toNat) = toRead
    obtain ⟨out, hrun, houtlen, hbytes⟩ : ∃ out,
        Reads (readDataFrom p fs inode toRead offset.toNat toRead) d (some out) ∧
        out.length = toRead ∧ ∀ i, i < toRead → byteAt out i =
          fs.byteOf (fs.owners (fs.view d)) (fs.view d) ino.toNat (offset.toNat + i) :=
      h.sound.readDataFrom_reads hl howner (le_refl _) (by omega)
    have hout : out = window (fs.bytesUpTo (fs.owners (fs.view d)) (fs.view d) ino.toNat
        inode.size) offset.toNat len := by
      refine eq_of_byteAt ?_ fun i hi => ?_
      · rw [houtlen, window, length_take, length_drop, hlen, htoRead]
      · rw [houtlen] at hi
        rw [hbytes i hi, byteAt_window (by omega), byteAt_bytesUpTo (by omega)]
    rwa [← hout]
  · exact .inr ⟨hroom, bind_of_error hread _⟩

/-! ## What the calls do to the contents -/

theorem fileAt_congr (howner : fs.owners v' n = fs.owners v n)
    (hbytes : ∀ pos, fs.byteOf (fs.owners v') v' n pos = fs.byteOf (fs.owners v) v n pos) :
    fs.fileAt v' n = fs.fileAt v n := by
  unfold fileAt bytesUpTo
  congr 1
  funext inode
  rw [funext hbytes]

theorem Clean.of_changed_dir (hl : fs.Layout M) (h : fs.Clean M v) (hn : fs.owners v n = some inode)
    (hdir : inode.isDir = true) (hdir' : inode'.isDir = true)
    (hc : fs.Changed M n (fs.owners v) v (update (fs.owners v) n (some inode')) v')
    (hinode : fs.inodeAt v' n = some inode') : fs.Clean M v' ∧ fs.fileAt v' = fs.fileAt v := by
  have howns : inode'.ownsBlocks = true := by
    rw [Inode.ownsBlocks, hdir', Bool.or_true, Bool.true_or]
  have howners := hc.owners_eq (owners_eq_some.mp hn).1 hinode howns
  have hbyte : ∀ m, m ≠ n → ∀ pos,
      fs.byteOf (fs.owners v') v' m pos = fs.byteOf (fs.owners v) v m pos := by
    intro m hm pos
    rw [howners]
    exact hc.byteOf_eq hl h.sound hm pos
  have hsame : ∀ m, m ≠ n → fs.owners v' m = fs.owners v m := by
    intro m hm
    rw [howners, update_of_ne hm]
  have hreg : ∀ m inode₁, fs.owners v' m = some inode₁ → inode₁.isReg = true → m ≠ n := by
    rintro m inode₁ hm hreg rfl
    rw [howners, update_self] at hm
    cases hm
    rw [isReg_of_isDir hdir'] at hreg
    cases hreg
  refine ⟨⟨?_, hc.zeroFree h.zeroFree, ?_, ?_⟩, ?_⟩
  · rw [howners]
    exact hc.sound
  · intro m inode₁ hm hr
    exact h.small m inode₁ ((hsame m (hreg m _ hm hr)).symm.trans hm) hr
  · intro m inode₁ hm hr pos hpos
    rw [hbyte m (hreg m _ hm hr)]
    exact h.tail m inode₁ ((hsame m (hreg m _ hm hr)).symm.trans hm) hr pos hpos
  · funext m
    by_cases hm : m = n
    · subst hm
      rw [fileAt, fileAt, howners, update_self, hn, bind_some, bind_some,
        isReg_of_isDir hdir', isReg_of_isDir hdir, if_neg (by decide), if_neg (by decide)]
    · exact fileAt_congr (hsame m hm) (hbyte m hm)

theorem NewInode.clean (h : fs.NewInode M v n emptyFile v') (hc : fs.Clean M v) :
    fs.Clean M v' ∧ fs.owners v' = update (fs.owners v) n (some emptyFile) ∧
      fs.fileAt v' = update (fs.fileAt v) n (some []) := by
  have hnone := h.owner_none
  have howners : fs.owners v' = update (fs.owners v) n (some emptyFile) := by
    funext m
    by_cases hm : m = n
    · rw [hm, update_self, owners_eq_some, h.used, h.inodes, update_self, update_self]
      exact ⟨rfl, rfl, by decide⟩
    · rw [update_of_ne hm, h.owners_of_ne hm]
  have hnode : fs.nodeAt (update (fs.owners v) n (some emptyFile)) v' = _ :=
    hc.sound.nodeAt_newOwner hnone (fun _ => rfl) h.same
  rw [← howners] at hnode
  have hpath : ∀ m l, fs.nodeAt (fs.owners v') v' (fs.pathOf m l) =
      fs.nodeAt (fs.owners v) v (fs.pathOf m l) := by
    intro m l
    rw [hnode, update_of_ne]
    intro heq
    cases (cons.inj heq).2
  have hbyte : ∀ m pos, fs.byteOf (fs.owners v') v' m pos = fs.byteOf (fs.owners v) v m pos := by
    intro m pos
    unfold byteOf
    rw [hpath]
    split
    · rename_i b k hb
      rw [h.same b (hc.sound.owned _ b k hb).1]
    · rfl
  have hempty : ∀ pos, fs.byteOf (fs.owners v) v n pos = 0 := by
    intro pos
    refine byteOf_of_none ?_
    rw [nodeAt, pathOf, walk_cons]
    simp only [links, hnone]
    rfl
  refine ⟨⟨?_, ?_, ?_, ?_⟩, howners, ?_⟩
  · rw [howners]
    exact h.sound hc.sound hnone fun _ => rfl
  · intro x hx hfree
    rw [h.blocks] at hfree
    rw [h.same x hx, hc.zeroFree x hx hfree]
  · intro m inode hm hreg
    rw [howners, update_apply] at hm
    split at hm
    · cases hm
      exact zero_le _
    · exact hc.small m inode hm hreg
  · intro m inode hm hreg pos hpos
    rw [hbyte]
    rw [howners, update_apply] at hm
    split at hm
    · rename_i hmn
      rw [hmn, hempty]
    · exact hc.tail m inode hm hreg pos hpos
  · funext m
    by_cases hm : m = n
    · subst hm
      rw [update_self, fileAt, howners, update_self]
      rfl
    · rw [update_of_ne hm]
      exact fileAt_congr (h.owners_of_ne hm) (hbyte m)

theorem Clean.create_gives (hl : fs.Layout M) (h : fs.Clean M (fs.view d))
    (hlive : fs.inodeUsed (fs.view d) parentIno.toNat = true) :
    Comp.Gives (create p fs parentIno name) d fun r d' => fs.Clean M (fs.view d') ∧
      fs.fileAt (fs.view d') = update (fs.fileAt (fs.view d)) r.toNat (some []) := by
  intro r d' hrun
  obtain ⟨n, parentInode, d₁, rfl, hn0, hend, hne, -, -, hparent, hdir, hnew, hadd⟩ :=
    h.sound.create_gives hl hlive r d' hrun
  obtain ⟨hclean, howners, hfiles⟩ := hnew.clean h
  have hparent₁ : fs.owners (fs.view d₁) parentIno.toNat = some parentInode := by
    rw [howners, update_of_ne hne.symm, hparent]
  obtain ⟨hpused, hpinode, -⟩ := owners_eq_some.mp hparent₁
  obtain ⟨hp0, hpend⟩ := hl.num_of_inodeAt hpinode
  have hcount := hl.inodeEnd
  have hnum : (BitVec.ofNat 64 n).toNat = n := by
    refine mod_eq_of_lt ?_
    unfold inodeCount at hend
    omega
  have hdirStep : fs.Clean M (fs.view d') ∧ fs.fileAt (fs.view d') = fs.fileAt (fs.view d₁) := by
    rcases hclean.sound.addDirEntry_gives hl hparent₁ hp0 hpend () d' hadd with
      ⟨l, c, data, data', bytes, -, hsets⟩ | ⟨c, inode', happ⟩
    · have hext := (hsets.extended hl hclean.sound).toChanged
      have hself : update (fs.owners (fs.view d₁)) parentIno.toNat (some parentInode) =
          fs.owners (fs.view d₁) := update_eq_self_iff.mpr hparent₁.symm
      have hchanged : fs.Changed M parentIno.toNat (fs.owners (fs.view d₁)) (fs.view d₁)
          (update (fs.owners (fs.view d₁)) parentIno.toNat (some parentInode))
          (fs.view d') := by
        rwa [hself]
      refine hclean.of_changed_dir hl hparent₁ hdir hdir hchanged ?_
      rw [hsets.inodeAt_eq hl hclean.sound, hpinode]
    · obtain ⟨hchanged, hinode'⟩ := happ.changed hl hclean.sound
      exact hclean.of_changed_dir hl hparent₁ hdir ((isDir_congr happ.mode).trans hdir) hchanged hinode'
  exact ⟨hdirStep.1, by rw [hdirStep.2, hfiles, hnum]⟩

/-- `write`, within the reach of the trees, puts the bytes over the file. -/
theorem Clean.write_gives (hl : fs.Layout M) (h : fs.Clean M (fs.view d))
    (hlive : fs.inodeUsed (fs.view d) ino.toNat = true)
    (hmax : data = [] ∨ offset.toNat + data.length ≤ fs.maxBlocks * fs.blockSize) :
    Comp.Gives (write p fs ino offset data) d fun k d' => k = data.length ∧
      fs.Clean M (fs.view d') ∧ fs.fileAt (fs.view d') = update (fs.fileAt (fs.view d)) ino.toNat
        ((fs.fileAt (fs.view d) ino.toNat).map fun content => put 0 content offset.toNat data) := by
  refine gives_inodeNumOf_bind ?_
  refine (hl.readInode_reads _ d).gives_orFs_bind fun inode hinode => ?_
  split
  · exact .throw
  rename_i hnotReg
  have hreg : inode.isReg = true := by
    cases hr : inode.isReg with
    | true => rfl
    | false =>
      rw [hr] at hnotReg
      exact absurd rfl hnotReg
  have howns : ∀ inode' : Inode, inode'.isReg = true → inode'.ownsBlocks = true := by
    intro inode' hr
    rw [Inode.ownsBlocks, hr, Bool.true_or, Bool.true_or]
  have howner : fs.owners (fs.view d) ino.toNat = some inode :=
    owners_eq_some.mpr ⟨hlive, hinode, howns inode hreg⟩
  obtain ⟨hn0, hend⟩ := hl.num_of_inodeAt hinode
  have hfile := fileAt_of_owner howner hreg
  by_cases hdata : data = []
  · subst hdata
    refine .bind_of_ok (mapErr_of_ok rfl _) (.pure ⟨rfl, h, ?_⟩)
    rw [hfile]
    exact (update_eq_self_iff.mpr hfile.symm).symm
  have hmax := hmax.resolve_left hdata
  refine Comp.Gives.bind (h.sound.writeInodeData_gives hl howner hn0 hend hdata hmax).mapErr ?_
  rintro ⟨inode', k⟩ d' ⟨hk, ⟨f, hf⟩, hinode', hext, hbytes⟩
  dsimp only at hf hinode' hext hbytes
  refine .pure ⟨hk, ?_⟩
  have hmode : inode'.mode = inode.mode := by rw [hf, grown_mode]
  have hreg' : inode'.isReg = true := (isReg_congr hmode).trans hreg
  have howners := hext.toChanged.owners_eq hlive hinode' (howns inode' hreg')
  have hsize : inode'.size = max inode.size (offset.toNat + data.length) := by
    have hdir : ({ inode with block := f } : Inode).isDir = false := isDir_of_isReg hreg
    rw [hf, grown_size hdir (lt_of_le_of_lt hmax hl.maxSize_lt)]
    rfl
  have hbytes := hbytes h.zeroFree
  rw [← howners] at hbytes
  have hsound := hext.sound
  rw [← howners] at hsound
  refine ⟨⟨hsound, hext.toChanged.zeroFree h.zeroFree, ?_, ?_⟩, ?_⟩
  · intro m inode₁ hm hr
    rw [howners, update_apply] at hm
    split at hm
    · cases hm
      rw [hsize]
      exact Nat.max_le.mpr ⟨h.small _ _ howner hreg, hmax⟩
    · exact h.small m inode₁ hm hr
  · intro m inode₁ hm hr pos hpos
    rw [hbytes, written]
    rw [howners, update_apply] at hm
    split at hm
    · cases hm
      rename_i hmn
      rw [if_neg (by omega), hmn]
      exact h.tail _ _ howner hreg pos (by omega)
    · rename_i hmn
      rw [if_neg fun hin => hmn hin.1]
      exact h.tail m inode₁ hm hr pos hpos
  · funext m
    by_cases hm : m = ino.toNat
    · subst hm
      have howner' : fs.owners (fs.view d') ino.toNat = some inode' := by
        rw [howners, update_self]
      rw [update_self, fileAt_of_owner howner' hreg', hfile, map_some]
      congr 1
      obtain ⟨b, rest, rfl⟩ := exists_cons_of_ne_nil hdata
      have hlen := length_bytesUpTo fs (fs.owners (fs.view d)) (fs.view d) ino.toNat inode.size
      refine eq_of_byteAt ?_ fun i hi => ?_
      · rw [put, length_overwrite, length_bytesUpTo, length_bytesUpTo, hsize, max_comm]
      · rw [length_bytesUpTo] at hi
        rw [put, byteAt_overwrite, byteAt_bytesUpTo hi, hbytes, written]
        by_cases hin : offset.toNat ≤ i ∧ i < offset.toNat + (b :: rest).length
        · rw [if_pos ⟨rfl, hin⟩, if_pos hin]
        rw [if_neg fun h => hin h.2, if_neg hin]
        by_cases hsmall : i < inode.size
        · rw [byteAt_bytesUpTo hsmall]
        · rw [byteAt_of_length_le (by omega)]
          exact h.tail _ _ howner hreg i (by omega)
    · rw [update_of_ne hm]
      refine fileAt_congr (by rw [howners, update_of_ne hm]) fun pos => ?_
      rw [hbytes, written, if_neg fun hin => hm hin.1]

/-! ## Runs -/

inductive FileCall
  | create (parent : Word) (name : List Byte)
  | write (ino offset : Word) (data : List Byte)

inductive FileReply
  | created (ino : Word)
  | wrote (count : Nat)
  | err (e : FsError)

/-- The outcome of a call; `none` is a panic. -/
def replyOf {α : Type} (f : α → FileReply) (x : CallM α) (d : Disk) : Option (FileReply × Disk) :=
  match x d with
  | .ok a d' => some (f a, d')
  | .error (.err e) d' => some (.err e, d')
  | .error .panic _ => none

def fileStep (p : Profile) (fs : Ext2Fs) : StepFn Disk FileCall FileReply
  | d, .create parent name => replyOf .created (create p fs parent name) d
  | d, .write ino offset data => replyOf .wrote (write p fs ino offset data) d

/-- A store of byte strings: what files are. -/
abbrev Store := Nat → Option (List Byte)

/-- What a call that succeeds does to the store. -/
def storeStep (s : Store) : FileCall → FileReply → Store
  | .create _ _, .created ino => update s ino.toNat (some [])
  | .write ino offset data, .wrote _ => update s ino.toNat
      ((s ino.toNat).map fun content => put 0 content offset.toNat data)
  | _, _ => s

/-- The store after a history of calls. -/
def replay (s : Store) (tr : List (Transition Disk FileCall FileReply)) : Store :=
  tr.foldl (fun s e => storeStep s e.op e.res) s

/-- The range of a write passes the largest file size. -/
def Passes (fs : Ext2Fs) : FileCall → Prop
  | .create _ _ => False
  | .write _ offset data => data ≠ [] ∧ fs.maxBlocks * fs.blockSize < offset.toNat + data.length

instance (fs : Ext2Fs) : DecidablePred fs.Passes
  | .create _ _ => isFalse id
  | .write _ offset data => inferInstanceAs
      (Decidable (data ≠ [] ∧ fs.maxBlocks * fs.blockSize < offset.toNat + data.length))

def FileReply.Succeeded : FileReply → Prop
  | .err _ => False
  | _ => True

instance : DecidablePred FileReply.Succeeded
  | .err _ => isFalse id
  | .created _ => isTrue trivial
  | .wrote _ => isTrue trivial

/-- Calls that are served: the inode is in use, and a write ends within the largest
    size, or begins past the last block, with a block number of 32 bits and an end of
    64, in a file with a triple indirect block. -/
def Fits (fs : Ext2Fs) (v : View) : FileCall → Prop
  | .create parent _ => fs.inodeUsed v parent.toNat = true
  | .write ino offset data => fs.inodeUsed v ino.toNat = true ∧
      (data = [] ∨ offset.toNat + data.length ≤ fs.maxBlocks * fs.blockSize ∨
        (fs.maxBlocks ≤ offset.toNat / fs.blockSize ∧ offset.toNat / fs.blockSize < 2 ^ 32 ∧
          offset.toNat + data.length < 2 ^ 64 ∧
          ∀ inode, fs.inodeAt v ino.toNat = some inode → inode.block 14 ≠ 0))

instance (fs : Ext2Fs) (v : View) : DecidablePred (fs.Fits v)
  | .create parent _ => inferInstanceAs (Decidable (fs.inodeUsed v parent.toNat = true))
  | .write ino offset data => by
    have hroot : Decidable (∀ inode, fs.inodeAt v ino.toNat = some inode → inode.block 14 ≠ 0) :=
      decidable_of_iff ((fs.inodeAt v ino.toNat).all fun inode => inode.block 14 ≠ 0) (by
        cases fs.inodeAt v ino.toNat with
        | none => simp
        | some inode => simp)
    unfold Fits
    infer_instance

/-- Past its end a file holds zeros. -/
def ZeroTails (fs : Ext2Fs) (v : View) : Prop :=
  ∀ n inode, fs.owners v n = some inode → inode.isReg = true → ∀ pos, inode.size ≤ pos →
    fs.byteOf (fs.owners v) v n pos = 0

theorem replyOf_eq (h : replyOf f x d = some (r, d')) :
    (∃ a, x d = .ok a d' ∧ r = f a) ∨ ∃ e, x d = .error (.err e) d' ∧ r = .err e := by
  unfold replyOf at h
  split at h
  · rename_i a d₁ hx
    cases h
    exact .inl ⟨a, hx, rfl⟩
  · rename_i e d₁ hx
    cases h
    exact .inr ⟨e, hx, rfl⟩
  · cases h

/-- A write that begins past the last block fails, and nothing has changed. -/
theorem Layout.write_beyond (hl : fs.Layout M)
    (hdata : data ≠ []) (hpast : fs.maxBlocks ≤ offset.toNat / fs.blockSize)
    (hblock : offset.toNat / fs.blockSize < 2 ^ 32) (hend : offset.toNat + data.length < 2 ^ 64)
    (hroot : ∀ inode, fs.inodeAt (fs.view d) ino.toNat = some inode → inode.block 14 ≠ 0) :
    ∃ e, write p fs ino offset data d = .error (.err e) d := by
  unfold write
  by_cases hnum : ino.toNat < 2 ^ 32
  · have hnumOf : inodeNumOf ino d = .ok ino.toNat d := by
      rw [inodeNumOf, if_pos hnum]
      rfl
    rw [bind_of_ok hnumOf]
    have hread := hl.readInode_reads (p := p) ino.toNat d
    -- the inode cannot be read, or it is found
    have hcases : readInode p fs ino.toNat d = .error (.err ()) d ∨
        ∃ inode, fs.inodeAt (fs.view d) ino.toNat = some inode ∧
          readInode p fs ino.toNat d = .ok inode d := by
      rcases hread with hread | ⟨-, hread⟩
      · cases hinode : fs.inodeAt (fs.view d) ino.toNat with
        | none => exact .inl (by rw [hread, hinode]; rfl)
        | some inode => exact .inr ⟨inode, rfl, by rw [hread, hinode]; rfl⟩
      · exact .inl hread
    rcases hcases with hread | ⟨inode, hinode, hread⟩
    · have herror : orFs .ioError (readInode p fs ino.toNat) d = .error (.err .ioError) d := by
        rw [orFs, mapErr, hread]
      exact ⟨_, bind_of_error herror _⟩
    · have hok : orFs .ioError (readInode p fs ino.toNat) d = .ok inode d := mapErr_of_ok hread _
      rw [bind_of_ok hok]
      split
      · exact ⟨_, rfl⟩
      -- the first round fails
      have hresolve : resolveBlock p fs inode (offset.toNat / fs.blockSize) d =
          .error (.err ()) d := by
        refine Reads.of_none ?_
        rw [← hl.blockOf_eq_none (fs.view d) (hroot inode hinode) hpast]
        exact hl.resolveBlock_reads inode hblock d
      have hround : blockFor p fs inode (offset.toNat / fs.blockSize) d = .error (.err ()) d :=
        bind_of_error hresolve _
      have hdata' : writeInodeData p fs inode ino.toNat offset.toNat data d =
          .error (.err ()) d := by
        obtain ⟨b, rest, rfl⟩ := exists_cons_of_ne_nil hdata
        unfold writeInodeData
        rw [p.fit_of_lt hend]
        refine (bind_of_ok rfl _).trans (bind_of_error ?_ _)
        rw [length_cons]
        unfold writeDataFrom
        rw [if_neg hdata, bind_of_ok (divide_eq hl.blockSize_ne_zero d), mod_eq_of_lt hblock]
        exact bind_of_error hround _
      have herror : orFs .ioError (writeInodeData p fs inode ino.toNat offset.toNat data) d =
          .error (.err .ioError) d := by
        rw [orFs, mapErr, hdata']
      exact ⟨_, bind_of_error herror _⟩
  · have herror : inodeNumOf ino d = .error (.err .badFileDescriptor) d := by
      rw [inodeNumOf, if_neg hnum]
      rfl
    exact ⟨_, bind_of_error herror _⟩

theorem Clean.fileStep (hl : fs.Layout M) (h : fs.Clean M (fs.view d))
    (hstep : fileStep p fs d c = some (r, d')) (hfits : fs.Fits (fs.view d) c)
    (hok : ¬ fs.Passes c → r.Succeeded) :
    fs.Clean M (fs.view d') ∧ fs.fileAt (fs.view d') = storeStep (fs.fileAt (fs.view d)) c r := by
  cases c with
  | create parent name =>
    rcases replyOf_eq hstep with ⟨ino, hrun, rfl⟩ | ⟨e, -, rfl⟩
    · exact h.create_gives hl hfits ino d' hrun
    · exact (hok id).elim
  | write ino offset data =>
    obtain ⟨hlive, hrange⟩ := hfits
    by_cases hpasses : fs.Passes (.write ino offset data)
    · obtain ⟨hdata, hlt⟩ := hpasses
      obtain ⟨hpast, hblock, hend, hroot⟩ := (hrange.resolve_left hdata).resolve_left (by omega)
      obtain ⟨e, herror⟩ := hl.write_beyond (p := p) hdata hpast hblock hend hroot
      rcases replyOf_eq hstep with ⟨k, hrun, -⟩ | ⟨e', hrun, rfl⟩
      · rw [herror] at hrun
        cases hrun
      · rw [herror] at hrun
        cases hrun
        exact ⟨h, rfl⟩
    · rcases replyOf_eq hstep with ⟨k, hrun, rfl⟩ | ⟨e, -, rfl⟩
      · refine (h.write_gives hl hlive ?_ k d' hrun).2
        by_cases hdata : data = []
        · exact .inl hdata
        · exact .inr (Nat.le_of_not_lt fun hlt => hpasses ⟨hdata, hlt⟩)
      · exact (hok hpasses).elim

/-- On a consistent image whose free blocks and file ends hold zeros, in every run of
    calls that fit: a write past the largest size fails, and, when the other calls
    succeed, what reading gives is what the store of byte strings says, and reading
    succeeds if an entry of the cache is not dirty. -/
theorem reads_of_run {p : Profile} {M : Set Nat} {d₀ d : Disk} (hl : fs.Layout M)
    (hc : fs.Consistent M (fs.view d₀))
    (hzero : fs.ZeroFree M (fs.view d₀)) (htails : fs.ZeroTails (fs.view d₀))
    {tr : List (Transition Disk FileCall FileReply)} (hrun : Run (fileStep p fs) d₀ tr d)
    (hfits : ∀ e ∈ tr, fs.Fits (fs.view e.pre) e.op) :
    (∀ ino offset data, fs.Passes (.write ino offset data) →
      fs.Fits (fs.view d) (.write ino offset data) →
      ∃ e, fileStep p fs d (.write ino offset data) = some (.err e, d)) ∧
    ((∀ e ∈ tr, ¬ fs.Passes e.op → e.res.Succeeded) →
      fs.fileAt (fs.view d) = replay (fs.fileAt (fs.view d₀)) tr ∧
      ∀ ino offset len content, replay (fs.fileAt (fs.view d₀)) tr ino.toNat = some content →
        (∀ out d', read p fs ino offset len d = .ok out d' →
          out = window content offset.toNat len ∧ d' = d) ∧
        (0 < d.room → read p fs ino offset len d = .ok (window content offset.toNat len) d)) := by
  constructor
  · rintro ino offset data ⟨hdata, hlt⟩ ⟨-, hrange⟩
    obtain ⟨hpast, hblock, hend, hroot⟩ := (hrange.resolve_left hdata).resolve_left (by omega)
    obtain ⟨e, herror⟩ := hl.write_beyond hdata hpast hblock hend hroot
    exact ⟨e, by rw [Ext2Fs.fileStep, replyOf, herror]⟩
  · intro hok
    have hinv : fs.Clean M (fs.view d) ∧
        fs.fileAt (fs.view d) = replay (fs.fileAt (fs.view d₀)) tr := by
      apply Run.invariant_of_guard
        (G := fun _ e => fs.Fits (fs.view e.pre) e.op ∧ (¬ fs.Passes e.op → e.res.Succeeded))
        ?_ ?_ hrun (Run.guard_of_forall_mem fun e he => ⟨hfits e he, hok e he⟩)
      · exact ⟨⟨hc.sound, hzero, hc.small, htails⟩, rfl⟩
      · rintro tr d c r d' ⟨hclean, hfiles⟩ hstep ⟨hfit, hsucc⟩
        obtain ⟨hclean', hfiles'⟩ := hclean.fileStep hl hstep hfit hsucc
        refine ⟨hclean', ?_⟩
        rw [hfiles', hfiles, replay, replay, foldl_append]
        rfl
    refine ⟨hinv.2, fun ino offset len content hcontent => ?_⟩
    rw [← hinv.2] at hcontent
    have hcases : read p fs ino offset len d = _ ∨ _ := hinv.1.read_eq hl hcontent
    rcases hcases with hread | ⟨hroom, hread⟩
    · refine ⟨fun out d' hout => ?_, fun _ => hread⟩
      cases hread.symm.trans hout
      exact ⟨rfl, rfl⟩
    · refine ⟨fun out d' hout => ?_, fun hpos => absurd hroom (Nat.ne_of_gt hpos)⟩
      cases hread.symm.trans hout

theorem exists_served_run (p : Profile) (fs : Ext2Fs) (d₀ : Disk) (cs : List FileCall)
    (f : List (Transition Disk FileCall FileReply) → Disk → α)
    (h : (exec (fileStep p fs) d₀ cs).map (fun x => (x.1.all fun e =>
      decide (fs.Fits (fs.view e.pre) e.op) && decide e.res.Succeeded, f x.1 x.2)) = some (true, a)) :
    ∃ tr d, Run (fileStep p fs) d₀ tr d ∧ (∀ e ∈ tr, fs.Fits (fs.view e.pre) e.op) ∧
      (∀ e ∈ tr, e.res.Succeeded) ∧ f tr d = a := by
  obtain ⟨tr, d, hrun, heq⟩ := run_of_exec h
  obtain ⟨hall, hval⟩ := Prod.mk.inj heq
  have hboth : ∀ e ∈ tr, fs.Fits (fs.view e.pre) e.op ∧ e.res.Succeeded := by
    intro e he
    have he' := all_eq_true.mp hall e he
    rwa [Bool.and_eq_true, decide_eq_true_eq, decide_eq_true_eq] at he'
  exact ⟨tr, d, hrun, fun e he => (hboth e he).1, fun e he => (hboth e he).2, hval⟩

theorem zeroTails_sampleDisk : smallFs.ZeroTails (smallFs.view (sampleDisk [])) := by
  intro n inode hn hreg pos _
  refine byteOf_of_none ?_
  cases hnode : smallFs.nodeAt _ (smallFs.view (sampleDisk []))
      (smallFs.pathOf n (pos / smallFs.blockSize)) with
  | none => rfl
  | some x =>
    -- the only block is that of the root, which is not a file
    obtain ⟨b, rfl⟩ := node_pathOf hnode
    have hpath := (node_sampleDisk hnode).2
    exact absurd (cons.inj hpath).1 ((owners_sampleDisk [] hn).2 hreg).2

/-- A file is created and two bytes of it are written past its end: reading gives zeros
    and these bytes. -/
theorem reads_new_file :
    ∃ tr d, Run (fileStep .release smallFs) (sampleDisk []) tr d ∧ tr.length = 2 ∧
      read .release smallFs 4 3 4 d = .ok [0, 0, 1, 2] d := by
  obtain ⟨tr, d, hrun, hfits, hok, hval⟩ := exists_served_run .release smallFs (sampleDisk [])
    [.create 2 [0x62], .write 4 5 [1, 2]]
    (fun tr d => (tr.length, decide (0 < d.room),
      replay (smallFs.fileAt (smallFs.view (sampleDisk []))) tr 4))
    (a := (2, true, some [0, 0, 0, 0, 0, 1, 2])) (by decide +kernel)
  obtain ⟨hlen, hval⟩ := Prod.mk.inj hval
  obtain ⟨hroom, hcontent⟩ := Prod.mk.inj hval
  obtain ⟨-, hread⟩ := (reads_of_run layout_smallFs (consistent_sampleDisk (by decide))
    zeroFree_sampleDisk zeroTails_sampleDisk hrun hfits).2 fun e he _ => hok e he
  exact ⟨tr, d, hrun, hlen, (hread 4 3 4 _ hcontent).2 (of_decide_eq_true hroom)⟩

/-- A write of one byte at offset 1 takes a block that holds what was left over in it,
    and the byte before the write is read from there. -/
theorem read_gives_stale_byte :
    smallFs.Layout sampleMeta ∧
    smallFs.Consistent sampleMeta (smallFs.view (sampleDisk [0x55])) ∧
    ∃ tr d, Run (fileStep .release smallFs) (sampleDisk [0x55]) tr d ∧
      (∀ e ∈ tr, ¬ smallFs.Passes e.op ∧ e.res.Succeeded) ∧
      replay (smallFs.fileAt (smallFs.view (sampleDisk [0x55]))) tr 3 = some [0, 0x41] ∧
      ∃ d', read .release smallFs 3 0 2 d = .ok [0x55, 0x41] d' := by
  refine ⟨layout_smallFs, consistent_sampleDisk (by decide), ?_⟩
  obtain ⟨tr, d, hrun, -, hok, hval⟩ := exists_served_run .release smallFs (sampleDisk [0x55])
    [.write 3 1 [0x41]]
    (fun tr d => (tr.all fun e => decide (¬ smallFs.Passes e.op),
      replay (smallFs.fileAt (smallFs.view (sampleDisk [0x55]))) tr 3,
      Comp.answer (read .release smallFs 3 0 2) d))
    (a := (true, some [0, 0x41], some [0x55, 0x41])) (by decide +kernel)
  obtain ⟨hwithin, hval⟩ := Prod.mk.inj hval
  obtain ⟨hcontent, hread⟩ := Prod.mk.inj hval
  refine ⟨tr, d, hrun, fun e he => ⟨?_, hok e he⟩, hcontent, Comp.exists_ok_of_answer hread⟩
  exact of_decide_eq_true (all_eq_true.mp hwithin e he)

/-- Successful calls never damage a clean volume: no block comes to be in two places of the
    trees of the inodes, in use but not marked, or both metadata and part of a file. -/
theorem clean_of_run {p : Profile} {M : Set Nat} {d₀ d : Disk}
    {tr : List (Transition Disk FileCall FileReply)} (hl : fs.Layout M)
    (hclean : fs.Clean M (fs.view d₀)) (hrun : Run (fileStep p fs) d₀ tr d)
    (hcalls : ∀ e ∈ tr, fs.Fits (fs.view e.pre) e.op ∧ (¬ fs.Passes e.op → e.res.Succeeded)) : fs.Clean M (fs.view d) := by
  refine Run.invariant_of_guard (I := fun _ d => fs.Clean M (fs.view d)) hclean ?_ hrun
    (Run.guard_of_forall_mem hcalls)
  rintro _ _ _ _ _ hbefore hstep ⟨hfits, hok⟩
  exact (hbefore.fileStep hl hstep hfits hok).1

theorem clean_new_file : ∃ tr d, Run (fileStep .release smallFs) (sampleDisk []) tr d ∧
    tr.length = 2 ∧ smallFs.Clean sampleMeta (smallFs.view d) := by
  obtain ⟨tr, d, hrun, hfits, hok, hlen⟩ := exists_served_run .release smallFs (sampleDisk [])
    [.create 2 [0x62], .write 4 5 [1, 2]] (fun tr _ => tr.length) (a := 2) (by decide +kernel)
  have hc := consistent_sampleDisk (by decide : ([] : List Byte).length ≤ 512)
  exact ⟨tr, d, hrun, hlen, clean_of_run layout_smallFs ⟨hc.sound, zeroFree_sampleDisk, hc.small,
    zeroTails_sampleDisk⟩ hrun fun e he => ⟨hfits e he, fun _ => hok e he⟩⟩

end OpenOS.Fs.Ext2.Ext2Fs
