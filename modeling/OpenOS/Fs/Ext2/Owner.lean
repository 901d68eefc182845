/-
  The inodes that own blocks, as the device says: those that are marked as used
  and are files, directories or symlinks whose target is not kept inline.  What
  `create` and `mkdir` begin with adds one that owns nothing yet.
-/

import OpenOS.Fs.Ext2.Effect

namespace OpenOS.Fs.Ext2

open Function Base Base.Comp Option List BitVec Bool RadixTree Ext2Fs

namespace Inode

/-- `readlink` takes the target from the place of the pointers. -/
def isInline (inode : Inode) : Bool :=
  inode.isSymlink && inode.size ≤ fastSymlinkMax && inode.blocks = 0

/-- The pointers of the inode are block numbers. -/
def ownsBlocks (inode : Inode) : Bool :=
  inode.isReg || inode.isDir || (inode.isSymlink && !inode.isInline)

end Inode

namespace Ext2Fs

variable {fs : Ext2Fs}

/-- The inodes that own blocks. -/
def owners (fs : Ext2Fs) (v : View) : Owners := fun n =>
  if fs.inodeUsed v n then (fs.inodeAt v n).filter Inode.ownsBlocks else none

variable {inode inode' : Inode}

theorem owners_eq_some : fs.owners v n = some inode ↔
      fs.inodeUsed v n = true ∧ fs.inodeAt v n = some inode ∧ inode.ownsBlocks = true := by
  unfold owners
  split
  · rename_i hused
    rw [filter_eq_some_iff]
    exact ⟨fun h => ⟨hused, h⟩, fun h => h.2⟩
  · rename_i hused
    exact ⟨nofun, fun h => absurd h.1 hused⟩

theorem owners_congr (hused : fs.inodeUsed v' n = fs.inodeUsed v n)
    (hinode : fs.inodeAt v' n = fs.inodeAt v n) : fs.owners v' n = fs.owners v n := by
  unfold owners
  rw [hused, hinode]

theorem Layout.num_of_inodeAt (hl : fs.Layout M)
    (h : fs.inodeAt v n = some inode) : n ≠ 0 ∧ n ≤ fs.inodeCount := by
  obtain ⟨b, off, data, hplace, -, -⟩ := inodeAt_eq_some h
  refine ⟨(hl.place_spec hplace).1, ?_⟩
  by_contra hlt
  rw [place_lt hl (Nat.lt_of_not_le hlt)] at hplace
  cases hplace

theorem Changed.owners_eq
    (h : fs.Changed M n (fs.owners v) v (update (fs.owners v) n (some inode')) v')
    (hused : fs.inodeUsed v n = true) (hinode : fs.inodeAt v' n = some inode')
    (howns : inode'.ownsBlocks = true) : fs.owners v' = update (fs.owners v) n (some inode') := by
  funext m
  by_cases hm : m = n
  · rw [hm, update_self, owners_eq_some, h.inodeUsed]
    exact ⟨hused, hinode, howns⟩
  · rw [update_of_ne hm, owners_congr (by rw [h.inodeUsed]) (h.inodes m hm)]

/-! ## A new inode -/

/-- Inode `n` was not in use and is `inode` now; no block for data has changed. -/
structure NewInode (fs : Ext2Fs) (M : Set Nat) (v : View) (n : Nat) (inode : Inode) (v' : View) :
    Prop where
  unused : fs.inodeUsed v n = false
  used : fs.inodeUsed v' = update (fs.inodeUsed v) n true
  inodes : fs.inodeAt v' = update (fs.inodeAt v) n (some inode)
  blocks : fs.blockUsed v' = fs.blockUsed v
  covers : fs.Covers v'
  same : ∀ x, x ∉ M → v' x = v x

theorem MarksInode.newInode (hl : fs.Layout M) (hunused : fs.inodeUsed v n = false)
    (h₁ : fs.MarksInode v n true v₁) (h₂ : fs.SetsInode v₁ n inode v') :
    fs.NewInode M v n inode v' where
  unused := hunused
  used := by rw [h₂.inodeUsed_eq hl, h₁.used]
  inodes := by rw [h₂.inodes, h₁.inodeAt_eq hl]
  blocks := by rw [h₂.blockUsed_eq hl, h₁.blockUsed_eq hl]
  covers := h₂.covers
  same x hx := by rw [h₂.eq_off hl hx, h₁.eq_off hl hx]

theorem NewInode.owner_none (h : fs.NewInode M v n inode v') : fs.owners v n = none := by
  rw [owners, h.unused]
  rfl

theorem NewInode.owners_of_ne (h : fs.NewInode M v n inode v') (hm : m ≠ n) :
    fs.owners v' m = fs.owners v m := by
  refine owners_congr ?_ ?_
  · rw [h.used, update_of_ne hm]
  · rw [h.inodes, update_of_ne hm]

theorem Sound.nodeAt_newOwner (h : fs.Sound M I v) (hn : I n = none)
    (hblock : ∀ i, inode.block i = 0) (hv : ∀ x, x ∉ M → v' x = v x) :
    fs.nodeAt (update I n (some inode)) v' = update (fs.nodeAt I v) [n] (some (.inode n)) := by
  refine h.nodeAt_eq_update nodeAt_nil ?_ ?_ ?_ ?_
  · intro j
    rw [nodeAt_concat, nil_append, ← nil_append [n], nodeAt_concat, nodeAt_nil, bind_some]
    simp only [links, hn]
    rfl
  · intro j
    simp only [links]
    by_cases hj : j = n
    · rw [if_pos hj, hj, update_self]
      rfl
    · rw [if_neg hj, update_of_ne hj]
  · intro ρ x hρ hx
    funext j
    rcases x with - | m | ⟨b, - | k⟩
    · exact absurd rfl hx
    · have hm : m ≠ n := by
        rintro rfl
        rw [(path_of_nodeAt hρ).2 m rfl, ← nil_append [m], nodeAt_concat, nodeAt_nil,
          bind_some] at hρ
        simp only [links, hn] at hρ
        cases hρ
      simp [links, update_of_ne hm]
    · rfl
    · simp [links, pointer, hv b (h.owned ρ b _ hρ).1]
  · rintro x ⟨⟩ j
    simp only [links, update_self, bind_some]
    split
    · rw [hblock, child_zero]
    · rfl

theorem NewInode.sound (h : fs.NewInode M v n inode v') (hs : fs.Sound M I v) (hn : I n = none)
    (hblock : ∀ i, inode.block i = 0) : fs.Sound M (update I n (some inode)) v' := by
  have hnode := hs.nodeAt_newOwner hn hblock h.same
  have hsame : ∀ π b k, fs.nodeAt (update I n (some inode)) v' π = some (.block b k) →
      fs.nodeAt I v π = some (.block b k) := by
    intro π b k hπ
    rw [hnode, update_apply] at hπ
    split at hπ
    · cases hπ
    · exact hπ
  constructor
  case covers => exact h.covers
  case reserved =>
    rw [h.blocks]
    exact hs.reserved
  case owned =>
    intro π b k hπ
    rw [h.blocks]
    exact hs.owned π b k (hsame π b k hπ)
  case once =>
    intro π ρ b k k' hπ hρ
    exact hs.once π ρ b k k' (hsame π b k hπ) (hsame ρ b k' hρ)

/-! ## Calls -/

/-- What comes after reading in a call, if the reading succeeds. -/
theorem Reads.gives_orFs_bind (hx : Reads x d o) (hf : ∀ a, o = some a → Gives (f a) d R) :
    Gives (orFs e x >>= f) d R :=
  hx.gives.mapErr.bind fun a _ ⟨ha, hd⟩ => hd ▸ hf a ha

theorem ok_of_orFs (h : orFs e x d = .ok a d') : x d = .ok a d' :=
  Gives.mapErr (fun _ _ h => h) a d' h

/-- What `create` and `mkdir` begin with. -/
theorem Layout.newEntry_gives (hl : fs.Layout M) (hv : fs.Covers (fs.view d)) :
    Gives (newEntry p fs parentIno name notDir) d fun r d' =>
      (name ≠ [] ∧ name.length ≤ 255) ∧ r.1 = parentIno.toNat ∧
      fs.inodeAt (fs.view d) r.1 = some r.2.1 ∧ r.2.1.isDir = true ∧
      findEntry p fs r.2.1 name d = .ok none d ∧
      r.2.2 ≠ 0 ∧ r.2.2 ≤ fs.inodeCount ∧ fs.inodeUsed (fs.view d) r.2.2 = false ∧
      fs.MarksInode (fs.view d) r.2.2 true (fs.view d') := by
  unfold newEntry
  split
  · exact .throw
  rename_i hname
  obtain ⟨hnil, hlen⟩ := not_or.mp hname
  refine gives_inodeNumOf_bind ?_
  refine (hl.readInode_reads _ d).gives_orFs_bind fun parentInode hparent => ?_
  split
  · exact .throw
  rename_i hdir
  refine (hl.still_findEntry parentInode name).mapErr.gives_bind fun found hfound => ?_
  split
  · exact .throw
  rename_i hnone
  obtain rfl : found = none := by
    cases found with
    | none => rfl
    | some n => exact absurd rfl hnone
  refine Gives.bind (hl.allocInode_gives hv).mapErr fun o d' ho => ?_
  refine .bind_orErr fun n hn => .pure ?_
  obtain ⟨hn0, hend, hunused, hmarks⟩ := ho n hn
  refine ⟨⟨hnil, Nat.le_of_not_lt hlen⟩, rfl, hparent, ?_, ok_of_orFs hfound, hn0, hend,
    hunused, hmarks⟩
  cases hd : parentInode.isDir with
  | true => rfl
  | false =>
    rw [hd] at hdir
    exact absurd rfl hdir

/-- The inode `create` makes. -/
def emptyFile : Inode := .new (sIfReg ||| 0o644) 0 1 0 fun _ => 0

theorem Sound.create_gives (hl : fs.Layout M) (h : fs.Sound M (fs.owners (fs.view d)) (fs.view d))
    (hlive : fs.inodeUsed (fs.view d) parentIno.toNat = true) :
    Gives (create p fs parentIno name) d fun r d' => ∃ n parentInode d₁,
      r = BitVec.ofNat 64 n ∧ n ≠ 0 ∧ n ≤ fs.inodeCount ∧ n ≠ parentIno.toNat ∧
      (name ≠ [] ∧ name.length ≤ 255) ∧ findEntry p fs parentInode name d = .ok none d ∧
      fs.owners (fs.view d) parentIno.toNat = some parentInode ∧ parentInode.isDir = true ∧
      fs.NewInode M (fs.view d) n emptyFile (fs.view d₁) ∧
      addDirEntry p fs parentInode parentIno.toNat (BitVec.ofNat 32 n) name ftRegFile d₁ =
        .ok () d' := by
  refine (hl.newEntry_gives h.covers).bind ?_
  rintro ⟨parentNum, parentInode, n⟩ d₁ ⟨hname, rfl, hparent, hdir, hfind, hn0, hend, hunused, hmarks⟩
  refine (hl.writeInode_gives hmarks.covers hn0 hend emptyFile).mapErr.bind fun _ d₂ hsets => ?_
  intro r d' hr
  obtain ⟨_, d₃, hadd, hpure⟩ := bind_eq_ok hr
  cases hpure
  refine ⟨n, parentInode, d₂, rfl, hn0, hend, ?_, hname, hfind, ?_, hdir,
    hmarks.newInode hl hunused hsets, ok_of_orFs hadd⟩
  · rintro rfl
    rw [hunused] at hlive
    cases hlive
  · rw [owners_eq_some]
    refine ⟨hlive, hparent, ?_⟩
    rw [Inode.ownsBlocks, hdir, Bool.or_true, Bool.true_or]

/-! ## Writing data -/

theorem grown_mode (inode : Inode) (n : Nat) : (grown inode n).mode = inode.mode := by
  unfold grown
  split <;> rfl

theorem grown_block (inode : Inode) (n : Nat) : (grown inode n).block = inode.block := by
  unfold grown
  split <;> rfl

theorem isReg_congr (h : inode'.mode = inode.mode) : inode'.isReg = inode.isReg := by
  rw [Inode.isReg, Inode.isReg, h]

theorem isDir_congr (h : inode'.mode = inode.mode) : inode'.isDir = inode.isDir := by
  rw [Inode.isDir, Inode.isDir, h]

theorem grown_size (hdir : inode.isDir = false) (hn : n < 2 ^ 64) :
    (grown inode n).size = max inode.size n := by
  have hdir' : (grown inode n).isDir = false := (isDir_congr (grown_mode inode n)).trans hdir
  rw [Inode.size, hdir', if_neg (by decide)]
  unfold grown
  by_cases hlt : inode.size < n
  · rw [if_pos hlt]
    rw [toNat_ofNat, toNat_ofNat]
    omega
  · rw [if_neg hlt]
    rw [Nat.max_eq_left (Nat.le_of_not_lt hlt), Inode.size, hdir, if_neg (by decide)]

/-- `write_inode_data`, for a range that the trees can hold. -/
theorem Sound.writeInodeData_gives (hl : fs.Layout M) (h : fs.Sound M I (fs.view d))
    (hn : I n = some inode) (hn0 : n ≠ 0) (hend : n ≤ fs.inodeCount) (hdata : data ≠ [])
    (hmax : offset + data.length ≤ fs.maxBlocks * fs.blockSize) :
    Gives (writeInodeData p fs inode n offset data) d fun r d' =>
      r.2 = data.length ∧
      (∃ f, r.1 = grown { inode with block := f } (offset + data.length)) ∧
      fs.inodeAt (fs.view d') n = some r.1 ∧
      fs.Extended M n I (fs.view d) (update I n (some r.1)) (fs.view d') ∧
      (fs.ZeroFree M (fs.view d) → fs.byteOf (update I n (some r.1)) (fs.view d') =
        written data n offset (fs.byteOf I (fs.view d))) := by
  unfold writeInodeData
  rw [if_neg hdata, p.fit_of_lt (lt_of_le_of_lt hmax hl.maxSize_lt)]
  refine .bind_of_ok rfl ((h.writeDataFrom_gives hl hn (Nat.le_refl _) hmax).bind ?_)
  intro inode₁ d₁ hwrote
  obtain ⟨f, rfl⟩ := hwrote.fields
  refine (hl.writeInode_gives hwrote.wrote.sound.covers hn0 hend
    (grown { inode with block := f } (offset + data.length))).bind fun _ d₂ hsets =>
    .pure ⟨rfl, ⟨f, rfl⟩, by rw [hsets.inodes, update_self], ?_⟩
  have hextended := hsets.extended hl hwrote.wrote.sound (update_self ..)
    (grown_block { inode with block := f } (offset + data.length))
  rw [update_idem] at hextended
  refine ⟨hwrote.wrote.trans hextended, fun hz => ?_⟩
  rw [← hwrote.bytes hz]
  -- writing the inode changes no data
  have hnode : fs.nodeAt (update I n
      (some (grown { inode with block := f } (offset + data.length)))) (fs.view d₂) =
      fs.nodeAt (update I n (some { inode with block := f })) (fs.view d₁) := by
    rw [← (hsets.sound hl hwrote.wrote.sound).2]
    refine nodeAt_eq_of_block (fun m => ?_) _
    by_cases hm : m = n
    · rw [hm, update_self, update_self, map_some, map_some, grown_block]
    · rw [update_of_ne hm, update_of_ne hm]
  funext m pos
  unfold byteOf
  rw [hnode]
  split
  · rename_i b k hb
    rw [hsets.eq_off hl (hwrote.wrote.sound.owned _ b k hb).1]
  · rfl

/-! ## Consistent volumes -/

/-- The block bitmap marks the blocks in use, each of them belongs to one place, and no
    file is larger than the trees can hold. -/
structure Consistent (fs : Ext2Fs) (M : Set Nat) (v : View) : Prop where
  sound : fs.Sound M (fs.owners v) v
  tight : ∀ b, fs.blockUsed v b = true →
    b ∈ M ∨ ∃ π k, fs.nodeAt (fs.owners v) v π = some (.block b k)
  small : ∀ n inode, fs.owners v n = some inode → inode.isReg = true →
    inode.size ≤ fs.maxBlocks * fs.blockSize

/-- Where inodes have direct blocks only, those are the blocks of the trees. -/
theorem node_of_direct
    (h : ∀ n inode, I n = some inode → ∀ i : Fin 15, 12 ≤ i.val → inode.block i = 0)
    (hπ : fs.nodeAt I v π = some (.block b k)) :
    ∃ n inode, ∃ r : Fin 15, I n = some inode ∧ π = [n, r.val] ∧ inode.block r ≠ 0 ∧
      b = (inode.block r).toNat ∧ k = 0 := by
  match π with
  | [] => cases hπ
  | [n] =>
    rw [← nil_append [n], nodeAt_concat, nodeAt_nil, bind_some] at hπ
    obtain ⟨inode, -, hnode⟩ := map_eq_some_iff.mp hπ
    cases hnode
  | n :: r :: is =>
    cases hn : I n with
    | none =>
      unfold nodeAt at hπ
      rw [walk_cons] at hπ
      simp only [links, hn] at hπ
      cases hπ
    | some inode =>
      by_cases hr : r < 15
      · rw [nodeAt_cons_cons hn ⟨r, hr⟩] at hπ
        obtain ⟨x, hx, hrest⟩ := bind_eq_some_iff.mp hπ
        obtain ⟨hne, rfl⟩ := eq_of_child hx
        have hheight : heightOf r = 0 := by
          refine Nat.sub_eq_zero_of_le (Nat.le_of_not_lt fun hlt => hne ?_)
          exact h n inode hn ⟨r, hr⟩ hlt
        obtain ⟨hlen, c, hc⟩ := walk_block hrest
        rw [hheight] at hlen hc
        obtain rfl := length_eq_zero_iff.mp (Nat.le_zero.mp hlen)
        cases hrest
        exact ⟨n, inode, ⟨r, hr⟩, hn, rfl, hne, rfl, hheight⟩
      · unfold nodeAt at hπ
        rw [walk_cons] at hπ
        simp only [links, hn, map_some, bind_some] at hπ
        rw [walk_cons] at hπ
        simp only [links, hn, dif_neg hr] at hπ
        cases hπ

end Ext2Fs

/-! ## The small volume -/

/-- The blocks of the small volume, with the end of the block bitmap marked and something
    left over in a block that is not in use. -/
def sampleBlocks (stale : List Byte) (b : Nat) : List Byte :=
  if b = 3 then [0x3F, 0, 0, 0, 0, 0, 0, 0x80] else if b = 7 then stale else smallBlocks b

def sampleDisk (stale : List Byte) : Disk := smallDisk (sampleBlocks stale)

/-- Its blocks that are not for data. -/
def sampleMeta : Set Nat := {b | b < 6 ∨ 64 ≤ b}

theorem metaAt_smallFs (h : smallFs.metaAt r = some b) :
    (r = .blockBitmap 0 ∧ b = 3) ∨ (r = .inodeBitmap 0 ∧ b = 4) ∨ (r = .inodeTable 0 0 ∧ b = 5) := by
  have hgroup : ∀ g desc, smallFs.groupDescriptors[g]? = some desc →
      g = 0 ∧ desc = ⟨3, 4, 5, 50, 5⟩ := by
    intro g desc hg
    match g with
    | 0 =>
      cases hg
      exact ⟨rfl, rfl⟩
    | g + 1 => cases hg
  cases r with
  | blockBitmap g =>
    obtain ⟨desc, hg, rfl⟩ := map_eq_some_iff.mp h
    obtain ⟨rfl, rfl⟩ := hgroup g desc hg
    exact .inl ⟨rfl, rfl⟩
  | inodeBitmap g =>
    obtain ⟨desc, hg, rfl⟩ := map_eq_some_iff.mp h
    obtain ⟨rfl, rfl⟩ := hgroup g desc hg
    exact .inr (.inl ⟨rfl, rfl⟩)
  | inodeTable g k =>
    simp only [metaAt] at h
    split at h
    · rename_i hk
      obtain ⟨desc, hg, rfl⟩ := map_eq_some_iff.mp h
      obtain ⟨rfl, rfl⟩ := hgroup g desc hg
      have hk0 : k = 0 := by
        change k * 1024 < 8 * 128 at hk
        omega
      subst hk0
      exact .inr (.inr ⟨rfl, rfl⟩)
    · cases h

theorem layout_smallFs : smallFs.Layout sampleMeta where
  blockSize := .inl rfl
  blocksPerGroup := by decide
  inodesPerGroup := by decide
  firstDataBlock := by decide
  inodeTables := by decide
  blockBits := by decide
  inodeBits := by decide
  blocksCount := by decide
  blockEnd := by decide
  inodeEnd := by decide
  inodeBytes_dvd := by decide
  metadata_lt r b h := by
    rcases metaAt_smallFs h with ⟨-, rfl⟩ | ⟨-, rfl⟩ | ⟨-, rfl⟩ <;> decide
  metadata_mem r b h := by
    rcases metaAt_smallFs h with ⟨-, rfl⟩ | ⟨-, rfl⟩ | ⟨-, rfl⟩ <;> exact .inl (by decide)
  metadata_inj r r' b h h' := by
    rcases metaAt_smallFs h with ⟨rfl, rfl⟩ | ⟨rfl, rfl⟩ | ⟨rfl, rfl⟩ <;>
      rcases metaAt_smallFs h' with ⟨rfl, hb⟩ | ⟨rfl, hb⟩ | ⟨rfl, hb⟩ <;>
      first | rfl | cases hb
  before b h := by
    refine .inl ?_
    rcases h with hlt | rfl
    · exact Nat.lt_of_lt_of_le hlt (by decide)
    · decide
  after b h := .inr h

theorem view_sampleDisk (stale : List Byte) (hb : b ≠ 7) :
    smallFs.view (sampleDisk stale) b = smallFs.view (sampleDisk []) b := by
  refine gather_congr fun lba hle hlt => ?_
  have hblock : sampleBlocks stale (lba / 2) = sampleBlocks [] (lba / 2) := by
    change b * 2 ≤ lba at hle
    change lba < b * 2 + 2 at hlt
    unfold sampleBlocks
    rw [if_neg (show ¬ lba / 2 = 7 by omega), if_neg (show ¬ lba / 2 = 7 by omega)]
  unfold sampleDisk smallDisk
  dsimp only
  rw [hblock]

theorem inodes_sampleDisk (stale : List Byte) :
    smallFs.inodeAt (smallFs.view (sampleDisk stale)) = smallFs.inodeAt (smallFs.view (sampleDisk [])) ∧
      smallFs.inodeUsed (smallFs.view (sampleDisk stale)) =
        smallFs.inodeUsed (smallFs.view (sampleDisk [])) := by
  refine layout_smallFs.inodes_eq_of_fixed _ _ fun x hx _ => view_sampleDisk stale ?_
  rintro rfl
  rcases hx with hlt | hle
  · exact absurd hlt (by decide)
  · exact absurd hle (by decide)

theorem owners_sampleDisk (stale : List Byte)
    (h : smallFs.owners (smallFs.view (sampleDisk stale)) n = some inode) :
    (∀ i, inode.block i = if n = 2 ∧ i = 0 then 6 else 0) ∧
    (inode.isReg = true → inode.size = 0 ∧ n ≠ 2) := by
  have hfacts : ∀ n < 9, (smallFs.owners (smallFs.view (sampleDisk [])) n).all (fun inode =>
      decide ((∀ i, inode.block i = if n = 2 ∧ i = 0 then 6 else 0) ∧
        (inode.isReg = true → inode.size = 0 ∧ n ≠ 2))) = true := by decide +kernel
  have hinode := (owners_eq_some.mp h).2.1
  have hn : n < 9 := Nat.lt_succ_of_le (layout_smallFs.num_of_inodeAt hinode).2
  obtain ⟨hinodes, hused⟩ := inodes_sampleDisk stale
  rw [owners_congr (congrFun hused n) (congrFun hinodes n)] at h
  have hall := hfacts n hn
  rwa [h, all_some, decide_eq_true_eq] at hall

theorem blockUsed_sampleDisk (stale : List Byte) (b : Nat) :
    smallFs.blockUsed (smallFs.view (sampleDisk stale)) b = decide ((1 ≤ b ∧ b ≤ 6) ∨ b = 64) := by
  have hfacts : ∀ b < 65, smallFs.blockUsed (smallFs.view (sampleDisk [])) b =
      decide ((1 ≤ b ∧ b ≤ 6) ∨ b = 64) := by decide +kernel
  have hsame : smallFs.blockUsed (smallFs.view (sampleDisk stale)) =
      smallFs.blockUsed (smallFs.view (sampleDisk [])) := by
    refine blockUsed_congr fun x hx => view_sampleDisk stale ?_
    rintro rfl
    exact absurd hx (by decide)
  rw [hsame]
  by_cases hb : b < 65
  · exact hfacts b hb
  have hnone : smallFs.blockRow.bit (smallFs.view (sampleDisk [])) (b - 1) = false := by
    unfold BitRow.bit
    have hmap : smallFs.blockRow.maps[(b - 1) / smallFs.blockRow.per]? = none := by
      refine List.getElem?_eq_none ?_
      change 1 ≤ (b - 1) / 64
      omega
    rw [hmap]
    rfl
  rw [blockUsed, show smallFs.superblock.firstDataBlock = 1 from rfl, hnone, Bool.and_false,
    eq_comm, decide_eq_false_iff_not]
  omega

theorem node_sampleDisk (h : smallFs.nodeAt (smallFs.owners (smallFs.view (sampleDisk stale)))
      (smallFs.view (sampleDisk stale)) π = some (.block b k)) : b = 6 ∧ π = [2, 0] := by
  have hdirect : ∀ n inode, smallFs.owners (smallFs.view (sampleDisk stale)) n = some inode →
      ∀ i : Fin 15, 12 ≤ i.val → inode.block i = 0 := by
    intro n inode hn i hi
    rw [(owners_sampleDisk stale hn).1 i]
    refine if_neg ?_
    rintro ⟨-, rfl⟩
    exact absurd hi (by decide)
  obtain ⟨n, inode, r, hn, rfl, hne, rfl, -⟩ := node_of_direct hdirect h
  rw [(owners_sampleDisk stale hn).1 r] at hne ⊢
  split at hne
  · rename_i hroot
    obtain ⟨rfl, rfl⟩ := hroot
    exact ⟨rfl, rfl⟩
  · exact absurd rfl hne

theorem consistent_sampleDisk (hstale : stale.length ≤ 512) :
    smallFs.Consistent sampleMeta (smallFs.view (sampleDisk stale)) where
  sound := {
    covers := by
      intro b hb
      have hlen : (sampleBlocks stale b).length ≤ 512 := by
        by_cases h7 : b = 7
        · subst h7
          exact hstale
        have hfacts : ∀ b < 64, b ≠ 7 → (sampleBlocks [] b).length ≤ 512 := by decide +kernel
        unfold sampleBlocks at hfacts ⊢
        have hother := hfacts b hb h7
        rw [if_neg h7] at hother ⊢
        exact hother
      refine ⟨_, view_smallDisk hb hlen, ?_⟩
      rw [length_append, length_zeros]
      exact Nat.add_sub_cancel' (Nat.le_trans hlen (by decide))
    reserved := by
      intro b hb hfirst hlt
      rw [blockUsed_sampleDisk, decide_eq_true_eq]
      change 1 ≤ b at hfirst
      change b < 65 at hlt
      rcases hb with hb | hb <;> omega
    owned := by
      intro π b k hπ
      obtain ⟨rfl, -⟩ := node_sampleDisk hπ
      rw [blockUsed_sampleDisk]
      refine ⟨?_, by decide⟩
      rintro (hlt | hle)
      · exact absurd hlt (by decide)
      · exact absurd hle (by decide)
    once := by
      intro π ρ b k k' hπ hρ
      rw [(node_sampleDisk hπ).2, (node_sampleDisk hρ).2] }
  tight b hb := by
    rw [blockUsed_sampleDisk, decide_eq_true_eq] at hb
    by_cases h6 : b = 6
    · subst h6
      refine .inr ⟨[2, 0], 0, ?_⟩
      have hroot : smallFs.owners (smallFs.view (sampleDisk stale)) 2 =
          smallFs.owners (smallFs.view (sampleDisk [])) 2 := by
        obtain ⟨hinodes, hused⟩ := inodes_sampleDisk stale
        exact owners_congr (congrFun hused 2) (congrFun hinodes 2)
      have hsome : (smallFs.owners (smallFs.view (sampleDisk [])) 2).isSome = true := by
        decide +kernel
      rw [← hroot] at hsome
      obtain ⟨inode, hinode⟩ := isSome_iff_exists.mp hsome
      refine (nodeAt_cons_cons hinode 0 []).trans ?_
      rw [(owners_sampleDisk stale hinode).1 0]
      rfl
    · left
      show b < 6 ∨ 64 ≤ b
      omega
  small n inode hn hreg := by
    rw [((owners_sampleDisk stale hn).2 hreg).1]
    exact Nat.zero_le _

theorem zeroFree_sampleDisk : smallFs.ZeroFree sampleMeta (smallFs.view (sampleDisk [])) := by
  intro b hb hfree
  rw [blockUsed_sampleDisk, decide_eq_false_iff_not] at hfree
  have hrange : ¬ (b < 6 ∨ 64 ≤ b) := hb
  have hempty : sampleBlocks [] b = [] := by
    have hfacts : ∀ b < 64, 6 < b → sampleBlocks [] b = [] := by decide +kernel
    exact hfacts b (by omega) (by omega)
  have hview := view_smallDisk (show b < 64 by omega)
    (show (sampleBlocks [] b).length ≤ 512 by rw [hempty]; decide)
  rwa [hempty] at hview

end OpenOS.Fs.Ext2
