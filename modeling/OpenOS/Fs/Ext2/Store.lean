/-
  The device as a store of blocks.

  After mounting, the file system reads and writes whole blocks: all it sees of
  the device is the `view` from block numbers to contents.  `read_block` returns
  what the view says and `write_block` changes it at one number, unless the block
  cache refuses.  The place of an inode is a function of its number and the
  geometry.
-/

import OpenOS.Fs.Ext2.Volume

namespace OpenOS.Fs.Ext2

open Function Base Base.Comp List Option Nat

/-! ## Blocks -/

/-- The content of `n` sectors from `lba` on. -/
def gather (sectors : Nat → Option Sector) (lba : Nat) : Nat → Option (List Byte)
  | 0 => some []
  | n + 1 => do
    let s ← sectors lba
    let rest ← gather sectors (lba + 1) n
    return s.val ++ rest

/-- The content of each block; `none` where it cannot be accessed. -/
def Ext2Fs.view (fs : Ext2Fs) (d : Disk) (b : Nat) : Option (List Byte) :=
  gather d.sectors (b * (fs.blockSize / sectorSize)) (fs.blockSize / sectorSize)

section Gather

variable {s s' : Nat → Option Sector} {lba start i n : Nat} {data buf : List Byte} {d : Disk}

theorem gather_succ (s : Nat → Option Sector) (lba n : Nat) : gather s lba (n + 1) =
    (s lba).bind fun x => (gather s (lba + 1) n).map fun rest => x.val ++ rest := by
  rw [gather]
  cases s lba with
  | none => rfl
  | some x =>
    cases gather s (lba + 1) n with
    | none => rfl
    | some rest => rfl

theorem length_gather (h : gather s lba n = some data) : data.length = n * sectorSize := by
  induction n generalizing lba data with
  | zero =>
    cases h
    rw [zero_mul, length_nil]
  | succ n ih =>
    rw [gather_succ] at h
    obtain ⟨x, -, h⟩ := bind_eq_some_iff.mp h
    obtain ⟨rest, hrest, rfl⟩ := map_eq_some_iff.mp h
    rw [length_append, x.2, ih hrest, succ_mul, add_comm]

theorem gather_congr (h : ∀ i, lba ≤ i → i < lba + n → s' i = s i) :
    gather s' lba n = gather s lba n := by
  induction n generalizing lba with
  | zero => rfl
  | succ n ih =>
    rw [gather_succ, gather_succ, h lba (le_refl _) (by omega)]
    rw [ih fun i hle hlt => h i (by omega) (by omega)]

/-- With sectors missing the content is the same, or is missing. -/
theorem gather_eq_or_none (h : ∀ i, s' i = s i ∨ s' i = none) (lba n : Nat) :
    gather s' lba n = gather s lba n ∨ gather s' lba n = none := by
  induction n generalizing lba with
  | zero => exact .inl rfl
  | succ n ih =>
    rw [gather_succ, gather_succ]
    rcases h lba with heq | hnone
    · rcases ih (lba + 1) with hrest | hrest
      · exact .inl (by rw [heq, hrest])
      · rw [hrest]
        exact .inr (by cases s' lba <;> rfl)
    · exact .inr (by rw [hnone]; rfl)

/-- The cache gives what there is, or refuses for want of an entry that is not dirty. -/
theorem gather_get (d : Disk) (lba n : Nat) : gather d.get lba n = gather d.sectors lba n ∨
    d.room = 0 ∧ gather d.get lba n = none := by
  by_cases hroom : d.room = 0
  · refine (gather_eq_or_none (fun i => ?_) lba n).imp_right fun hnone => ⟨hroom, hnone⟩
    unfold Disk.get
    split
    · exact .inl rfl
    · exact .inr rfl
  · exact .inl (gather_congr fun i _ _ => if_pos (.inr (Nat.pos_of_ne_zero hroom)))

theorem readSectors_eq (d : Disk) (start : Nat) (hlen : buf.length = (i + n) * sectorSize) :
    readSectors start n i buf d =
      match gather d.get (start + i) n with
      | none => .error (.err ()) d
      | some data => .ok (buf.take (i * sectorSize) ++ data) d := by
  induction n generalizing i buf with
  | zero =>
    rw [add_zero] at hlen
    show EStateM.Result.ok buf d = .ok (buf.take (i * sectorSize) ++ []) d
    rw [append_nil, ← hlen, take_length]
  | succ n ih =>
    rw [readSectors, gather_succ]
    cases hsector : d.get (start + i) with
    | none =>
      have hread : readCached (start + i) d = .error (.err ()) d := by
        simp [readCached, hsector]
      rw [bind_of_error hread]
      rfl
    | some s =>
      have hread : readCached (start + i) d = .ok s.val d := by
        simp [readCached, hsector]
      have hfits : i * sectorSize + s.val.length ≤ buf.length := by
        rw [hlen, s.2, ← succ_mul]
        exact mul_le_mul_right _ (by omega)
      have hcopy : copyAt buf (i * sectorSize) s.val = some (buf.take (i * sectorSize) ++ s.val ++
          buf.drop (i * sectorSize + s.val.length)) := if_pos hfits
      have hpanic : (orPanic (copyAt buf (i * sectorSize) s.val) : DiskM _) d =
          .ok (buf.take (i * sectorSize) ++ s.val ++
            buf.drop (i * sectorSize + s.val.length)) d := by
        rw [hcopy]
        rfl
      have htake : (buf.take (i * sectorSize)).length = i * sectorSize := by
        rw [length_take]
        omega
      rw [bind_of_ok hread, bind_of_ok hpanic, ih]
      · rw [show start + (i + 1) = start + i + 1 by omega]
        cases gather d.get (start + i + 1) n with
        | none => rfl
        | some rest =>
          simp only [bind_some, map_some]
          have hcut : (buf.take (i * sectorSize) ++ s.val).length = (i + 1) * sectorSize := by
            rw [length_append, htake, s.2, succ_mul]
          rw [take_left' hcut, append_assoc]
      · rw [length_of_copyAt hcopy, hlen]
        congr 1
        omega

/-- The sectors with those of `data` from number `i` on in their places. -/
def putSectors (s : Nat → Option Sector) (start : Nat) (data : List Byte) (i n : Nat) :
    Nat → Option Sector := fun lba =>
  if start + i ≤ lba ∧ lba < start + i + n then sectorOf data ((lba - start) * sectorSize)
  else s lba

theorem writeCached_gives (lba : Nat) (x : Sector) (d : Disk) :
    Gives (writeCached lba x) d fun _ d' => d'.sectors = update d.sectors lba (some x) := by
  intro _ d' hrun
  unfold writeCached at hrun
  dsimp only at hrun
  split at hrun
  · cases hrun
    rfl
  split at hrun
  · cases hrun
  · cases hrun
    rfl

theorem writeSectors_gives (start : Nat) (data : List Byte) (n i : Nat) (d : Disk) :
    Gives (writeSectors start data n i) d fun _ d' =>
      d'.sectors = putSectors d.sectors start data i n := by
  induction n generalizing i d with
  | zero =>
    refine .pure (funext fun lba => ?_)
    exact (if_neg (by omega)).symm
  | succ n ih =>
    refine .bind_orPanic fun x hx => (writeCached_gives (start + i) x d).bind fun _ d₁ hd₁ => ?_
    refine (ih (i + 1) d₁).mono fun _ d' hd' => ?_
    rw [hd', hd₁]
    funext lba
    unfold putSectors
    by_cases hlba : lba = start + i
    · subst hlba
      rw [if_neg (by omega), if_pos (by omega), update_self, Nat.add_sub_cancel_left, hx]
    rw [update_of_ne hlba]
    by_cases hin : start + (i + 1) ≤ lba ∧ lba < start + (i + 1) + n
    · rw [if_pos hin, if_pos (by omega)]
    · rw [if_neg hin, if_neg (by omega)]

theorem gather_putSectors (s : Nat → Option Sector) (start : Nat)
    (hlen : (i + n) * sectorSize = data.length) :
    gather (putSectors s start data 0 (i + n)) (start + i) n =
      some (data.drop (i * sectorSize)) := by
  induction n generalizing i with
  | zero =>
    rw [add_zero] at hlen
    rw [gather, hlen, drop_length]
  | succ n ih =>
    have hfits : i * sectorSize + sectorSize ≤ data.length := by
      rw [← hlen, ← succ_mul]
      exact mul_le_mul_right _ (by omega)
    have hsector : putSectors s start data 0 (i + (n + 1)) (start + i) =
        sectorOf data (i * sectorSize) := by
      unfold putSectors
      rw [if_pos (by omega), Nat.add_sub_cancel_left]
    have hrest := ih (i := i + 1) (by rw [← hlen]; congr 1; omega)
    rw [show i + 1 + n = i + (n + 1) by omega, show start + (i + 1) = start + i + 1 by omega]
      at hrest
    rw [gather_succ, hsector, sectorOf, dif_pos hfits, hrest]
    simp only [bind_some, map_some, window]
    rw [succ_mul, ← drop_drop, take_append_drop]

end Gather

namespace Ext2Fs

section View

variable {fs : Ext2Fs}

theorem length_view (hbs : sectorSize ∣ fs.blockSize) (h : fs.view d b = some data) :
    data.length = fs.blockSize := by
  rw [length_gather h, Nat.div_mul_cancel hbs]

/-- What comes of reading a block through the cache. -/
theorem readBlock_eq (hbs : sectorSize ∣ fs.blockSize) (d : Disk) (b : Nat) :
    fs.readBlock b d =
      match gather d.get (b * (fs.blockSize / sectorSize)) (fs.blockSize / sectorSize) with
      | none => .error (.err ()) d
      | some data => .ok data d := by
  have hlen : (zeros fs.blockSize).length =
      (0 + fs.blockSize / sectorSize) * sectorSize := by
    rw [length_zeros, Nat.zero_add, Nat.div_mul_cancel hbs]
  have hread := readSectors_eq d (b * (fs.blockSize / sectorSize)) hlen
  rwa [zero_mul] at hread

theorem writeBlock_gives (hbs : sectorSize ∣ fs.blockSize) (hlen : data.length = fs.blockSize)
    (b : Nat) (d : Disk) :
    Gives (fs.writeBlock b data) d fun _ d' => fs.view d' = update (fs.view d) b (some data) := by
  have hk : (0 + fs.blockSize / sectorSize) * sectorSize = data.length := by
    rw [Nat.zero_add, hlen, Nat.div_mul_cancel hbs]
  refine (writeSectors_gives _ data _ 0 d).mono fun _ d' hd' => ?_
  funext b'
  rw [view, hd']
  by_cases hb : b' = b
  · subst hb
    have hback := gather_putSectors d.sectors (b' * (fs.blockSize / sectorSize)) hk
    rw [zero_add] at hback
    rwa [update_self]
  rw [update_of_ne hb]
  refine gather_congr fun lba hle hlt => if_neg ?_
  -- the sectors of two blocks are apart
  rintro ⟨hle', hlt'⟩
  have hdisj : b' < b ∨ b < b' := lt_or_gt_of_ne hb
  rcases hdisj with hlt'' | hlt''
  · have hmul := mul_le_mul_right (fs.blockSize / sectorSize) (succ_le_of_lt hlt'')
    rw [succ_mul] at hmul
    omega
  · have hmul := mul_le_mul_right (fs.blockSize / sectorSize) (succ_le_of_lt hlt'')
    rw [succ_mul] at hmul
    omega

end View

end Ext2Fs

/-! ## A small volume -/

/-- A device of 64 blocks of 1024 bytes, given the first sector of each and zeros
    in the second, behind an empty cache. -/
def smallDisk (blocks : Nat → List Byte) : Disk where
  sectors lba :=
    if lba < 128 then
      let data := if lba % 2 = 0 then blocks (lba / 2) else []
      sectorOf (data ++ zeros (512 - data.length)) 0
    else none
  dirty := []
  room := 64

/-- The superblock of the volume: one group of 64 blocks and 8 inodes, of which
    two are reserved. -/
def smallSuperblock : List Byte :=
  zeros 4 ++ leBytes 4 64 ++ zeros 12 ++ leBytes 4 1 ++ zeros 8 ++ leBytes 4 64 ++ zeros 4 ++
    leBytes 4 8 ++ zeros 12 ++ leBytes 2 ext2Magic ++ zeros 26 ++ leBytes 4 3 ++ leBytes 2 128

/-- Its group: the bitmaps in blocks 3 and 4, the inode table in block 5. -/
def smallGroup : List Byte :=
  leBytes 4 3 ++ leBytes 4 4 ++ leBytes 4 5 ++ leBytes 2 50 ++ leBytes 2 5

/-- The root directory: inode 2, with one block of data. -/
def smallRoot : Inode := .new (sIfDir ||| 0o755) 1024 2 2 fun i => if i = 0 then 6 else 0

/-- `.` and `..` are the root; the file `a` has inode 3. -/
def smallRootDir : List Byte :=
  leBytes 4 2 ++ leBytes 2 12 ++ [1, ftDir, 0x2e, 0, 0, 0] ++
    leBytes 4 2 ++ leBytes 2 12 ++ [2, ftDir, 0x2e, 0x2e, 0, 0] ++
    leBytes 4 3 ++ leBytes 2 1000 ++ [1, ftRegFile, 0x61]

/-- The file `a`, which is empty. -/
def smallFile : Inode := .new (sIfReg ||| 0o644) 0 1 0 fun _ => 0

/-- The blocks of the volume: blocks 1 to 6 and the first three inodes are in use. -/
def smallBlocks : Nat → List Byte
  | 1 => smallSuperblock
  | 2 => smallGroup
  | 3 => [0x3F]
  | 4 => [0x07]
  | 5 => zeros 128 ++ smallRoot.toBytes ++ smallFile.toBytes
  | 6 => smallRootDir
  | _ => []

def smallFs : Ext2Fs where
  superblock := ⟨64, 1, 0, 64, 8, 3, 128⟩
  groupDescriptors := [⟨3, 4, 5, 50, 5⟩]
  blockSize := 1024

theorem zeros_append (m n : Nat) : zeros m ++ zeros n = zeros (m + n) := replicate_append_replicate

/-- What a block of the volume holds. -/
theorem view_smallDisk (hb : b < 64) (hlen : (blocks b).length ≤ 512) :
    smallFs.view (smallDisk blocks) b =
      some (blocks b ++ zeros (1024 - (blocks b).length)) := by
  have hsector : ∀ data : List Byte, data.length ≤ 512 →
      ∃ s : Sector, sectorOf (data ++ zeros (512 - data.length)) 0 = some s ∧
        s.val = data ++ zeros (512 - data.length) := by
    intro data hdata
    have hfull : (data ++ zeros (512 - data.length)).length = 512 := by
      rw [length_append, length_zeros]
      omega
    have hfits : 0 + sectorSize ≤ (data ++ zeros (512 - data.length)).length := by
      rw [hfull]
      decide
    refine ⟨_, dif_pos hfits, ?_⟩
    exact take_of_length_le (le_of_eq hfull)
  obtain ⟨s₀, hs₀, hval₀⟩ := hsector (blocks b) hlen
  obtain ⟨s₁, hs₁, hval₁⟩ := hsector [] (by decide)
  have hfirst : (smallDisk blocks).sectors (b * 2) = some s₀ := by
    unfold smallDisk
    dsimp only
    rw [if_pos (by omega), if_pos (by omega), Nat.mul_div_cancel _ (by decide), hs₀]
  have hsecond : (smallDisk blocks).sectors (b * 2 + 1) = some s₁ := by
    unfold smallDisk
    dsimp only
    rw [if_pos (by omega), if_neg (by omega), hs₁]
  have hview : smallFs.view (smallDisk blocks) b = some (s₀.val ++ (s₁.val ++ [])) := by
    show gather (smallDisk blocks).sectors (b * 2) 2 = _
    simp only [gather, hfirst, hsecond]
    rfl
  have hsum : 512 - (blocks b).length + (512 - ([] : List Byte).length) =
      1024 - (blocks b).length := by
    rw [length_nil]
    omega
  rw [hview, hval₀, hval₁, append_nil, nil_append, append_assoc, zeros_append, hsum]

end OpenOS.Fs.Ext2
