/-
  The blocks of all files as one radix tree: the device leads to the inodes
  that own blocks, an inode to its fifteen roots, and a pointer block to the
  blocks of its entries.  `nodeAt` says what a path of indices leads to.

  In a sound volume no block is reached by two paths, and every block that is
  reached is marked as used and is not metadata.  What writing and allocating do
  is then a point update of `nodeAt`, or nothing.
-/

import OpenOS.Base.RadixTree
import OpenOS.Fs.Ext2.Alloc

namespace OpenOS.Fs.Ext2

open Base Base.RadixTree Option List BitVec Function

/-- What a path leads to; a block is this high above the data. -/
inductive Node where
  | disk
  | inode (n : Nat)
  | block (b height : Nat)
deriving DecidableEq

/-- The inodes that own blocks. -/
abbrev Owners := Nat → Option Inode

namespace Ext2Fs

/-- The height of the tree behind a pointer of an inode. -/
def heightOf (r : Nat) : Nat := r - 11

/-- The node of a pointer; zero leads nowhere. -/
def child (height : Nat) (c : BitVec 32) : Option Node :=
  if c = 0 then none else some (.block c.toNat height)

/-- The links between the nodes. -/
def links (fs : Ext2Fs) (I : Owners) (v : View) : Links Node Nat
  | .disk, n => (I n).map fun _ => .inode n
  | .inode n, r => (I n).bind fun inode =>
    if h : r < 15 then child (heightOf r) (inode.block ⟨r, h⟩) else none
  | .block b (height + 1), i => (fs.pointer v b i).bind (child height)
  | .block _ 0, _ => none

/-- What a path leads to. -/
def nodeAt (fs : Ext2Fs) (I : Owners) (v : View) (π : List Nat) : Option Node :=
  walk (fs.links I v) .disk π

section Paths

variable {fs : Ext2Fs}

theorem eq_of_child (h : child height c = some a) : c ≠ 0 ∧ a = .block c.toNat height := by
  unfold child at h
  split at h
  · cases h
  · rename_i hc
    exact ⟨hc, (some.inj h).symm⟩

theorem child_eq_some (h : child height c = some (.block b k)) :
    c ≠ 0 ∧ b = c.toNat ∧ k = height := by
  obtain ⟨hc, heq⟩ := eq_of_child h
  cases heq
  exact ⟨hc, rfl, rfl⟩

theorem child_of_ne (h : c ≠ 0) : child height c = some (.block c.toNat height) := if_neg h

@[simp] theorem child_zero (height : Nat) : child height 0 = none := rfl

@[simp] theorem nodeAt_nil : fs.nodeAt I v [] = some .disk := rfl

theorem nodeAt_concat (π : List Nat) (i : Nat) :
    fs.nodeAt I v (π ++ [i]) = (fs.nodeAt I v π).bind fun a => fs.links I v a i :=
  walk_concat _ _ _ _

theorem path_of_nodeAt (h : fs.nodeAt I v π = some a) :
    (a = .disk → π = []) ∧ (∀ n, a = .inode n → π = [n]) := by
  rcases eq_nil_or_concat π with rfl | ⟨π, i, rfl⟩
  · cases h
    exact ⟨fun _ => rfl, nofun⟩
  rw [concat_eq_append, nodeAt_concat] at h
  obtain ⟨b, hb, hlink⟩ := bind_eq_some_iff.mp h
  rcases b with - | n | ⟨b, height⟩
  · obtain ⟨inode, -, rfl⟩ := map_eq_some_iff.mp hlink
    refine ⟨nofun, ?_⟩
    rintro n ⟨⟩
    rw [(path_of_nodeAt hb).1 rfl]
    rfl
  · obtain ⟨inode, -, hchild⟩ := bind_eq_some_iff.mp hlink
    split at hchild
    · obtain ⟨-, rfl⟩ := eq_of_child hchild
      exact ⟨nofun, nofun⟩
    · cases hchild
  · cases height with
    | zero => cases hlink
    | succ height =>
      obtain ⟨c, -, hchild⟩ := bind_eq_some_iff.mp hlink
      obtain ⟨-, rfl⟩ := eq_of_child hchild
      exact ⟨nofun, nofun⟩
termination_by π.length
decreasing_by simp_all

theorem walk_of_follow (h : fs.follow v c is = some c') (hk : is.length ≤ k) :
    ((child k c).bind fun a => walk (fs.links I v) a is) = child (k - is.length) c' := by
  induction is generalizing c k with
  | nil =>
    cases h
    exact bind_fun_some _
  | cons i is ih =>
    rw [length_cons] at hk
    obtain ⟨k, rfl⟩ : ∃ k', k = k' + 1 := ⟨k - 1, by omega⟩
    rw [follow] at h
    by_cases hc : c = 0
    · rw [if_pos hc] at h
      cases h
      subst hc
      rfl
    rw [if_neg hc] at h
    obtain ⟨b, hb, hrest⟩ := bind_eq_some_iff.mp h
    rw [child_of_ne hc, bind_some, walk_cons]
    simp only [links, hb, bind_some]
    rw [ih hrest (by omega), length_cons, Nat.add_sub_add_right]

/-- The path of a logical block of an inode. -/
def pathOf (fs : Ext2Fs) (n l : Nat) : List Nat := n :: (fs.locate l).1.val :: (fs.locate l).2

theorem length_locate (fs : Ext2Fs) (l : Nat) :
    (fs.locate l).2.length = heightOf (fs.locate l).1.val := by
  unfold locate heightOf
  split
  · dsimp only
    rw [Nat.sub_eq_zero_of_le (by omega)]
    rfl
  dsimp only
  split
  · rfl
  · split <;> rfl

/-- The roots and what is below them. -/
theorem nodeAt_cons_cons (hn : I n = some inode) (r : Fin 15) (is : List Nat) :
    fs.nodeAt I v (n :: r.val :: is) =
      (child (heightOf r.val) (inode.block r)).bind fun a => walk (fs.links I v) a is := by
  unfold nodeAt
  rw [walk_cons]
  simp only [links, hn, map_some, bind_some]
  rw [walk_cons]
  simp [links, hn]

theorem nodeAt_pathOf (hn : I n = some inode) (h : fs.blockOf v inode l = some c) :
    fs.nodeAt I v (fs.pathOf n l) = child 0 c := by
  rw [pathOf, nodeAt_cons_cons hn, walk_of_follow h (Nat.le_of_eq (length_locate fs l)),
    length_locate, Nat.sub_self]

/-- The logical block of a path below an inode. -/
def logicalOf (fs : Ext2Fs) : Fin 15 × List Nat → Nat
  | (r, []) => r
  | (_, [i]) => 12 + i
  | (_, [i, j]) => 12 + fs.entriesPerBlock + (fs.entriesPerBlock * i + j)
  | (_, i :: j :: k :: _) => 12 + fs.entriesPerBlock + fs.entriesPerBlock * fs.entriesPerBlock +
      (fs.entriesPerBlock * fs.entriesPerBlock * i + (fs.entriesPerBlock * j + k))

theorem logicalOf_locate (fs : Ext2Fs) (l : Nat) : fs.logicalOf (fs.locate l) = l := by
  unfold locate
  split
  · rfl
  dsimp only
  split
  · rw [logicalOf]
    omega
  split
  · rw [logicalOf, Nat.div_add_mod]
    omega
  · rw [logicalOf, Nat.div_add_mod, Nat.div_add_mod]
    omega

theorem pathOf_inj (h : fs.pathOf n k = fs.pathOf m l) : n = m ∧ k = l := by
  obtain ⟨hn, htail⟩ := cons.inj h
  obtain ⟨hroot, his⟩ := cons.inj htail
  refine ⟨hn, ?_⟩
  have hloc : fs.locate k = fs.locate l := Prod.ext (Fin.ext hroot) his
  rw [← logicalOf_locate fs k, hloc, logicalOf_locate]

end Paths

/-! ## Sound volumes -/

/-- No block is reached by two paths, and what is reached is marked as used and not
    in `M`; the blocks of `M` are marked as used. -/
structure Sound (fs : Ext2Fs) (M : Set Nat) (I : Owners) (v : View) : Prop where
  covers : fs.Covers v
  reserved : ∀ b ∈ M, fs.superblock.firstDataBlock ≤ b →
    b < fs.superblock.firstDataBlock + fs.groupDescriptors.length * fs.superblock.blocksPerGroup →
    fs.blockUsed v b = true
  owned : ∀ π b k, fs.nodeAt I v π = some (.block b k) → b ∉ M ∧ fs.blockUsed v b = true
  once : ∀ π ρ b k k', fs.nodeAt I v π = some (.block b k) → fs.nodeAt I v ρ = some (.block b k') →
    π = ρ

section Sound

variable {fs : Ext2Fs}

theorem Sound.height_eq (h : fs.Sound M I v) (hπ : fs.nodeAt I v π = some (.block b k))
    (hρ : fs.nodeAt I v ρ = some (.block b k')) : k = k' := by
  rw [h.once π ρ b k k' hπ hρ, hρ] at hπ
  cases hπ
  rfl

theorem Sound.isTree (h : fs.Sound M I v) (D : Nat) : IsTree (fs.links I v) .disk D := by
  intro π ρ a _ _ hπ hρ
  rcases a with - | n | ⟨b, k⟩
  · rw [(path_of_nodeAt hπ).1 rfl, (path_of_nodeAt hρ).1 rfl]
  · rw [(path_of_nodeAt hπ).2 n rfl, (path_of_nodeAt hρ).2 n rfl]
  · exact h.once π ρ b k k hπ hρ

theorem nodeAt_congr (h : ∀ π b k, fs.nodeAt I v π = some (.block b (k + 1)) → v' b = v b) :
    fs.nodeAt I v' = fs.nodeAt I v := by
  funext π
  refine walk_congr ?_ (Nat.le_refl _)
  intro ρ a _ ha
  funext i
  rcases a with - | n | ⟨b, - | k⟩
  · rfl
  · rfl
  · rfl
  · simp [links, pointer, h ρ b k ha]

theorem Sound.nodeAt_of_eq_off (h : fs.Sound M I v) (hv : ∀ b, b ∉ M → v' b = v b) :
    fs.nodeAt I v' = fs.nodeAt I v :=
  nodeAt_congr fun π b _ hπ => hv b (h.owned π b _ hπ).1

theorem Sound.nodeAt_update_data (h : fs.Sound M I v) (hπ : fs.nodeAt I v π = some (.block b 0))
    (o : Option (List Byte)) : fs.nodeAt I (update v b o) = fs.nodeAt I v := by
  refine nodeAt_congr fun ρ x k hρ => update_of_ne ?_ _ _
  rintro rfl
  exact absurd (h.height_eq hπ hρ) (Nat.succ_ne_zero k).symm

/-- One link of one node becomes another, with nothing below it before or after. -/
theorem Sound.nodeAt_eq_update (h : fs.Sound M I v) (ha : fs.nodeAt I v π = some a)
    (hbefore : ∀ j, fs.nodeAt I v (π ++ [i] ++ [j]) = none)
    (hentry : ∀ j, fs.links I' v' a j = if j = i then o else fs.links I v a j)
    (hothers : ∀ ρ x, fs.nodeAt I v ρ = some x → x ≠ a → fs.links I' v' x = fs.links I v x)
    (hafter : ∀ x, o = some x → ∀ j, fs.links I' v' x j = none) :
    fs.nodeAt I' v' = update (fs.nodeAt I v) (π ++ [i]) o := by
  funext q
  exact walk_eq_update (h.isTree (π.length + q.length + 1)) (by omega) ha (fun _ => hbefore) hentry
    (fun ρ x _ => hothers ρ x) (fun _ => hafter) (by omega)

end Sound

section Layout

variable {fs : Ext2Fs}

theorem Layout.insert (h : fs.Layout M) (b : Nat) : fs.Layout (insert b M) where
  toGeometry := h.toGeometry
  blockBits := h.blockBits
  inodeBits := h.inodeBits
  blocksCount := h.blocksCount
  blockEnd := h.blockEnd
  inodeEnd := h.inodeEnd
  inodeBytes_dvd := h.inodeBytes_dvd
  metadata_lt := h.metadata_lt
  metadata_mem r x hx := .inr (h.metadata_mem r x hx)
  metadata_inj := h.metadata_inj
  before x hx := .inr (h.before x hx)
  after x hx := .inr (h.after x hx)

theorem Layout.lt_of_notMem (h : fs.Layout M) (hb : b ∉ M) : b < fs.superblock.blocksCount := by
  by_contra hge
  exact hb (h.after b (Nat.le_of_not_lt hge))

theorem Layout.ne_zero_of_notMem (h : fs.Layout M) (hb : b ∉ M) : b ≠ 0 := by
  rintro rfl
  exact hb (h.before 0 (.inr rfl))

theorem Layout.mem_of_mem_blockRow (h : fs.Layout M) (hb : b ∈ fs.blockRow.maps) : b ∈ M := by
  obtain ⟨g, hg⟩ := metaAt_of_mem_blockRow hb
  exact h.metadata_mem _ _ hg

theorem Layout.mem_of_mem_inodeRow (h : fs.Layout M) (hb : b ∈ fs.inodeRow.maps) : b ∈ M := by
  obtain ⟨g, hg⟩ := metaAt_of_mem_inodeRow hb
  exact h.metadata_mem _ _ hg

theorem Sound.exists_data (h : fs.Sound M I v) (hl : fs.Layout M)
    (hπ : fs.nodeAt I v π = some (.block b k)) :
    ∃ data, v b = some data ∧ data.length = fs.blockSize :=
  h.covers b (hl.lt_of_notMem (h.owned π b k hπ).1)

/-! ## A new block -/

/-- A block that was not in use has been marked, and perhaps written; nothing else has
    changed. -/
structure Fresh (fs : Ext2Fs) (M : Set Nat) (I : Owners) (v : View) (c : Nat) (v' : View) : Prop where
  notMem : c ∉ M
  free : fs.blockUsed v c = false
  used : ∀ x, fs.blockUsed v' x = if x = c then true else fs.blockUsed v x
  same : ∀ x, x ∉ fs.blockRow.maps → x ≠ c → v' x = v x
  sound : fs.Sound (insert c M) I v'

theorem Fresh.nodeAt_eq (h : fs.Fresh M I v c v') (hl : fs.Layout M) (hs : fs.Sound M I v) :
    fs.nodeAt I v' = fs.nodeAt I v :=
  nodeAt_congr fun π b _ hπ => by
    obtain ⟨hb, hbu⟩ := hs.owned π b _ hπ
    refine h.same b (mt hl.mem_of_mem_blockRow hb) ?_
    rintro rfl
    rw [h.free] at hbu
    cases hbu

/-- The new block is written before it has a place. -/
theorem Fresh.filled (h : fs.Fresh M I v c v') (hl : fs.Layout M)
    (hlen : data.length = fs.blockSize) : fs.Fresh M I v c (update v' c (some data)) := by
  have hused : fs.blockUsed (update v' c (some data)) = fs.blockUsed v' := by
    refine blockUsed_congr fun x hx => update_of_ne ?_ _ _
    rintro rfl
    exact h.notMem (hl.mem_of_mem_blockRow hx)
  have hnode : fs.nodeAt I (update v' c (some data)) = fs.nodeAt I v' := by
    refine nodeAt_congr fun π b k hπ => update_of_ne ?_ _ _
    rintro rfl
    exact (h.sound.owned π b _ hπ).1 (.inl rfl)
  refine ⟨h.notMem, h.free, ?_, ?_, ?_⟩
  · rw [hused]
    exact h.used
  · intro x hx hxc
    rw [update_of_ne hxc, h.same x hx hxc]
  · refine ⟨h.sound.covers.update hlen, ?_, ?_, ?_⟩
    · rw [hused]
      exact h.sound.reserved
    · rw [hused, hnode]
      exact h.sound.owned
    · rw [hnode]
      exact h.sound.once

/-- Marking a block that is not in use. -/
theorem Sound.fresh_put (hl : fs.Layout M) (h : fs.Sound M I v)
    (hi : i < fs.groupDescriptors.length * fs.superblock.blocksPerGroup)
    (hbit : fs.blockRow.bit v i = false) :
    fs.Fresh M I v (fs.superblock.firstDataBlock + i) (fs.blockRow.put v i true) := by
  have hsub : fs.superblock.firstDataBlock + i - fs.superblock.firstDataBlock = i :=
    Nat.add_sub_cancel_left ..
  have hfree : fs.blockUsed v (fs.superblock.firstDataBlock + i) = false := by
    rw [blockUsed, hsub, hbit, Bool.and_false]
  have hused : ∀ x, fs.blockUsed (fs.blockRow.put v i true) x =
      if x = fs.superblock.firstDataBlock + i then true else fs.blockUsed v x := by
    intro x
    have hput := hl.blockUsed_put h.covers (b := fs.superblock.firstDataBlock + i)
      (Nat.le_add_right ..) (by omega) true x
    rwa [hsub] at hput
  have hsame : ∀ x, x ∉ fs.blockRow.maps → fs.blockRow.put v i true x = v x :=
    fun x hx => BitRow.put_of_notMem hx i true
  have hnotMem : fs.superblock.firstDataBlock + i ∉ M := by
    intro hmem
    rw [h.reserved _ hmem (by omega) (by omega)] at hfree
    cases hfree
  have hnode : fs.nodeAt I (fs.blockRow.put v i true) = fs.nodeAt I v :=
    h.nodeAt_of_eq_off fun b hb => hsame b (mt hl.mem_of_mem_blockRow hb)
  refine ⟨hnotMem, hfree, hused, fun x hx _ => hsame x hx, ?_⟩
  constructor
  case covers => exact h.covers.put _ _ _
  case reserved =>
    rintro b (rfl | hb) hfirst hend
    · rw [hused, if_pos rfl]
    · rw [hused, h.reserved b hb hfirst hend, ite_self]
  case owned =>
    intro π b k hπ
    rw [hnode] at hπ
    obtain ⟨hb, hbu⟩ := h.owned π b k hπ
    refine ⟨?_, by rw [hused, hbu, ite_self]⟩
    rintro (rfl | hmem)
    · rw [hfree] at hbu
      cases hbu
    · exact hb hmem
  case once =>
    rw [hnode]
    exact h.once

/-- A new block has got its place. -/
theorem Sound.link (h : fs.Sound (insert c M) I v) (hc : c ∉ M) (hcu : fs.blockUsed v c = true)
    (hnode : fs.nodeAt I' v' = update (fs.nodeAt I v) ρ (some (.block c k))) (hcov : fs.Covers v')
    (hused : fs.blockUsed v' = fs.blockUsed v) : fs.Sound M I' v' := by
  have hnot : ∀ π j, fs.nodeAt I v π ≠ some (.block c j) := fun π j hπ =>
    (h.owned π c j hπ).1 (.inl rfl)
  constructor
  case covers => exact hcov
  case reserved =>
    intro b hb
    rw [hused]
    exact h.reserved b (.inr hb)
  case owned =>
    intro π b j hπ
    rw [hnode, update_apply] at hπ
    rw [hused]
    split at hπ
    · cases hπ
      exact ⟨hc, hcu⟩
    · obtain ⟨hb, hbu⟩ := h.owned π b j hπ
      exact ⟨fun hmem => hb (.inr hmem), hbu⟩
  case once =>
    intro π σ b j j' hπ hσ
    rw [hnode, update_apply] at hπ hσ
    split at hπ
    · rename_i hπρ
      cases hπ
      split at hσ
      · rename_i hσρ
        rw [hπρ, hσρ]
      · exact absurd hσ (hnot σ j')
    · split at hσ
      · cases hσ
        exact absurd hπ (hnot π j)
      · exact h.once π σ b j j' hπ hσ

end Layout

theorem Sound.allocBlock_gives (hl : fs.Layout M) (h : fs.Sound M I (fs.view d)) :
    Comp.Gives (allocBlock p fs) d fun o d' => ∀ c, o = some c → c < 2 ^ 32 ∧
      fs.Fresh M I (fs.view d) c (fs.view d') ∧ fs.view d' c = fs.view d c := by
  refine (hl.allocBlock_takes d).mono fun o d' htakes c hc => ?_
  obtain ⟨i, rfl, hi, hbit, hview⟩ := htakes c hc
  rw [blockRow, length_map] at hi
  replace hi : i < fs.groupDescriptors.length * fs.superblock.blocksPerGroup := hi
  have hend := hl.blockEnd
  refine ⟨by omega, ?_⟩
  rw [hview]
  have hf := h.fresh_put hl hi hbit
  exact ⟨hf, BitRow.put_of_notMem (mt hl.mem_of_mem_blockRow hf.notMem) i true⟩

theorem Sound.needBlock_gives (hl : fs.Layout M) (h : fs.Sound M I (fs.view d)) :
    Comp.Gives (needBlock p fs) d fun c d' =>
      c ≠ 0 ∧ fs.Fresh M I (fs.view d) c.toNat (fs.view d') ∧
        fs.view d' c.toNat = fs.view d c.toNat := by
  refine (h.allocBlock_gives hl).bind fun o d' ho => ?_
  refine Comp.Gives.bind_orErr fun c hc => ?_
  obtain ⟨hlt, hfresh, hsame⟩ := ho c hc
  refine .pure ?_
  rw [BitVec.toNat_ofNat, Nat.mod_eq_of_lt hlt]
  refine ⟨fun hzero => hl.ne_zero_of_notMem hfresh.notMem ?_, hfresh, hsame⟩
  have htoNat := congrArg BitVec.toNat hzero
  rwa [BitVec.toNat_ofNat, Nat.mod_eq_of_lt hlt] at htoNat

end Ext2Fs

end OpenOS.Fs.Ext2
