/-
  The bytes of a file on a sound volume, and what reading and writing data does
  to them (kernel/src/fs/ext2.rs).

  A block that is allocated for a write is not cleared: where the write does not
  cover it, it shows what it held before.
-/

import OpenOS.Fs.Ext2.Grow
import OpenOS.Fs.Ext2.Table

namespace OpenOS.Fs.Ext2.Ext2Fs

open Function Base Base.RadixTree List Option Nat

variable {fs : Ext2Fs}

theorem walk_block (h : walk (fs.links I v) (.block b k) is = some x) :
    is.length ≤ k ∧ ∃ c, x = .block c (k - is.length) := by
  induction is generalizing b k with
  | nil =>
    cases h
    exact ⟨zero_le k, b, rfl⟩
  | cons i is ih =>
    obtain ⟨y, hy, hrest⟩ := bind_eq_some_iff.mp h
    cases k with
    | zero => cases hy
    | succ k =>
      obtain ⟨c, -, hc⟩ := bind_eq_some_iff.mp hy
      obtain ⟨-, rfl⟩ := eq_of_child hc
      obtain ⟨hlen, x', hx'⟩ := ih hrest
      rw [length_cons]
      exact ⟨by omega, x', by rw [hx', Nat.add_sub_add_right]⟩

theorem node_pathOf (h : fs.nodeAt I v (fs.pathOf n l) = some x) : ∃ c, x = .block c 0 := by
  cases hn : I n with
  | none =>
    unfold nodeAt pathOf at h
    rw [walk_cons] at h
    simp only [links, hn] at h
    cases h
  | some inode =>
    rw [pathOf, nodeAt_cons_cons hn] at h
    obtain ⟨y, hy, hrest⟩ := bind_eq_some_iff.mp h
    obtain ⟨-, rfl⟩ := eq_of_child hy
    obtain ⟨-, c, hc⟩ := walk_block hrest
    rw [length_locate, Nat.sub_self] at hc
    exact ⟨c, hc⟩

/-! ## Bytes -/

/-- The byte at a position of a file, whatever the size: zero where there is no block. -/
def byteOf (fs : Ext2Fs) (I : Owners) (v : View) (n pos : Nat) : Byte :=
  match fs.nodeAt I v (fs.pathOf n (pos / fs.blockSize)) with
  | some (.block b _) => byteAt ((v b).getD []) (pos % fs.blockSize)
  | _ => 0

theorem byteOf_of_node (h : fs.nodeAt I v (fs.pathOf n (pos / fs.blockSize)) = some (.block b k))
    (hdata : v b = some data) : fs.byteOf I v n pos = byteAt data (pos % fs.blockSize) := by
  unfold byteOf
  rw [h]
  simp [hdata]

theorem byteOf_of_none (h : fs.nodeAt I v (fs.pathOf n (pos / fs.blockSize)) = none) :
    fs.byteOf I v n pos = 0 := by
  unfold byteOf
  rw [h]

theorem byteAt_zeros (n i : Nat) : byteAt (zeros n) i = 0 := by
  unfold byteAt zeros
  rw [getD_eq_getElem?_getD, getElem?_replicate]
  split <;> rfl

theorem byteAt_of_copyAt (h : copyAt data offset elems = some data') (i : Nat) :
    byteAt data' i =
      if offset ≤ i ∧ i < offset + elems.length then byteAt elems (i - offset) else byteAt data i := by
  unfold copyAt at h
  split at h
  · rename_i hfits
    cases h
    have hlen : (data.take offset).length = offset := by
      rw [length_take]
      omega
    unfold byteAt
    rw [append_assoc]
    by_cases hlt : i < offset
    · rw [if_neg (by omega), getD_append _ _ _ _ (by omega), getD_eq_getElem?_getD,
        getElem?_take_of_lt hlt, getD_eq_getElem?_getD]
    rw [getD_append_right _ _ _ _ (by omega), hlen]
    by_cases hend : i < offset + elems.length
    · rw [if_pos ⟨by omega, hend⟩, getD_append _ _ _ _ (by omega)]
    rw [if_neg (by omega), getD_append_right _ _ _ _ (by omega),
      getD_eq_getElem?_getD, getElem?_drop]
    congr 2
    omega
  · cases h

/-- Blocks that are not in use hold zeros. -/
def ZeroFree (fs : Ext2Fs) (M : Set Nat) (v : View) : Prop :=
  ∀ x, x ∉ M → fs.blockUsed v x = false → v x = some (zeros fs.blockSize)

/-! ## The block to write to -/

/-- The block `c` is at the path `ρ` of inode `n`: it was there, or it is a new one. -/
structure Ready (fs : Ext2Fs) (M : Set Nat) (n : Nat) (I : Owners) (v : View) (ρ : List Nat)
    (c : Nat) (I' : Owners) (v' : View) : Prop extends fs.Adds M n I v I' v' where
  place : fs.nodeAt I' v' ρ = some (.block c 0)
  keep : ∀ q a, fs.nodeAt I v q = some a → fs.nodeAt I' v' q = some a
  leaf : ∀ q b, q ≠ ρ → fs.nodeAt I' v' q = some (.block b 0) → fs.nodeAt I v q = some (.block b 0)
  fresh : fs.nodeAt I v ρ = none → fs.blockUsed v c = false

theorem Sound.ready_self (h : fs.Sound M I v)
    (hρ : fs.nodeAt I v ρ = some (.block c 0)) : fs.Ready M n I v ρ c I v where
  toAdds := h.adds_self n
  place := hρ
  keep _ _ hq := hq
  leaf _ _ _ hq := hq
  fresh hnone := by
    rw [hρ] at hnone
    cases hnone

section

variable (hl : fs.Layout M)
include hl

/-- Blocks of files and free blocks are not written. -/
theorem Adds.same_leaf (h : fs.Adds M n I v I' v')
    (hb : fs.nodeAt I' v' q = some (.block b 0)) : v' b = v b :=
  h.same b (mt hl.mem_of_mem_blockRow (h.sound.owned q b 0 hb).1) fun _ k hq =>
    absurd (h.sound.height_eq hb hq) (succ_ne_zero k).symm

theorem Adds.same_free (h : fs.Adds M n I v I' v') (hx : x ∉ M)
    (hfree : fs.blockUsed v' x = false) :
    v' x = v x ∧ ∀ q k, fs.nodeAt I' v' q ≠ some (.block x k) := by
  have hnot : ∀ q k, fs.nodeAt I' v' q ≠ some (.block x k) := by
    intro q k hq
    rw [(h.sound.owned q x k hq).2] at hfree
    cases hfree
  exact ⟨h.same x (mt hl.mem_of_mem_blockRow hx) fun q k => hnot q (k + 1), hnot⟩

theorem Fresh.ready
    (h : fs.Sound M I v) (hf : fs.Fresh M I v c v₁) (hc : v₁ c = v c) (hρ : fs.nodeAt I v ρ = none)
    (hp : fs.Placed M n I v₁ c ρ I' v') : fs.Ready M n I v ρ c I' v' := by
  have hnode := hf.nodeAt_eq hl h
  refine ⟨⟨hp.sound, hp.owners, ?used, ?marked, ?same⟩, hp.place, ?keep, ?leaf, fun _ => hf.free⟩
  case keep =>
    intro q a hq
    refine hp.keep q a ?_ (by rw [hnode, hq])
    rintro rfl
    rw [hρ] at hq
    cases hq
  case leaf =>
    intro q b hne hq
    rw [← hnode]
    exact hp.leaf q b hne hq
  case used =>
    intro x hx
    exact hp.used x (by rw [hf.used, hx, ite_self])
  case marked =>
    intro x hx
    rcases hp.marked x hx with hx | hnode
    · rw [hf.used] at hx
      split at hx
      · rename_i hxc
        exact .inr ⟨ρ, 0, by rw [hxc, hp.place]⟩
      · exact .inl hx
    · exact .inr hnode
  case same =>
    intro x hx hnot
    rw [hp.same x hx hnot]
    by_cases hxc : x = c
    · rw [hxc, hc]
    · exact hf.same x hx hxc

/-- What the write loop finds or makes a block with. -/
theorem Sound.blockFor_gives (h : fs.Sound M I (fs.view d))
    (hn : I n = some inode) (hll : l < 2 ^ 32) : Comp.Gives (blockFor p fs inode l) d fun r d' =>
      (∃ f, r.1 = { inode with block := f }) ∧
      fs.Ready M n I (fs.view d) (fs.pathOf n l) r.2.toNat (update I n (some r.1))
        (fs.view d') := by
  refine (hl.resolveBlock_reads inode hll d).gives_bind fun c hblock => ?_
  have hnode := nodeAt_pathOf hn hblock
  by_cases hzero : c = 0
  · rw [if_pos hzero]
    rw [hzero] at hnode
    refine (h.needBlock_gives hl).bind fun new d₁ ⟨hnew, hf, hc⟩ => ?_
    have hcu : fs.blockUsed (fs.view d₁) new.toNat = true := by rw [hf.used, if_pos rfl]
    refine (hf.sound.setBlockPointer_gives hl hf.notMem hcu hn hll).bind ?_
    rintro inode' d₂ ⟨hfields, hplaced⟩
    exact .pure ⟨hfields, hf.ready hl h hc hnode hplaced⟩
  · rw [if_neg hzero]
    rw [child_of_ne hzero] at hnode
    refine .pure ⟨⟨inode.block, rfl⟩, ?_⟩
    rw [update_eq_self_iff.mpr hn.symm]
    exact h.ready_self hnode

theorem Ready.byteOf_eq
    (h : fs.Sound M I v) (hz : fs.ZeroFree M v) (hr : fs.Ready M n I v ρ c I' v') (m pos : Nat) :
    fs.byteOf I' v' m pos = fs.byteOf I v m pos := by
  generalize hq : fs.pathOf m (pos / fs.blockSize) = q
  cases hold : fs.nodeAt I v q with
  | some x =>
    obtain ⟨b, rfl⟩ := node_pathOf (hq.symm ▸ hold)
    have hnew := hr.keep q _ hold
    obtain ⟨data, hb, -⟩ := h.exists_data hl hold
    rw [byteOf_of_node (hq.symm ▸ hold) hb,
      byteOf_of_node (hq.symm ▸ hnew) ((hr.same_leaf hl hnew).trans hb)]
  | none =>
    have hbefore : fs.byteOf I v m pos = 0 := byteOf_of_none (hq.symm ▸ hold)
    rw [hbefore]
    cases hnew : fs.nodeAt I' v' q with
    | none => exact byteOf_of_none (hq.symm ▸ hnew)
    | some x =>
      obtain ⟨b, rfl⟩ := node_pathOf (hq.symm ▸ hnew)
      by_cases hqρ : q = ρ
      · subst hqρ
        rw [hr.place] at hnew
        cases hnew
        have hzero := hz c (hr.sound.owned q c 0 hr.place).1 (hr.fresh hold)
        rw [byteOf_of_node (hq.symm ▸ hr.place) ((hr.same_leaf hl hr.place).trans hzero),
          byteAt_zeros]
      · rw [hr.leaf q b hqρ hnew] at hold
        cases hold

/-! ## Writing -/

theorem Sound.update_data (h : fs.Sound M I v)
    (hπ : fs.nodeAt I v π = some (.block b 0)) (hlen : data.length = fs.blockSize) :
    fs.Sound M I (update v b (some data)) ∧
      fs.blockUsed (update v b (some data)) = fs.blockUsed v := by
  have hused : fs.blockUsed (update v b (some data)) = fs.blockUsed v := by
    refine blockUsed_congr fun x hx => update_of_ne ?_ _ _
    rintro rfl
    exact (h.owned π x 0 hπ).1 (hl.mem_of_mem_blockRow hx)
  refine ⟨⟨h.covers.update hlen, ?_, ?_, ?_⟩, hused⟩
  · rw [hused]
    exact h.reserved
  · rw [hused, h.nodeAt_update_data hπ]
    exact h.owned
  · rw [h.nodeAt_update_data hπ]
    exact h.once

/-- Its bytes are those of the block that is written, and no others change. -/
theorem Sound.byteOf_update (h : fs.Sound M I v)
    (hc : fs.nodeAt I v (fs.pathOf n l) = some (.block c 0)) (data : List Byte) (m pos : Nat) :
    fs.byteOf I (update v c (some data)) m pos =
      if m = n ∧ pos / fs.blockSize = l then byteAt data (pos % fs.blockSize)
      else fs.byteOf I v m pos := by
  have hnode := h.nodeAt_update_data hc (some data)
  by_cases hpos : m = n ∧ pos / fs.blockSize = l
  · rw [if_pos hpos]
    obtain ⟨rfl, rfl⟩ := hpos
    exact byteOf_of_node (by rw [hnode, hc]) (update_self ..)
  rw [if_neg hpos]
  cases hq : fs.nodeAt I v (fs.pathOf m (pos / fs.blockSize)) with
  | none =>
    rw [byteOf_of_none hq, byteOf_of_none (by rw [hnode, hq])]
  | some x =>
    obtain ⟨b, rfl⟩ := node_pathOf hq
    have hne : b ≠ c := by
      rintro rfl
      exact hpos (pathOf_inj (h.once _ _ _ _ _ hq hc))
    obtain ⟨old, hold, -⟩ := h.exists_data hl hq
    rw [byteOf_of_node hq hold, byteOf_of_node (by rw [hnode, hq])
      ((update_of_ne hne _ _).trans hold)]

end

/-- Inode `n` and its blocks have changed; other files, other inodes, the marks of
    inodes and blocks that are not in use are as they were. -/
structure Changed (fs : Ext2Fs) (M : Set Nat) (n : Nat) (I : Owners) (v : View) (I' : Owners)
    (v' : View) : Prop where
  sound : fs.Sound M I' v'
  owners : ∀ m, m ≠ n → I' m = I m
  stay : ∀ q a, (∀ rest, q ≠ n :: rest) → fs.nodeAt I v q = some a → fs.nodeAt I' v' q = some a
  leaf : ∀ q b, (∀ rest, q ≠ n :: rest) → fs.nodeAt I' v' q = some (.block b 0) →
    fs.nodeAt I v q = some (.block b 0)
  used : ∀ x, fs.blockUsed v x = true → fs.blockUsed v' x = true
  others : ∀ q b, (∀ rest, q ≠ n :: rest) → fs.nodeAt I v q = some (.block b 0) → v' b = v b
  free : ∀ x, x ∉ M → fs.blockUsed v' x = false → v' x = v x
  inodes : ∀ m, m ≠ n → fs.inodeAt v' m = fs.inodeAt v m
  inodeUsed : fs.inodeUsed v' = fs.inodeUsed v

/-- No block of the inode was dropped, and every new mark is for a block of the trees. -/
structure Extended (fs : Ext2Fs) (M : Set Nat) (n : Nat) (I : Owners) (v : View) (I' : Owners)
    (v' : View) : Prop extends Changed fs M n I v I' v' where
  keep : ∀ q a, fs.nodeAt I v q = some a → fs.nodeAt I' v' q = some a
  marked : ∀ x, fs.blockUsed v' x = true →
    fs.blockUsed v x = true ∨ ∃ q k, fs.nodeAt I' v' q = some (.block x k)

theorem Extended.refl (h : fs.Sound M I v) (n : Nat) : fs.Extended M n I v I v where
  sound := h
  owners _ _ := rfl
  stay _ _ _ hq := hq
  leaf _ _ _ hq := hq
  used _ hx := hx
  others _ _ _ _ := rfl
  free _ _ _ := rfl
  inodes _ _ := rfl
  inodeUsed := rfl
  keep _ _ hq := hq
  marked _ hx := .inl hx

theorem Changed.unused (h : fs.Changed M n I v I' v')
    (hx : fs.blockUsed v' x = false) : fs.blockUsed v x = false := by
  cases hv : fs.blockUsed v x with
  | false => rfl
  | true =>
    rw [h.used x hv] at hx
    cases hx

theorem Changed.trans (h₁ : fs.Changed M n I v I₁ v₁) (h₂ : fs.Changed M n I₁ v₁ I₂ v₂) :
    fs.Changed M n I v I₂ v₂ where
  sound := h₂.sound
  owners m hm := (h₂.owners m hm).trans (h₁.owners m hm)
  stay q a hn hq := h₂.stay q a hn (h₁.stay q a hn hq)
  leaf q b hn hq := h₁.leaf q b hn (h₂.leaf q b hn hq)
  used x hx := h₂.used x (h₁.used x hx)
  others q b hn hq := (h₂.others q b hn (h₁.stay q _ hn hq)).trans (h₁.others q b hn hq)
  free x hx hfree := (h₂.free x hx hfree).trans (h₁.free x hx (h₂.unused hfree))
  inodes m hm := (h₂.inodes m hm).trans (h₁.inodes m hm)
  inodeUsed := h₂.inodeUsed.trans h₁.inodeUsed

theorem Extended.trans (h₁ : fs.Extended M n I v I₁ v₁) (h₂ : fs.Extended M n I₁ v₁ I₂ v₂) :
    fs.Extended M n I v I₂ v₂ where
  toChanged := h₁.toChanged.trans h₂.toChanged
  keep q a hq := h₂.keep q a (h₁.keep q a hq)
  marked x hx := by
    rcases h₂.marked x hx with hx₁ | hnode
    · rcases h₁.marked x hx₁ with hx₀ | ⟨q, k, hq⟩
      · exact .inl hx₀
      · exact .inr ⟨q, k, h₂.keep q _ hq⟩
    · exact .inr hnode

theorem Changed.zeroFree (h : fs.Changed M n I v I' v')
    (hz : fs.ZeroFree M v) : fs.ZeroFree M v' := by
  intro x hx hfree
  rw [h.free x hx hfree]
  exact hz x hx (h.unused hfree)

theorem Changed.byteOf_eq (hl : fs.Layout M) (h : fs.Sound M I v) (ht : fs.Changed M n I v I' v')
    (hm : m ≠ n) (pos : Nat) : fs.byteOf I' v' m pos = fs.byteOf I v m pos := by
  have hbelow : ∀ rest, fs.pathOf m (pos / fs.blockSize) ≠ n :: rest := by
    intro rest heq
    exact hm (cons.inj heq).1
  cases hold : fs.nodeAt I v (fs.pathOf m (pos / fs.blockSize)) with
  | some x =>
    obtain ⟨b, rfl⟩ := node_pathOf hold
    obtain ⟨data, hb, -⟩ := h.exists_data hl hold
    rw [byteOf_of_node hold hb, byteOf_of_node (ht.stay _ _ hbelow hold)
      ((ht.others _ b hbelow hold).trans hb)]
  | none =>
    rw [byteOf_of_none hold]
    cases hnew : fs.nodeAt I' v' (fs.pathOf m (pos / fs.blockSize)) with
    | none => exact byteOf_of_none hnew
    | some x =>
      obtain ⟨b, rfl⟩ := node_pathOf hnew
      rw [ht.leaf _ b hbelow hnew] at hold
      cases hold

/-- A new block has got a place in the trees of inode `n`, perhaps that of another. -/
theorem Fresh.changed (hl : fs.Layout M) (h : fs.Sound M I v) (hf : fs.Fresh M I v c v₁)
    (hp : fs.Placed M n I v₁ c (n :: rest) I' v') : fs.Changed M n I v I' v' := by
  have hnode := hf.nodeAt_eq hl h
  have hinodes := hl.inodes_eq_of_fixed v v' fun x hx hmaps => by
    rw [hp.same x hmaps fun q k hq => (hp.sound.owned q x _ hq).1 hx]
    refine hf.same x hmaps ?_
    rintro rfl
    exact hf.notMem hx
  constructor
  case inodes => exact fun m _ => by rw [hinodes.1]
  case inodeUsed => exact hinodes.2
  case sound => exact hp.sound
  case owners => exact hp.owners
  case stay =>
    intro q a hq ha
    exact hp.keep q a (hq rest) (by rw [hnode, ha])
  case leaf =>
    intro q b hq hb
    rw [← hnode]
    exact hp.leaf q b (hq rest) hb
  case used =>
    intro x hx
    exact hp.used x (by rw [hf.used, hx, ite_self])
  case others =>
    intro q b hq hb
    have hb' := hp.keep q _ (hq rest) (by rw [hnode, hb])
    obtain ⟨hbM, hbu⟩ := h.owned q b 0 hb
    rw [hp.same_leaf hl hb']
    refine hf.same b (mt hl.mem_of_mem_blockRow hbM) ?_
    rintro rfl
    rw [hf.free] at hbu
    cases hbu
  case free =>
    intro x hx hfree
    obtain ⟨hsame, hnot⟩ := hp.same_free hl hx hfree
    refine hsame.trans (hf.same x (mt hl.mem_of_mem_blockRow hx) ?_)
    rintro rfl
    exact hnot _ _ hp.place

/-- The block that was found or made is written. -/
theorem Ready.wrote (hl : fs.Layout M) (hr : fs.Ready M n I v (fs.pathOf n l) c I' v')
    (hlen : data.length = fs.blockSize) : fs.Extended M n I v I' (update v' c (some data)) := by
  obtain ⟨hsound, hused⟩ := hr.sound.update_data hl hr.place hlen
  have hnode := hr.sound.nodeAt_update_data hr.place (some data)
  have hbelow : ∀ q, (∀ rest, q ≠ n :: rest) → q ≠ fs.pathOf n l := fun q hq => hq _
  have hinodes := hl.inodes_eq_of_fixed v (update v' c (some data))
    fun x hx hmaps => by
      rw [update_of_ne]
      · exact hr.same x hmaps fun q k hq => (hr.sound.owned q x _ hq).1 hx
      · rintro rfl
        exact (hr.sound.owned _ _ _ hr.place).1 hx
  refine ⟨?_, by rw [hnode]; exact hr.keep, by rw [hused, hnode]; exact hr.marked⟩
  constructor
  case inodes => exact fun m _ => by rw [hinodes.1]
  case inodeUsed => exact hinodes.2
  case sound => exact hsound
  case owners => exact hr.owners
  case stay =>
    intro q a _ ha
    rw [hnode]
    exact hr.keep q a ha
  case leaf =>
    intro q b hq hb
    rw [hnode] at hb
    exact hr.leaf q b (hbelow q hq) hb
  case used =>
    rw [hused]
    exact hr.used
  case others =>
    intro q b hq hb
    have hb' := hr.keep q _ hb
    have hne : b ≠ c := by
      rintro rfl
      exact hbelow q hq (hr.sound.once _ _ _ _ _ hb' hr.place)
    rw [update_of_ne hne, hr.same_leaf hl hb']
  case free =>
    intro x hx hfree
    rw [hused] at hfree
    obtain ⟨hsame, hnot⟩ := hr.same_free hl hx hfree
    rw [update_of_ne, hsame]
    rintro rfl
    exact hnot _ _ hr.place

/-- The bytes of a file after a write. -/
def written (data : List Byte) (n offset : Nat) (bytes : Nat → Nat → Byte) (m pos : Nat) : Byte :=
  if m = n ∧ offset ≤ pos ∧ pos < offset + data.length then byteAt data (pos - offset)
  else bytes m pos

theorem written_append (first second : List Byte) (n offset : Nat) (bytes : Nat → Nat → Byte) :
    written second n (offset + first.length) (written first n offset bytes) =
      written (first ++ second) n offset bytes := by
  funext m pos
  unfold written
  rw [length_append]
  by_cases hm : m = n
  · by_cases hsecond : offset + first.length ≤ pos ∧ pos < offset + first.length + second.length
    · rw [if_pos ⟨hm, hsecond⟩, if_pos ⟨hm, by omega⟩, byteAt, byteAt,
        getD_append_right _ _ _ _ (by omega), Nat.sub_sub]
    rw [if_neg fun h => hsecond h.2]
    by_cases hfirst : offset ≤ pos ∧ pos < offset + first.length
    · rw [if_pos ⟨hm, hfirst⟩, if_pos ⟨hm, by omega⟩, byteAt, byteAt,
        getD_append _ _ _ _ (by omega)]
    · rw [if_neg fun h => hfirst h.2, if_neg (by omega)]
  · rw [if_neg fun h => hm h.1, if_neg fun h => hm h.1, if_neg fun h => hm h.1]

/-- One round of the write loop, after the block has been found. -/
theorem Ready.byteOf_copy (hl : fs.Layout M) (h : fs.Sound M I v) (hz : fs.ZeroFree M v)
    (hr : fs.Ready M n I v (fs.pathOf n (offset / fs.blockSize)) c I' v') (hold : v' c = some old)
    (hfit : offset % fs.blockSize + chunk.length ≤ fs.blockSize)
    (hdata : ∀ i, i < fs.blockSize → byteAt data' i =
      if offset % fs.blockSize ≤ i ∧ i < offset % fs.blockSize + chunk.length then
        byteAt chunk (i - offset % fs.blockSize)
      else byteAt old i) :
    fs.byteOf I' (update v' c (some data')) = written chunk n offset (fs.byteOf I v) := by
  have hbs := Nat.pos_of_ne_zero hl.blockSize_ne_zero
  funext m pos
  unfold written
  rw [hr.sound.byteOf_update hl hr.place, ← hr.byteOf_eq hl h hz]
  have hmod := Nat.mod_lt pos hbs
  have hpos := Nat.div_add_mod pos fs.blockSize
  have hoff := Nat.div_add_mod offset fs.blockSize
  by_cases hblock : m = n ∧ pos / fs.blockSize = offset / fs.blockSize
  · obtain ⟨rfl, heq⟩ := hblock
    rw [if_pos ⟨rfl, heq⟩, hdata _ hmod]
    rw [heq] at hpos
    by_cases hin : offset % fs.blockSize ≤ pos % fs.blockSize ∧
        pos % fs.blockSize < offset % fs.blockSize + chunk.length
    · rw [if_pos hin, if_pos ⟨rfl, by omega⟩]
      congr 1
      omega
    · rw [if_neg hin, if_neg (by omega)]
      exact (byteOf_of_node (by rw [heq]; exact hr.place) hold).symm
  · rw [if_neg hblock, if_neg]
    rintro ⟨rfl, hle, hlt⟩
    refine hblock ⟨rfl, ?_⟩
    -- the chunk does not leave its block
    have hlo : offset / fs.blockSize ≤ pos / fs.blockSize := Nat.div_le_div_right hle
    have hhi : pos / fs.blockSize < offset / fs.blockSize + 1 := by
      rw [Nat.div_lt_iff_lt_mul hbs, Nat.add_mul, Nat.mul_comm]
      omega
    omega

/-- The write loop has written `data` from `offset` on, and the inode may have other
    pointers. -/
structure WroteData (fs : Ext2Fs) (M : Set Nat) (n : Nat) (I : Owners) (v : View) (inode : Inode)
    (offset : Nat) (data : List Byte) (inode' : Inode) (v' : View) : Prop where
  fields : ∃ f, inode' = { inode with block := f }
  wrote : fs.Extended M n I v (update I n (some inode')) v'
  bytes : fs.ZeroFree M v → fs.byteOf (update I n (some inode')) v' =
    written data n offset (fs.byteOf I v)

theorem WroteData.nil (h : fs.Sound M I v) (hn : I n = some inode)
    (offset : Nat) : fs.WroteData M n I v inode offset [] inode v := by
  have hself : update I n (some inode) = I := update_eq_self_iff.mpr hn.symm
  refine ⟨⟨inode.block, rfl⟩, by rw [hself]; exact .refl h n, fun _ => ?_⟩
  rw [hself]
  funext m pos
  rw [written, if_neg (by simp only [length_nil]; omega)]

theorem WroteData.trans (h₁ : fs.WroteData M n I v inode offset first inode₁ v₁)
    (h₂ : fs.WroteData M n (update I n (some inode₁)) v₁ inode₁ (offset + first.length) second
      inode₂ v₂) :
    fs.WroteData M n I v inode offset (first ++ second) inode₂ v₂ := by
  obtain ⟨f₁, hf₁⟩ := h₁.fields
  obtain ⟨f₂, hf₂⟩ := h₂.fields
  have hwrote := h₂.wrote
  have hbytes := h₂.bytes
  rw [update_idem] at hwrote hbytes
  refine ⟨⟨f₂, by rw [hf₂, hf₁]⟩, h₁.wrote.trans hwrote, fun hz => ?_⟩
  rw [hbytes (h₁.wrote.toChanged.zeroFree hz), h₁.bytes hz, written_append]

theorem Sound.writeDataFrom_gives (hl : fs.Layout M) :
    ∀ {I : Owners} {d : Disk} {inode : Inode} {offset : Nat} {data : List Byte},
    fs.Sound M I (fs.view d) → I n = some inode → data.length ≤ rounds →
    offset + data.length ≤ fs.maxBlocks * fs.blockSize →
    Comp.Gives (writeDataFrom p fs rounds inode offset data) d fun inode' d' =>
      fs.WroteData M n I (fs.view d) inode offset data inode' (fs.view d') := by
  have hbs := Nat.pos_of_ne_zero hl.blockSize_ne_zero
  induction rounds with
  | zero =>
    intro I d inode offset data h hn hrounds _
    obtain rfl := length_eq_zero_iff.mp (Nat.le_zero.mp hrounds)
    exact .pure (.nil h hn offset)
  | succ rounds ih =>
    intro I d inode offset data h hn hrounds hmax
    unfold writeDataFrom
    by_cases hnil : data = []
    · rw [hnil]
      exact .pure (.nil h hn offset)
    rw [if_neg hnil]
    have hpos : 0 < data.length := length_pos_iff.mpr hnil
    have hmod := Nat.mod_lt offset hbs
    have hblock : offset / fs.blockSize < 2 ^ 32 := by
      have hlt : offset / fs.blockSize < fs.maxBlocks := by
        rw [Nat.div_lt_iff_lt_mul hbs]
        omega
      have := hl.maxBlocks_le
      omega
    refine .bind_of_ok (divide_eq hl.blockSize_ne_zero d) ?_
    rw [Nat.mod_eq_of_lt hblock]
    refine (h.blockFor_gives hl hn hblock).bind ?_
    rintro ⟨inode', c⟩ d₁ ⟨hfields, hready⟩
    dsimp only at hfields hready ⊢
    generalize hcopy : min data.length (fs.blockSize - offset % fs.blockSize) = copyLen
    have hchunk : (data.take copyLen).length = copyLen := by
      rw [length_take]
      omega
    obtain ⟨old, hold, holdlen⟩ := hready.sound.exists_data hl hready.place
    -- what is left to do once the block is read, or made up when it is written whole
    have hrest : ∀ base data', base.length = fs.blockSize →
        (∀ i, i < fs.blockSize →
          ¬ (offset % fs.blockSize ≤ i ∧ i < offset % fs.blockSize + copyLen) →
          byteAt base i = byteAt old i) →
        copyAt base (offset % fs.blockSize) (data.take copyLen) = some data' →
        Comp.Gives (do
          fs.writeBlock c.toNat data'
          writeDataFrom p fs rounds inode' (offset + copyLen) (data.drop copyLen)) d₁
          fun inode'' d' =>
            fs.WroteData M n I (fs.view d) inode offset data inode'' (fs.view d') := by
      intro base data' hbaselen hbytes hcopyAt
      have hlen' := (length_of_copyAt hcopyAt).trans hbaselen
      refine (hl.writeBlock_gives hlen' _ d₁).bind fun _ d₂ hview => ?_
      have hfirst : fs.WroteData M n I (fs.view d) inode offset (data.take copyLen) inode'
          (fs.view d₂) := by
        rw [hview]
        refine ⟨hfields, hready.wrote hl hlen', fun hz => ?_⟩
        refine hready.byteOf_copy hl h hz hold (by omega) fun i hi => ?_
        rw [byteAt_of_copyAt hcopyAt]
        by_cases hin : offset % fs.blockSize ≤ i ∧
            i < offset % fs.blockSize + (data.take copyLen).length
        · rw [if_pos hin, if_pos hin]
        · rw [if_neg hin, if_neg hin, hbytes i hi (by rw [← hchunk]; exact hin)]
      refine (ih hfirst.wrote.sound (update_self ..) (by rw [length_drop]; omega)
        (by rw [length_drop]; omega)).mono fun inode'' d' hsecond => ?_
      rw [← hchunk] at hsecond
      have hboth := hfirst.trans hsecond
      rwa [hchunk, take_append_drop] at hboth
    by_cases hwhole : offset % fs.blockSize = 0 ∧ copyLen = fs.blockSize
    · rw [if_pos hwhole]
      exact .bind_of_ok rfl (.bind_orPanic fun data' => hrest _ data' (length_zeros _)
        fun i hi hout => absurd ⟨by omega, by omega⟩ hout)
    rw [if_neg hwhole]
    refine (hl.readBlock_reads c.toNat d₁).gives_bind fun base hbase => ?_
    cases hold.symm.trans hbase
    exact .bind_orPanic fun data' => hrest old data' holdlen fun _ _ _ => rfl

end OpenOS.Fs.Ext2.Ext2Fs
