/-
  `set_block_pointer` on a sound volume: pointer blocks are added on the way to
  a logical block, the new block is put at the end of its path, and no other path
  leads anywhere else than before.
-/

import OpenOS.Fs.Ext2.Forest

namespace OpenOS.Fs.Ext2

open Function Base Base.Comp Base.RadixTree Option List

/-! ## Pointers in a block -/

theorem u32At_writeU32 (h : writeU32 data offset c = some data') : u32At data' offset = c := by
  have hwin := window_copyAt_self h
  rw [length_leBytes] at hwin
  rw [u32At, hwin]
  exact ofNat_leNat_leBytes (n := 4) c

theorem u32At_writeU32_of_disjoint (h : writeU32 data offset c = some data')
    (hdisj : o + 4 ≤ offset ∨ offset + 4 ≤ o) : u32At data' o = u32At data o := by
  rw [u32At, window_copyAt_of_disjoint h (by rw [length_leBytes]; exact hdisj), u32At]

theorem u32At_zeros (h : offset + 4 ≤ n) : u32At (zeros n) offset = 0 := by
  rw [u32At, zeros, window_replicate h]
  rfl

theorem add_le_of_writeU32
    (h : writeU32 data offset c = some data') : offset + 4 ≤ data.length := by
  unfold writeU32 copyAt at h
  split at h
  · rename_i hle
    rwa [length_leBytes] at hle
  · cases h

namespace Ext2Fs

variable {fs : Ext2Fs}

theorem node_below
    (hπ : fs.nodeAt I v π = some (.block b (k + 1))) (hx : fs.nodeAt I v (π ++ [i]) = some x) :
    ∃ c, x = .block c k := by
  rw [nodeAt_concat, hπ, bind_some] at hx
  obtain ⟨c, -, hc⟩ := bind_eq_some_iff.mp hx
  exact ⟨c.toNat, (eq_of_child hc).2⟩

theorem pointer_update (hdata : v b = some data) (hlen : data.length = fs.blockSize)
    (hw : writeU32 data (i * 4) c = some data') (x j : Nat) :
    fs.pointer (update v b (some data')) x j =
      if x = b ∧ j = i then some c else fs.pointer v x j := by
  unfold pointer
  by_cases hx : x = b
  · subst hx
    rw [update_self, hdata, bind_some]
    have hle := add_le_of_writeU32 hw
    by_cases hj : j = i
    · subst hj
      rw [if_neg (by omega), if_pos ⟨rfl, rfl⟩, u32At_writeU32 hw]
    · rw [u32At_writeU32_of_disjoint hw (by omega)]
      exact (if_neg fun h => hj h.2).symm
  · rw [update_of_ne hx, if_neg fun h => hx h.1]

theorem links_zeros (h : v b = some (zeros fs.blockSize)) (k j : Nat) :
    fs.links I v (.block b k) j = none := by
  cases k with
  | zero => rfl
  | succ k =>
    simp only [links, pointer, h, bind_some]
    split
    · rfl
    · rw [u32At_zeros (by omega)]
      rfl

theorem links_congr (h : ∀ b k, x = .block b (k + 1) → v' b = v b) :
    fs.links I v' x = fs.links I v x := by
  funext j
  rcases x with - | n | ⟨b, - | k⟩
  · rfl
  · rfl
  · rfl
  · simp [links, pointer, h b k rfl]

theorem Sound.ne_of_node (h : fs.Sound M I v) (hπ : fs.nodeAt I v π = some (.block b k))
    (hρ : fs.nodeAt I v ρ = some (.block b' k')) (hne : Node.block b' k' ≠ .block b k) :
    b' ≠ b := by
  rintro rfl
  exact hne (by rw [h.height_eq hπ hρ])

theorem Sound.nodeAt_setPointer (h : fs.Sound M I v)
    (hπ : fs.nodeAt I v π = some (.block b (k + 1))) (hdata : v b = some data)
    (hlen : data.length = fs.blockSize) (hw : writeU32 data (i * 4) c = some data')
    (hbefore : ∀ j, fs.nodeAt I v (π ++ [i] ++ [j]) = none)
    (hv' : ∀ x k', (∃ ρ, fs.nodeAt I v ρ = some (.block x (k' + 1))) →
      v' x = update v b (some data') x)
    (hafter : ∀ j, fs.links I v' (.block c.toNat k) j = none) :
    fs.nodeAt I v' = update (fs.nodeAt I v) (π ++ [i]) (child k c) := by
  refine h.nodeAt_eq_update hπ hbefore ?_ ?_ ?_
  · intro j
    have hsame : fs.links I v' (.block b (k + 1)) =
        fs.links I (update v b (some data')) (.block b (k + 1)) := by
      refine links_congr ?_
      rintro x k' ⟨⟩
      exact hv' b k ⟨π, hπ⟩
    rw [hsame]
    simp only [links, pointer_update hdata hlen hw, true_and]
    by_cases hj : j = i
    · rw [if_pos hj, if_pos hj, bind_some]
    · rw [if_neg hj, if_neg hj]
  · intro ρ x hρ hx
    refine links_congr ?_
    rintro b' k' rfl
    rw [hv' b' k' ⟨ρ, hρ⟩]
    exact update_of_ne (h.ne_of_node hπ hρ hx) _ _
  · intro x hx
    obtain ⟨-, rfl⟩ := eq_of_child hx
    exact hafter

/-! ## Growing -/

/-- Only inode `n`, pointer blocks and bitmaps were written, and what was marked is in a tree. -/
structure Adds (fs : Ext2Fs) (M : Set Nat) (n : Nat) (I : Owners) (v : View) (I' : Owners)
    (v' : View) : Prop where
  sound : fs.Sound M I' v'
  owners : ∀ m, m ≠ n → I' m = I m
  used : ∀ x, fs.blockUsed v x = true → fs.blockUsed v' x = true
  marked : ∀ x, fs.blockUsed v' x = true →
    fs.blockUsed v x = true ∨ ∃ q k, fs.nodeAt I' v' q = some (.block x k)
  same : ∀ x, x ∉ fs.blockRow.maps →
    (∀ q k, fs.nodeAt I' v' q ≠ some (.block x (k + 1))) → v' x = v x

theorem Sound.adds_self (h : fs.Sound M I v) (n : Nat) : fs.Adds M n I v I v where
  sound := h
  owners _ _ := rfl
  used _ hx := hx
  marked _ hx := .inl hx
  same _ _ _ := rfl

/-- Pointer blocks were added to the trees, for inode `n`. -/
structure Grows (fs : Ext2Fs) (M : Set Nat) (n : Nat) (I : Owners) (v : View) (I' : Owners)
    (v' : View) : Prop extends fs.Adds M n I v I' v' where
  keep : ∀ q a, fs.nodeAt I v q = some a → fs.nodeAt I' v' q = some a
  leaf : ∀ q b, fs.nodeAt I' v' q = some (.block b 0) → fs.nodeAt I v q = some (.block b 0)

theorem Grows.refl (h : fs.Sound M I v) (n : Nat) : fs.Grows M n I v I v :=
  ⟨h.adds_self n, fun _ _ hq => hq, fun _ _ hq => hq⟩

theorem Grows.trans (h₁ : fs.Grows M n I v I₁ v₁) (h₂ : fs.Grows M n I₁ v₁ I₂ v₂) :
    fs.Grows M n I v I₂ v₂ where
  sound := h₂.sound
  owners m hm := (h₂.owners m hm).trans (h₁.owners m hm)
  keep q a hq := h₂.keep q a (h₁.keep q a hq)
  leaf q b hq := h₁.leaf q b (h₂.leaf q b hq)
  used x hx := h₂.used x (h₁.used x hx)
  marked x hx := by
    rcases h₂.marked x hx with hx₁ | hnode
    · rcases h₁.marked x hx₁ with hx₀ | ⟨q, k, hq⟩
      · exact .inl hx₀
      · exact .inr ⟨q, k, h₂.keep q _ hq⟩
    · exact .inr hnode
  same x hx hnot := by
    rw [h₂.same x hx hnot]
    exact h₁.same x hx fun q k hq => hnot q k (h₂.keep q _ hq)

/-- A new pointer block has got its place. -/
theorem Fresh.grows (hl : fs.Layout M) (h : fs.Sound M I v) (hf : fs.Fresh M I v c v₁)
    (hρ : fs.nodeAt I v ρ = none) (howners : ∀ m, m ≠ n → I' m = I m)
    (hnode : fs.nodeAt I' v' = update (fs.nodeAt I v₁) ρ (some (.block c (k + 1))))
    (hcov : fs.Covers v') (hused : fs.blockUsed v' = fs.blockUsed v₁)
    (hsame : ∀ x, x ≠ c → (∀ q k, fs.nodeAt I v q ≠ some (.block x (k + 1))) → v' x = v₁ x) :
    fs.Grows M n I v I' v' := by
  have hnode' : fs.nodeAt I' v' = update (fs.nodeAt I v) ρ (some (.block c (k + 1))) := by
    rw [hnode, hf.nodeAt_eq hl h]
  have hcu : fs.blockUsed v₁ c = true := by rw [hf.used, if_pos rfl]
  have hkeep : ∀ q a, fs.nodeAt I v q = some a → fs.nodeAt I' v' q = some a := by
    intro q a hq
    rw [hnode', update_of_ne, hq]
    rintro rfl
    rw [hρ] at hq
    cases hq
  refine ⟨⟨hf.sound.link hf.notMem hcu hnode hcov hused, howners, ?used, ?marked, ?same⟩, hkeep,
    ?leaf⟩
  case leaf =>
    intro q b hq
    rw [hnode', update_apply] at hq
    split at hq
    · cases hq
    · exact hq
  case used =>
    intro x hx
    rw [hused, hf.used, hx, ite_self]
  case marked =>
    intro x hx
    rw [hused, hf.used] at hx
    split at hx
    · rename_i hxc
      refine .inr ⟨ρ, k + 1, ?_⟩
      rw [hnode', update_self, hxc]
    · exact .inl hx
  case same =>
    intro x hx hnot
    have hxc : x ≠ c := by
      rintro rfl
      refine hnot ρ k ?_
      rw [hnode', update_self]
    rw [hsame x hxc fun q k hq => hnot q k (hkeep q _ hq), hf.same x hx hxc]

variable {b : BitVec 32}

/-- The block behind an entry of a pointer block above the lowest. -/
theorem Sound.childOf_gives (hl : fs.Layout M) (h : fs.Sound M I (fs.view d)) (n : Nat)
    (hi : i * 4 < 2 ^ 32) (hπ : fs.nodeAt I (fs.view d) π = some (.block b.toNat (k + 2))) :
    Gives (childOf p fs b i) d fun c d' => fs.Grows M n I (fs.view d) I (fs.view d') ∧
      fs.nodeAt I (fs.view d') (π ++ [i]) = some (.block c.toNat (k + 1)) := by
  have hentry : fs.nodeAt I (fs.view d) (π ++ [i]) =
      (fs.pointer (fs.view d) b.toNat i).bind (child (k + 1)) := by
    rw [nodeAt_concat, hπ]
    rfl
  refine (hl.readBlock_reads b.toNat d).gives_bind fun data hdata =>
    .bind_of_ok (u32_eq hi d) (.bind_orPanic fun c hc => ?_)
  have hlen := hl.length_view hdata
  replace hc : fs.pointer (fs.view d) b.toNat i = some c := by
    unfold readU32 at hc
    split at hc
    · rwa [pointer, hdata, bind_some, if_neg (by omega)]
    · cases hc
  rw [hc, bind_some] at hentry
  by_cases hzero : c = 0
  · rw [if_pos hzero]
    subst hzero
    refine (h.needBlock_gives hl).bind fun new d₁ hgot => ?_
    obtain ⟨hnew, hf, -⟩ := hgot
    refine .bind_orPanic fun data' hw => ?_
    have hbM := (h.owned π _ _ hπ).1
    have hbc : new.toNat ≠ b.toNat := by
      intro heq
      have hfree := hf.free
      rw [heq, (h.owned π _ _ hπ).2] at hfree
      cases hfree
    have hdata₁ : fs.view d₁ b.toNat = some data :=
      (hf.same _ (mt hl.mem_of_mem_blockRow hbM) hbc.symm).trans hdata
    refine (hl.writeBlock_gives ((length_of_copyAt hw).trans hlen) _ d₁).bind fun _ d₂ hview₂ =>
      (hl.writeBlock_gives (length_zeros fs.blockSize) _ d₂).bind fun _ d₃ hview₃ => .pure ?_
    rw [hview₂] at hview₃
    have hnode : fs.nodeAt I (fs.view d₃) = update (fs.nodeAt I (fs.view d₁)) (π ++ [i])
        (child (k + 1) new) := by
      refine hf.sound.nodeAt_setPointer ((congrFun (hf.nodeAt_eq hl h) π).trans hπ) hdata₁ hlen hw
        ?_ ?_ ?_
      · intro j
        rw [hf.nodeAt_eq hl h, nodeAt_concat, hentry]
        rfl
      · rintro x k' ⟨ρ, hρ⟩
        rw [hview₃, update_of_ne]
        rintro rfl
        exact (hf.sound.owned ρ _ _ hρ).1 (.inl rfl)
      · refine links_zeros ?_ (k + 1)
        rw [hview₃, update_self]
    rw [child_of_ne hnew] at hnode
    refine ⟨hf.grows hl h hentry (fun _ _ => rfl) hnode ?_ ?_ ?_, ?_⟩
    · rw [hview₃]
      exact (hf.sound.covers.update ((length_of_copyAt hw).trans hlen)).update (length_zeros _)
    · refine blockUsed_congr fun x hx => ?_
      have hxM := hl.mem_of_mem_blockRow hx
      rw [hview₃, update_of_ne, update_of_ne]
      · rintro rfl
        exact hbM hxM
      · rintro rfl
        exact hf.notMem hxM
    · intro x hxc hnot
      rw [hview₃, update_of_ne hxc, update_of_ne]
      rintro rfl
      exact hnot π _ hπ
    · rw [hnode, update_self]
  · rw [if_neg hzero]
    refine .pure ⟨.refl h n, ?_⟩
    rw [hentry, child_of_ne hzero]

theorem block_setBlock_self (inode : Inode) (r : Fin 15) (c : BitVec 32) :
    (inode.setBlock r c).block r = c := update_self ..

theorem links_setBlock (hn : I n = some inode) (r : Fin 15) (c : BitVec 32) (v' : View) (j : Nat) :
    fs.links (update I n (some (inode.setBlock r c))) v' (.inode n) j =
      if j = r.val then child (heightOf r.val) c else fs.links I v (.inode n) j := by
  simp only [links, update_self, hn, bind_some, Inode.setBlock]
  by_cases hj : j = r.val
  · subst hj
    rw [dif_pos r.isLt, if_pos rfl, update_self]
  rw [if_neg hj]
  by_cases hlt : j < 15
  · rw [dif_pos hlt, dif_pos hlt, update_of_ne]
    intro h
    exact hj (congrArg Fin.val h)
  · rw [dif_neg hlt, dif_neg hlt]

/-- An owner stays one, so that no other node has other links. -/
theorem links_update_owner (hn : I n = some inode) (hx : x ≠ .inode n)
    (hv : ∀ b k, x = .block b (k + 1) → v' b = v b) :
    fs.links (update I n (some inode')) v' x = fs.links I v x := by
  rw [← links_congr hv]
  funext j
  rcases x with - | m | ⟨b, - | k⟩
  · simp only [links]
    by_cases hj : j = n
    · rw [hj, update_self, hn]
      rfl
    · rw [update_of_ne hj]
  · have hm : m ≠ n := by
      rintro rfl
      exact hx rfl
    simp [links, update_of_ne hm]
  · rfl
  · rfl

theorem nodeAt_inode (hn : I n = some inode) : fs.nodeAt I v [n] = some (.inode n) := by
  rw [← nil_append [n], nodeAt_concat, nodeAt_nil, bind_some]
  simp [links, hn]

theorem nodeAt_root (fs : Ext2Fs) (v : View) (hn : I n = some inode) (r : Fin 15) :
    fs.nodeAt I v [n, r.val] = child (heightOf r.val) (inode.block r) := by
  rw [nodeAt_cons_cons hn r []]
  exact bind_fun_some _

theorem Sound.nodeAt_setBlock (h : fs.Sound M I v) (hn : I n = some inode) (v' : View)
    (hbefore : ∀ j, fs.nodeAt I v ([n, r.val] ++ [j]) = none)
    (hv : ∀ x k, (∃ ρ, fs.nodeAt I v ρ = some (.block x (k + 1))) → v' x = v x)
    (hafter : ∀ j, fs.links I v' (.block c.toNat (heightOf r.val)) j = none) :
    fs.nodeAt (update I n (some (inode.setBlock r c))) v' =
      update (fs.nodeAt I v) [n, r.val] (child (heightOf r.val) c) := by
  refine h.nodeAt_eq_update (nodeAt_inode hn) hbefore (links_setBlock hn r c v') ?_ ?_
  · intro ρ x hρ hx
    refine links_update_owner hn hx ?_
    rintro b k rfl
    exact hv b k ⟨ρ, hρ⟩
  · intro x hx j
    obtain ⟨-, rfl⟩ := eq_of_child hx
    rw [← hafter j]
    exact congrFun (links_update_owner (x := .block c.toNat _) hn nofun fun _ _ _ => rfl) j

/-- The inode with a pointer block behind one of its last three pointers. -/
theorem Sound.ensureRoot_gives (hl : fs.Layout M) (h : fs.Sound M I (fs.view d))
    (hn : I n = some inode) (hr : heightOf r.val = k + 1) :
    Gives (ensureRoot p fs inode r) d fun inode' d' =>
      (∃ f, inode' = { inode with block := f }) ∧
      fs.Grows M n I (fs.view d) (update I n (some inode')) (fs.view d') ∧
      fs.nodeAt (update I n (some inode')) (fs.view d') [n, r.val] =
        some (.block (inode'.block r).toNat (k + 1)) := by
  have hroot := nodeAt_root fs (fs.view d) hn r
  rw [hr] at hroot
  unfold ensureRoot
  by_cases hzero : inode.block r = 0
  · rw [if_pos hzero]
    rw [hzero] at hroot
    refine (h.needBlock_gives hl).bind fun new d₁ ⟨hnew, hf, _⟩ => ?_
    refine (hl.writeBlock_gives (length_zeros fs.blockSize) _ d₁).bind fun _ d₂ hview =>
      .pure ⟨⟨_, rfl⟩, ?_⟩
    have hnode := hf.sound.nodeAt_setBlock hn (r := r) (c := new) (fs.view d₂) ?_ ?_ ?_
    · rw [hr, child_of_ne hnew] at hnode
      refine ⟨hf.grows hl h hroot ?_ hnode ?_ ?_ ?_, ?_⟩
      · intro m hm
        exact update_of_ne hm _ _
      · rw [hview]
        exact hf.sound.covers.update (length_zeros _)
      · refine blockUsed_congr fun x hx => ?_
        rw [hview, update_of_ne]
        rintro rfl
        exact hf.notMem (hl.mem_of_mem_blockRow hx)
      · intro x hxc _
        rw [hview, update_of_ne hxc]
      · rw [hnode, update_self, block_setBlock_self]
    · intro j
      rw [hf.nodeAt_eq hl h, nodeAt_concat, hroot]
      rfl
    · rintro x k' ⟨ρ, hρ⟩
      rw [hview, update_of_ne]
      rintro rfl
      exact (hf.sound.owned ρ _ _ hρ).1 (.inl rfl)
    · refine links_zeros ?_ _
      rw [hview, update_self]
  · rw [if_neg hzero]
    refine .pure ⟨⟨inode.block, rfl⟩, ?_⟩
    rw [update_eq_self_iff.mpr hn.symm]
    exact ⟨.refl h n, by rw [hroot, child_of_ne hzero]⟩

/-! ## Placing a block -/

/-- The new block `c` was put at the path `ρ`, for inode `n`, and pointer blocks were
    added on the way to it. -/
structure Placed (fs : Ext2Fs) (M : Set Nat) (n : Nat) (I : Owners) (v : View) (c : Nat)
    (ρ : List Nat) (I' : Owners) (v' : View) : Prop extends fs.Adds M n I v I' v' where
  place : fs.nodeAt I' v' ρ = some (.block c 0)
  keep : ∀ q a, q ≠ ρ → fs.nodeAt I v q = some a → fs.nodeAt I' v' q = some a
  leaf : ∀ q b, q ≠ ρ → fs.nodeAt I' v' q = some (.block b 0) → fs.nodeAt I v q = some (.block b 0)

/-- The block `c` was linked at the path `ρ`, where no pointer block was. -/
structure Linked (fs : Ext2Fs) (I : Owners) (v : View) (c : Nat) (ρ : List Nat) (I' : Owners)
    (v' : View) : Prop where
  node : fs.nodeAt I' v' = update (fs.nodeAt I v) ρ (some (.block c 0))
  before : ∀ b k, fs.nodeAt I v ρ ≠ some (.block b (k + 1))
  covers : fs.Covers v'
  used : fs.blockUsed v' = fs.blockUsed v
  same : ∀ x, (∀ q k, fs.nodeAt I v q ≠ some (.block x (k + 1))) → v' x = v x

theorem Grows.placed (h : fs.Grows (insert c M) n I v I₁ v₁)
    (hs : fs.Sound (insert c M) I v) (hc : c ∉ M) (hcu : fs.blockUsed v c = true)
    (howners : ∀ m, m ≠ n → I' m = I₁ m) (hlink : fs.Linked I₁ v₁ c ρ I' v') :
    fs.Placed M n I v c ρ I' v' where
  sound := h.sound.link hc (h.used c hcu) hlink.node hlink.covers hlink.used
  owners m hm := (howners m hm).trans (h.owners m hm)
  place := by rw [hlink.node, update_self]
  keep q a hq ha := by
    rw [hlink.node, update_of_ne hq]
    exact h.keep q a ha
  leaf q b hq hb := by
    rw [hlink.node, update_of_ne hq] at hb
    exact h.leaf q b hb
  used x hx := by
    rw [hlink.used]
    exact h.used x hx
  marked x hx := by
    rw [hlink.used] at hx
    rcases h.marked x hx with hx | ⟨q, k, hq⟩
    · exact .inl hx
    by_cases hqρ : q = ρ
    · subst hqρ
      -- what the block takes the place of was there before
      cases k with
      | zero => exact .inl (hs.owned q x 0 (h.leaf q x hq)).2
      | succ k => exact absurd hq (hlink.before x k)
    · exact .inr ⟨q, k, by rw [hlink.node, update_of_ne hqρ, hq]⟩
  same x hx hnot := by
    have hnot₁ : ∀ q k, fs.nodeAt I₁ v₁ q ≠ some (.block x (k + 1)) := by
      intro q k hq
      have hqρ : q ≠ ρ := by
        rintro rfl
        exact hlink.before x k hq
      exact hnot q k (by rw [hlink.node, update_of_ne hqρ, hq])
    rw [hlink.same x hnot₁, h.same x hx hnot₁]

section

variable (hl : fs.Layout M) (h : fs.Sound M I (fs.view d))
include hl h

theorem Sound.writeIndirectEntry_gives
    (hc : c ≠ 0) (hi : i * 4 < 2 ^ 32) (hπ : fs.nodeAt I (fs.view d) π = some (.block b.toNat 1)) :
    Gives (writeIndirectEntry p fs b i c) d fun _ d' =>
      fs.Linked I (fs.view d) c.toNat (π ++ [i]) I (fs.view d') := by
  refine (hl.readBlock_reads b.toNat d).gives_bind fun data hdata =>
    .bind_of_ok (u32_eq hi d) (.bind_orPanic fun data' hw => ?_)
  have hlen := hl.length_view hdata
  have hlen' := (length_of_copyAt hw).trans hlen
  refine (hl.writeBlock_gives hlen' _ d).mono fun _ d₁ hview => ?_
  rw [hview]
  constructor
  case node =>
    rw [← child_of_ne hc]
    refine h.nodeAt_setPointer hπ hdata hlen hw ?_ (fun _ _ _ => rfl) fun _ => rfl
    intro j
    rw [nodeAt_concat]
    cases hx : fs.nodeAt I (fs.view d) (π ++ [i]) with
    | none => rfl
    | some x =>
      obtain ⟨c', rfl⟩ := node_below hπ hx
      rfl
  case before =>
    intro x k hx
    obtain ⟨c', hc'⟩ := node_below hπ hx
    cases hc'
  case covers => exact h.covers.update hlen'
  case used =>
    refine blockUsed_congr fun x hx => update_of_ne ?_ _ _
    rintro rfl
    exact (h.owned π _ _ hπ).1 (hl.mem_of_mem_blockRow hx)
  case same =>
    intro x hnot
    refine update_of_ne ?_ _ _
    rintro rfl
    exact hnot π 0 hπ

theorem Sound.setDoubleIndirectEntry_gives (n : Nat) (hc : c ≠ 0) (hi : i < 2 ^ 32)
    (hπ : fs.nodeAt I (fs.view d) π = some (.block b.toNat 2)) :
    Gives (setDoubleIndirectEntry p fs b i c) d fun _ d' =>
      ∃ v₁, fs.Grows M n I (fs.view d) I v₁ ∧
        fs.Linked I v₁ c.toNat (π ++ [i / fs.entriesPerBlock, i % fs.entriesPerBlock]) I
          (fs.view d') := by
  obtain ⟨-, hge, hle⟩ := hl.entries
  have hdiv : i / fs.entriesPerBlock * 4 < 2 ^ 32 := by
    have := Nat.div_le_div_left hge (by decide) (a := i)
    omega
  have hmod := Nat.mod_lt i (show 0 < fs.entriesPerBlock by omega)
  refine .bind_of_ok (divide_eq (by omega) d) ?_
  refine (h.childOf_gives hl n hdiv hπ).bind fun child d₁ ⟨hgrows, hchild⟩ => ?_
  refine (hgrows.sound.writeIndirectEntry_gives hl hc (by omega) hchild).mono fun _ d' hlink => ?_
  refine ⟨fs.view d₁, hgrows, ?_⟩
  rwa [append_assoc] at hlink

theorem Sound.setTripleIndirectEntry_gives (n : Nat) (hc : c ≠ 0) (hi : i < 2 ^ 32)
    (hπ : fs.nodeAt I (fs.view d) π = some (.block b.toNat 3)) :
    Gives (setTripleIndirectEntry p fs b i c) d fun _ d' =>
      ∃ v₁, fs.Grows M n I (fs.view d) I v₁ ∧
        fs.Linked I v₁ c.toNat (π ++ [i / (fs.entriesPerBlock * fs.entriesPerBlock),
          i % (fs.entriesPerBlock * fs.entriesPerBlock) / fs.entriesPerBlock,
          i % (fs.entriesPerBlock * fs.entriesPerBlock) % fs.entriesPerBlock]) I (fs.view d') := by
  have hsq := hl.square_le
  have hne := hl.square_ne_zero
  obtain ⟨hdiv, hmod⟩ := hl.square_bounds hi
  refine .bind_of_ok (u32_eq (by omega) d) (.bind_of_ok (divide_eq hne d) ?_)
  refine (h.childOf_gives hl n hdiv hπ).bind fun child d₁ ⟨hgrows, hchild⟩ => ?_
  refine (hgrows.sound.setDoubleIndirectEntry_gives hl n hc (by omega) hchild).mono ?_
  rintro _ d' ⟨v₂, hgrows₂, hlink⟩
  refine ⟨v₂, hgrows.trans hgrows₂, ?_⟩
  rwa [append_assoc] at hlink

end

theorem Sound.setBlockPointer_gives (hl : fs.Layout M) (hc : c.toNat ∉ M)
    (h : fs.Sound (insert c.toNat M) I (fs.view d)) (hcu : fs.blockUsed (fs.view d) c.toNat = true)
    (hn : I n = some inode) (hll : l < 2 ^ 32) :
    Gives (setBlockPointer p fs inode l c) d fun inode' d' =>
      (∃ f, inode' = { inode with block := f }) ∧
      fs.Placed M n I (fs.view d) c.toNat (fs.pathOf n l) (update I n (some inode'))
        (fs.view d') := by
  have hl' := hl.insert c.toNat
  have hc0 : c ≠ 0 := by
    rintro rfl
    exact hl.ne_zero_of_notMem hc rfl
  have hsq := hl.square_le
  obtain ⟨-, hge, hle⟩ := hl.entries
  have hpath : fs.pathOf n l = n :: (fs.locate l).1.val :: (fs.locate l).2 := rfl
  -- below a root with a pointer block the block is linked, and the inode has the root
  have hbelow : ∀ {inode' : Inode} {d₁ d' : Disk} {is : List Nat} {r : Nat} {v₁ : View},
      fs.Grows (insert c.toNat M) n I (fs.view d) (update I n (some inode')) (fs.view d₁) →
      fs.Grows (insert c.toNat M) n (update I n (some inode')) (fs.view d₁)
        (update I n (some inode')) v₁ →
      fs.Linked (update I n (some inode')) v₁ c.toNat ([n, r] ++ is)
        (update I n (some inode')) (fs.view d') →
      fs.Placed M n I (fs.view d) c.toNat (n :: r :: is) (update I n (some inode'))
        (fs.view d') :=
    fun hgrows hgrows' hlink => (hgrows.trans hgrows').placed h hc hcu (fun _ _ => rfl) hlink
  unfold setBlockPointer directBlocks
  rw [hpath]
  unfold locate
  by_cases h12 : l < 12
  · rw [dif_pos h12, dif_pos h12]
    refine .pure ⟨⟨_, rfl⟩, ?_⟩
    have hheight : heightOf l = 0 := Nat.sub_eq_zero_of_le (by omega)
    have hroot := nodeAt_root fs (fs.view d) hn ⟨l, Nat.lt_trans h12 (by decide)⟩
    rw [hheight] at hroot
    refine (Grows.refl h n).placed h hc hcu (fun m hm => update_of_ne hm _ _) ?_
    constructor
    case node =>
      have hnode := h.nodeAt_setBlock hn (r := ⟨l, Nat.lt_trans h12 (by decide)⟩) (c := c)
        (fs.view d) ?_ (fun _ _ _ => rfl) ?_
      · rwa [hheight, child_of_ne hc0] at hnode
      · intro j
        rw [nodeAt_concat, hroot]
        unfold child
        split <;> rfl
      · rw [hheight]
        exact fun _ => rfl
    case before =>
      intro b k hb
      rw [hroot] at hb
      exact absurd (child_eq_some hb).2.2 (Nat.succ_ne_zero k)
    case covers => exact h.covers
    case used => rfl
    case same => exact fun _ _ => rfl
  · rw [dif_neg h12, dif_neg h12]
    by_cases hsingle : l < 12 + fs.entriesPerBlock
    · rw [if_pos hsingle, if_pos hsingle]
      refine (h.ensureRoot_gives hl' hn rfl).bind ?_
      rintro inode' d₁ ⟨hf, hgrows, hroot⟩
      refine (hgrows.sound.writeIndirectEntry_gives hl' hc0 (by omega) hroot).bind ?_
      intro _ d' hlink
      exact .pure ⟨hf, hbelow hgrows (.refl hgrows.sound n) hlink⟩
    · rw [if_neg hsingle, if_neg hsingle]
      have hbase : tripleBase p fs d =
          .ok (12 + fs.entriesPerBlock + fs.entriesPerBlock * fs.entriesPerBlock) d := by
        unfold tripleBase directBlocks
        rw [bind_of_ok (u32_eq (by omega) d)]
        exact u32_eq (by omega) d
      refine .bind_of_ok hbase ?_
      by_cases hdouble : l < 12 + fs.entriesPerBlock + fs.entriesPerBlock * fs.entriesPerBlock
      · rw [if_pos hdouble, if_pos hdouble]
        refine (h.ensureRoot_gives hl' hn rfl).bind ?_
        rintro inode' d₁ ⟨hf, hgrows, hroot⟩
        refine (hgrows.sound.setDoubleIndirectEntry_gives hl' n hc0 (by omega) hroot).bind ?_
        rintro _ d' ⟨v₂, hgrows₂, hlink⟩
        exact .pure ⟨hf, hbelow hgrows hgrows₂ hlink⟩
      · rw [if_neg hdouble, if_neg hdouble]
        refine (h.ensureRoot_gives hl' hn rfl).bind ?_
        rintro inode' d₁ ⟨hf, hgrows, hroot⟩
        refine (hgrows.sound.setTripleIndirectEntry_gives hl' n hc0 (by omega) hroot).bind ?_
        rintro _ d' ⟨v₂, hgrows₂, hlink⟩
        exact .pure ⟨hf, hbelow hgrows hgrows₂ hlink⟩

end Ext2Fs

end OpenOS.Fs.Ext2
