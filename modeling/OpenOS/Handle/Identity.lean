/-
  Which object a handle denotes, over unbounded runs of a table.

  The slot counter names table entries by its full value, a token by its low
  28 bits.  Up to `2 ^ 28` creations the two agree.  The creation after that is
  stored at slot `2 ^ 28` but returned with slot 0 and generation 0, the pair of
  the very first handle: since `2 ^ 26` divides `2 ^ 28` the generation does not
  tell them apart.
-/

import OpenOS.Handle.Table
import Mathlib.Data.List.Induction

namespace OpenOS

open Function Base List Option

namespace HandleTable

/-! ## What identity says -/

/-- Two tokens name the same slot and generation. -/
def SameKey (a b : Handle) : Prop := a.slotId = b.slotId ∧ a.generation = b.generation
deriving Decidable

/-- The handles issued and not yet closed, with the objects they were created
    for, after one more step. -/
def liveStep (acc : List (Handle × KernelObject)) (e : TableStep) :
    List (Handle × KernelObject) :=
  match created e with
  | some q => acc ++ [q]
  | none =>
    match e.op, e.res with
    | .close hd, .closed true => acc.filter fun q => ¬ SameKey q.1 hd
    | _, _ => acc

/-- The handles issued and not yet closed in a history, oldest first. -/
def live (tr : List TableStep) : List (Handle × KernelObject) := tr.foldl liveStep []

/-- The tokens whose closing succeeded. -/
def closedHandles (tr : List TableStep) : List Handle :=
  tr.filterMap fun e =>
    match e.op, e.res with
    | .close hd, .closed true => some hd
    | _, _ => none

/-- Number of handles created in a history. -/
def creations (tr : List TableStep) : Nat := (tr.filterMap created).length

/-- Live handles resolve to their own objects and are told apart by slot and
    generation; closed tokens do not resolve. -/
def HandleIdentity (tr : List TableStep) (s : HandleTable) : Prop :=
  (∀ q ∈ live tr, s.get q.1 = some q.2) ∧
  (live tr).Pairwise (fun a b => ¬ SameKey a.1 b.1) ∧
  (∀ hd ∈ closedHandles tr, s.get hd = none)

/-! ## Histories that grow by one step -/

theorem live_concat (tr : List TableStep) (e : TableStep) :
    live (tr ++ [e]) = liveStep (live tr) e := by
  simp [live]

theorem live_concat_created (h : created e = some q) : live (tr ++ [e]) = live tr ++ [q] := by
  rw [live_concat]
  simp [liveStep, h]

theorem creations_concat_created (tr : List TableStep) (h : created e = some q) :
    creations (tr ++ [e]) = creations tr + 1 := by
  simp [creations, h]

theorem creations_concat_none (tr : List TableStep) (h : created e = none) :
    creations (tr ++ [e]) = creations tr := by
  simp [creations, h]

theorem closedHandles_concat_created (h : created e = some q) :
    closedHandles (tr ++ [e]) = closedHandles tr := by
  obtain ⟨pre, op, res, post⟩ := e
  cases op <;> cases res <;> simp_all [closedHandles, created]

/-- A history with more than `n` creations has an initial segment with exactly
    `n`, right before one more creation. -/
theorem exists_creation_after (h : n < creations tr) :
    ∃ tr₁ e q, tr₁ ++ [e] <+: tr ∧ creations tr₁ = n ∧ created e = some q := by
  induction tr using reverseRecOn with
  | nil => simp [creations] at h
  | append_singleton tr e ih =>
    by_cases hlt : n < creations tr
    · obtain ⟨tr₁, e₁, q, hpre, hn, hq⟩ := ih hlt
      exact ⟨tr₁, e₁, q, hpre.trans (prefix_append _ _), hn, hq⟩
    cases hc : created e with
    | none =>
      rw [creations_concat_none tr hc] at h
      exact absurd h hlt
    | some q =>
      rw [creations_concat_created tr hc] at h
      exact ⟨tr, e, q, prefix_refl _, by omega, hc⟩

/-! ## The invariant up to `2 ^ 28` creations -/

/-- Slot `k` holds, if anything, the `k`-th handle created, and the live
    handles are exactly the entries of the table. -/
structure IdentityInv (tr : List TableStep) (s : HandleTable) : Prop where
  nextSlot : s.nextSlot.toNat = creations tr
  generation : s.generation.toNat = creations tr
  slot_lt : ∀ slot entry, s.slots slot = some entry → slot.toNat < creations tr
  slot_entry : ∀ slot entry, s.slots slot = some entry →
    entry.handle.slotId = slot ∧ entry.handle.generation.toNat = slot.toNat % 2 ^ 26
  mem_live : ∀ hd obj, (hd, obj) ∈ live tr ↔ s.slots hd.slotId = some ⟨hd, obj⟩
  pairwise : (live tr).Pairwise (fun a b => a.1.slotId ≠ b.1.slotId)
  closed : ∀ hd ∈ closedHandles tr,
    hd.slotId.toNat < creations tr ∧ s.slots hd.slotId = none

theorem identityInv_new : IdentityInv [] new where
  nextSlot := rfl
  generation := rfl
  slot_lt := by intro slot entry h; cases h
  slot_entry := by intro slot entry h; cases h
  mem_live := by intro hd obj; simp [live, new]
  pairwise := by simp [live]
  closed := by intro hd h; simp [closedHandles] at h

section

variable (hI : IdentityInv tr s)
include hI

theorem IdentityInv.handleIdentity : HandleIdentity tr s := by
  refine ⟨?_, ?_, ?_⟩
  · intro q hq
    have hslot := (hI.mem_live q.1 q.2).mp hq
    rw [get_eq_resolve, resolve_eq_some.mpr ⟨hslot, rfl⟩]
    rfl
  · exact hI.pairwise.imp (fun hne hkey => hne hkey.1)
  · intro hd hhd
    simp [get, (hI.closed hd hhd).2]

/-- The handle a push returns while the counters are small: slot and
    generation are the number of creations so far. -/
theorem push_fields (hpush : s.push p obj r = some (hd, s')) :
    hd.slotId.toNat = creations tr % 2 ^ 28 ∧ hd.generation.toNat = creations tr % 2 ^ 26 := by
  obtain ⟨rfl, -⟩ := push_eq_some hpush
  have hgen : (s.generation &&& 0x03FFFFFF#32).toNat = creations tr % 2 ^ 26 := by
    rw [toNat_and_mask _ _ 26 (by decide), hI.generation]
  rw [Handle.slotId_new_toNat, Handle.generation_new_toNat, hI.nextSlot]
  refine ⟨rfl, ?_⟩
  omega

theorem IdentityInv.of_push (hpush : s.push p obj r = some (hd, s'))
    (hcreated : created ⟨s, op, res, s'⟩ = some (hd, obj)) (hlt : creations tr < 2 ^ 28) :
    IdentityInv (tr ++ [⟨s, op, res, s'⟩]) s' := by
  obtain ⟨hslotId, hgen⟩ := push_fields hI hpush
  obtain ⟨-, hs'⟩ := push_eq_some hpush
  -- below the bound the truncated slot is the slot itself
  have hslot : hd.slotId = s.nextSlot := by
    apply BitVec.eq_of_toNat_eq
    rw [hslotId, hI.nextSlot, Nat.mod_eq_of_lt hlt]
  have hnext : s.slots s.nextSlot = none := by
    rcases hopt : s.slots s.nextSlot with _ | entry
    · rfl
    · have := hI.slot_lt _ _ hopt
      rw [hI.nextSlot] at this
      omega
  have hn := creations_concat_created tr hcreated
  refine ⟨?_, ?_, ?_, ?_, ?_, ?_, ?_⟩
  · rw [hn, hs', BitVec.toNat_add, hI.nextSlot]
    exact Nat.mod_eq_of_lt (by simp; omega)
  · rw [hn, hs', BitVec.toNat_add, hI.generation]
    exact Nat.mod_eq_of_lt (by simp; omega)
  · intro slot entry hs
    rw [hn]
    rcases (push_slots hpush).mp hs with ⟨rfl, -⟩ | ⟨-, hold⟩
    · rw [hI.nextSlot]
      omega
    · exact Nat.lt_succ_of_lt (hI.slot_lt slot entry hold)
  · intro slot entry hs
    rcases (push_slots hpush).mp hs with ⟨rfl, rfl⟩ | ⟨-, hold⟩
    · exact ⟨hslot, by rw [hgen, hI.nextSlot]⟩
    · exact hI.slot_entry slot entry hold
  · -- the new handle is the one in the slot that was free
    intro hd₁ obj₁
    rw [live_concat_created hcreated, mem_append, mem_singleton, hI.mem_live, push_slots hpush]
    constructor
    · rintro (hold | hnew)
      · refine .inr ⟨?_, hold⟩
        intro heq
        rw [heq, hnext] at hold
        cases hold
      · cases hnew
        exact .inl ⟨hslot, rfl⟩
    · rintro (⟨-, hnew⟩ | ⟨-, hold⟩)
      · cases hnew
        exact .inr rfl
      · exact .inl hold
  · rw [live_concat_created hcreated, pairwise_append]
    refine ⟨hI.pairwise, pairwise_singleton _ _, ?_⟩
    intro a ha b hb heq
    obtain rfl := mem_singleton.mp hb
    have hs := (hI.mem_live a.1 a.2).mp ha
    rw [heq, hslot, hnext] at hs
    cases hs
  · intro hd₁ hc
    rw [closedHandles_concat_created hcreated] at hc
    obtain ⟨hlt₁, hnone⟩ := hI.closed hd₁ hc
    have hk : hd₁.slotId ≠ s.nextSlot := by
      intro heq
      rw [heq, hI.nextSlot] at hlt₁
      omega
    refine ⟨by rw [hn]; omega, ?_⟩
    rw [hs']
    exact (update_of_ne hk _ _).trans hnone

/-- Closing a token empties its slot and leaves the others alone. -/
theorem IdentityInv.of_close (hres : s.resolve hd = some entry) :
    IdentityInv (tr ++ [⟨s, .close hd, .closed true,
      { s with slots := update s.slots hd.slotId none }⟩])
      { s with slots := update s.slots hd.slotId none } := by
  obtain ⟨hslot, hgen⟩ := resolve_eq_some.mp hres
  have hn : creations (tr ++ [⟨s, .close hd, .closed true,
      { s with slots := update s.slots hd.slotId none }⟩]) = creations tr :=
    creations_concat_none tr rfl
  have hlive : live (tr ++ [⟨s, .close hd, .closed true,
      { s with slots := update s.slots hd.slotId none }⟩]) =
      (live tr).filter fun q => ¬ SameKey q.1 hd := by
    rw [live_concat]
    rfl
  refine ⟨?_, ?_, ?_, ?_, ?_, ?_, ?_⟩
  · rw [hn]; exact hI.nextSlot
  · rw [hn]; exact hI.generation
  · intro slot entry' hs
    rw [hn]
    exact hI.slot_lt _ _ (erase_slots.mp hs).2
  · intro slot entry' hs
    exact hI.slot_entry _ _ (erase_slots.mp hs).2
  · intro hd₁ obj₁
    rw [hlive, mem_filter, hI.mem_live, erase_slots, and_comm, decide_eq_true_iff]
    refine and_congr_left fun hs => not_congr ⟨And.left, fun hk => ⟨hk, ?_⟩⟩
    -- the only live handle at this slot is the entry, which has the token's key
    rw [hk, hslot] at hs
    cases hs
    exact hgen
  · rw [hlive]
    exact hI.pairwise.filter _
  · intro hd₁ hc
    have hcl : hd₁ ∈ closedHandles tr ∨ hd₁ = hd := by
      simpa [closedHandles] using hc
    rcases hcl with hold | rfl
    · obtain ⟨hlt, hnone⟩ := hI.closed hd₁ hold
      refine ⟨by rw [hn]; exact hlt, ?_⟩
      by_cases hk : hd₁.slotId = hd.slotId
      · rw [hk]; exact update_self ..
      · simpa only [update_of_ne hk] using hnone
    · exact ⟨by rw [hn]; exact hI.slot_lt _ _ hslot, update_self ..⟩

theorem IdentityInv.of_idle (hnone : created ⟨s, op, res, s⟩ = none)
    (hclose : ∀ hd, op = .close hd → res = .closed false) :
    IdentityInv (tr ++ [⟨s, op, res, s⟩]) s := by
  have hn := creations_concat_none tr hnone
  have hlive : live (tr ++ [⟨s, op, res, s⟩]) = live tr := by
    rw [live_concat]
    simp only [liveStep, hnone]
    cases op with
    | close hd => rw [hclose hd rfl]
    | insert obj r => rfl
    | duplicate hd nr => rfl
    | get hd => rfl
  have hcl : closedHandles (tr ++ [⟨s, op, res, s⟩]) = closedHandles tr := by
    cases op with
    | close hd => simp [closedHandles, hclose hd rfl]
    | insert obj r => simp [closedHandles]
    | duplicate hd nr => simp [closedHandles]
    | get hd => simp [closedHandles]
  refine ⟨?_, ?_, ?_, hI.slot_entry, ?_, ?_, ?_⟩
  · rw [hn]; exact hI.nextSlot
  · rw [hn]; exact hI.generation
  · rw [hn]; exact hI.slot_lt
  · rw [hlive]; exact hI.mem_live
  · rw [hlive]; exact hI.pairwise
  · rw [hn, hcl]; exact hI.closed

/-- A step keeps the invariant as long as the bound is not passed. -/
theorem identityInv_step (h : step p s op = some (res, s'))
    (hbound : creations (tr ++ [⟨s, op, res, s'⟩]) ≤ 2 ^ 28) :
    IdentityInv (tr ++ [⟨s, op, res, s'⟩]) s' := by
  rcases step_cases h with ⟨obj, r, hd, rfl, rfl, hpush⟩ |
    ⟨hd, nr, src, hd', rfl, rfl, hdup, hres, hpush⟩ | ⟨hd, entry, rfl, rfl, hres, rfl⟩ |
    ⟨rfl, hnone, hclose⟩
  · have hc : created ⟨s, .insert obj r, .handle (some hd), s'⟩ = some (hd, obj) := rfl
    rw [creations_concat_created tr hc] at hbound
    exact hI.of_push hpush hc (by omega)
  · have hc : created ⟨s, .duplicate hd nr, .handle (some hd'), s'⟩ = some (hd', src.object) := by
      simp [created, get_eq_resolve, hres]
    rw [creations_concat_created tr hc] at hbound
    exact hI.of_push hpush hc (by omega)
  · exact hI.of_close hres
  · exact hI.of_idle hnone hclose

end

theorem identityInv_of_run
    (hrun : Run (step p) new tr s) (hbound : creations tr ≤ 2 ^ 28) : IdentityInv tr s := by
  refine hrun.invariant_of_guard (G := fun tr₁ e => creations (tr₁ ++ [e]) ≤ 2 ^ 28)
    identityInv_new (fun tr s op res s' hI hs hg => identityInv_step hI hs hg) ?_
  intro tr₁ e hpre
  have hle : creations (tr₁ ++ [e]) ≤ creations tr :=
    (List.Sublist.filterMap created hpre.sublist).length_le
  omega

/-! ## One creation too many -/

/-- A creating step is a push of the object it reports. -/
theorem push_of_created (h : step p t op = some (res, t'))
    (hc : created ⟨t, op, res, t'⟩ = some q) : ∃ r, t.push p q.2 r = some (q.1, t') := by
  rcases step_cases h with ⟨obj, r, hd, rfl, rfl, hpush⟩ |
    ⟨hd, nr, src, hd', rfl, rfl, hdup, hres, hpush⟩ | ⟨hd, entry, rfl, rfl, -, -⟩ | ⟨-, hnone, -⟩
  · cases hc
    exact ⟨r, hpush⟩
  · simp only [created, get_eq_resolve, hres, map_some, some.injEq] at hc
    subst hc
    exact ⟨_, hpush⟩
  · cases hc
  · rw [hnone] at hc
    cases hc

/-- After `2 ^ 28` creations the next token has the slot and generation of the first
    handle: two live handles share a key if slot 0 is still occupied, else the new one
    does not resolve. -/
theorem not_handleIdentity_of_wrap (hI : IdentityInv tr s) (hn : creations tr = 2 ^ 28)
    (h : step p s op = some (res, s')) (hc : created ⟨s, op, res, s'⟩ = some q) :
    ¬ HandleIdentity (tr ++ [⟨s, op, res, s'⟩]) s' := by
  obtain ⟨r, hpush⟩ := push_of_created h hc
  obtain ⟨hslot, hgen⟩ := push_fields hI hpush
  obtain ⟨-, hs'⟩ := push_eq_some hpush
  -- the truncated slot is 0 again, while the entry goes under slot 2 ^ 28
  have hslot0 : q.1.slotId = 0 := by
    apply BitVec.eq_of_toNat_eq
    rw [hslot, hn]; rfl
  have hne : (0 : BitVec 32) ≠ s.nextSlot := by
    intro heq
    have h0 := congrArg BitVec.toNat heq
    rw [hI.nextSlot, hn] at h0
    exact absurd h0 (by decide)
  have hslots : s'.slots 0 = s.slots 0 := by
    rw [hs']
    exact update_of_ne hne _ _
  rintro ⟨hres, hpair, -⟩
  rw [live_concat_created hc] at hres hpair
  have hq : s'.get q.1 = some q.2 := hres q (by simp)
  rw [get, hslot0, hslots] at hq
  -- an empty slot 0 makes the new handle fail to resolve, an occupied one gives
  -- two live handles of one key
  rcases hopt : s.slots 0 with _ | entry
  · rw [hopt] at hq
    cases hq
  obtain ⟨hid, hg⟩ := hI.slot_entry _ _ hopt
  have hlive : (entry.handle, entry.object) ∈ live tr := by
    rw [hI.mem_live, hid, hopt]
  refine (pairwise_append.mp hpair).2.2 _ hlive q (by simp) ⟨?_, ?_⟩
  · rw [hid, hslot0]
  · apply BitVec.eq_of_toNat_eq
    rw [hg, hgen, hn]; rfl

/-- Over all runs from the empty table: handles are identities in every state
    the run passes through exactly when it creates at most `2 ^ 28` of them. -/
theorem handleIdentity_iff {p : Profile} {tr : List TableStep} {s : HandleTable}
    (hrun : Run (step p) new tr s) :
    (∀ tr₁ s₁, tr₁ <+: tr → Run (step p) new tr₁ s₁ → HandleIdentity tr₁ s₁) ↔
      creations tr ≤ 2 ^ 28 := by
  constructor
  · intro hall
    by_contra hgt
    -- at the creation that passes the bound identity is lost
    obtain ⟨tr₁, e, q, hpre, hn, hq⟩ := exists_creation_after (Nat.lt_of_not_le hgt)
    obtain ⟨s₁, hrun₁⟩ := hrun.of_isPrefix hpre
    obtain ⟨hr, hs, -⟩ := hrun₁.of_concat
    have hI := identityInv_of_run hr (le_of_eq hn)
    exact not_handleIdentity_of_wrap hI hn hs hq
      (hall _ _ hpre (Run.snoc hr hs))
  · intro hbound tr₁ s₁ hpre hrun₁
    have hle : creations tr₁ ≤ creations tr :=
      (List.Sublist.filterMap created hpre.sublist).length_le
    exact (identityInv_of_run hrun₁ (by omega)).handleIdentity

/-- The condition is met by a run that closes a handle and creates another. -/
theorem handleIdentity_reuse :
    ∃ tr s, Run (step .dev) new tr s ∧
      tr.map Transition.op =
        [.insert (.event 0) .all, .close (Handle.new 0 .all 0), .insert (.event 1) .all] ∧
      ∀ tr₁ s₁, tr₁ <+: tr → Run (step .dev) new tr₁ s₁ → HandleIdentity tr₁ s₁ := by
  have hrun := exec_run (step .dev) new
    [.insert (.event 0) .all, .close (Handle.new 0 .all 0), .insert (.event 1) .all] rfl
  exact ⟨_, _, hrun, rfl, (handleIdentity_iff hrun).mpr (by decide)⟩

/-! ## A run that passes the bound -/

/-- Inserting one object `n` times runs through while the counter fits. -/
theorem run_replicate_insert (p : Profile) (obj : KernelObject) (r : Rights) (n : Nat)
    (hn : n < 2 ^ 32) :
    ∃ tr s, Run (step p) new tr s ∧
      tr.map Transition.op = replicate n (.insert obj r) ∧
      creations tr = n ∧ s.nextSlot.toNat = n := by
  -- the counter is the number of insertions so far, so it does not overflow
  induction n with
  | zero => exact ⟨[], new, Run.nil, rfl, rfl, rfl⟩
  | succ n ih =>
    obtain ⟨tr, s, hrun, hops, hcr, hnext⟩ := ih (by omega)
    have hadd : p.add s.nextSlot 1 = some (s.nextSlot + 1) := by
      apply Profile.add_eq_some_of_lt
      rwa [hnext]
    obtain ⟨hd, s', hpush⟩ : ∃ hd s', s.push p obj r = some (hd, s') := by
      simp only [push, hadd]
      exact ⟨_, _, rfl⟩
    have hs : step p s (.insert obj r) = some (.handle (some hd), s') := by
      simp [step, insert, hpush]
    refine ⟨_, s', Run.snoc hrun hs, ?_, ?_, ?_⟩
    · rw [map_append, hops, replicate_succ']
      rfl
    · have hc : created ⟨s, .insert obj r, .handle (some hd), s'⟩ = some (hd, obj) := rfl
      rw [creations_concat_created tr hc, hcr]
    · obtain ⟨-, rfl⟩ := push_eq_some hpush
      rw [BitVec.toNat_add, hnext]
      exact Nat.mod_eq_of_lt hn

/-- `2 ^ 28 + 1` insertions, no closing: identity is lost on the way. -/
theorem handleIdentity_lost :
    ∃ tr s, Run (step .dev) new tr s ∧
      tr.map Transition.op = replicate (2 ^ 28 + 1) (.insert (.event 0) .all) ∧
      ¬ ∀ tr₁ s₁, tr₁ <+: tr → Run (step .dev) new tr₁ s₁ → HandleIdentity tr₁ s₁ := by
  obtain ⟨tr, s, hrun, hops, hcr, -⟩ :=
    run_replicate_insert .dev (.event 0) .all (2 ^ 28 + 1) (by decide)
  refine ⟨tr, s, hrun, hops, ?_⟩
  intro hall
  obtain ⟨tr₁, e, q, hpre, hn, hq⟩ :=
    exists_creation_after (show 2 ^ 28 < creations tr by rw [hcr]; decide)
  obtain ⟨s₁, hrun₁⟩ := hrun.of_isPrefix hpre
  obtain ⟨hr, hs, -⟩ := hrun₁.of_concat
  exact not_handleIdentity_of_wrap (identityInv_of_run hr (le_of_eq hn)) hn hs hq
    (hall _ _ hpre (Run.snoc hr hs))

end HandleTable

end OpenOS
