/-
  The per-task signal state (kernel/src/task/signal.rs): the masks of pending
  and of blocked signals, the handler table, and the three operations on them.

  A pending signal that is not blocked is handed out after at most as many calls
  as there are lower-numbered pending ones, and a blocked signal never.
-/

import Mathlib.Data.Finset.Card
import OpenOS.Base.Word

namespace OpenOS

open Base Finset

/-- A signal number (`u8`). -/
abbrev Signum := BitVec 8

/-- SIGKILL: cannot be caught or ignored. -/
def sigkill : Signum := 9#8

/-- MAX_SIGNUM. -/
def maxSignum : Signum := 31#8

/-- SIG_DFL: the kernel's default action. -/
def sigDfl : Word := 0#64

/-- Per-task signal delivery state. -/
structure SignalState where
  pending : Word
  blocked : Word
  handlers : Fin 32 → Word

namespace SignalState

/-- Nothing pending, nothing blocked, every handler at its default. -/
def new : SignalState := ⟨0#64, 0#64, fun _ => sigDfl⟩

section

variable (ss : SignalState) (sig : Signum)

def sendSignal : SignalState :=
  if sig = 0 ∨ maxSignum < sig then ss
  else { ss with pending := ss.pending ||| 1#64 <<< sig.toNat }

/-- The pending signals that are not blocked; bit 0 is no signal. -/
def actionable : Word := ss.pending &&& ~~~ss.blocked &&& ~~~1#64

def hasPending : Bool := ss.actionable ≠ 0#64

def nextPending : Option Signum × SignalState :=
  if ss.actionable = 0#64 then (none, ss)
  else
    let sig : Signum := ss.actionable.ctz.setWidth 8
    (some sig, { ss with pending := ss.pending &&& ~~~(1#64 <<< sig.toNat) })

def getHandler : Word :=
  if sig = 0 then sigDfl
  else if h : sig.toNat < 32 then ss.handlers ⟨sig.toNat, h⟩
  else sigDfl

/-- The answers of `n` calls of `next_pending` in a row. -/
def nextPendings : Nat → SignalState → List (Option Signum)
  | 0, _ => []
  | n + 1, ss => ss.nextPending.1 :: nextPendings n ss.nextPending.2

/-- The pending signals with a lower number. -/
def pendingBelow (n : Nat) : Finset Nat :=
  (range n).filter fun i => 0 < i ∧ ss.pending.getLsbD i = true

/-- The signal is handed out after at most the pending lower-numbered ones. -/
def Reaches : Prop :=
  ∃ low : List Signum, low.length ≤ (ss.pendingBelow sig.toNat).card ∧
    (∀ x ∈ low, x < sig) ∧
    ss.nextPendings (low.length + 1) = low.map some ++ [some sig]

end

/-! ## Bit by bit -/

theorem getLsbD_one_shiftLeft (n i : Nat) (hi : i < 64) :
    (1#64 <<< n).getLsbD i = decide (i = n) := by
  by_cases h : i < n
  · simp [h]
    omega
  · simp [h, hi]
    omega

variable {ss : SignalState}

theorem getLsbD_actionable (ss : SignalState) (hi : i < 64) :
    ss.actionable.getLsbD i = (ss.pending.getLsbD i && !ss.blocked.getLsbD i && decide (i ≠ 0)) := by
  simp only [actionable, BitVec.getLsbD_and, BitVec.getLsbD_not, hi]
  simp

theorem actionable_ne_zero (hi : i < 64) (hpos : 0 < i)
    (hpending : ss.pending.getLsbD i = true) (hblocked : ss.blocked.getLsbD i = false) :
    ss.actionable ≠ 0#64 := by
  intro hzero
  have hbit := ss.getLsbD_actionable hi
  rw [hzero, hpending, hblocked] at hbit
  simp at hbit
  omega

theorem hasPending_of_bit (hi : i < 64) (hpos : 0 < i)
    (hpending : ss.pending.getLsbD i = true) (hblocked : ss.blocked.getLsbD i = false) :
    ss.hasPending = true :=
  decide_eq_true (actionable_ne_zero hi hpos hpending hblocked)

theorem pending_sendSignal (hpos : sig ≠ 0) (hmax : sig ≤ maxSignum) (hi : i < 64) :
    (ss.sendSignal sig).pending.getLsbD i = (ss.pending.getLsbD i || decide (i = sig.toNat)) := by
  rw [sendSignal, if_neg (by rw [not_or, not_lt]; exact ⟨hpos, hmax⟩), BitVec.getLsbD_or,
    getLsbD_one_shiftLeft _ _ hi]

@[simp] theorem blocked_sendSignal (ss : SignalState) (sig : Signum) :
    (ss.sendSignal sig).blocked = ss.blocked := by
  unfold sendSignal
  split <;> rfl

@[simp] theorem handlers_sendSignal (ss : SignalState) (sig : Signum) :
    (ss.sendSignal sig).handlers = ss.handlers := by
  unfold sendSignal
  split <;> rfl

/-! ## next_pending -/

/-- What `next_pending` does: nothing to hand out, or the lowest actionable
    signal, whose bit alone is cleared. -/
theorem nextPending_cases (ss : SignalState) :
    (ss.actionable = 0#64 ∧ ss.nextPending = (none, ss)) ∨
    ∃ sig : Signum, ss.nextPending.1 = some sig ∧ sig.toNat < 64 ∧
      ss.actionable.getLsbD sig.toNat = true ∧
      (∀ i, i < sig.toNat → ss.actionable.getLsbD i = false) ∧
      ss.nextPending.2.blocked = ss.blocked ∧ ss.nextPending.2.handlers = ss.handlers ∧
      ∀ i, i < 64 → ss.nextPending.2.pending.getLsbD i =
        (ss.pending.getLsbD i && decide (i ≠ sig.toNat)) := by
  by_cases hzero : ss.actionable = 0#64
  · left
    exact ⟨hzero, by rw [nextPending, if_pos hzero]⟩
  right
  have hlt : ss.actionable.ctz.toNat < 64 := by
    have h := BitVec.lt_def.mp (BitVec.ctz_lt_iff_ne_zero.mpr hzero)
    exact h
  have hnum : (ss.actionable.ctz.setWidth 8 : Signum).toNat = ss.actionable.ctz.toNat := by
    rw [BitVec.toNat_setWidth]
    omega
  refine ⟨ss.actionable.ctz.setWidth 8, ?_, by omega, ?_, ?_, ?_, ?_, ?_⟩
  · rw [nextPending, if_neg hzero]
  · rw [hnum]
    exact BitVec.getLsbD_true_ctz_of_ne_zero hzero
  · intro i hi
    rw [hnum] at hi
    exact BitVec.getLsbD_false_of_lt_ctz hi
  · rw [nextPending, if_neg hzero]
  · rw [nextPending, if_neg hzero]
  · intro i hi
    rw [nextPending, if_neg hzero]
    rw [BitVec.getLsbD_and, BitVec.getLsbD_not, getLsbD_one_shiftLeft _ _ hi]
    simp [hi]

theorem blocked_nextPending (ss : SignalState) : ss.nextPending.2.blocked = ss.blocked := by
  rcases ss.nextPending_cases with ⟨-, heq⟩ | ⟨sig, -, -, -, -, hblocked, -⟩
  · rw [heq]
  · exact hblocked

theorem handlers_nextPending (ss : SignalState) : ss.nextPending.2.handlers = ss.handlers := by
  rcases ss.nextPending_cases with ⟨-, heq⟩ | ⟨sig, -, -, -, -, -, hhandlers, -⟩
  · rw [heq]
  · exact hhandlers

theorem pending_nextPending (hn : n.toNat < 64)
    (hpending : ss.pending.getLsbD n.toNat = true) (hother : ss.nextPending.1 ≠ some n) :
    ss.nextPending.2.pending.getLsbD n.toNat = true := by
  rcases ss.nextPending_cases with ⟨-, heq⟩ | ⟨sig, hret, -, -, -, -, -, hclear⟩
  · rwa [heq]
  · rw [hclear _ hn, hpending, Bool.true_and, decide_eq_true_eq]
    intro heq
    exact hother (by rw [hret, BitVec.eq_of_toNat_eq heq])

theorem some_notMem_nextPendings (hn : n.toNat < 64)
    (hblocked : ss.blocked.getLsbD n.toNat = true) (k : Nat) : some n ∉ ss.nextPendings k := by
  induction k generalizing ss with
  | zero => simp [nextPendings]
  | succ k ih =>
    rw [nextPendings, List.mem_cons, not_or]
    constructor
    · intro hret
      rcases ss.nextPending_cases with ⟨-, heq⟩ | ⟨sig, hsig, -, hbit, -⟩
      · rw [heq] at hret
        cases hret
      · rw [hsig, Option.some.injEq] at hret
        rw [← hret, ss.getLsbD_actionable hn, hblocked] at hbit
        simp at hbit
    · exact ih (by rw [blocked_nextPending]; exact hblocked)

/-- Handing out a lower-numbered signal leaves one fewer below. -/
theorem card_pendingBelow_nextPending (hn : n ≤ 64) (hret : ss.nextPending.1 = some sig)
    (hlt : sig.toNat < n) : (ss.nextPending.2.pendingBelow n).card < (ss.pendingBelow n).card := by
  rcases ss.nextPending_cases with ⟨-, heq⟩ | ⟨sig', hret', -, hbit, -, -, -, hclear⟩
  · rw [heq] at hret
    cases hret
  obtain rfl : sig' = sig := Option.some.inj (hret'.symm.trans hret)
  rw [ss.getLsbD_actionable (by omega)] at hbit
  simp only [Bool.and_eq_true, decide_eq_true_eq] at hbit
  refine card_lt_card (ssubset_iff_of_subset ?_ |>.mpr ⟨sig'.toNat, ?_, ?_⟩)
  · intro i
    simp only [pendingBelow, mem_filter, mem_range]
    rintro ⟨hi, hpos, hset⟩
    rw [hclear i (by omega), Bool.and_eq_true] at hset
    exact ⟨hi, hpos, hset.1⟩
  · simp only [pendingBelow, mem_filter, mem_range]
    exact ⟨hlt, by omega, hbit.1.1⟩
  · simp only [pendingBelow, mem_filter, not_and]
    intro _ _
    rw [hclear _ (by omega)]
    simp

/-- A pending signal that is not blocked is handed out after at most the pending
    lower-numbered ones. -/
theorem reaches_of_pending (hn : n.toNat < 64) (hpos : 0 < n.toNat)
    (hpending : ss.pending.getLsbD n.toNat = true) (hblocked : ss.blocked.getLsbD n.toNat = false) :
    ss.Reaches n := by
  -- induction on the number of pending signals below `n`: each call hands out
  -- `n` itself or one of those
  induction hcard : (ss.pendingBelow n.toNat).card using Nat.strongRecOn generalizing ss with
  | ind c ih =>
    rcases ss.nextPending_cases with ⟨hzero, -⟩ | ⟨sig, hret, hlt, hbit, hlow, hkeep, -⟩
    · exact absurd hzero (actionable_ne_zero hn hpos hpending hblocked)
    have hle : sig.toNat ≤ n.toNat := by
      by_contra hgt
      have hfalse := hlow n.toNat (by omega)
      rw [ss.getLsbD_actionable hn, hpending, hblocked] at hfalse
      simp at hfalse
      omega
    by_cases heq : sig = n
    · subst heq
      exact ⟨[], Nat.zero_le _, by simp, by simp [nextPendings, hret]⟩
    have hne : sig.toNat ≠ n.toNat := fun h => heq (BitVec.eq_of_toNat_eq h)
    have hless := card_pendingBelow_nextPending (by omega) hret
      (show sig.toNat < n.toNat by omega)
    obtain ⟨low, hlen, hlower, hcalls⟩ := ih _ (hcard ▸ hless)
      (pending_nextPending hn hpending (by rw [hret]; simpa using heq))
      (by rw [blocked_nextPending]; exact hblocked) rfl
    refine ⟨sig :: low, ?_, ?_, ?_⟩
    · rw [List.length_cons]
      omega
    · intro x hx
      rcases List.mem_cons.mp hx with rfl | hx
      · exact BitVec.lt_def.mpr (by omega)
      · exact hlower x hx
    · rw [List.length_cons, nextPendings, hret, hcalls]
      rfl

/-- The signal is handed out in time exactly when it is not blocked. -/
theorem reaches_iff (hn : n.toNat < 64) (hpos : 0 < n.toNat)
    (hpending : ss.pending.getLsbD n.toNat = true) :
    ss.Reaches n ↔ ss.blocked.getLsbD n.toNat = false := by
  constructor
  · rintro ⟨low, -, -, hcalls⟩
    by_contra hblocked
    refine some_notMem_nextPendings hn (by simpa using hblocked) (low.length + 1) ?_
    rw [hcalls]
    simp
  · exact reaches_of_pending hn hpos hpending

end SignalState

end OpenOS
