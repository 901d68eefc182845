/-
  `pthread_create` and the entry point of a thread (user/pthreads/src/lib.rs).

  The routine and its argument are handed over in two global cells.  A thread runs what
  it finds there, so it runs its own routine when no other creation begins between the
  two stores of its creator and its own two swaps.
-/

import Mathlib.Logic.Function.Basic
import OpenOS.Base.Run
import OpenOS.Base.Word

namespace OpenOS.Pthread

open Base Function Option

/-- How far a creation and the thread it starts have come. -/
inductive Stage
  | entryStored
  | argStored
  | failed
  | started
  | tookEntry (entry : Word)
  /-- The thread has called what it found, if anything, and exits. -/
  | finished (called : Option (Word × Word))
deriving DecidableEq

/-- A call of `pthread_create`, and the thread that it creates. -/
structure Creation where
  startRoutine : Word
  arg : Word
  stage : Stage
deriving DecidableEq

/-- THREAD_ENTRY, THREAD_ARG and the creations so far. -/
structure State where
  threadEntry : Word
  threadArg : Word
  creations : Nat → Option Creation

/-- The atomic steps of creators and threads. -/
inductive Op
  /-- `pthread_create` up to its first store; a function pointer is not null. -/
  | storeEntry (i : Nat) (startRoutine arg : Word) (nonNull : startRoutine ≠ 0)
  | storeArg (i : Nat)
  /-- SYS_THREAD_CREATE, which starts the thread or fails. -/
  | threadCreate (i : Nat) (ok : Bool)
  | swapEntry (i : Nat)
  /-- The second swap of `pthread_entry`, and the call. -/
  | swapArg (i : Nat)

def State.set (s : State) (i : Nat) (c : Creation) (stage : Stage) : State :=
  { s with creations := update s.creations i (some { c with stage := stage }) }

/-- A step; `none` where the creation or the thread is not at that point. -/
def step : StepFn State Op Unit
  | s, .storeEntry i f a _ =>
    if s.creations i = none then
      some ((), { s.set i ⟨f, a, .entryStored⟩ .entryStored with threadEntry := f })
    else none
  | s, .storeArg i => do
    let c ← s.creations i
    if c.stage = .entryStored then some ((), { s.set i c .argStored with threadArg := c.arg })
    else none
  | s, .threadCreate i ok => do
    let c ← s.creations i
    if c.stage = .argStored then some ((), s.set i c (if ok then .started else .failed)) else none
  | s, .swapEntry i => do
    let c ← s.creations i
    if c.stage = .started then
      some ((), { s.set i c (.tookEntry s.threadEntry) with threadEntry := 0 })
    else none
  | s, .swapArg i => do
    let c ← s.creations i
    match c.stage with
    | .tookEntry entry =>
      let called := if entry = 0 then none else some (entry, s.threadArg)
      some ((), { s.set i c (.finished called) with threadArg := 0 })
    | _ => none

def initial : State := ⟨0, 0, fun _ => none⟩

/-! ## Whose routine is run -/

/-- Every thread that is through has called its own routine, with its own argument. -/
def RunsOwn (s : State) : Prop :=
  ∀ i c called, s.creations i = some c → c.stage = .finished called →
    called = some (c.startRoutine, c.arg)

/-- The creation has begun, and its thread has not taken the routine and argument. -/
def Creation.Pending (c : Creation) : Prop :=
  c.stage ≠ .failed ∧ ∀ called, c.stage ≠ .finished called

/-- A creation begins only when none is pending. -/
def Alone (e : Transition State Op Unit) : Prop :=
  ∀ i f a hf, e.op = .storeEntry i f a hf → ∀ j c, e.pre.creations j = some c → ¬ c.Pending

/-- The cells hold what a creation has stored and its thread has not taken. -/
def Holds (s : State) (c : Creation) : Prop :=
  match c.stage with
  | .entryStored => s.threadEntry = c.startRoutine
  | .argStored | .started => s.threadEntry = c.startRoutine ∧ s.threadArg = c.arg
  | .tookEntry entry => entry = c.startRoutine ∧ s.threadArg = c.arg
  | .finished called => called = some (c.startRoutine, c.arg)
  | .failed => True

structure Inv (s : State) : Prop where
  holds : ∀ i c, s.creations i = some c → c.startRoutine ≠ 0 ∧ Holds s c
  unique : ∀ i j c c', s.creations i = some c → s.creations j = some c' → c.Pending → c'.Pending →
    i = j

variable {c : Creation}

theorem Holds.of_not_pending (h : Holds s c) (hpending : ¬ c.Pending) (s' : State) :
    Holds s' c := by
  unfold Holds Creation.Pending at *
  split at h <;> simp_all

/-- A step of one creation while no other is pending. -/
theorem Inv.set (h : Inv s)
    (hcreations : s'.creations = update s.creations i (some { c with stage := stage }))
    (hothers : ∀ j c', j ≠ i → s.creations j = some c' → ¬ c'.Pending) (hf : c.startRoutine ≠ 0)
    (hholds : Holds s' { c with stage := stage }) : Inv s' := by
  have hother : ∀ j c', j ≠ i → s'.creations j = some c' → s.creations j = some c' := by
    intro j c' hj hc'
    rwa [hcreations, update_of_ne hj] at hc'
  refine ⟨fun j c' hc' => ?_, fun j k c₁ c₂ hj hk hp₁ hp₂ => ?_⟩
  · by_cases hj : j = i
    · rw [hj, hcreations, update_self] at hc'
      cases hc'
      exact ⟨hf, hholds⟩
    · have hold := hother j c' hj hc'
      exact ⟨(h.holds j c' hold).1, (h.holds j c' hold).2.of_not_pending (hothers j c' hj hold) s'⟩
  · have hat : ∀ {k c'}, s'.creations k = some c' → c'.Pending → k = i := fun {k c'} hk hp => by
      by_contra hne
      exact hothers k c' hne (hother k c' hne hk) hp
    rw [hat hj hp₁, hat hk hp₂]

/-- A step of a pending creation or of its thread. -/
theorem Inv.advance (h : Inv s) (hc : s.creations i = some c) (hpending : c.Pending)
    (hcreations : s'.creations = update s.creations i (some { c with stage := stage }))
    (hholds : Holds s c → Holds s' { c with stage := stage }) : Inv s' :=
  h.set hcreations (fun j c' hne hj hp => hne (h.unique j i c' c hj hc hp hpending))
    (h.holds i c hc).1 (hholds (h.holds i c hc).2)

theorem inv_step (h : Inv s) (hstep : step s op = some (r, s')) (halone : Alone ⟨s, op, r, s'⟩) :
    Inv s' := by
  cases op with
  | storeEntry i f a hf =>
    obtain ⟨-, ⟨⟩⟩ := ite_none_right_eq_some.mp hstep
    exact h.set rfl (fun j c' _ hj => halone i f a hf rfl j c' hj) hf rfl
  | storeArg i =>
    obtain ⟨c, hc, hstep⟩ := bind_eq_some_iff.mp hstep
    obtain ⟨hstage, ⟨⟩⟩ := ite_none_right_eq_some.mp hstep
    refine h.advance hc (by simp [Creation.Pending, hstage]) rfl fun hholds => ?_
    rw [Holds, hstage] at hholds
    exact ⟨hholds, rfl⟩
  | threadCreate i ok =>
    obtain ⟨c, hc, hstep⟩ := bind_eq_some_iff.mp hstep
    obtain ⟨hstage, ⟨⟩⟩ := ite_none_right_eq_some.mp hstep
    refine h.advance hc (by simp [Creation.Pending, hstage]) rfl fun hholds => ?_
    rw [Holds, hstage] at hholds
    cases ok with
    | true => exact hholds
    | false => trivial
  | swapEntry i =>
    obtain ⟨c, hc, hstep⟩ := bind_eq_some_iff.mp hstep
    obtain ⟨hstage, ⟨⟩⟩ := ite_none_right_eq_some.mp hstep
    refine h.advance hc (by simp [Creation.Pending, hstage]) rfl fun hholds => ?_
    rwa [Holds, hstage] at hholds
  | swapArg i =>
    obtain ⟨c, hc, hstep⟩ := bind_eq_some_iff.mp hstep
    split at hstep
    · rename_i entry hstage
      cases hstep
      refine h.advance hc (by simp [Creation.Pending, hstage]) rfl fun hholds => ?_
      rw [Holds, hstage] at hholds
      -- the thread took its own routine, which is not null
      rw [Holds, if_neg (hholds.1 ▸ (h.holds i c hc).1), hholds.1, hholds.2]
    · cases hstep

theorem inv_initial : Inv initial := ⟨by simp [initial], by simp [initial]⟩

/-- In every run in which creations begin one at a time, each thread runs its own routine. -/
theorem runsOwn_of_run {tr : List (Transition State Op Unit)} {s : State}
    (hrun : Run step initial tr s) (halone : ∀ e ∈ tr, Alone e) : RunsOwn s := by
  have hinv : Inv s := Run.invariant_of_guard
    inv_initial (fun _ _ _ _ _ h hs ha => inv_step h hs ha) hrun (Run.guard_of_forall_mem halone)
  intro i c called hc hstage
  have hholds := (hinv.holds i c hc).2
  rwa [Holds, hstage] at hholds

/-- Two creations, the second from when the thread of the first has called its routine. -/
theorem runsOwn_two : ∃ tr s, Run step initial tr s ∧ RunsOwn s ∧
    (s.creations 0).map Creation.stage = some (.finished (some (1, 5))) ∧
    (s.creations 1).map Creation.stage = some (.finished (some (2, 6))) := by
  have hfirst : Run step initial _ _ := .snoc (.snoc (.snoc (.snoc (.snoc .nil
    (a := .storeEntry 0 1 5 (by decide)) rfl) (a := .storeArg 0) rfl)
    (a := .threadCreate 0 true) rfl) (a := .swapEntry 0) rfl) (a := .swapArg 0) rfl
  have hrun : Run step initial _ _ := .snoc (.snoc (.snoc (.snoc (.snoc hfirst
    (a := .storeEntry 1 2 6 (by decide)) rfl) (a := .storeArg 1) rfl)
    (a := .threadCreate 1 true) rfl) (a := .swapEntry 1) rfl) (a := .swapArg 1) rfl
  refine ⟨_, _, hrun, runsOwn_of_run hrun ?_, rfl, rfl⟩
  simp [Alone, initial, State.set, Creation.Pending, update_apply]

/-- The second creation begins before the first thread runs: that thread runs the second
    routine, and the second thread runs none. -/
theorem routine_mixed_up : ∃ tr s, Run step initial tr s ∧
    (s.creations 0).map Creation.stage = some (.finished (some (2, 6))) ∧
    (s.creations 1).map Creation.stage = some (.finished none) := by
  have hexec : ((exec step initial [.storeEntry 0 1 5 (by decide), .storeArg 0,
      .threadCreate 0 true, .storeEntry 1 2 6 (by decide), .storeArg 1, .threadCreate 1 true,
      .swapEntry 0, .swapArg 0, .swapEntry 1, .swapArg 1]).map fun q =>
        ((q.2.creations 0).map Creation.stage, (q.2.creations 1).map Creation.stage)) =
      some (some (.finished (some (2, 6))), some (.finished none)) := rfl
  obtain ⟨tr, s, hrun, heq⟩ := run_of_exec hexec
  exact ⟨tr, s, hrun, Prod.mk.inj heq⟩

end OpenOS.Pthread
