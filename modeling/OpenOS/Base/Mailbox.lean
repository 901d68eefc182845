/-
  A slot that holds at most one message, observed as the sequence of its
  events: a message is put (and replaces what was there) or taken.

  A history of events is `Valid` when every take returns what the slot held,
  and `Lossless` when every put found the slot empty.
-/

import OpenOS.Base.Run
import Mathlib.Data.List.Induction

namespace OpenOS.Base.Mailbox

open OpenOS.Base List Option

/-- What can happen to a slot. -/
inductive Event (μ : Type)
  | put (m : μ)
  | take (m : μ)

variable {ev : Event μ}

/-- The slot after an event. -/
def apply : Event μ → Option μ
  | .put m => some m
  | .take _ => none

section

variable (evs : List (Event μ))

/-- The slot after a history, starting empty. -/
def content : Option μ := evs.foldl (fun _ ev => apply ev) none

/-- The messages put, in order. -/
def puts : List μ :=
  evs.filterMap fun ev => match ev with
    | .put m => some m
    | .take _ => none

/-- The messages taken, in order. -/
def takes : List μ :=
  evs.filterMap fun ev => match ev with
    | .put _ => none
    | .take m => some m

/-- Every take returned what the slot held. -/
def Valid : Prop := ∀ before m after, evs = before ++ .take m :: after → content before = some m

/-- Every put found the slot empty. -/
def Lossless : Prop := ∀ before m after, evs = before ++ .put m :: after → content before = none

end

/-! ## Histories that grow by one event -/

@[simp] theorem content_concat (evs : List (Event μ)) (ev : Event μ) :
    content (evs ++ [ev]) = apply ev := by
  simp [content]

/-- A property of all splits of a history at events of one kind, one event
    later. -/
theorem forall_split_concat (kind : μ → Event μ) (P : List (Event μ) → μ → Prop)
    (evs : List (Event μ)) (ev : Event μ) :
    (∀ before m after, evs ++ [ev] = before ++ kind m :: after → P before m) ↔
      (∀ before m after, evs = before ++ kind m :: after → P before m) ∧
        ∀ m, ev = kind m → P evs m := by
  constructor
  · intro h
    refine ⟨?_, fun m hm => h evs m [] (by rw [hm])⟩
    intro before m after heq
    exact h before m (after ++ [ev]) (by rw [heq]; simp)
  · rintro ⟨hold, hnew⟩ before m after heq
    -- either the split is inside the old history or it is at the new event
    rcases eq_nil_or_concat after with rfl | ⟨after', y, rfl⟩
    · obtain ⟨rfl, hx⟩ := append_inj' heq rfl
      exact hnew m (singleton_inj.mp hx)
    · refine hold before m after' ?_
      have h : evs ++ [ev] = (before ++ kind m :: after') ++ [y] := by simpa using heq
      exact (append_inj' h rfl).1

theorem valid_concat : Valid (evs ++ [ev]) ↔ Valid evs ∧ ∀ m, ev = .take m → content evs = some m :=
  forall_split_concat .take (fun before m => content before = some m) evs ev

theorem lossless_concat :
    Lossless (evs ++ [ev]) ↔ Lossless evs ∧ ∀ m, ev = .put m → content evs = none :=
  forall_split_concat .put (fun before _ => content before = none) evs ev

theorem valid_nil : Valid ([] : List (Event μ)) := by
  intro before m after heq
  simp at heq

theorem lossless_nil : Lossless ([] : List (Event μ)) := by
  intro before m after heq
  simp at heq

/-! ## Nothing lost, nothing reordered -/

theorem puts_eq_of_lossless (hv : Valid evs) (hl : Lossless evs) :
    puts evs = takes evs ++ (content evs).toList := by
  -- one event later: a put into an empty slot adds to both sides, a take moves
  -- the content of the slot to the messages taken
  induction evs using reverseRecOn with
  | nil => rfl
  | append_singleton evs ev ih =>
    obtain ⟨hv', htake⟩ := valid_concat.mp hv
    obtain ⟨hl', hput⟩ := lossless_concat.mp hl
    have hih := ih hv' hl'
    cases ev with
    | put m =>
      rw [hput m rfl] at hih
      simp [puts, takes, apply] at hih ⊢
      exact hih
    | take m =>
      rw [htake m rfl] at hih
      simp [puts, takes] at hih ⊢
      exact hih

theorem takes_length_le (hv : Valid evs) :
    (takes evs).length + (content evs).toList.length ≤ (puts evs).length ∧
      (¬ Lossless evs → (takes evs).length + (content evs).toList.length < (puts evs).length) := by
  induction evs using reverseRecOn with
  | nil => exact ⟨Nat.le_refl _, fun h => absurd lossless_nil h⟩
  | append_singleton evs ev ih =>
    obtain ⟨hv', htake⟩ := valid_concat.mp hv
    obtain ⟨hle, hlt⟩ := ih hv'
    cases ev with
    | put m =>
      simp only [puts, takes, filterMap_append, filterMap_cons,
        filterMap_nil, append_nil, length_append, content_concat, apply, toList_some] at hle hlt ⊢
      refine ⟨by omega, ?_⟩
      intro hnl
      by_cases hl : Lossless evs
      · -- the slot was full, so the old content is lost here
        have hne : content evs ≠ none := by
          intro hnone
          exact hnl (lossless_concat.mpr ⟨hl, fun _ _ => hnone⟩)
        obtain ⟨old, hold⟩ := ne_none_iff_exists'.mp hne
        rw [hold] at hle
        simp only [toList_some, length_cons] at hle
        omega
      · have := hlt hl
        omega
    | take m =>
      rw [htake m rfl] at hle hlt
      simp only [puts, takes, filterMap_append, filterMap_cons,
        filterMap_nil, length_append, content_concat, apply, toList_some, toList_none] at hle hlt ⊢
      refine ⟨by omega, ?_⟩
      intro hnl
      have hl : ¬ Lossless evs := by
        intro hl
        exact hnl (lossless_concat.mpr ⟨hl, fun _ h => by cases h⟩)
      have := hlt hl
      omega

/-- The messages put are those taken, in order, followed by the one still in
    the slot, exactly when no put ever replaced a message. -/
theorem puts_eq_takes_append_iff (hv : Valid evs) :
    puts evs = takes evs ++ (content evs).toList ↔ Lossless evs := by
  constructor
  · intro heq
    by_contra hnl
    have hlt := (takes_length_le hv).2 hnl
    rw [heq, length_append] at hlt
    omega
  · exact puts_eq_of_lossless hv

/-! ## Slots of a component -/

/-- A slot goes from `c` to `c'` with at most one event. -/
def Moves (c : Option μ) : Option (Event μ) → Option μ → Prop
  | none, c' => c' = c
  | some (.put m), c' => c' = some m
  | some (.take m), c' => c = some m ∧ c' = none

/-- The history of a slot of a component, read off a run by `ev`: valid, and
    its content is what the state shows. -/
theorem valid_of_run (obs : σ → Option μ)
    (ev : Transition σ α ω → Option (Event μ)) (I : σ → Prop) (hinit : I s₀ ∧ obs s₀ = none)
    (hstep : ∀ s a r s', I s → step s a = some (r, s') →
      I s' ∧ Moves (obs s) (ev ⟨s, a, r, s'⟩) (obs s')) (hrun : Run step s₀ tr s) :
    I s ∧ Valid (tr.filterMap ev) ∧ content (tr.filterMap ev) = obs s := by
  apply hrun.invariant
  · exact ⟨hinit.1, valid_nil, hinit.2.symm⟩
  · rintro tr s a r s' ⟨hI, hv, hc⟩ hs
    obtain ⟨hI', hmove⟩ := hstep s a r s' hI hs
    refine ⟨hI', ?_⟩
    rw [filterMap_append]
    -- no event, a put, or a take of what the slot held
    rcases hev : ev ⟨s, a, r, s'⟩ with _ | _ | _
    · rw [hev] at hmove
      simp only [filterMap_cons, hev, filterMap_nil, append_nil]
      exact ⟨hv, hc.trans hmove.symm⟩
    · rw [hev] at hmove
      simp only [filterMap_cons, hev, filterMap_nil, content_concat]
      exact ⟨valid_concat.mpr ⟨hv, fun _ h => by cases h⟩, hmove.symm⟩
    · rename_i m
      rw [hev] at hmove
      simp only [filterMap_cons, hev, filterMap_nil, content_concat]
      refine ⟨valid_concat.mpr ⟨hv, ?_⟩, hmove.2.symm⟩
      intro m' heq
      obtain rfl := Event.take.inj heq
      exact hc.trans hmove.1

end OpenOS.Base.Mailbox
