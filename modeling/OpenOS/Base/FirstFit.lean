/-
  A pool of resources handed out lowest first.

  The state is the set of free resources, and what the clients hold is read off
  the history: as long as only held resources are given back, the free ones are
  the initial ones that nobody holds (`free_eq_sdiff_held`).
-/

import Mathlib.Data.Finset.Max
import OpenOS.Base.Run

namespace OpenOS.Base.FirstFit

open List Finset

inductive Op (α : Type)
  | alloc
  | free (a : α)
deriving DecidableEq

inductive Res (α : Type)
  | allocated (a : Option α)
  | freed
deriving DecidableEq

variable [LinearOrder α] {F : Finset α}

/-- One operation on the set of free resources. -/
def step : StepFn (Finset α) (Op α) (Res α)
  | F, .alloc =>
    if h : F.Nonempty then some (.allocated (some (F.min' h)), F.erase (F.min' h))
    else some (.allocated none, F)
  | F, .free a => if a ∈ F then none else some (.freed, insert a F)

theorem step_alloc_empty : step (∅ : Finset α) .alloc = some (.allocated none, ∅) := by
  rw [step, dif_neg Finset.not_nonempty_empty]

theorem step_alloc_least (ha : a ∈ F) (hleast : ∀ b ∈ F, a ≤ b) :
    step F .alloc = some (.allocated (some a), F.erase a) := by
  have hne : F.Nonempty := ⟨a, ha⟩
  have hmin : F.min' hne = a := (min'_eq_iff F hne a).mpr ⟨ha, hleast⟩
  rw [step, dif_pos hne, hmin]

theorem step_free (ha : a ∉ F) : step F (.free a) = some (.freed, insert a F) := by
  rw [step, if_neg ha]

/-! ## What the clients hold -/

/-- The effect of one answered operation on the set of held resources. -/
def track (held : Finset α) : Op α × Res α → Finset α
  | (.alloc, .allocated (some a)) => insert a held
  | (.free a, .freed) => held.erase a
  | _ => held

/-- The resources handed out and not given back since. -/
def held (labels : List (Op α × Res α)) : Finset α := labels.foldl track ∅

@[simp] theorem held_concat (labels : List (Op α × Res α)) (e : Op α × Res α) :
    held (labels ++ [e]) = track (held labels) e := by
  rw [held, foldl_append]
  rfl

/-- Clients give back only what they hold. -/
def FreesHeld (labels : List (Op α × Res α)) (op : Op α) : Prop :=
  ∀ a, op = .free a → a ∈ held labels

/-- What one step of the pool can do. -/
theorem step_cases (h : step F op = some (r, F')) :
    (op = .alloc ∧ r = .allocated none ∧ F = ∅ ∧ F' = F) ∨
    (∃ a ∈ F, (∀ b ∈ F, a ≤ b) ∧ op = .alloc ∧ r = .allocated (some a) ∧ F' = F.erase a) ∨
    (∃ a ∉ F, op = .free a ∧ r = .freed ∧ F' = insert a F) := by
  cases op with
  | alloc =>
    rw [step] at h
    split at h
    · rename_i hne
      cases h
      right
      left
      exact ⟨F.min' hne, F.min'_mem hne, fun b hb => F.min'_le b hb, rfl, rfl, rfl⟩
    rename_i hempty
    cases h
    left
    exact ⟨rfl, rfl, not_nonempty_iff_eq_empty.mp hempty, rfl⟩
  | free a =>
    rw [step] at h
    split at h
    · cases h
    rename_i ha
    cases h
    right
    right
    exact ⟨a, ha, rfl, rfl, rfl⟩

/-- The free resources are the initial ones that nobody holds. -/
theorem free_eq_sdiff_held (hrun : Run step F₀ tr F)
    (hadm : Admissible FreesHeld (tr.map Transition.label)) :
    F = F₀ \ held (tr.map Transition.label) ∧ held (tr.map Transition.label) ⊆ F₀ := by
  induction hrun with
  | nil => simp [held]
  | @snoc tr F F' op r _ hs ih =>
    rw [List.map_append, List.map_singleton] at hadm ⊢
    obtain ⟨hadm₁, hfrees⟩ := hadm.of_concat
    obtain ⟨hfree, hsub⟩ := ih hadm₁
    rw [held_concat]
    rcases step_cases hs with ⟨rfl, rfl, -, rfl⟩ | ⟨a, ha, -, rfl, rfl, rfl⟩ | ⟨a, -, rfl, rfl, rfl⟩
    · exact ⟨hfree, hsub⟩
    · -- an allocation moves `a` from the free to the held resources
      show F.erase a = F₀ \ insert a (held _) ∧ insert a (held _) ⊆ F₀
      have haF₀ : a ∈ F₀ := by
        rw [hfree] at ha
        exact (mem_sdiff.mp ha).1
      refine ⟨?_, insert_subset haF₀ hsub⟩
      rw [hfree, sdiff_insert]
    · -- giving `a` back moves it the other way: it was held, so it is initial
      show insert a F = F₀ \ (held _).erase a ∧ (held _).erase a ⊆ F₀
      have haheld : a ∈ held (tr.map Transition.label) := hfrees a rfl
      refine ⟨?_, (erase_subset a _).trans hsub⟩
      rw [hfree, sdiff_erase (hsub haheld)]

end OpenOS.Base.FirstFit
