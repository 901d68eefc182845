/-
  A radix tree stored in memory as tables of links.

  `Links A I` says, for the table at each address and each index, where that
  entry points.  Tables are what paths shorter than the depth `D` reach, leaves
  what paths of length `D` reach; memory is a tree when no table is reached by
  two paths.  Every change of a tree changes `walk` at one path (`walk_set`).
-/

import Mathlib.Data.List.Induction
import Mathlib.Logic.Function.Basic

namespace OpenOS.Base.RadixTree

open Function List Option

/-- Where each entry of each table points, if anywhere. -/
abbrev Links (A I : Type) := A → I → Option A

/-- Follow a path of indices from the root. -/
def walk (m : Links A I) (root : A) (π : List I) : Option A := π.foldlM m root

@[simp] theorem walk_nil (m : Links A I) (root : A) : walk m root [] = some root := rfl

theorem walk_cons (m : Links A I) (root : A) (i : I) (π : List I) :
    walk m root (i :: π) = (m root i).bind fun a => walk m a π := rfl

theorem walk_concat (m : Links A I) (root : A) (π : List I) (i : I) :
    walk m root (π ++ [i]) = (walk m root π).bind fun a => m a i := by
  rw [walk, foldlM_append, walk]
  cases π.foldlM m root with
  | none => rfl
  | some a =>
    exact bind_fun_some (m a i)

variable {root : A} {ρ q : List I}

theorem walk_concat_of_some (h : walk m root π = some a) (i : I) :
    walk m root (π ++ [i]) = m a i := by
  rw [walk_concat, h, bind_some]

theorem walk_concat_of_none (h : walk m root π = none) (i : I) : walk m root (π ++ [i]) = none := by
  rw [walk_concat, h, bind_none]

theorem walk_eq_none_of_isPrefix (h : walk m root π = none) (hpre : π <+: ρ) :
    walk m root ρ = none := by
  obtain ⟨rest, rfl⟩ := hpre
  induction rest using reverseRecOn with
  | nil => rwa [append_nil]
  | append_singleton rest i ih =>
    rw [← append_assoc]
    exact walk_concat_of_none ih i

theorem walk_ne_none_of_isPrefix (h : walk m root ρ ≠ none) (hpre : π <+: ρ) :
    walk m root π ≠ none :=
  fun hnone => h (walk_eq_none_of_isPrefix hnone hpre)

theorem walk_congr (h : ∀ π a, π.length < D → walk m root π = some a → m' a = m a)
    (hq : q.length ≤ D) : walk m' root q = walk m root q := by
  induction q using reverseRecOn with
  | nil => rfl
  | append_singleton q j ih =>
    rw [length_append, length_singleton] at hq
    rw [walk_concat, walk_concat, ih (by omega)]
    cases hb : walk m root q with
    | none => rfl
    | some b =>
      show m' b j = m b j
      rw [h q b (by omega) hb]

/-! ## Trees -/

/-- No table is reached by two paths. -/
def IsTree (m : Links A I) (root : A) (D : Nat) : Prop :=
  ∀ π ρ a, π.length < D → ρ.length < D → walk m root π = some a → walk m root ρ = some a → π = ρ

theorem isTree_of_root_empty (D : Nat) (h : ∀ i, m root i = none) : IsTree m root D := by
  have hnone : ∀ π i, walk m root (i :: π) = none := by
    intro π i
    refine walk_eq_none_of_isPrefix (π := [i]) ?_ ⟨π, rfl⟩
    exact (walk_concat_of_some (walk_nil m root) i).trans (h i)
  intro π ρ a _ _ hπ hρ
  cases π with
  | nil =>
    cases ρ with
    | nil => rfl
    | cons i ρ => rw [hnone] at hρ; cases hρ
  | cons i π => rw [hnone] at hπ; cases hπ

/-- One entry of one table becomes another, with nothing below it before or after:
    `walk` changes at the path of that entry alone. -/
theorem walk_eq_update [DecidableEq I] (htree : IsTree m root D) (hπ : π.length < D)
    (ha : walk m root π = some a)
    (hbefore : π.length + 1 < D → ∀ j, walk m root (π ++ [i] ++ [j]) = none)
    (hentry : ∀ j, m' a j = if j = i then c else m a j)
    (hothers : ∀ ρ x, ρ.length < D → walk m root ρ = some x → x ≠ a → m' x = m x)
    (hafter : π.length + 1 < D → ∀ b, c = some b → ∀ j, m' b j = none) (hq : q.length ≤ D) :
    walk m' root q = update (walk m root) (π ++ [i]) c q := by
  induction q using reverseRecOn with
  | nil =>
    rw [update_of_ne (by simp)]
    rfl
  | append_singleton q j ih =>
    rw [length_append, length_singleton] at hq
    rw [walk_concat, ih (by omega)]
    by_cases hqi : q = π ++ [i]
    · -- below the changed entry
      have hlen : π.length + 1 < D := by
        rw [hqi, length_append, length_singleton] at hq
        omega
      have hne : q ++ [j] ≠ π ++ [i] := by
        rw [hqi]
        simp
      rw [update_of_ne hne, hqi, update_self, hbefore hlen]
      cases hc : c with
      | none => rfl
      | some b => exact hafter hlen b hc j
    · rw [update_of_ne hqi]
      have hsplit : q ++ [j] = π ++ [i] ↔ q = π ∧ j = i := by
        rw [append_singleton_inj]
      cases hx : walk m root q with
      | none =>
        have hne : q ++ [j] ≠ π ++ [i] := by
          intro h
          rw [(hsplit.mp h).1, ha] at hx
          cases hx
        rw [update_of_ne hne, walk_concat_of_none hx]
        rfl
      | some x =>
        rw [bind_some, update_apply, walk_concat_of_some hx]
        by_cases hxa : x = a
        · subst hxa
          obtain rfl := htree q π x (by omega) hπ hx ha
          rw [hentry]
          exact if_congr (by rw [hsplit]; exact (and_iff_right rfl).symm) rfl rfl
        rw [if_neg, hothers q x (by omega) hx hxa]
        intro h
        rw [(hsplit.mp h).1, ha] at hx
        exact hxa (some.inj hx).symm

/-! ## Changing memory -/

section Change

variable [DecidableEq A]

/-- Empty one table. -/
def clear (m : Links A I) (f : A) : Links A I := update m f fun _ => none

theorem clear_apply (m : Links A I) (f b : A) (j : I) :
    clear m f b j = if b = f then none else m b j := by
  unfold clear
  rw [update_apply]
  split
  · rfl
  · rfl

theorem walk_clear (hfresh : ∀ π, π.length < D → walk m root π ≠ some f) (hq : q.length ≤ D) :
    walk (clear m f) root q = walk m root q := by
  refine walk_congr ?_ hq
  intro π a hπ ha
  have hne : a ≠ f := by
    rintro rfl
    exact hfresh π hπ ha
  funext j
  rw [clear_apply, if_neg hne]

variable [DecidableEq I]

/-- Change one entry. -/
def set (m : Links A I) (a : A) (i : I) (c : Option A) : Links A I := update m a (update (m a) i c)

/-- One entry of a table, after one entry of one table was changed. -/
theorem update_update_apply (m : A → I → B) (a : A) (i : I) (e : B) (b : A) (j : I) :
    update m a (update (m a) i e) b j = if b = a ∧ j = i then e else m b j := by
  by_cases hb : b = a
  · subst hb
    rw [update_self, update_apply]
    by_cases hj : j = i
    · rw [if_pos hj, if_pos ⟨rfl, hj⟩]
    · rw [if_neg hj, if_neg fun h => hj h.2]
  · rw [update_of_ne hb, if_neg fun h => hb h.1]

theorem set_apply (m : Links A I) (a : A) (i : I) (c : Option A) (b : A) (j : I) :
    set m a i c b j = if b = a ∧ j = i then c else m b j :=
  update_update_apply m a i c b j

theorem walk_set_of_not_isPrefix (htree : IsTree m root D) (hπ : π.length < D)
    (ha : walk m root π = some a) (hq : q.length ≤ D) (hnot : ¬ π ++ [i] <+: q) :
    walk (set m a i c) root q = walk m root q := by
  induction q using reverseRecOn with
  | nil => rfl
  | append_singleton q j ih =>
    rw [length_append, length_singleton] at hq
    have ih := ih (by omega) fun h => hnot (h.trans (prefix_append q [j]))
    rw [walk_concat, walk_concat, ih]
    cases hb : walk m root q with
    | none => rfl
    | some b =>
      -- the changed entry would be met only at the end of its own path
      have hne : ¬ (b = a ∧ j = i) := by
        rintro ⟨rfl, rfl⟩
        obtain rfl := htree q π b (by omega) hπ hb ha
        exact hnot (prefix_refl _)
      show set m a i c b j = m b j
      rw [set_apply, if_neg hne]

/-- Changing the entry at the end of a path, with nothing below it before or
    after, changes `walk` at that path alone. -/
theorem walk_set (htree : IsTree m root D) (hπ : π.length < D) (ha : walk m root π = some a)
    (hbefore : π.length + 1 < D → ∀ j, walk m root (π ++ [i] ++ [j]) = none)
    (hafter : π.length + 1 < D → ∀ b, c = some b → ∀ j, set m a i c b j = none)
    (hq : q.length ≤ D) : walk (set m a i c) root q = update (walk m root) (π ++ [i]) c q := by
  refine walk_eq_update htree hπ ha hbefore ?_ ?_ hafter hq
  · intro j
    rw [set_apply]
    by_cases hj : j = i
    · rw [if_pos hj, if_pos ⟨rfl, hj⟩]
    · rw [if_neg hj, if_neg fun h => hj h.2]
  · intro ρ x _ _ hx
    funext j
    rw [set_apply, if_neg fun h => hx h.1]

end Change

/-- A point update of `walk` keeps memory a tree, unless it makes a second path
    to a table. -/
theorem IsTree.of_update [DecidableEq I] (htree : IsTree m root D)
    (hwalk : ∀ q, q.length < D → walk m' root q = update (walk m root) ρ c q)
    (hfresh : ρ.length < D → ∀ f, c = some f → ∀ π, π.length < D → walk m root π ≠ some f) :
    IsTree m' root D := by
  intro π σ a hπ hσ hwπ hwσ
  rw [hwalk π hπ, update_apply] at hwπ
  rw [hwalk σ hσ, update_apply] at hwσ
  -- two paths to one table: neither, one or both of them is the changed one
  by_cases hπρ : π = ρ
  · by_cases hσρ : σ = ρ
    · rw [hπρ, hσρ]
    · rw [if_pos hπρ] at hwπ
      rw [if_neg hσρ] at hwσ
      exact absurd hwσ (hfresh (hπρ ▸ hπ) a hwπ σ hσ)
  by_cases hσρ : σ = ρ
  · rw [if_neg hπρ] at hwπ
    rw [if_pos hσρ] at hwσ
    exact absurd hwπ (hfresh (hσρ ▸ hσ) a hwσ π hπ)
  · rw [if_neg hπρ] at hwπ
    rw [if_neg hσρ] at hwσ
    exact htree π σ a hπ hσ hwπ hwσ

end OpenOS.Base.RadixTree
