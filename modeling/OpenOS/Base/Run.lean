/-
  Runs of a component given by a partial step function.

  A component is a function `step s a` that answers an operation `a` in state
  `s` with a result and a next state, or with `none` when it does not return
  (a panic).  A run is recorded as the list of its transitions, oldest first,
  each with the state it was taken from.
-/

import Mathlib.Data.List.Basic

namespace OpenOS.Base

open List Option

/-- A component: result and next state, or `none` when the call panics. -/
abbrev StepFn (σ α ω : Type) := σ → α → Option (ω × σ)

/-- One step of a run, with the states before and after it. -/
structure Transition (σ α ω : Type) where
  pre : σ
  op : α
  res : ω
  post : σ

variable {σ α ω : Type} {G : List (α × ω) → α → Prop}

/-- `Run step s₀ tr s`: the transitions `tr` lead from `s₀` to `s`. -/
inductive Run (step : StepFn σ α ω) (s₀ : σ) : List (Transition σ α ω) → σ → Prop
  | nil : Run step s₀ [] s₀
  | snoc {tr : List (Transition σ α ω)} {s s' : σ} {a : α} {r : ω} :
      Run step s₀ tr s → step s a = some (r, s') →
      Run step s₀ (tr ++ [⟨s, a, r, s'⟩]) s'

namespace Run

variable {step : StepFn σ α ω} {s₀ s : σ} {tr tr₁ : List (Transition σ α ω)}
  {I : List (Transition σ α ω) → σ → Prop} {e : Transition σ α ω}

/-- Invariant rule: what holds at the start and is kept by every step holds of
    the history and the state of every run. -/
theorem invariant (hinit : I [] s₀)
    (hstep : ∀ tr s a r s', I tr s → step s a = some (r, s') → I (tr ++ [⟨s, a, r, s'⟩]) s')
    (hrun : Run step s₀ tr s) : I tr s := by
  induction hrun with
  | nil => exact hinit
  | snoc _ hs ih => exact hstep _ _ _ _ _ ih hs

/-- Invariant rule under a condition: the step may assume `G` of the history
    before it, the state it is taken from and the operation. -/
theorem invariant_of_guard {G : List (Transition σ α ω) → Transition σ α ω → Prop} (hinit : I [] s₀)
    (hstep : ∀ tr s a r s', I tr s → step s a = some (r, s') → G tr ⟨s, a, r, s'⟩ →
      I (tr ++ [⟨s, a, r, s'⟩]) s')
    (hrun : Run step s₀ tr s) (hguard : ∀ tr₁ e, tr₁ ++ [e] <+: tr → G tr₁ e) : I tr s := by
  induction hrun with
  | nil => exact hinit
  | @snoc tr s s' a r _ hs ih =>
    refine hstep _ _ _ _ _ (ih ?_) hs (hguard _ _ (prefix_refl _))
    intro tr₁ e hpre
    exact hguard tr₁ e (hpre.trans (prefix_append _ _))

/-- A step-wise condition, stated of the members of the history, as the
    condition of `invariant_of_guard`. -/
theorem guard_of_forall_mem {P : Transition σ α ω → Prop} (h : ∀ e ∈ tr, P e) :
    ∀ tr₁ e, tr₁ ++ [e] <+: tr → P e := by
  intro tr₁ e hpre
  exact h e (hpre.subset (by simp))

/-- A run in two parts. -/
theorem of_append (hrun : Run step s₀ (tr ++ tr₁) s) :
    ∃ s₁, Run step s₀ tr s₁ ∧ Run step s₁ tr₁ s := by
  generalize htr : tr ++ tr₁ = full at hrun
  induction hrun generalizing tr₁ with
  | nil =>
    obtain ⟨rfl, rfl⟩ := append_eq_nil_iff.mp htr
    exact ⟨s₀, .nil, .nil⟩
  | snoc hr hs ih =>
    -- the last transition is that of the second part, if that has one
    rcases eq_nil_or_concat' tr₁ with rfl | ⟨init, e, rfl⟩
    · rw [append_nil] at htr
      exact ⟨_, htr ▸ .snoc hr hs, .nil⟩
    · rw [← append_assoc] at htr
      obtain ⟨hinit, hlast⟩ := append_inj' htr rfl
      cases hlast
      obtain ⟨s₁, hfirst, hsecond⟩ := ih hinit
      exact ⟨s₁, hfirst, .snoc hsecond hs⟩

theorem of_isPrefix (hrun : Run step s₀ tr s) (hpre : tr₁ <+: tr) : ∃ s₁, Run step s₀ tr₁ s₁ := by
  obtain ⟨tr₂, rfl⟩ := hpre
  exact hrun.of_append.imp fun _ => And.left

/-- The last transition of a run: a run up to it, and the step itself. -/
theorem of_concat (hrun : Run step s₀ (tr ++ [e]) s) :
    Run step s₀ tr e.pre ∧ step e.pre e.op = some (e.res, e.post) ∧ s = e.post := by
  -- only `snoc` builds a history that ends in a transition
  generalize htr : tr ++ [e] = full at hrun
  cases hrun with
  | nil => simp at htr
  | snoc hr hs =>
    obtain ⟨rfl, hlast⟩ := append_inj' htr rfl
    obtain rfl := singleton_inj.mp hlast
    exact ⟨hr, hs, rfl⟩

theorem of_nil (hrun : Run step s₀ [] s) : s = s₀ := by
  generalize htr : ([] : List (Transition σ α ω)) = tr at hrun
  cases hrun with
  | nil => rfl
  | snoc => simp at htr

/-- The first transition of a run, and the run after it. -/
theorem of_cons (hrun : Run step s₀ (e :: tr) s) :
    e.pre = s₀ ∧ step e.pre e.op = some (e.res, e.post) ∧ Run step e.post tr s := by
  rw [← singleton_append] at hrun
  obtain ⟨s₁, hfirst, hrest⟩ := hrun.of_append
  rw [← nil_append [e]] at hfirst
  obtain ⟨hnil, hs, rfl⟩ := hfirst.of_concat
  exact ⟨hnil.of_nil, hs, hrest⟩

/-- Every transition of a run is a step, taken from a state the run reaches. -/
theorem of_mem (hrun : Run step s₀ tr s) (he : e ∈ tr) :
    ∃ tr₁, tr₁ ++ [e] <+: tr ∧ Run step s₀ tr₁ e.pre ∧ step e.pre e.op = some (e.res, e.post) := by
  obtain ⟨tr₁, tr₂, rfl⟩ := append_of_mem he
  have hpre : tr₁ ++ [e] <+: tr₁ ++ e :: tr₂ := ⟨tr₂, by simp⟩
  obtain ⟨s₁, hr₁⟩ := hrun.of_isPrefix hpre
  obtain ⟨hr, hs, -⟩ := hr₁.of_concat
  exact ⟨tr₁, hpre, hr, hs⟩

theorem append (h₀ : Run step s₀ tr s₁) (h₁ : Run step s₁ tr₁ s) : Run step s₀ (tr ++ tr₁) s := by
  induction h₁ with
  | nil => simpa using h₀
  | snoc _ hs ih =>
    rw [← append_assoc]
    exact Run.snoc ih hs

end Run

/-- A state condition holds all along a run exactly when every step meets a condition,
    if this is so of each step taken from a good state. -/
theorem Run.forall_reached_iff {B : σ → Prop} {C : Transition σ α ω → Prop} (hinit : B s₀)
    (hstep : ∀ tr₁ e, Run step s₀ tr₁ e.pre → step e.pre e.op = some (e.res, e.post) →
      B e.pre → (B e.post ↔ C e))
    (hrun : Run step s₀ tr s) :
    (∀ tr₁ s₁, tr₁ <+: tr → Run step s₀ tr₁ s₁ → B s₁) ↔ ∀ e ∈ tr, C e := by
  constructor
  · intro hgood e he
    obtain ⟨tr₁, hpre, hrun₁, hs⟩ := hrun.of_mem he
    have hbefore := hgood tr₁ e.pre ((prefix_append _ _).trans hpre) hrun₁
    exact (hstep tr₁ e hrun₁ hs hbefore).mp (hgood (tr₁ ++ [e]) e.post hpre (Run.snoc hrun₁ hs))
  · -- induction on the run up to the state in question
    intro hC tr₁ s₁ hpre hrun₁
    induction hrun₁ with
    | nil => exact hinit
    | @snoc tr₂ s₂ s₃ a r hrun₂ hs ih =>
      have hbefore := ih ((prefix_append _ _).trans hpre)
      have hmem : (⟨s₂, a, r, s₃⟩ : Transition σ α ω) ∈ tr := hpre.subset (by simp)
      exact (hstep tr₂ ⟨s₂, a, r, s₃⟩ hrun₂ hs hbefore).mpr (hC _ hmem)

/-! ## What happened last -/

/-- Something in the list is a `P`, and nothing after it is a `Q`. -/
def Since (P Q : α → Prop) (l : List α) : Prop :=
  ∃ l₁ a l₂, l = l₁ ++ a :: l₂ ∧ P a ∧ ∀ b ∈ l₂, ¬ Q b

theorem not_since_nil (P Q : α → Prop) : ¬ Since P Q [] := by
  rintro ⟨l₁, a, l₂, h, -⟩
  simp at h

theorem since_concat : Since P Q (l ++ [a]) ↔ P a ∨ (Since P Q l ∧ ¬ Q a) := by
  constructor
  · rintro ⟨l₁, b, l₂, heq, hb, hnone⟩
    rcases eq_nil_or_concat l₂ with rfl | ⟨l₃, c, rfl⟩
    · obtain ⟨-, hlast⟩ := append_inj' heq rfl
      obtain rfl := singleton_inj.mp hlast
      exact .inl hb
    rw [concat_eq_append, ← cons_append, ← append_assoc] at heq
    obtain ⟨rfl, hlast⟩ := append_inj' heq rfl
    obtain rfl := singleton_inj.mp hlast
    exact .inr ⟨⟨l₁, b, l₃, rfl, hb, fun x hx => hnone x (by simp [hx])⟩, hnone a (by simp)⟩
  · rintro (ha | ⟨⟨l₁, b, l₂, rfl, hb, hnone⟩, ha⟩)
    · exact ⟨l, a, [], rfl, ha, by simp⟩
    · refine ⟨l₁, b, l₂ ++ [a], by simp, hb, ?_⟩
      intro x hx
      rcases mem_append.mp hx with hx | hx
      · exact hnone x hx
      · rwa [mem_singleton.mp hx]

/-! ## Simulation -/

/-- What a client sees of a step: the operation and its result. -/
def Transition.label (e : Transition σ α ω) : α × ω := (e.op, e.res)

/-- Every operation of a history of labels meets `G` of the labels before it. -/
def Admissible (G : List (α × ω) → α → Prop) (labels : List (α × ω)) : Prop :=
  ∀ l e, l ++ [e] <+: labels → G l e.1

theorem Admissible.of_concat (h : Admissible G (l ++ [e])) : Admissible G l ∧ G l e.1 := by
  refine ⟨?_, h l e (prefix_refl _)⟩
  intro l₁ e₁ hpre
  exact h l₁ e₁ (hpre.trans (prefix_append _ _))

/-- Forward simulation. If related states answer every admissible operation alike and
    stay related, every admissible run is matched by one with the same labels. The step
    may use the matching run. -/
theorem Run.simulation {τ : Type} {step' : StepFn τ α ω} {R : σ → τ → Prop} {t₀ : τ}
    (hinit : R s₀ t₀)
    (hstep : ∀ tr' s t a, Run step' t₀ tr' t → Admissible G (tr'.map Transition.label) →
      R s t → G (tr'.map Transition.label) a →
      ∃ r s' t', step s a = some (r, s') ∧ step' t a = some (r, t') ∧ R s' t')
    (hrun : Run step s₀ tr s) (hadm : Admissible G (tr.map Transition.label)) :
    ∃ tr' t, Run step' t₀ tr' t ∧ tr'.map Transition.label = tr.map Transition.label ∧ R s t := by
  -- induction on the run: the matching run is extended step by step, and the
  -- condition on the labels is the same for both
  induction hrun with
  | nil => exact ⟨[], t₀, Run.nil, rfl, hinit⟩
  | @snoc tr s s' a r _ hs ih =>
    rw [map_append] at hadm
    obtain ⟨hadm₁, hG⟩ := hadm.of_concat
    obtain ⟨tr', t, hrun', hlabels, hR⟩ := ih hadm₁
    obtain ⟨r₁, s₁, t₁, hs₁, ht₁, hR₁⟩ := hstep tr' s t a hrun' (hlabels ▸ hadm₁) hR (hlabels ▸ hG)
    obtain ⟨rfl, rfl⟩ := Prod.mk.inj (some.inj (hs.symm.trans hs₁))
    refine ⟨tr' ++ [⟨t, a, r, t₁⟩], t₁, Run.snoc hrun' ht₁, ?_, hR₁⟩
    rw [map_append, map_append, hlabels]
    rfl

/-! ## Conditions on the steps of a given history -/

theorem forall_concat_isPrefix_nil {α : Type} {P : List α → α → Prop} :
    (∀ l e, l ++ [e] <+: [] → P l e) ↔ True := by
  simp

/-- A condition on every element with the elements before it, unrolled at the
    head of the list. -/
theorem forall_concat_isPrefix_cons {α : Type} {P : List α → α → Prop} {a : α} {as : List α} :
    (∀ l e, l ++ [e] <+: a :: as → P l e) ↔ P [] a ∧ ∀ l e, l ++ [e] <+: as → P (a :: l) e := by
  refine ⟨fun h => ⟨h [] a ⟨as, rfl⟩, fun l e hl =>
    h (a :: l) e (cons_prefix_cons.mpr ⟨rfl, hl⟩)⟩, fun ⟨hhead, htail⟩ l e h => ?_⟩
  cases l with
  | nil =>
    obtain ⟨rest, hrest⟩ := h
    obtain ⟨rfl, -⟩ := cons_eq_cons.mp hrest
    exact hhead
  | cons b l =>
    obtain ⟨rfl, hl⟩ := cons_prefix_cons.mp h
    exact htail l e hl

/-! ## Executing a list of operations -/

/-- The run of a list of operations, when none of them panics. -/
def exec (step : StepFn σ α ω) : σ → List α → Option (List (Transition σ α ω) × σ)
  | s, [] => some ([], s)
  | s, a :: as =>
    match step s a with
    | none => none
    | some (r, s') =>
      match exec step s' as with
      | none => none
      | some (tr, s'') => some (⟨s, a, r, s'⟩ :: tr, s'')

theorem exec_run (step : StepFn σ α ω) (s : σ) (as : List α) (h : exec step s as = some (tr, s')) :
    Run step s tr s' := by
  induction as generalizing s tr with
  | nil =>
    obtain ⟨rfl, rfl⟩ := h
    exact Run.nil
  | cons a as ih =>
    simp only [exec] at h
    split at h
    · cases h
    rename_i r s₁ hs
    split at h
    · cases h
    rename_i tr₁ s₂ hrest
    cases h
    have hone : Run step s ([] ++ [⟨s, a, r, s₁⟩]) s₁ := Run.snoc Run.nil hs
    exact hone.append (ih s₁ hrest)

theorem run_of_exec {β : Type*} {step : StepFn σ α ω} {s : σ} {as : List α}
    {f : List (Transition σ α ω) × σ → β} {b : β} (h : (exec step s as).map f = some b) :
    ∃ tr s', Run step s tr s' ∧ f (tr, s') = b := by
  obtain ⟨⟨tr, s'⟩, hexec, hf⟩ := map_eq_some_iff.mp h
  exact ⟨tr, s', exec_run step s as hexec, hf⟩

theorem ops_of_exec {step : StepFn σ α ω} {s : σ} {as : List α}
    (h : exec step s as = some (tr, s')) : tr.map Transition.op = as := by
  fun_induction exec step s as generalizing tr <;> grind

/-- A run of the given operations, with what is computed of it. -/
theorem exists_run_of_exec (step : StepFn σ α ω) (s : σ) (as : List α)
    (f : List (Transition σ α ω) → σ → Bool)
    (h : (exec step s as).map (fun q => f q.1 q.2) = some true) :
    ∃ tr s', Run step s tr s' ∧ tr.map Transition.op = as ∧ f tr s' = true := by
  obtain ⟨⟨tr, s'⟩, hexec, hf⟩ := map_eq_some_iff.mp h
  exact ⟨tr, s', exec_run step s as hexec, ops_of_exec hexec, hf⟩

/-- The calls and results of `exec`, without its states. -/
def execLabels (step : StepFn σ α ω) (s : σ) (as : List α) : Option (List (α × ω)) :=
  (exec step s as).map fun q => q.1.map Transition.label

theorem run_of_execLabels {step : StepFn σ α ω} {s : σ} {as : List α} {labels : List (α × ω)}
    (h : execLabels step s as = some labels) :
    ∃ tr s', Run step s tr s' ∧ tr.map Transition.label = labels :=
  run_of_exec h

end OpenOS.Base
