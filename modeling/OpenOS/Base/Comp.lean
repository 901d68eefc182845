/-
  Computations over a state that can stop early.

  `EStateM (Stop ε) σ` is code that reads and writes a state `σ` and may leave
  through an error `ε` or a panic; the state reached is kept in both cases.  The
  rules follow such a computation one bind at a time.
-/

import Mathlib.Data.List.Basic

namespace OpenOS.Base

/-- How a computation leaves without a value. -/
inductive Stop (ε : Type)
  | err (e : ε)
  | panic
deriving DecidableEq

/-- Code over the state `σ` with errors `ε`. -/
abbrev Comp (ε σ : Type) := EStateM (Stop ε) σ

namespace Comp

variable {ε σ α β : Type} {x : Comp ε σ α} {s s' s₁ : σ} {a : α} {e : Stop ε} {f : α → Comp ε σ β}
  {P E : σ → Prop} {Q : α → σ → Prop} {R : β → σ → Prop} {o : Option α}

/-- A pure computation run inside. -/
def lift (x : Except (Stop ε) α) : Comp ε σ α := fun s =>
  match x with
  | .ok a => .ok a s
  | .error e => .error e s

/-- `ok_or(e)?` -/
def orErr (e : ε) : Option α → Comp ε σ α
  | some a => fun s => .ok a s
  | none => fun s => .error (.err e) s

/-- A value that the code takes for granted. -/
def orPanic : Option α → Comp ε σ α
  | some a => fun s => .ok a s
  | none => fun s => .error .panic s

/-- `map_err(|_| e)` -/
def mapErr {ε' : Type} (e : ε') (x : Comp ε σ α) : Comp ε' σ α := fun s =>
  match x s with
  | .ok a s' => .ok a s'
  | .error (.err _) s' => .error (.err e) s'
  | .error .panic s' => .error .panic s'

/-- `ok()` -/
def toOption {ε' : Type} (x : Comp ε σ α) : Comp ε' σ (Option α) := fun s =>
  match x s with
  | .ok a s' => .ok (some a) s'
  | .error (.err _) s' => .ok none s'
  | .error .panic s' => .error .panic s'

@[simp] theorem lift_ok (a : α) (s : σ) : lift (ε := ε) (.ok a) s = .ok a s := rfl

@[simp] theorem lift_error (e : Stop ε) (s : σ) : lift (α := α) (.error e) s = .error e s := rfl

@[simp] theorem pure_apply (a : α) (s : σ) : (pure a : Comp ε σ α) s = .ok a s := rfl

theorem bind_apply (x : Comp ε σ α) (f : α → Comp ε σ β) (s : σ) :
    (x >>= f) s = match x s with
      | .ok a s' => f a s'
      | .error e s' => .error e s' := by
  show EStateM.bind x f s = _
  unfold EStateM.bind
  cases x s <;> rfl

theorem bind_of_ok (h : x s = .ok a s') (f : α → Comp ε σ β) : (x >>= f) s = f a s' := by
  rw [bind_apply, h]

theorem bind_of_error (h : x s = .error e s') (f : α → Comp ε σ β) : (x >>= f) s = .error e s' := by
  rw [bind_apply, h]

theorem bind_eq_ok (h : (x >>= f) s = .ok b s') : ∃ a s₁, x s = .ok a s₁ ∧ f a s₁ = .ok b s' := by
  rw [bind_apply] at h
  split at h
  · rename_i a s₁ hx
    exact ⟨a, s₁, hx, h⟩
  · cases h

variable {ε' : Type}

theorem mapErr_of_ok (h : x s = .ok a s') (e : ε') : mapErr e x s = .ok a s' := by
  rw [mapErr, h]

/-- What a computation returns, if it does. -/
def answer (x : Comp ε σ α) (s : σ) : Option α :=
  match x s with
  | .ok a _ => some a
  | .error _ _ => none

theorem exists_ok_of_answer (h : answer x s = some a) : ∃ s', x s = .ok a s' := by
  unfold answer at h
  split at h
  · rename_i a' s' hx
    cases h
    exact ⟨s', hx⟩
  · cases h

/-! ## Pre- and postconditions -/

/-- From a state with `P` the code returns with `Q`, or stops with `E`. -/
def Spec (P : σ → Prop) (x : Comp ε σ α) (Q : α → σ → Prop) (E : σ → Prop) : Prop :=
  ∀ s, P s →
    match x s with
    | .ok a s' => Q a s'
    | .error _ s' => E s'

theorem Spec.bind (hx : Spec P x Q E) (hf : ∀ a, Spec (Q a) (f a) R E) : Spec P (x >>= f) R E := by
  intro s hs
  have hx' := hx s hs
  rw [bind_apply]
  cases hrun : x s with
  | ok a s₁ =>
    rw [hrun] at hx'
    exact hf a s₁ hx'
  | error e s₁ =>
    rwa [hrun] at hx'

theorem Spec.pure (h : ∀ s, P s → Q a s) : Spec P (pure a : Comp ε σ α) Q E := fun s hs => h s hs

theorem Spec.throw (h : ∀ s, P s → E s) : Spec P (throw e : Comp ε σ α) Q E := fun s hs => h s hs

theorem Spec.get : Spec (ε := ε) P get (fun a s => a = s ∧ P s) E := fun _ hs => ⟨rfl, hs⟩

/-! ## Code that does not panic -/

/-- From the state `s` the code returns with `Q`, or with an error. -/
def Ends (x : Comp ε σ α) (s : σ) (Q : α → σ → Prop) : Prop :=
  match x s with
  | .ok a s' => Q a s'
  | .error (.err _) _ => True
  | .error .panic _ => False

theorem Ends.mono {R : α → σ → Prop} (h : Ends x s Q) (hQR : ∀ a s', Q a s' → R a s') :
    Ends x s R := by
  unfold Ends at h ⊢
  split
  · rename_i hx
    rw [hx] at h
    exact hQR _ _ h
  · trivial
  · rename_i hx
    rwa [hx] at h

theorem Ends.bind (hx : Ends x s Q) (hf : ∀ a s', Q a s' → Ends (f a) s' R) :
    Ends (x >>= f) s R := by
  unfold Ends at hx ⊢
  rw [bind_apply]
  cases hrun : x s with
  | ok a s₁ =>
    rw [hrun] at hx
    exact hf a s₁ hx
  | error e s₁ =>
    rw [hrun] at hx
    cases e with
    | err e => trivial
    | panic => exact hx

theorem Ends.orPanic (h : o = some a) :
    Ends (orPanic o : Comp ε σ α) s fun b s' => b = a ∧ s' = s := by
  subst h
  exact ⟨rfl, rfl⟩

theorem Ends.mapErr {e : ε'} (h : Ends x s Q) : Ends (mapErr e x) s Q := by
  unfold Ends at h
  unfold Ends Comp.mapErr
  split at h
  · exact h
  · trivial
  · exact h.elim

/-- A loop whose body ends in every state. -/
theorem Ends.forM {f : α → Comp ε σ PUnit} (hf : ∀ a s, Ends (f a) s fun _ _ => True)
    (l : List α) (s : σ) : Ends (l.forM f) s fun _ _ => True := by
  induction l generalizing s with
  | nil => trivial
  | cons a l ih => exact (hf a s).bind fun _ s' _ => ih s'

/-- An error of the code is a result of `ok()`, in the state it was left in. -/
theorem Ends.toOption (h : Ends x s Q) :
    Ends (toOption x : Comp ε' σ (Option α)) s fun o s' => ∀ a, o = some a → Q a s' := by
  unfold Ends at h
  unfold Ends Comp.toOption
  split at h
  · rintro _ ⟨⟩
    exact h
  · exact nofun
  · exact h.elim

/-! ## Code that succeeds -/

/-- If the code returns from the state `s`, it does with `Q`. -/
def Gives (x : Comp ε σ α) (s : σ) (Q : α → σ → Prop) : Prop := ∀ a s', x s = .ok a s' → Q a s'

theorem Gives.mono {R : α → σ → Prop} (h : Gives x s Q) (hQR : ∀ a s', Q a s' → R a s') :
    Gives x s R := fun a s' hx => hQR a s' (h a s' hx)

theorem Gives.bind (hx : Gives x s Q) (hf : ∀ a s', Q a s' → Gives (f a) s' R) :
    Gives (x >>= f) s R := by
  intro b s' h
  obtain ⟨a, s₁, hx', hf'⟩ := bind_eq_ok h
  exact hf a s₁ (hx a s₁ hx') b s' hf'

theorem Gives.of_ok (h : x s = .ok a s₁) (hQ : Q a s₁) : Gives x s Q := by
  intro b s' hb
  rw [h] at hb
  cases hb
  exact hQ

theorem Gives.of_error (h : x s = .error e s₁) : Gives x s Q := by
  intro b s' hb
  rw [h] at hb
  cases hb

theorem Gives.pure (h : Q a s) : Gives (pure a : Comp ε σ α) s Q := of_ok rfl h

theorem Gives.throw : Gives (throw e : Comp ε σ α) s Q := of_error rfl

theorem Gives.bind_of_ok (h : x s = .ok a s₁) (hf : Gives (f a) s₁ R) : Gives (x >>= f) s R := by
  intro b s' hb
  rw [Comp.bind_of_ok h] at hb
  exact hf b s' hb

theorem Gives.bind_orErr {e : ε} (hf : ∀ a, o = some a → Gives (f a) s R) :
    Gives (orErr e o >>= f) s R := by
  cases o with
  | none => exact of_error rfl
  | some a => exact hf a rfl

theorem Gives.bind_orPanic (hf : ∀ a, o = some a → Gives (f a) s R) :
    Gives (orPanic o >>= f) s R := by
  cases o with
  | none => exact of_error rfl
  | some a => exact hf a rfl

/-- A check whose value is not used. -/
theorem Gives.ite_orPanic [Decidable c] (h : Gives y s R) :
    Gives (if c then Pure.pure a >>= fun _ => y else orPanic o >>= fun _ => y) s R := by
  split
  · exact h
  · exact bind_orPanic fun _ _ => h

theorem Gives.mapErr {e : ε'} (h : Gives x s Q) : Gives (mapErr e x) s Q := by
  intro a s' hx
  unfold Comp.mapErr at hx
  split at hx
  · rename_i a₁ s₁ hrun
    cases hx
    exact h _ _ hrun
  · cases hx
  · cases hx

/-- After `ok()`, where an error is a value. -/
theorem Gives.bind_toOption {f : Option α → Comp ε' σ β} (hnone : ∀ s', Gives (f none) s' R)
    (hx : Gives x s fun a s' => Gives (f (some a)) s' R) : Gives (toOption x >>= f) s R := by
  intro b s' h
  obtain ⟨o, s₁, ho, hf⟩ := bind_eq_ok h
  unfold Comp.toOption at ho
  split at ho
  · rename_i a s₂ hrun
    cases ho
    exact hx a s₁ hrun b s' hf
  · cases ho
    exact hnone s₁ b s' hf
  · cases ho

/-! ## Code that only reads -/

/-- Whether the code returns or stops, the state is as it was. -/
def Still (x : Comp ε σ α) : Prop :=
  ∀ s, match x s with
    | .ok _ s' => s' = s
    | .error _ s' => s' = s

theorem still_pure (a : α) : Still (pure a : Comp ε σ α) := fun _ => rfl

theorem still_throw (e : Stop ε) : Still (throw e : Comp ε σ α) := fun _ => rfl

theorem still_orPanic (o : Option α) : Still (orPanic o : Comp ε σ α) := by
  cases o with
  | none => exact still_throw _
  | some a => exact still_pure a

theorem Still.bind (hx : Still x) (hf : ∀ a, Still (f a)) : Still (x >>= f) := by
  intro s
  have hx' := hx s
  rw [bind_apply]
  cases hrun : x s with
  | ok a s₁ =>
    rw [hrun] at hx'
    subst hx'
    exact hf a s₁
  | error e s₁ =>
    rwa [hrun] at hx'

theorem Still.mapErr {e : ε'} (hx : Still x) : Still (mapErr e x) := by
  intro s
  have hx' := hx s
  unfold Comp.mapErr
  split
  · rename_i heq
    split at heq <;> cases heq
    rename_i hrun
    rwa [hrun] at hx'
  · rename_i heq
    split at heq <;> cases heq <;> (rename_i hrun; rw [hrun] at hx'; exact hx')

theorem Still.toOption (hx : Still x) : Still (toOption x : Comp ε' σ (Option α)) := by
  intro s
  have hx' := hx s
  unfold Comp.toOption
  split
  · rename_i heq
    split at heq <;> cases heq <;> (rename_i hrun; rw [hrun] at hx'; exact hx')
  rename_i heq
  split at heq <;> cases heq
  rename_i hrun
  rwa [hrun] at hx'

/-- What comes after code that only reads. -/
theorem Still.gives_bind (hx : Still x) (hf : ∀ a, x s = .ok a s → Gives (f a) s R) :
    Gives (x >>= f) s R := by
  intro b s' h
  obtain ⟨a, s₁, hrun, hrest⟩ := bind_eq_ok h
  have hs := hx s
  rw [hrun] at hs
  subst hs
  exact hf a hrun b s' hrest

/-! ## Code that fails only by panics -/

/-- No error is returned from any state. -/
def NoErr (x : Comp ε σ α) : Prop := ∀ s e s', x s ≠ .error (.err e) s'

theorem noErr_pure (a : α) : NoErr (pure a : Comp ε σ α) := fun _ _ _ h => nomatch h

theorem noErr_panic : NoErr (throw .panic : Comp ε σ α) := fun _ _ _ h => nomatch h

theorem NoErr.bind (hx : NoErr x) (hf : ∀ a, NoErr (f a)) : NoErr (x >>= f) := by
  intro s e s' h
  rw [bind_apply] at h
  split at h
  · exact hf _ _ _ _ h
  · rename_i hrun
    cases h
    exact hx s e s' hrun

theorem noErr_orPanic (o : Option α) : NoErr (orPanic o : Comp ε σ α) := by
  intro s e s' h
  cases o <;> cases h

theorem NoErr.ite_orPanic {c : Prop} [Decidable c] {y : Comp ε σ β} {a : α} {o : Option α}
    (h : NoErr y) : NoErr (if c then pure a >>= fun _ => y else orPanic o >>= fun _ => y) := by
  split
  · exact h
  · exact (noErr_orPanic o).bind fun _ => h

theorem NoErr.forM {f : α → Comp ε σ PUnit} (hf : ∀ a, NoErr (f a)) (l : List α) :
    NoErr (l.forM f) := by
  induction l with
  | nil => exact noErr_pure _
  | cons a l ih => exact (hf a).bind fun _ => ih

/-- What comes after such code panics, so the whole does. -/
theorem NoErr.bind_panics (hx : NoErr x) (hf : ∀ a s, ∃ s', f a s = .error .panic s') (s : σ) :
    ∃ s', (x >>= f) s = .error .panic s' := by
  rw [bind_apply]
  cases hrun : x s with
  | ok a s₁ => exact hf a s₁
  | error e s₁ =>
    cases e with
    | err e => exact absurd hrun (hx s e s₁)
    | panic => exact ⟨s₁, rfl⟩

end Comp

end OpenOS.Base
