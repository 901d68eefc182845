/-
  The per-task handle table (kernel/src/handle.rs) and the state machine of
  its four operations.

  The table is keyed by the full 32-bit slot counter, while a handle keeps
  only 28 bits of the slot and 26 bits of the generation: lookups go through
  `resolve`, which reads the slot out of the token and compares generations.
  Nothing below compares the rights of the token with those of the entry.

  `Arc` references are the numbers `Ref`; cloning one gives the same number.
-/

import OpenOS.Base.Run
import OpenOS.Handle.Basic
import Mathlib.Logic.Function.Basic

namespace OpenOS

open Function Base Option

/-- A shared heap object (`Arc<Mutex<_>>`), by identity. -/
abbrev Ref := Nat

/-- A typed kernel object that a handle can reference. -/
inductive KernelObject
  | channelEndA (ch : Ref)
  | channelEndB (ch : Ref)
  | event (ev : Ref)
  | irqEvent (ev : Ref)
  | file (fh : Ref)
  | pipeReader (pr : Ref)
  | pipeWriter (pw : Ref)
deriving DecidableEq

/-- Entry in a handle table. -/
structure HandleEntry where
  handle : Handle
  object : KernelObject
deriving DecidableEq

/-- Per-task handle table. -/
structure HandleTable where
  slots : BitVec 32 → Option HandleEntry
  nextSlot : BitVec 32
  generation : BitVec 32

namespace HandleTable

/-- The empty table. -/
def new : HandleTable := ⟨fun _ => none, 0, 0⟩

section

variable (p : Profile) (t : HandleTable) (object : KernelObject) (rights : Rights)

/-- The tail of `insert` and `duplicate`: take the next slot number, by a plain `+= 1`,
    and the next generation, wrapping, store the entry, return its handle. -/
def push : Option (Handle × HandleTable) :=
  match p.add t.nextSlot 1 with
  | none => none
  | some nextSlot =>
    -- the entry is stored under the full counter, the token keeps 28 bits of it
    let gen := t.generation &&& 0x03FFFFFF#32
    let handle := Handle.new t.nextSlot rights gen
    some (handle,
      { slots := update t.slots t.nextSlot (some ⟨handle, object⟩)
        nextSlot := nextSlot
        generation := t.generation + 1 })

/-- Insert a kernel object, returning a new handle; `none` is a panic. -/
def insert : Option (Handle × HandleTable) := t.push p object rights

/-- The kernel object behind a handle, validating the generation. -/
def get (handle : Handle) : Option KernelObject :=
  match t.slots handle.slotId with
  | some entry =>
    if entry.handle.generation = handle.generation then some entry.object else none
  | none => none

/-- Remove a handle from the table. -/
def close (handle : Handle) : Bool × HandleTable :=
  match t.slots handle.slotId with
  | some entry =>
    if entry.handle.generation = handle.generation then
      (true, { t with slots := update t.slots handle.slotId none })
    else (false, t)
  | none => (false, t)

/-- Close all handles in the table. -/
def closeAll : HandleTable := { t with slots := fun _ => none }

/-- Duplicate a handle with optionally narrowed rights.  The permission check
    and the narrowing both read the rights of the token. -/
def duplicate (handle : Handle) (newRights : Rights) : Option (Option Handle × HandleTable) :=
  if handle.rights.contains Rights.duplicate = false then some (none, t)
  else
    match t.slots handle.slotId with
    | none => some (none, t)
    | some entry =>
      -- the rights stored in the entry are not looked at
      if entry.handle.generation ≠ handle.generation then some (none, t)
      else
        match t.push p entry.object (handle.rights.intersect newRights) with
        | none => none
        | some (newHandle, t') => some (some newHandle, t')

/-! ## Lookup -/

/-- The entry a token denotes: its slot is occupied, with its generation. -/
def resolve (handle : Handle) : Option HandleEntry :=
  (t.slots handle.slotId).filter (fun entry => entry.handle.generation = handle.generation)

end

variable {t : HandleTable}

theorem resolve_eq_some : t.resolve h = some entry ↔
      t.slots h.slotId = some entry ∧ entry.handle.generation = h.generation := by
  simp [resolve]

theorem get_eq_resolve (t : HandleTable) (h : Handle) :
    t.get h = (t.resolve h).map HandleEntry.object := by
  unfold get resolve
  cases t.slots h.slotId with
  | none => rfl
  | some entry =>
    by_cases hg : entry.handle.generation = h.generation <;> simp [Option.filter]

theorem close_eq_resolve (t : HandleTable) (h : Handle) :
    t.close h = match t.resolve h with
      | some _ => (true, { t with slots := update t.slots h.slotId none })
      | none => (false, t) := by
  unfold close resolve
  cases t.slots h.slotId with
  | none => rfl
  | some entry =>
    by_cases hg : entry.handle.generation = h.generation <;> simp [Option.filter, hg]

theorem duplicate_eq_resolve (p : Profile) (t : HandleTable) (h : Handle) (nr : Rights) :
    t.duplicate p h nr =
      if h.rights.contains Rights.duplicate = true then
        match t.resolve h with
        | some entry => (t.push p entry.object (h.rights.intersect nr)).map fun q => (some q.1, q.2)
        | none => some (none, t)
      else some (none, t) := by
  unfold duplicate resolve
  cases hd : h.rights.contains Rights.duplicate with
  | false => simp
  | true =>
    cases t.slots h.slotId with
    | none => simp
    | some entry =>
      by_cases hg : entry.handle.generation = h.generation
      · simp only [hg, ne_eq, Option.filter, decide_true, if_true]
        cases t.push p entry.object (h.rights.intersect nr) <;> rfl
      · simp [Option.filter, hg]

theorem push_eq_some (hp : t.push p obj r = some (h, t')) :
    h = Handle.new t.nextSlot r (t.generation &&& 0x03FFFFFF#32) ∧
      t' = { slots := update t.slots t.nextSlot (some ⟨h, obj⟩)
             nextSlot := t.nextSlot + 1
             generation := t.generation + 1 } := by
  unfold push at hp
  split at hp
  · cases hp
  rename_i nextSlot hadd
  obtain rfl := Profile.eq_add_of_add_eq_some hadd
  cases hp
  exact ⟨rfl, rfl⟩

/-- The entries after a push: the new one, and those of the other slots. -/
theorem push_slots (hp : t.push p obj r = some (h, t')) : t'.slots slot = some entry ↔
      (slot = t.nextSlot ∧ entry = ⟨h, obj⟩) ∨ (slot ≠ t.nextSlot ∧ t.slots slot = some entry) := by
  obtain ⟨-, rfl⟩ := push_eq_some hp
  by_cases hk : slot = t.nextSlot
  · simp [hk, eq_comm]
  · simp [hk]

theorem erase_slots : update t.slots k none slot = some entry ↔
      slot ≠ k ∧ t.slots slot = some entry := by
  by_cases hk : slot = k
  · simp [hk]
  · simp [hk]

/-! ## The state machine -/

/-- The operations a run of a table is made of. -/
inductive Op
  | insert (object : KernelObject) (rights : Rights)
  | duplicate (handle : Handle) (newRights : Rights)
  | get (handle : Handle)
  | close (handle : Handle)
deriving DecidableEq

/-- Their results. -/
inductive Res
  | handle (h : Option Handle)
  | object (o : Option KernelObject)
  | closed (ok : Bool)
deriving DecidableEq

/-- One operation on a table. -/
def step (p : Profile) : StepFn HandleTable Op Res
  | t, .insert object rights =>
    (t.insert p object rights).map fun q => (.handle (some q.1), q.2)
  | t, .duplicate handle newRights =>
    (t.duplicate p handle newRights).map fun q => (.handle q.1, q.2)
  | t, .get handle => some (.object (t.get handle), t)
  | t, .close handle => some (.closed (t.close handle).1, (t.close handle).2)

/-- A step of a table, as it appears in a run. -/
abbrev TableStep := Transition HandleTable Op Res

/-- The handle a step created, with the object it was created for. -/
def created (e : TableStep) : Option (Handle × KernelObject) :=
  match e.op, e.res with
  | .insert object _, .handle (some h) => some (h, object)
  | .duplicate handle _, .handle (some h) => (e.pre.get handle).map fun o => (h, o)
  | _, _ => none

/-- Everything a step of a table can do. -/
theorem step_cases (h : step p t op = some (res, t')) :
    (∃ obj r hd, op = .insert obj r ∧ res = .handle (some hd) ∧
      t.push p obj r = some (hd, t')) ∨
    (∃ hd nr entry hd', op = .duplicate hd nr ∧ res = .handle (some hd') ∧
      hd.rights.contains Rights.duplicate = true ∧ t.resolve hd = some entry ∧
      t.push p entry.object (hd.rights.intersect nr) = some (hd', t')) ∨
    (∃ hd entry, op = .close hd ∧ res = .closed true ∧ t.resolve hd = some entry ∧
      t' = { t with slots := update t.slots hd.slotId none }) ∨
    (t' = t ∧ created ⟨t, op, res, t'⟩ = none ∧ ∀ hd, op = .close hd → res = .closed false) := by
  cases op with
  | insert obj r =>
    simp only [step, map_eq_some_iff, Prod.exists] at h
    obtain ⟨hd, t₁, hpush, rfl, rfl⟩ := h
    exact .inl ⟨obj, r, hd, rfl, rfl, hpush⟩
  | duplicate hd nr =>
    simp only [step, duplicate_eq_resolve] at h
    split at h
    · rename_i hdup
      cases hres : t.resolve hd with
      | none =>
        simp only [hres] at h
        obtain ⟨rfl, rfl⟩ := h
        exact .inr (.inr (.inr ⟨rfl, rfl, by simp⟩))
      | some entry =>
        simp only [hres, map_map, map_eq_some_iff, Prod.exists] at h
        obtain ⟨hd', t₁, hpush, rfl, rfl⟩ := h
        exact .inr (.inl ⟨hd, nr, entry, hd', rfl, rfl, hdup, hres, hpush⟩)
    · simp only [map_some] at h
      obtain ⟨rfl, rfl⟩ := h
      exact .inr (.inr (.inr ⟨rfl, rfl, by simp⟩))
  | get hd =>
    obtain ⟨rfl, rfl⟩ := h
    exact .inr (.inr (.inr ⟨rfl, rfl, by simp⟩))
  | close hd =>
    simp only [step, close_eq_resolve] at h
    cases hres : t.resolve hd with
    | none =>
      simp only [hres] at h
      obtain ⟨rfl, rfl⟩ := h
      exact .inr (.inr (.inr ⟨rfl, rfl, by simp⟩))
    | some entry =>
      simp only [hres] at h
      obtain ⟨rfl, rfl⟩ := h
      exact .inr (.inr (.inl ⟨hd, entry, rfl, rfl, hres, rfl⟩))

end HandleTable

end OpenOS
