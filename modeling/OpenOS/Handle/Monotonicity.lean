/-
  Rights along duplication chains.

  `duplicate` checks and narrows the rights field of the token it is given,
  and user space chooses that token.  So a chain of duplications loses rights
  exactly as long as no token claims, on the bits that matter, a right its
  entry does not have (`UnforgedDuplicate`).
-/

import OpenOS.Handle.Table

namespace OpenOS

open Base Option List

namespace HandleTable

/-! ## What monotonicity says -/

/-- A duplication that succeeds found an entry with the `DUPLICATE` right, and
    both the new entry and the returned token have at most its rights. -/
def DuplicateMonotone (e : TableStep) : Prop :=
  ∀ hd nr hd', e.op = .duplicate hd nr → e.res = .handle (some hd') →
    ∃ src entry, e.pre.resolve hd = some src ∧
      e.post.slots e.pre.nextSlot = some entry ∧ entry.object = src.object ∧
      src.handle.rights.contains Rights.duplicate = true ∧
      src.handle.rights.contains entry.handle.rights = true ∧
      src.handle.rights.contains hd'.rights = true

/-- Some insertion of the object in the history granted at least these rights. -/
def Granted (tr : List TableStep) (object : KernelObject) (rights : Rights) : Prop :=
  ∃ e ∈ tr, ∃ granted, e.op = .insert object granted ∧ granted.contains rights = true

/-- Capability monotonicity of a history and the state it leads to. -/
def CapabilityMonotone (tr : List TableStep) (s : HandleTable) : Prop :=
  (∀ e ∈ tr, DuplicateMonotone e) ∧
  (∀ slot entry, s.slots slot = some entry → Granted tr entry.object entry.handle.rights) ∧
  (∀ e ∈ tr, ∀ hd object, created e = some (hd, object) → Granted tr object hd.rights)

/-- A token presented to `duplicate` that names an entry and claims `DUPLICATE` is not
    forged: the entry has `DUPLICATE` and every right both claimed and requested. -/
def UnforgedDuplicate (t : HandleTable) : Op → Prop
  | .duplicate hd nr => ∀ entry, t.resolve hd = some entry →
      hd.rights.contains Rights.duplicate = true →
      entry.handle.rights.contains Rights.duplicate = true ∧
        entry.handle.rights.contains (hd.rights.intersect nr) = true
  | _ => True

/-! ## One step -/

theorem push_rights {t : HandleTable} (hp : t.push p obj r = some (hd, t')) :
    hd.rights = r ∧ t'.slots t.nextSlot = some ⟨hd, obj⟩ := by
  obtain ⟨hhd, rfl⟩ := push_eq_some hp
  refine ⟨?_, Function.update_self ..⟩
  rw [hhd, Handle.rights_new]

/-- For a step, the condition on the token is exactly monotonicity. -/
theorem duplicateMonotone_iff {t : HandleTable} (h : step p t op = some (res, t')) :
    DuplicateMonotone ⟨t, op, res, t'⟩ ↔ UnforgedDuplicate t op := by
  rcases step_cases h with ⟨obj, r, hd, rfl, rfl, hpush⟩ |
    ⟨hd, nr, src, hd', rfl, rfl, hdup, hres, hpush⟩ | ⟨hd, entry, rfl, rfl, -, -⟩ | ⟨-, hnone, -⟩
  · simp [DuplicateMonotone, UnforgedDuplicate]
  · -- the new entry and the returned token both carry the token's narrowed rights
    obtain ⟨hrights, hslot⟩ := push_rights hpush
    constructor
    · intro hmono entry hentry _
      obtain ⟨src', new, hsrc', hnew, -, hd1, -, hd3⟩ := hmono hd nr hd' rfl rfl
      rw [hentry] at hsrc'
      cases hsrc'
      exact ⟨hd1, hrights ▸ hd3⟩
    · intro hunf hd₁ nr₁ hd₁' hop hresult
      obtain ⟨rfl, rfl⟩ := Op.duplicate.inj hop
      obtain rfl := Option.some.inj (Res.handle.inj hresult)
      obtain ⟨hd1, hd2⟩ := hunf src hres hdup
      refine ⟨src, ⟨hd', src.object⟩, hres, hslot, rfl, hd1, ?_, ?_⟩
      · rw [hrights]; exact hd2
      · rw [hrights]; exact hd2
  · simp [DuplicateMonotone, UnforgedDuplicate]
  · -- nothing was created, so a duplication found no entry or no claimed right
    cases op with
    | duplicate hd nr =>
      constructor
      · intro _ entry hentry hdup
        simp only [step, duplicate_eq_resolve, hdup, if_true, hentry, Option.map_map,
          Option.map_eq_some_iff] at h
        obtain ⟨q, -, rfl, -⟩ := h
        simp [created, get_eq_resolve, hentry] at hnone
      · intro hunf hd₁ nr₁ hd₁' hop hresult
        obtain ⟨rfl, rfl⟩ := Op.duplicate.inj hop
        obtain rfl : res = .handle (some hd₁') := hresult
        simp only [step, duplicate_eq_resolve] at h
        split at h
        · cases hres : t.resolve hd with
          | none => simp [hres] at h
          | some entry => simp [created, get_eq_resolve, hres] at hnone
        · simp at h
    | insert obj r => simp [DuplicateMonotone, UnforgedDuplicate]
    | get hd => simp [DuplicateMonotone, UnforgedDuplicate]
    | close hd => simp [DuplicateMonotone, UnforgedDuplicate]

/-! ## Runs -/

theorem Granted.mono (h : Granted tr obj r) : Granted (tr ++ [e]) obj r := by
  obtain ⟨e', he', granted, hop, hc⟩ := h
  exact ⟨e', mem_append_left _ he', granted, hop, hc⟩

/-- The part of the invariant about the table: everything stored was granted. -/
def EntriesGranted (tr : List TableStep) (s : HandleTable) : Prop :=
  (∀ slot entry, s.slots slot = some entry → Granted tr entry.object entry.handle.rights) ∧
  (∀ e ∈ tr, ∀ hd object, created e = some (hd, object) → Granted tr object hd.rights)

/-- Appending a step that stores `⟨hd, obj⟩` with granted rights and creates
    that handle keeps everything granted. -/
theorem EntriesGranted.of_push (hI : EntriesGranted tr s) (hpush : s.push p obj r = some (hd, s'))
    (hcreated : created ⟨s, op, res, s'⟩ = some (hd, obj))
    (hgranted : Granted (tr ++ [⟨s, op, res, s'⟩]) obj r) :
    EntriesGranted (tr ++ [⟨s, op, res, s'⟩]) s' := by
  obtain ⟨hrights, -⟩ := push_rights hpush
  constructor
  · intro slot entry hslot
    rcases (push_slots hpush).mp hslot with ⟨-, rfl⟩ | ⟨-, hold⟩
    · rwa [hrights]
    · exact (hI.1 slot entry hold).mono
  · intro e he hd₁ object hc
    rcases mem_append.mp he with hold | hnew
    · exact (hI.2 e hold hd₁ object hc).mono
    obtain rfl := mem_singleton.mp hnew
    rw [hcreated] at hc
    cases hc
    rw [hrights]; exact hgranted

/-- A step that creates nothing and stores nothing new keeps everything granted. -/
theorem EntriesGranted.of_shrink (hI : EntriesGranted tr s)
    (hsub : ∀ slot entry, s'.slots slot = some entry → s.slots slot = some entry)
    (hcreated : created ⟨s, op, res, s'⟩ = none) :
    EntriesGranted (tr ++ [⟨s, op, res, s'⟩]) s' := by
  constructor
  · intro slot entry hslot
    exact (hI.1 slot entry (hsub slot entry hslot)).mono
  · intro e he hd object hc
    rcases mem_append.mp he with hold | hnew
    · exact (hI.2 e hold hd object hc).mono
    · obtain rfl := mem_singleton.mp hnew
      rw [hcreated] at hc
      cases hc

/-- A step whose token is not forged keeps everything granted. -/
theorem entriesGranted_step (hI : EntriesGranted tr s) (h : step p s op = some (res, s'))
    (hunf : UnforgedDuplicate s op) : EntriesGranted (tr ++ [⟨s, op, res, s'⟩]) s' := by
  rcases step_cases h with ⟨obj, r, hd, rfl, rfl, hpush⟩ |
    ⟨hd, nr, src, hd', rfl, rfl, hdup, hres, hpush⟩ | ⟨hd, entry, rfl, rfl, -, rfl⟩ |
    ⟨rfl, hnone, -⟩
  · refine hI.of_push hpush rfl ?_
    exact ⟨_, mem_append_right _ (mem_singleton_self _), r, rfl, r.contains_refl⟩
  · -- the chain: the source entry was granted, and the new one has fewer rights
    refine hI.of_push hpush ?_ ?_
    · simp [created, get_eq_resolve, hres]
    · obtain ⟨-, hsub⟩ := hunf src hres hdup
      obtain ⟨e, he, granted, hop, hc⟩ := hI.1 _ _ (resolve_eq_some.mp hres).1
      exact ⟨e, mem_append_left _ he, granted, hop, Rights.contains_trans hc hsub⟩
  · refine hI.of_shrink ?_ rfl
    intro slot entry' hslot
    exact (erase_slots.mp hslot).2
  · exact hI.of_shrink (fun _ _ hslot => hslot) hnone

/-- Over all runs from the empty table, with user-chosen tokens: rights only
    shrink along duplication exactly when no presented token was forged. -/
theorem capabilityMonotone_iff_unforged {p : Profile} {tr : List TableStep} {s : HandleTable}
    (hrun : Run (step p) new tr s) :
    CapabilityMonotone tr s ↔ ∀ e ∈ tr, UnforgedDuplicate e.pre e.op := by
  have hstep : ∀ e ∈ tr, DuplicateMonotone e ↔ UnforgedDuplicate e.pre e.op := by
    intro e he
    obtain ⟨-, -, -, hs⟩ := hrun.of_mem he
    exact duplicateMonotone_iff hs
  constructor
  · intro hmono e he
    exact (hstep e he).mp (hmono.1 e he)
  · intro hunf
    have hinit : EntriesGranted [] new := by
      constructor
      · intro slot entry hslot
        cases hslot
      · intro e he
        cases he
    have hgranted : EntriesGranted tr s := hrun.invariant_of_guard hinit
        (fun tr s op res s' hI hs hg => entriesGranted_step hI hs hg)
        (Run.guard_of_forall_mem hunf)
    exact ⟨fun e he => (hstep e he).mpr (hunf e he), hgranted.1, hgranted.2⟩

/-- The condition is met by an ordinary run: narrowing a token the kernel
    returned. -/
theorem capabilityMonotone_narrow_once :
    ∃ tr s, Run (step .dev) new tr s ∧
      tr.map Transition.op =
        [.insert (.event 0) .all, .duplicate (Handle.new 0 .all 0) .read] ∧
      CapabilityMonotone tr s := by
  have hrun := exec_run (step .dev) new
    [.insert (.event 0) .all, .duplicate (Handle.new 0 .all 0) .read] rfl
  refine ⟨_, _, hrun, rfl, (capabilityMonotone_iff_unforged hrun).mpr ?_⟩
  intro e he
  simp only [mem_cons, not_mem_nil, or_false] at he
  rcases he with rfl | rfl
  · trivial
  · intro entry hentry _
    cases hentry
    decide

/-- User space inserts nothing but a read-only event; presenting its slot and
    generation with all rights set yields an entry with all rights. -/
theorem forged_rights_amplify :
    ∃ tr s, Run (step .dev) new tr s ∧
      tr.map Transition.op =
        [.insert (.event 0) .read, .duplicate (Handle.new 0 .all 0) .all] ∧
      ¬ CapabilityMonotone tr s := by
  have hrun := exec_run (step .dev) new
    [.insert (.event 0) .read, .duplicate (Handle.new 0 .all 0) .all] rfl
  refine ⟨_, _, hrun, rfl, ?_⟩
  intro hmono
  obtain ⟨src, -, hsrc, -, -, hdup, -⟩ :=
    hmono.1 _ (mem_cons_of_mem _ (mem_singleton_self _)) _ _ _ rfl rfl
  cases hsrc
  revert hdup
  decide

end HandleTable

end OpenOS
