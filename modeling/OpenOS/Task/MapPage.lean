/-
  `map_page` maps one page, and which other pages it changes.

  A page below an entry that `map_page` passes becomes user-accessible if this
  entry alone kept user mode out.  In a 2 MiB page that is split, these are all
  its pages.
-/

import OpenOS.Syscall.KernelHalf

namespace OpenOS.Memory.PageTable

open OpenOS.Base Option Entry Space Comp FrameAlloc

namespace Vm

/-- `map_page` returns; the page translates to the frame, with the flags; and
    every other page keeps its translation and its permissions. -/
def MapsOnly (p : Profile) (cr3 virt phys : Word) (flags : PageTableFlags) (s : Vm) : Prop :=
  ∃ s', (mapPageUser p cr3 virt phys flags : Comp Unit Vm Unit) s = .ok () s' ∧
    (∀ v, path v = path virt →
      translate cr3 s'.mem v = some (some (phys + (v &&& 0xFFF#64))) ∧
        (entryAt cr3 s'.mem (path v)).map Entry.flags = some flags) ∧
    ∀ v, path v ≠ path virt → translate cr3 s'.mem v = translate cr3 s.mem v ∧
      (entryAt cr3 s'.mem).perm v = (entryAt cr3 s.mem).perm v

variable {flags : PageTableFlags}

/-- `map_page` maps only the page if no huge page is in the way that is not split, there
    are frames for the missing tables, and no other page is kept from user mode by the
    passed entries alone. -/
theorem mapsOnly_iff {p : Profile} {s : Vm} {cr3 virt phys : Word} (h : s.Ok cr3)
    (hphys : IsFrame phys)
    (hpresent : flags.contains .present = true) :
    MapsOnly p cr3 virt phys flags s ↔
      (∀ ρ ∈ levels virt, ¬ (s.space cr3).Blocked ρ) ∧
      ((s.space cr3).lacking (levels virt)).card ≤ (s.space cr3).free.card ∧
      ∀ v, path v ≠ path virt → (s.space cr3).entry.Mapped v →
        (s.space cr3).entry.UserVia ↑(levels virt) v → (s.space cr3).entry.UserVia ∅ v := by
  have hsim := mapPageUser_simulates (ε := Unit) (p := p) (w := virt) h
    (Entry.setAddr_of_isFrame hphys flags)
  have hsome := isSome_map h.valid virt (Entry.pack phys flags)
  rw [← and_assoc, ← hsome]
  cases hmap : (s.space cr3).map virt (Entry.pack phys flags) with
  | none =>
    rw [hmap] at hsim
    obtain ⟨s₁, hpanic⟩ := hsim
    refine iff_of_false ?_ fun hsafe => Bool.false_ne_true hsafe.1
    rintro ⟨s', hrun, -⟩
    cases hrun.symm.trans hpanic
  | some S' =>
    rw [hmap] at hsim
    obtain ⟨⟨⟩, s₁, hrun, -, rfl, -⟩ := hsim
    have hchanged := map_changed h.valid hmap
    rw [Option.isSome_some, and_iff_right rfl]
    constructor
    · rintro ⟨s', hrun', -, hother⟩ v hv
      obtain rfl : s₁ = s' := (EStateM.Result.ok.inj (hrun.symm.trans hrun')).2
      exact (hchanged.perm_eq_iff hv).mp (hother v hv).2
    · intro hsafe
      refine ⟨s₁, hrun, fun v hv => ⟨?_, ?_⟩, fun v hv => ⟨?_, ?_⟩⟩
      · rw [translate_eq_phys]
        refine (phys_of_map hmap hv).trans ?_
        rw [leafPhys, Entry.isPresent, Entry.flags_pack hphys, hpresent,
          Entry.addr_pack hphys]
        rfl
      · rw [hv]
        refine (congrArg (Option.map Entry.flags) (entry_of_map hmap)).trans ?_
        rw [Option.map_some, Entry.flags_pack hphys]
      · rw [translate_eq_phys, translate_eq_phys]
        exact hchanged.phys v hv
      · exact (hchanged.perm_eq_iff hv).mpr (hsafe v hv)

/-- The page at 0x800000 needs one more table, below two that the page at 0x401000 also
    uses; that page and the kernel page stay as they are. -/
theorem mapsOnly_twoPages :
    translate 0x1000#64 MemCall.twoPageState.vm.mem 0x401123#64 = some (some 0x5123#64) ∧
      translate 0x1000#64 MemCall.twoPageState.vm.mem 0xFFFF800000000123#64 =
        some (some 0x9123#64) ∧
      MapsOnly .dev 0x1000#64 0x800000#64 0xA000#64 .table MemCall.twoPageState.vm := by
  have hpassed : ∀ ρ ∈ levels 0x800000#64, ∀ e,
      entryAt 0x1000#64 MemCall.twoPageState.vm.mem ρ = some e → isUser e = true ∨ e = 0#64 := by
    intro ρ hρ e he
    have hall : ∀ ρ ∈ levels 0x800000#64,
        (entryAt 0x1000#64 MemCall.twoPageState.vm.mem ρ).all (fun e => isUser e || e = 0#64) := by
      decide +kernel
    simpa [he] using hall ρ hρ
  refine ⟨by decide, by decide, ?_⟩
  refine (mapsOnly_iff MemCall.twoPageState_ok ⟨by decide, by decide⟩ (by decide)).mpr
    ⟨fun ρ _ => MemCall.twoPageState_unblocked ρ, ?_, ?_⟩
  · calc _ ≤ (levels 0x800000#64).card := Finset.card_filter_le _ _
      _ = 3 := by decide
      _ ≤ _ := MemCall.three_le_available
  · intro v _ hmapped huser k hk hk4 e he
    refine .inl ((huser k hk hk4 e he).elim id fun hmem => (hpassed _ hmem e he).resolve_right ?_)
    rintro rfl
    -- an address below an empty entry is not mapped
    obtain ⟨a, ha⟩ := hmapped
    cases ha.symm.trans ((coherent_entryAt _ _).phys_of_leaf hk hk4 he rfl)

/-! ## A supervisor page that becomes user-accessible -/

/-- The first 2 MiB are one supervisor page. -/
def hugePageMem : PhysMem := fun a i =>
  if a = 0x1000#64 ∧ i.val = 0 then 0x2007#64
  else if a = 0x2000#64 ∧ i.val = 0 then 0x3007#64
  else if a = 0x3000#64 ∧ i.val = 0 then 0x83#64
  else 0#64

/-- Mapping the page at 0x1000 splits it, and user mode reaches its other pages. -/
theorem split_page_gains_user :
    ¬ MapsOnly .dev 0x1000#64 0x1000#64 0x5000#64 .table ⟨hugePageMem, bootInit⟩ := by
  have hbefore : (entryAt 0x1000#64 hugePageMem).perm 0x2000#64 = some ⟨true, false, true⟩ := by
    decide
  have hafter : answer (do
        mapPageUser .dev 0x1000#64 0x1000#64 0x5000#64 .table
        return (entryAt 0x1000#64 (← get).mem).perm 0x2000#64 : Comp Unit Vm (Option Perm))
      ⟨hugePageMem, bootInit⟩ = some (some ⟨true, true, true⟩) := by
    decide +kernel
  rintro ⟨s', hrun, -, hother⟩
  have hsame := (hother 0x2000#64 (by decide)).2
  rw [answer, bind_of_ok hrun] at hafter
  cases hbefore.symm.trans (hsame.symm.trans (some.inj hafter))

end Vm

end OpenOS.Memory.PageTable
