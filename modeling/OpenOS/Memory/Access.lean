/-
  `validate_access` (kernel/src/memory/vma.rs): may a task access a range of addresses?

  The loop looks at the first address of each page.  Its answer is that of the bytes
  exactly when regions begin and end inside a page only where others go on that grant
  as much, and the range stays below the last page: from there the step to the next
  page overflows, so the loop never says yes.
-/

import OpenOS.Memory.VmaRun

namespace OpenOS.Memory

open OpenOS.Base BitVec Option
open PageTable (pageSize)

/-- The region permits what is asked. -/
def VmaRegion.Grants (r : VmaRegion) (write execute : Bool) : Prop :=
  (write = true → r.flags.write = true) ∧ (execute = true → r.flags.execute = true)

namespace VmaList

/-- The loop of `validate_access`.  A search that has been through all pages without an end,
    which needs an address that wrapped, goes on for ever. -/
def validateFrom (p : Profile) (regions : VmaList) (write execute : Bool) (stop : Word) :
    Nat → Word → Option Bool
  | 0, _ => none
  | fuel + 1, cur =>
    if cur < stop then
      match find p cur regions with
      | none => none
      | some none => some false
      | some (some region) =>
        if write && !region.flags.write then some false
        else if execute && !region.flags.execute then some false
        else (p.add cur pageSize).bind (validateFrom p regions write execute stop fuel)
    else some true

/-- `addr & !(PAGE_SIZE - 1)` -/
def pageBase (addr : Word) : Word := addr &&& ~~~(pageSize - 1)

section

variable (p : Profile) (regions : VmaList) (addr len : Word) (write execute : Bool)

def validateAccess : Option Bool :=
  if len = 0 then some true
  else (p.add addr len).bind fun stop =>
    validateFrom p regions write execute stop (2 ^ 52 + 1) (pageBase addr)

/-- A region covers the address and permits what is asked. -/
def Allowed (addr : Nat) : Prop := ∃ r ∈ regions, r.Covers addr ∧ r.Grants write execute

/-- Every byte of the range may be accessed. -/
def AllAllowed : Prop :=
  ∀ b, addr.toNat ≤ b → b < addr.toNat + len.toNat → regions.Allowed write execute b

/-- The answer is the one for the bytes of the range. -/
def ExactAt : Prop :=
  ∃ ok, validateAccess p regions addr len write execute = some ok ∧
    (ok = true ↔ addr.toNat + len.toNat ≤ 2 ^ 64 ∧ AllAllowed regions addr len write execute)

/-- The lists that `add` makes. -/
inductive Built (p : Profile) : VmaList → Prop
  | nil : Built p []
  | add {regions regions' : VmaList} {region : VmaRegion} : Built p regions →
      VmaList.add p regions region = some (.ok (), regions') → Built p regions'

/-- `find` returns, and no region that permits what is asked. -/
def Refused (addr : Word) : Prop :=
  ∃ o, find p addr regions = some o ∧ ¬ ∃ r, o = some r ∧ r.Grants write execute

def lastPage : Word := 0xFFFFFFFFFFFFF000

/-- The ranges that are answered rightly: all that end at or below the last page.  One that
    reaches into it is never accepted, and refused only when the loop comes to a page that
    is; without overflow checks it starts over at 0.  One that ends at or past 2^64 has its
    end wrapped. -/
def InReach : Prop :=
  len = 0 ∨ addr.toNat + len.toNat ≤ 2 ^ 64 - 4096 ∨
  (addr.toNat + len.toNat < 2 ^ 64 ∧ ¬ AllAllowed regions addr len write execute ∧
    ∃ c : Word, c.toNat % 4096 = 0 ∧ (p = .dev → pageBase addr ≤ c) ∧
      Refused p regions write execute c) ∨
  (p = .release ∧ addr.toNat + len.toNat = 2 ^ 64 ∧ AllAllowed regions addr len write execute) ∨
  (p = .release ∧ 2 ^ 64 < addr.toNat + len.toNat ∧ pageBase addr < addr + len ∧
    ∃ c : Word, c.toNat % 4096 = 0 ∧ (c = pageBase addr ∨ pageBase addr = lastPage) ∧
      Refused p regions write execute c)

end

/-- Below the last page, a region begins or ends inside a page only where one goes on that
    grants as much; and the first address of a page that is covered by a region whose end
    passes 2^64 is covered by one that grants as much and ends before. -/
structure Seamless (regions : VmaList) : Prop where
  start : ∀ r ∈ regions, r.size ≠ 0 → r.start.toNat % 4096 ≠ 0 →
    r.start.toNat < 2 ^ 64 - 4096 →
    regions.Allowed r.flags.write r.flags.execute (r.start.toNat - 1)
  stop : ∀ r ∈ regions, r.size ≠ 0 → (r.start.toNat + r.size.toNat) % 4096 ≠ 0 →
    r.start.toNat + r.size.toNat < 2 ^ 64 - 4096 →
    regions.Allowed r.flags.write r.flags.execute (r.start.toNat + r.size.toNat)
  overflow : ∀ r ∈ regions, ¬ r.Fits → ∀ c, c % 4096 = 0 → r.start.toNat ≤ c →
    c < 2 ^ 64 - 4096 →
    ∃ r' ∈ regions, r'.Fits ∧ r'.Covers c ∧ r'.Grants r.flags.write r.flags.execute

variable {p : Profile} {regions : VmaList} {write execute : Bool}

/-! ## Boundaries of regions -/

theorem Allowed.of_grants {r : VmaRegion} (hr : r.Grants write execute)
    (h : regions.Allowed r.flags.write r.flags.execute b) : regions.Allowed write execute b := by
  obtain ⟨r', hmem, hcovers, hgrants⟩ := h
  exact ⟨r', hmem, hcovers, fun hw => hgrants.1 (hr.1 hw), fun hx => hgrants.2 (hr.2 hx)⟩

theorem size_ne_zero {r : VmaRegion} (h : r.Covers b) : r.size ≠ 0 := by
  intro hzero
  obtain ⟨hle, hlt⟩ := h
  have hsize : r.size.toNat = 0 := by rw [hzero]; rfl
  omega

/-- Inside a page the rights do not change from one address to the next. -/
theorem Seamless.allowed_succ (h : regions.Seamless) (hpage : (b + 1) % 4096 ≠ 0)
    (hlt : b + 1 < 2 ^ 64 - 4096) :
    regions.Allowed write execute b ↔ regions.Allowed write execute (b + 1) := by
  constructor
  · rintro ⟨r, hr, hcovers, hgrants⟩
    by_cases hnext : b + 1 < r.start.toNat + r.size.toNat
    · exact ⟨r, hr, ⟨by have := hcovers.1; omega, hnext⟩, hgrants⟩
    · have hend : r.start.toNat + r.size.toNat = b + 1 := by
        have := hcovers.2
        omega
      have hgoes := h.stop r hr (size_ne_zero hcovers)
      rw [hend] at hgoes
      exact .of_grants hgrants (hgoes hpage hlt)
  · rintro ⟨r, hr, hcovers, hgrants⟩
    by_cases hprev : r.start.toNat ≤ b
    · exact ⟨r, hr, ⟨hprev, by have := hcovers.2; omega⟩, hgrants⟩
    · have hstart : r.start.toNat = b + 1 := by
        have := hcovers.1
        omega
      have hgoes := h.start r hr (size_ne_zero hcovers)
      rw [hstart, Nat.add_sub_cancel] at hgoes
      exact .of_grants hgrants (hgoes hpage hlt)

theorem Seamless.allowed_add (h : regions.Seamless) (haligned : c % 4096 = 0) (hk : k < 4096)
    (hlt : c + k < 2 ^ 64 - 4096) :
    regions.Allowed write execute c ↔ regions.Allowed write execute (c + k) := by
  induction k with
  | zero => exact Iff.rfl
  | succ k ih =>
    have hpage : (c + k + 1) % 4096 ≠ 0 := by omega
    exact (ih (by omega) (by omega)).trans (h.allowed_succ hpage hlt)

theorem Seamless.allowed_base (h : regions.Seamless) (hlt : b < 2 ^ 64 - 4096) :
    regions.Allowed write execute (b / 4096 * 4096) ↔ regions.Allowed write execute b := by
  have heq : b / 4096 * 4096 + b % 4096 = b := by omega
  have hbase : regions.Allowed write execute _ ↔ _ := h.allowed_add
    (Nat.mul_mod_left (b / 4096) 4096) (Nat.mod_lt b (by decide)) (by rwa [heq])
  rwa [heq] at hbase

/-! ## What `find` finds -/

/-- What `add` makes sure of between a region and a later one. -/
def Placed (p : Profile) (r r' : VmaRegion) : Prop :=
  (r.Fits → r'.Fits → r.Apart r') ∧
    (p = .dev → r.Fits ∧ (¬ r'.Fits → r.start.toNat + r.size.toNat ≤ r'.start.toNat))

theorem fits_of_stop {r : VmaRegion} (h : r.stop .dev = some e) : r.Fits := by
  unfold VmaRegion.stop Profile.add Profile.checked at h
  split at h
  · assumption
  · cases h

theorem placed_of_overlaps {region existing : VmaRegion}
    (h : region.overlaps p existing = some false) : Placed p existing region := by
  refine ⟨fun hfits hfits' => (VmaRegion.apart_of_overlaps hfits' hfits h).symm, ?_⟩
  rintro rfl
  obtain ⟨existingEnd, hend, h⟩ := bind_eq_some_iff.mp h
  have hfits := fits_of_stop hend
  refine ⟨hfits, fun hnot => ?_⟩
  rw [VmaRegion.stop_eq hfits] at hend
  cases hend
  split at h
  · obtain ⟨regionEnd, hregion, -⟩ := bind_eq_some_iff.mp h
    exact absurd (fits_of_stop hregion) hnot
  · rename_i hge
    rw [lt_def, VmaRegion.toNat_stop hfits] at hge
    omega

theorem placed_of_anyOverlap {region : VmaRegion} (h : regions.anyOverlap p region = some false) :
    ∀ r ∈ regions, Placed p r region := by
  induction regions with
  | nil => exact List.forall_mem_nil _
  | cons existing rest ih =>
    obtain ⟨overlap, htest, h⟩ := bind_eq_some_iff.mp h
    cases overlap with
    | true => cases h
    | false => exact List.forall_mem_cons.mpr ⟨placed_of_overlaps htest, ih h⟩

theorem Built.placed (h : Built p regions) : regions.Pairwise (Placed p) := by
  induction h with
  | nil => exact .nil
  | @add regions regions' region _ hadd ih =>
    obtain ⟨overlap, hoverlap, hadd⟩ := bind_eq_some_iff.mp hadd
    cases overlap with
    | true => cases hadd
    | false =>
      cases hadd
      rw [List.pairwise_append]
      refine ⟨ih, List.pairwise_singleton _ _, fun r hr r' hr' => ?_⟩
      rw [List.mem_singleton.mp hr']
      exact placed_of_anyOverlap hoverlap r hr

/-- A region whose end passes 2^64 is never found, and in a dev build it is not looked at
    below its start. -/
theorem contains_of_not_fits {r : VmaRegion} (h : ¬ r.Fits) {addr : Word}
    (hdev : p = .dev → addr.toNat < r.start.toNat) : r.contains p addr = some false := by
  unfold VmaRegion.contains
  split
  · rename_i hle
    rw [le_def] at hle
    cases p with
    | dev => exact absurd (hdev rfl) (by omega)
    | release =>
      have hstop : r.stop .release = some (r.start + r.size) := by
        unfold VmaRegion.stop Profile.add Profile.checked
        exact if_neg h
      have hsize := r.size.isLt
      unfold VmaRegion.Fits at h
      rw [hstop, map_some, some_inj, decide_eq_false_iff_not, lt_def, toNat_add]
      omega
  · rfl

/-- A region that ends below 2^64 covers the address and permits what is asked. -/
def Found (regions : VmaList) (write execute : Bool) (addr : Nat) : Prop :=
  ∃ r ∈ regions, r.Fits ∧ r.Covers addr ∧ r.Grants write execute

theorem find_spec (h : regions.Pairwise (Placed p)) {a : Word}
    (hdev : p = .dev → ∀ r ∈ regions, ¬ r.Fits → a.toNat < r.start.toNat) :
    ∃ o, find p a regions = some o ∧ ∀ write execute,
      (∃ r, o = some r ∧ r.Grants write execute) ↔ regions.Found write execute a.toNat := by
  induction regions with
  | nil => exact ⟨none, rfl, fun _ _ => by simp [Found]⟩
  | cons r rest ih =>
    rw [List.pairwise_cons] at h
    obtain ⟨o, hfind, ho⟩ := ih h.2 fun hp r' hr' => hdev hp r' (List.mem_cons_of_mem _ hr')
    by_cases hcovers : r.Fits ∧ r.Covers a.toNat
    · have hcontains := VmaRegion.contains_eq hcovers.1 p a
      rw [decide_eq_true hcovers.2] at hcontains
      refine ⟨some r, by rw [find, hcontains]; rfl, fun write execute => ?_⟩
      -- the regions behind it are apart from it
      have hapart := fun r' hr' hfits => (h.1 r' hr').1 hcovers.1 hfits a.toNat
      grind [Found]
    · -- a region that does not cover the address is passed over
      have hcontains : r.contains p a = some false := by
        by_cases hfits : r.Fits
        · rw [VmaRegion.contains_eq hfits, decide_eq_false fun hc => hcovers ⟨hfits, hc⟩]
        · exact contains_of_not_fits hfits fun hp => hdev hp r List.mem_cons_self hfits
      refine ⟨o, by rw [find, hcontains]; exact hfind, fun write execute => ?_⟩
      rw [ho, Found, Found, List.exists_mem_cons_iff]
      exact ⟨.inr, fun hor => hor.resolve_left fun hr => hcovers ⟨hr.1, hr.2.1⟩⟩

/-- In a dev build all other regions end before one whose end passes 2^64. -/
theorem le_of_not_fits (h : regions.Pairwise (Placed .dev)) {r r' : VmaRegion} (hr : r ∈ regions)
    (hr' : r' ∈ regions) (hfits : r.Fits) (hnot : ¬ r'.Fits) :
    r.start.toNat + r.size.toNat ≤ r'.start.toNat := by
  have hboth : regions.Pairwise fun r r' => Placed .dev r r' ∨ Placed .dev r' r := h.imp .inl
  have : Std.Symm fun r r' => Placed .dev r r' ∨ Placed .dev r' r := ⟨fun _ _ => Or.symm⟩
  have hne : r ≠ r' := by
    rintro rfl
    exact hnot hfits
  rcases hboth.forall hr hr' hne with hplaced | hplaced
  · exact (hplaced.2 rfl).2 hnot
  · exact absurd (hplaced.2 rfl).1 hnot

/-- On a seamless list `find` speaks for all addresses of a page. -/
theorem Seamless.find_spec (h : regions.Seamless) (hbuilt : Built p regions) {c : Word}
    (haligned : c.toNat % 4096 = 0) (hc : c.toNat < 2 ^ 64 - 4096) :
    ∃ o, find p c regions = some o ∧ ∀ write execute,
      (∃ r, o = some r ∧ r.Grants write execute) ↔ regions.Allowed write execute c.toNat := by
  have hplaced := hbuilt.placed
  obtain ⟨o, hfind, ho⟩ := VmaList.find_spec hplaced (a := c) (by
    rintro rfl r hr hnot
    by_contra hle
    obtain ⟨r', hr', hfits, hcovers, -⟩ := h.overflow r hr hnot c.toNat haligned (by omega) hc
    have hbefore := le_of_not_fits hplaced hr' hr hfits hnot
    have hlt := hcovers.2
    omega)
  refine ⟨o, hfind, fun write execute => (ho write execute).trans ?_⟩
  constructor
  · rintro ⟨r, hr, -, hcovers, hgrants⟩
    exact ⟨r, hr, hcovers, hgrants⟩
  · rintro ⟨r, hr, hcovers, hgrants⟩
    by_cases hfits : r.Fits
    · exact ⟨r, hr, hfits, hcovers, hgrants⟩
    · obtain ⟨r', hr', hfits', hcovers', hgrants'⟩ :=
        h.overflow r hr hfits c.toNat haligned hcovers.1 hc
      exact ⟨r', hr', hfits', hcovers', fun hw => hgrants'.1 (hgrants.1 hw),
        fun hx => hgrants'.2 (hgrants.2 hx)⟩

/-! ## Ranges below the last page -/

/-- What is found at the first address of a page holds for each address of the page. -/
def Pagewise (p : Profile) (regions : VmaList) : Prop :=
  ∀ (write execute : Bool) (a : Word), a.toNat < 2 ^ 64 - 4096 →
    ∃ o, find p (pageBase a) regions = some o ∧
      ((∃ r, o = some r ∧ r.Grants write execute) ↔ regions.Allowed write execute a.toNat)

theorem toNat_pageBase (a : Word) : (pageBase a).toNat = a.toNat / 4096 * 4096 :=
  toNat_and_not_mask a (pageSize - 1) 12 rfl

theorem pageBase_eq (h : a.toNat / 4096 = b.toNat / 4096) : pageBase a = pageBase b :=
  eq_of_toNat_eq (by rw [toNat_pageBase, toNat_pageBase, h])

theorem Seamless.pagewise (h : regions.Seamless) (hbuilt : Built p regions) :
    regions.Pagewise p := by
  intro write execute a ha
  have hbase := toNat_pageBase a
  obtain ⟨o, hfind, ho⟩ := h.find_spec hbuilt (c := pageBase a) (by omega) (by omega)
  refine ⟨o, hfind, (ho write execute).trans ?_⟩
  rw [hbase]
  exact h.allowed_base ha

theorem Pagewise.allowed_iff (h : regions.Pagewise p) (hpage : a / 4096 = b / 4096)
    (ha : a < 2 ^ 64 - 4096) :
    regions.Allowed write execute a ↔ regions.Allowed write execute b := by
  have hword : ∀ n < 2 ^ 64 - 4096, (BitVec.ofNat 64 n).toNat = n := fun n hn => by
    rw [toNat_ofNat]
    omega
  have hb : b < 2 ^ 64 - 4096 := by omega
  obtain ⟨o, hfind, hallowed⟩ := h write execute (BitVec.ofNat 64 a) (by rwa [hword a ha])
  obtain ⟨o', hfind', hallowed'⟩ := h write execute (BitVec.ofNat 64 b) (by rwa [hword b hb])
  have hbase : pageBase (BitVec.ofNat 64 a) = pageBase (BitVec.ofNat 64 b) :=
    pageBase_eq (by rwa [hword a ha, hword b hb])
  rw [hbase, hfind'] at hfind
  cases hfind
  rw [hword a ha] at hallowed
  rw [hword b hb] at hallowed'
  exact hallowed.symm.trans hallowed'

theorem toNat_next {cur : Word} (h : cur.toNat + 4096 < 2 ^ 64) :
    (cur + pageSize).toNat = cur.toNat + 4096 :=
  toNat_add_of_lt h

/-- One page: the loop goes on, or the answer is no. -/
theorem validateFrom_succ (write execute : Bool) (fuel : Nat) (hcur : cur < stop)
    (hfind : find p cur regions = some o) :
    ((∃ r, o = some r ∧ r.Grants write execute) ∧
      validateFrom p regions write execute stop (fuel + 1) cur =
        (p.add cur pageSize).bind (validateFrom p regions write execute stop fuel)) ∨
    ((¬ ∃ r, o = some r ∧ r.Grants write execute) ∧
      validateFrom p regions write execute stop (fuel + 1) cur = some false) := by
  rw [validateFrom, if_pos hcur, hfind]
  cases o with
  | none => exact .inr ⟨by simp, rfl⟩
  | some r =>
    simp only [VmaRegion.Grants]
    split_ifs with hwrite hexecute
    · simp_all
    · simp_all
    · simp_all

theorem validateFrom_of_le (hle : stop.toNat ≤ cur.toNat) :
    validateFrom p regions write execute stop (fuel + 1) cur = some true := by
  rw [validateFrom, if_neg]
  rw [lt_def]
  omega

theorem validateFrom_exact (h : regions.Pagewise p) (write execute : Bool)
    (hstop : stop.toNat ≤ 2 ^ 64 - 4096) (haligned : cur.toNat % 4096 = 0) (fuel : Nat)
    (hfuel : stop.toNat ≤ cur.toNat + fuel * 4096) :
    ∃ ok, validateFrom p regions write execute stop (fuel + 1) cur = some ok ∧ (ok = true ↔
      ∀ b, cur.toNat ≤ b → b < stop.toNat → regions.Allowed write execute b) := by
  induction fuel generalizing cur with
  | zero => exact ⟨true, validateFrom_of_le (by omega), iff_of_true rfl fun b _ _ => by omega⟩
  | succ fuel ih =>
    by_cases hcur : cur.toNat < stop.toNat
    · have hbase : pageBase cur = cur := eq_of_toNat_eq (by rw [toNat_pageBase]; omega)
      obtain ⟨o, hfind, hallowed⟩ := h write execute cur (by omega)
      rw [hbase] at hfind
      rcases validateFrom_succ write execute (fuel + 1) hcur hfind with
        ⟨hgrants, heq⟩ | ⟨hgrants, heq⟩
      · have hlt : cur.toNat + 4096 < 2 ^ 64 := by omega
        have hnext := toNat_next hlt
        rw [heq, p.add_eq_some_of_lt hlt]
        obtain ⟨ok, hrest, hok⟩ := ih (show (cur + pageSize).toNat % 4096 = 0 by omega) (by omega)
        refine ⟨ok, hrest, hok.trans ⟨fun hall b _ hlt => ?_, fun hall b hle => hall b (by omega)⟩⟩
        by_cases hb : cur.toNat + 4096 ≤ b
        · exact hall b (by omega) hlt
        · exact (h.allowed_iff (by omega) (by omega)).mp (hallowed.mp hgrants)
      · refine ⟨false, heq, iff_of_false Bool.false_ne_true fun hall => hgrants ?_⟩
        exact hallowed.mpr (hall cur.toNat (Nat.le_refl _) hcur)
    · exact ⟨true, validateFrom_of_le (by omega), iff_of_true rfl fun b _ _ => by omega⟩

theorem Pagewise.exactAt (h : regions.Pagewise p) {addr len : Word}
    (hend : addr.toNat + len.toNat ≤ 2 ^ 64 - 4096) (hlen : len ≠ 0) :
    ExactAt p regions addr len write execute := by
  have hbase := toNat_pageBase addr
  have hpos : len.toNat ≠ 0 := fun h0 => hlen (eq_of_toNat_eq h0)
  have hstop : (addr + len).toNat = addr.toNat + len.toNat := toNat_add_of_lt (by omega)
  have haligned : (pageBase addr).toNat % 4096 = 0 := by omega
  have hlast : (addr + len).toNat ≤ 2 ^ 64 - 4096 := by omega
  obtain ⟨ok, hrun, hok⟩ := validateFrom_exact h write execute hlast haligned (2 ^ 52) (by omega)
  refine ⟨ok, ?_, hok.trans ⟨fun hall => ?_, ?_⟩⟩
  · rw [validateAccess, if_neg hlen, p.add_eq_some_of_lt (by omega), bind_some, hrun]
  · exact ⟨by omega, fun b hle hlt => hall b (by omega) (by omega)⟩
  · rintro ⟨-, hall⟩ b hle hlt
    by_cases hb : addr.toNat ≤ b
    · exact hall b hb (by omega)
    · -- before the range, but in its first page
      exact (h.allowed_iff (by omega) (by omega)).mp (hall addr.toNat (Nat.le_refl _) (by omega))

/-- Ranges of one byte are enough to see every page. -/
theorem pagewise_of_exactAt (hexact : ∀ addr write execute, addr.toNat + 1 ≤ 2 ^ 64 - 4096 →
    ExactAt p regions addr 1 write execute) : regions.Pagewise p := by
  intro write execute a ha
  have hone : (1 : Word).toNat = 1 := rfl
  obtain ⟨ok, heq, hok⟩ := hexact a write execute (by omega)
  have hstop : (a + 1).toNat = a.toNat + 1 := by rw [toNat_add_of_lt (by omega), hone]
  have hbase := toNat_pageBase a
  have hcur : pageBase a < a + 1 := by rw [lt_def]; omega
  have hbytes : AllAllowed regions a 1 write execute ↔ regions.Allowed write execute a.toNat :=
    ⟨fun hall => hall _ (Nat.le_refl _) (by omega), fun h b hle hlt => by
      rwa [show b = a.toNat by omega]⟩
  rw [hbytes, and_iff_right (by omega)] at hok
  rw [validateAccess, p.add_eq_some_of_lt (by omega), bind_some] at heq
  cases hfind : find p (pageBase a) regions with
  | none =>
    rw [validateFrom, if_pos hcur, hfind] at heq
    cases heq
  | some o =>
    refine ⟨o, rfl, ?_⟩
    rcases validateFrom_succ write execute (2 ^ 52) hcur hfind with
      ⟨hgrants, hrun⟩ | ⟨hgrants, hrun⟩
    · have hlt : (pageBase a).toNat + 4096 < 2 ^ 64 := by omega
      have hnext := toNat_next hlt
      rw [hrun, p.add_eq_some_of_lt hlt, bind_some,
        show 2 ^ 52 = (2 ^ 52 - 1) + 1 from rfl, validateFrom_of_le (by omega)] at heq
      cases heq
      exact iff_of_true hgrants (hok.mp rfl)
    · rw [hrun] at heq
      cases heq
      exact iff_of_false hgrants fun h => Bool.false_ne_true (hok.mpr h)

/-- What `find` returns is in the list, covers the address and ends below 2^64. -/
theorem found_of_find {addr : Word} (h : find p addr regions = some (some r)) :
    r ∈ regions ∧ r.Fits ∧ r.Covers addr.toNat := by
  induction regions with
  | nil => cases h
  | cons r' rest ih =>
    obtain ⟨found, hcontains, h⟩ := bind_eq_some_iff.mp h
    cases found with
    | false =>
      obtain ⟨hmem, hfound⟩ := ih h
      exact ⟨List.mem_cons_of_mem _ hmem, hfound⟩
    | true =>
      cases h
      have hfits : r.Fits := by
        by_contra hnot
        have hdev : p = .dev → addr.toNat < r.start.toNat := by
          rintro rfl
          by_contra hle
          rw [VmaRegion.contains, if_pos (le_def.mpr (by omega))] at hcontains
          obtain ⟨e, he, -⟩ := map_eq_some_iff.mp hcontains
          exact hnot (fits_of_stop he)
        rw [contains_of_not_fits hnot hdev] at hcontains
        cases hcontains
      rw [VmaRegion.contains_eq hfits, some_inj, decide_eq_true_eq] at hcontains
      exact ⟨List.mem_cons_self, hfits, hcontains⟩

theorem Pagewise.seamless (h : regions.Pagewise p) : regions.Seamless := by
  have hgrants : ∀ r : VmaRegion, r.Grants r.flags.write r.flags.execute := fun r => ⟨id, id⟩
  refine ⟨fun r hr hsize hpage hlt => ?_, fun r hr hsize hpage hlt => ?_,
    fun r hr hfits c haligned hle hlt => ?_⟩
  all_goals
    have hself : ∀ b, r.Covers b → regions.Allowed r.flags.write r.flags.execute b :=
      fun b hb => ⟨r, hr, hb, hgrants r⟩
  · have hpos : r.size.toNat ≠ 0 := fun h0 => hsize (eq_of_toNat_eq h0)
    exact (h.allowed_iff (by omega) (by omega)).mp (hself r.start.toNat ⟨by omega, by omega⟩)
  · have hpos : r.size.toNat ≠ 0 := fun h0 => hsize (eq_of_toNat_eq h0)
    exact (h.allowed_iff (by omega) (by omega)).mp
      (hself (r.start.toNat + r.size.toNat - 1) ⟨by omega, by omega⟩)
  · have hword : (BitVec.ofNat 64 c).toNat = c := by
      rw [toNat_ofNat]
      omega
    have hbase : pageBase (BitVec.ofNat 64 c) = BitVec.ofNat 64 c :=
      eq_of_toNat_eq (by rw [toNat_pageBase, hword]; omega)
    unfold VmaRegion.Fits at hfits
    obtain ⟨o, hfind, ho⟩ := h r.flags.write r.flags.execute (BitVec.ofNat 64 c) (by omega)
    rw [hbase] at hfind
    rw [hword] at ho
    obtain ⟨r', rfl, hgrants'⟩ := ho.mpr (hself c ⟨hle, by omega⟩)
    obtain ⟨hmem, hfits', hcovers⟩ := found_of_find hfind
    rw [hword] at hcovers
    exact ⟨r', hmem, hfits', hcovers, hgrants'⟩

/-! ## Ranges that reach the last page -/

theorem aligned_add {cur next : Word} (haligned : cur.toNat % 4096 = 0)
    (h : p.add cur pageSize = some next) : next.toNat % 4096 = 0 := by
  have hpage : pageSize.toNat = 4096 := rfl
  rw [Profile.eq_add_of_add_eq_some h, toNat_add, hpage]
  omega

theorem add_of_dev {a b : Word} (h : p = .dev → a.toNat + b.toNat < 2 ^ 64) :
    p.add a b = some (a + b) := by
  cases p with
  | dev => exact Profile.add_eq_some_of_lt _ (h rfl)
  | release =>
    unfold Profile.add Profile.checked
    split <;> rfl

theorem lt_of_dev_add {cur next : Word} (h : Profile.add .dev cur pageSize = some next) :
    cur.toNat + 4096 < 2 ^ 64 := by
  unfold Profile.add Profile.checked at h
  split at h
  · assumption
  · cases h

section

variable {stop : Word} (hstop : 2 ^ 64 - 4096 < stop.toNat)
include hstop

/-- Every page begins before the end of such a range. -/
theorem lt_stop {cur : Word} (haligned : cur.toNat % 4096 = 0) : cur < stop := by
  rw [lt_def]
  have := cur.isLt
  omega

/-- The loop never ends with a yes, and with a no at a page that is refused; in a dev build
    it does not come round to those before its start. -/
theorem exists_refused {fuel : Nat} {cur : Word} (haligned : cur.toNat % 4096 = 0)
    (h : validateFrom p regions write execute stop fuel cur = some ok) :
    ok = false ∧ ∃ c : Word, c.toNat % 4096 = 0 ∧ (p = .dev → cur ≤ c) ∧
      Refused p regions write execute c := by
  induction fuel generalizing cur with
  | zero => cases h
  | succ fuel ih =>
    have hcur := lt_stop hstop haligned
    cases hfind : find p cur regions with
    | none =>
      rw [validateFrom, if_pos hcur, hfind] at h
      cases h
    | some o =>
      rcases validateFrom_succ write execute fuel hcur hfind with ⟨-, heq⟩ | ⟨hgrants, heq⟩
      · rw [heq] at h
        obtain ⟨next, hnext, h⟩ := bind_eq_some_iff.mp h
        obtain ⟨hok, c, hc, hle, hrefused⟩ := ih (aligned_add haligned hnext) h
        refine ⟨hok, c, hc, ?_, hrefused⟩
        rintro rfl
        have hlt := lt_of_dev_add hnext
        have hle := hle rfl
        rw [Profile.eq_add_of_add_eq_some hnext, le_def, toNat_add_of_lt hlt] at hle
        rw [le_def]
        exact (Nat.le_add_right _ _).trans hle
      · cases heq.symm.trans h
        exact ⟨rfl, cur, haligned, fun _ => BitVec.le_refl _, o, hfind, hgrants⟩

/-- If the page `d` pages on is refused, and the loop can get there, it says no. -/
theorem validateFrom_eq_false (d : Nat) {fuel : Nat} {cur : Word}
    (haligned : cur.toNat % 4096 = 0) (hfuel : d < fuel)
    (hdev : p = .dev → cur.toNat + d * 4096 < 2 ^ 64)
    (hfound : ∀ i < d, find p (cur + BitVec.ofNat 64 (i * 4096)) regions ≠ none)
    (hrefused : Refused p regions write execute (cur + BitVec.ofNat 64 (d * 4096))) :
    validateFrom p regions write execute stop fuel cur = some false := by
  obtain ⟨fuel, rfl⟩ : ∃ n, fuel = n + 1 := ⟨fuel - 1, by omega⟩
  have hcur := lt_stop hstop haligned
  have hzero : cur + BitVec.ofNat 64 (0 * 4096) = cur := by simp
  induction d generalizing cur fuel with
  | zero =>
    rw [hzero] at hrefused
    obtain ⟨o, hfind, hgrants⟩ := hrefused
    rcases validateFrom_succ write execute fuel hcur hfind with ⟨hyes, -⟩ | ⟨-, heq⟩
    · exact absurd hyes hgrants
    · exact heq
  | succ d ih =>
    have hfirst := hfound 0 (Nat.succ_pos d)
    rw [hzero] at hfirst
    obtain ⟨o, hfind⟩ := Option.ne_none_iff_exists'.mp hfirst
    rcases validateFrom_succ write execute fuel hcur hfind with ⟨-, heq⟩ | ⟨-, heq⟩
    · have hpage : pageSize.toNat = 4096 := rfl
      have hadd : p.add cur pageSize = some (cur + pageSize) :=
        add_of_dev fun hp => by have := hdev hp; omega
      have hshift : ∀ i, cur + pageSize + BitVec.ofNat 64 (i * 4096) =
          cur + BitVec.ofNat 64 ((i + 1) * 4096) := by
        intro i
        rw [BitVec.add_assoc, show (i + 1) * 4096 = 4096 + i * 4096 by omega, ofNat_add]
        rfl
      have hnext := aligned_add haligned hadd
      obtain ⟨fuel, rfl⟩ : ∃ n, fuel = n + 1 := ⟨fuel - 1, by omega⟩
      rw [heq, hadd, bind_some]
      refine ih hnext (fun hp => ?_) (fun i hi => ?_) ?_ fuel (by omega) (lt_stop hstop hnext)
        (by simp)
      · have hlt := hdev hp
        rw [toNat_add_of_lt (by omega), hpage]
        omega
      · rw [hshift]
        exact hfound (i + 1) (by omega)
      · rw [hshift]
        exact hrefused
    · exact heq

/-- The loop over a seamless list says no exactly when it can come to a page that is
    refused. -/
theorem Seamless.validateFrom_eq_false_iff (h : regions.Seamless) (hbuilt : Built p regions)
    {cur : Word} (haligned : cur.toNat % 4096 = 0) :
    validateFrom p regions write execute stop (2 ^ 52 + 1) cur = some false ↔
      ∃ c : Word, c.toNat % 4096 = 0 ∧ (p = .dev → cur ≤ c) ∧
        Refused p regions write execute c := by
  refine ⟨fun h => (exists_refused hstop haligned h).2, fun ⟨c, hc, hle, hrefused⟩ => ?_⟩
  -- the number of steps from `cur` to `c`, around the address space if need be
  have hdist : (c - cur).toNat % 4096 = 0 := by
    rw [toNat_sub]
    omega
  have hlt := (c - cur).isLt
  generalize hd : (c - cur).toNat / 4096 = d
  have hdc : d * 4096 = (c - cur).toNat := by omega
  have hreach : cur + BitVec.ofNat 64 (d * 4096) = c := by
    rw [hdc, ofNat_toNat, setWidth_eq, BitVec.add_comm, BitVec.sub_add_cancel]
  have hclt := c.isLt
  have hdevle : p = .dev → cur.toNat + d * 4096 = c.toNat := by
    intro hp
    have hle := le_def.mp (hle hp)
    rw [hdc, toNat_sub]
    omega
  refine validateFrom_eq_false hstop d haligned (by omega) (fun hp => ?_) (fun i hi => ?_)
    (by rwa [hreach])
  · rw [hdevle hp]
    exact hclt
  · cases p with
    | release =>
      obtain ⟨o, hfind, -⟩ := VmaList.find_spec hbuilt.placed
        (a := cur + BitVec.ofNat 64 (i * 4096)) (by intro hp; cases hp)
      rw [hfind]
      nofun
    | dev =>
      have hdevle := hdevle rfl
      have hword : (cur + BitVec.ofNat 64 (i * 4096)).toNat = cur.toNat + i * 4096 := by
        rw [toNat_add, toNat_ofNat]
        omega
      obtain ⟨o, hfind, -⟩ := h.find_spec hbuilt (c := cur + BitVec.ofNat 64 (i * 4096))
        (by omega) (by omega)
      rw [hfind]
      nofun

end

/-- Without overflow checks a range that passes 2^64 ends on the page it begins on, or
    before. -/
theorem Seamless.wrapped_iff (h : regions.Seamless) (hbuilt : Built .release regions)
    {addr len : Word} (hpast : 2 ^ 64 < addr.toNat + len.toNat) :
    validateFrom .release regions write execute (addr + len) (2 ^ 52 + 1) (pageBase addr) =
        some false ↔
      pageBase addr < addr + len ∧ ∃ c : Word, c.toNat % 4096 = 0 ∧
        (c = pageBase addr ∨ pageBase addr = lastPage) ∧
        Refused .release regions write execute c := by
  have hbase := toNat_pageBase addr
  have hlen := len.isLt
  have hstop : (addr + len).toNat = addr.toNat + len.toNat - 2 ^ 64 := by
    rw [toNat_add]
    omega
  have haligned : (pageBase addr).toNat % 4096 = 0 := by omega
  by_cases hcur : pageBase addr < addr + len
  · rw [and_iff_right hcur]
    rw [lt_def] at hcur
    by_cases hlast : pageBase addr = lastPage
    · have htop : (pageBase addr).toNat = 2 ^ 64 - 4096 := by rw [hlast]; rfl
      rw [h.validateFrom_eq_false_iff (by omega) hbuilt haligned]
      simp [hlast]
    · -- one page: the next one begins after the end
      have htop : (pageBase addr).toNat ≠ 2 ^ 64 - 4096 := fun heq => hlast (eq_of_toNat_eq heq)
      have haddr := addr.isLt
      have hlt : (pageBase addr).toNat + 4096 < 2 ^ 64 := by omega
      have hnext := toNat_next hlt
      obtain ⟨o, hfind, -⟩ := h.find_spec hbuilt haligned (by omega)
      have honly : (∃ c : Word, c.toNat % 4096 = 0 ∧
          (c = pageBase addr ∨ pageBase addr = lastPage) ∧
          Refused .release regions write execute c) ↔
            ¬ ∃ r, o = some r ∧ r.Grants write execute := by
        constructor
        · rintro ⟨c, -, hc, o', hfind', hgrants⟩
          rw [hc.resolve_right hlast, hfind] at hfind'
          cases hfind'
          exact hgrants
        · exact fun hgrants => ⟨_, haligned, .inl rfl, o, hfind, hgrants⟩
      rw [honly]
      rcases validateFrom_succ write execute (2 ^ 52) (lt_def.mpr hcur) hfind with
        ⟨hgrants, hrun⟩ | ⟨hgrants, hrun⟩
      · rw [hrun, Profile.add_eq_some_of_lt _ hlt, bind_some,
          show 2 ^ 52 = (2 ^ 52 - 1) + 1 from rfl, validateFrom_of_le (by omega)]
        exact iff_of_false nofun (not_not.mpr hgrants)
      · exact iff_of_true hrun hgrants
  · have hle : (addr + len).toNat ≤ (pageBase addr).toNat := by
      rw [lt_def] at hcur
      omega
    rw [validateFrom_of_le hle]
    exact iff_of_false nofun fun hboth => hcur hboth.1

theorem exists_answer_iff {answer : Option Bool} {P : Prop} :
    (∃ ok, answer = some ok ∧ (ok = true ↔ P)) ↔
      answer = some true ∧ P ∨ answer = some false ∧ ¬ P := by
  rcases answer with _ | _ | _ <;> simp

theorem Seamless.exactAt_iff (h : regions.Seamless) (hbuilt : Built p regions)
    (addr len : Word) (write execute : Bool) :
    ExactAt p regions addr len write execute ↔ InReach p regions addr len write execute := by
  unfold InReach
  by_cases hlen : len = 0
  · subst hlen
    have hzero : (0 : Word).toNat = 0 := rfl
    have haddr := addr.isLt
    refine iff_of_true ⟨true, if_pos rfl, iff_of_true rfl ⟨by omega, fun b _ _ => by omega⟩⟩
      (.inl rfl)
  rw [or_iff_right hlen]
  by_cases hbelow : addr.toNat + len.toNat ≤ 2 ^ 64 - 4096
  · exact iff_of_true ((h.pagewise hbuilt).exactAt hbelow hlen) (.inl hbelow)
  rw [or_iff_right hbelow]
  have haligned : (pageBase addr).toNat % 4096 = 0 := by
    have := toNat_pageBase addr
    omega
  rw [ExactAt, exists_answer_iff, validateAccess, if_neg hlen]
  by_cases hfits : addr.toNat + len.toNat < 2 ^ 64
  · have hstop : (addr + len).toNat = addr.toNat + len.toNat := toNat_add_of_lt hfits
    have htop : 2 ^ 64 - 4096 < (addr + len).toNat := by omega
    rw [p.add_eq_some_of_lt hfits, bind_some, ← h.validateFrom_eq_false_iff htop hbuilt haligned,
      and_iff_right (Nat.le_of_lt hfits)]
    constructor
    · rintro (⟨htrue, -⟩ | ⟨hfalse, hnot⟩)
      · cases (exists_refused htop haligned htrue).1
      · exact .inl ⟨hfits, hnot, hfalse⟩
    · rintro (⟨-, hnot, hfalse⟩ | ⟨-, heq, -⟩ | ⟨-, hlt, -⟩)
      · exact .inr ⟨hfalse, hnot⟩
      · omega
      · omega
  refine Iff.trans ?_ (or_iff_right fun hmid => hfits hmid.1).symm
  cases p with
  | dev =>
    have hpanic : Profile.add .dev addr len = none := if_neg hfits
    rw [hpanic]
    refine iff_of_false (by simp) ?_
    rintro (⟨hp, -⟩ | ⟨hp, -⟩) <;> cases hp
  | release =>
    rw [add_of_dev (by intro hp; cases hp), bind_some]
    by_cases heq : addr.toNat + len.toNat = 2 ^ 64
    · have hstop : (addr + len).toNat = 0 := by
        rw [toNat_add, heq]
        rfl
      rw [validateFrom_of_le (by omega)]
      constructor
      · rintro (⟨-, -, hall⟩ | ⟨hfalse, -⟩)
        · exact .inl ⟨rfl, heq, hall⟩
        · cases hfalse
      · rintro (⟨-, -, hall⟩ | ⟨-, hlt, -⟩)
        · exact .inl ⟨rfl, Nat.le_of_eq heq, hall⟩
        · omega
    · have hpast : 2 ^ 64 < addr.toNat + len.toNat := by omega
      rw [h.wrapped_iff hbuilt hpast]
      constructor
      · rintro (⟨-, hle, -⟩ | ⟨hrefused, -⟩)
        · omega
        · exact .inr ⟨rfl, hpast, hrefused⟩
      · rintro (⟨-, hend, -⟩ | ⟨-, -, hrefused⟩)
        · exact absurd hend heq
        · exact .inr ⟨hrefused, fun hle => by omega⟩

/-- On a list made by `add` the answers are exact for just the ranges in reach, exactly when
    the list is seamless. -/
theorem validateAccess_exact_iff (hbuilt : Built p regions) :
    (∀ addr len write execute, ExactAt p regions addr len write execute ↔
      InReach p regions addr len write execute) ↔ regions.Seamless := by
  refine ⟨fun hexact => ?_, fun h => h.exactAt_iff hbuilt⟩
  refine (pagewise_of_exactAt (p := p) fun addr write execute hend => ?_).seamless
  exact (hexact addr 1 write execute).mpr (.inr (.inl hend))

/-- Two regions that meet inside a page, and one apart from them: every range in reach is
    answered rightly. -/
theorem validateAccess_exact_adjoining :
    let low : VmaRegion := ⟨0x1000, 0x800, ⟨true, true, false⟩, .mmap⟩
    let high : VmaRegion := ⟨0x1800, 0x1800, ⟨true, true, false⟩, .mmap⟩
    let code : VmaRegion := ⟨0x5000, 0x1000, ⟨true, false, true⟩, .code⟩
    Built .dev [low, high, code] ∧ ∀ addr len write execute,
      ExactAt .dev [low, high, code] addr len write execute ↔
        InReach .dev [low, high, code] addr len write execute := by
  intro low high code
  have hlow : Built .dev [low] :=
    .add .nil (show add .dev [] low = some (.ok (), [low]) by decide +kernel)
  have hhigh : Built .dev [low, high] :=
    .add hlow (show add .dev [low] high = some (.ok (), [low, high]) by decide +kernel)
  have hbuilt : Built .dev [low, high, code] :=
    .add hhigh (show add .dev [low, high] code = some (.ok (), [low, high, code]) by decide +kernel)
  refine ⟨hbuilt, (validateAccess_exact_iff hbuilt).mpr ⟨?_, ?_, ?_⟩⟩
  · simp only [List.forall_mem_cons]
    refine ⟨fun _ h => absurd (by decide) h, fun _ _ _ => ?_, fun _ h => absurd (by decide) h,
      by simp⟩
    exact ⟨low, by simp, by decide, id, id⟩
  · simp only [List.forall_mem_cons]
    refine ⟨fun _ _ _ => ?_, fun _ h => absurd (by decide) h, fun _ h => absurd (by decide) h,
      by simp⟩
    exact ⟨high, by simp, by decide, id, id⟩
  · simp only [List.forall_mem_cons]
    exact ⟨absurd (by decide), absurd (by decide), absurd (by decide), by simp⟩

/-- Half a page is mapped, and the whole page is accepted; so is an unmapped range that
    ends at 2^64. -/
theorem half_page_accepted : let half : VmaRegion := ⟨0x1000, 0x800, ⟨true, true, false⟩, .mmap⟩
    add .dev [] half = some (.ok (), [half]) ∧
      validateAccess .dev [half] 0x1000 0x1000 true false = some true ∧
      ¬ Allowed [half] true false 0x1800 ∧
      validateAccess .release [] 0xFFFFFFFFFFFFFFFF 1 true false = some true := by
  refine ⟨by decide +kernel, by decide +kernel, ?_, by decide +kernel⟩
  rintro ⟨r, hr, hcovers, -⟩
  cases List.mem_singleton.mp hr
  exact absurd hcovers (by decide)

end VmaList

end OpenOS.Memory
