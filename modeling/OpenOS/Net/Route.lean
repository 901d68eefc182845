/-
  The IP routing table (kernel/src/net/mod.rs): a list of entries in the order
  in which they were first added, and a lookup that runs over it once.

  The lookup compares masks as numbers.  Masks that are prefixes are ordered like
  their lengths, so what it finds is the longest prefix.
-/

import Mathlib.Data.List.Induction
import OpenOS.Base.Run
import OpenOS.Net.Wire

namespace OpenOS.Net

open Base List

structure RouteEntry where
  dest : Ip
  mask : Ip
  gateway : Ip
  interface : BitVec 8
  metric : BitVec 8
deriving DecidableEq

/-- What tells the entries of a table apart. -/
def RouteEntry.key (e : RouteEntry) : Ip × Ip := (e.dest, e.mask)

namespace Route

/-- `route_add` replaces the first entry with the same key. -/
def routeAdd (new : RouteEntry) : List RouteEntry → List RouteEntry
  | [] => [new]
  | e :: table =>
    if e.dest = new.dest ∧ e.mask = new.mask then new :: table else e :: routeAdd new table

def routeRemove (dest mask : Ip) (table : List RouteEntry) : Bool × List RouteEntry :=
  let kept := table.filter fun e => !(e.dest = dest && e.mask = mask)
  (kept.length < table.length, kept)

def Matches (ip : Ip) (e : RouteEntry) : Prop := ip &&& e.mask = e.dest &&& e.mask
deriving Decidable

/-- A round of the loop of `route_lookup`; `best` is kept as the whole entry. -/
def choose (ip : Ip) (best : Option RouteEntry) (e : RouteEntry) : Option RouteEntry :=
  if Matches ip e then
    match best with
    | none => some e
    | some b =>
      if b.mask < e.mask then some e
      else if e.mask = b.mask ∧ e.metric < b.metric then some e
      else best
  else best

def routeLookup (table : List RouteEntry) (ip : Ip) : Option (Ip × BitVec 8) :=
  (table.foldl (choose ip) none).map fun e => (e.gateway, e.interface)

inductive Op
  | add (e : RouteEntry)
  | remove (dest mask : Ip)

/-- The result is that of `route_remove`. -/
def step : StepFn (List RouteEntry) Op Bool
  | table, .add e => some (true, routeAdd e table)
  | table, .remove dest mask => some (routeRemove dest mask table)

/-! ## Longest prefixes -/

/-- The mask with `n` leading ones. -/
def prefixMask (n : Nat) : Ip := ~~~(BitVec.allOnes 32 >>> n)

def Contiguous (mask : Ip) : Prop := ∃ n ≤ 32, mask = prefixMask n
deriving Decidable

/-- The number of ones. -/
def prefixLen (mask : Ip) : Nat := (range 32).countP mask.getLsbD

/-- The entry has a longer prefix, or one as long and a smaller metric. -/
def Preferred (e e' : RouteEntry) : Prop := prefixLen e'.mask < prefixLen e.mask ∨
  prefixLen e'.mask = prefixLen e.mask ∧ e.metric.toNat < e'.metric.toNat

/-- The entry matches; it is preferred to those that match before it, and none behind it
    is preferred to it. -/
def IsBest (table : List RouteEntry) (ip : Ip) (e : RouteEntry) : Prop :=
  ∃ l₁ l₂, table = l₁ ++ e :: l₂ ∧ Matches ip e ∧ (∀ e' ∈ l₁, Matches ip e' → Preferred e e') ∧
    ∀ e' ∈ l₂, Matches ip e' → ¬ Preferred e' e

/-! ## Times of insertion -/

/-- What call number `i` does to the time at which a key was inserted: `route_add` of a key
    that is there replaces the entry where it stands. -/
def stamp (key : Ip × Ip) (time : Option Nat) (call : Op × Nat) : Option Nat :=
  match call with
  | (.add e, i) => if e.key = key then time.or (some i) else time
  | (.remove dest mask, _) => if (dest, mask) = key then none else time

/-- The number of the call that inserted the key: the first to add it after it was last
    removed. -/
def insertedAt (calls : List Op) (key : Ip × Ip) : Option Nat :=
  calls.zipIdx.foldl (stamp key) none

/-- A key was inserted before another. -/
def Earlier (calls : List Op) (key key' : Ip × Ip) : Prop :=
  ∃ i j, insertedAt calls key = some i ∧ insertedAt calls key' = some j ∧ i < j

/-- The entry has the longer prefix, or the smaller metric, or was inserted earlier. -/
def Precedes (calls : List Op) (e e' : RouteEntry) : Prop := Preferred e e' ∨
  prefixLen e.mask = prefixLen e'.mask ∧ e.metric = e'.metric ∧ Earlier calls e.key e'.key

/-- The lookup in the table that these calls made: of the entries that match it finds the one
    that precedes all others, and no key is there twice. -/
structure LongestPrefixMatch (calls : List Op) (table : List RouteEntry) : Prop where
  none_iff : ∀ ip, routeLookup table ip = none ↔ ∀ e ∈ table, ¬ Matches ip e
  best : ∀ ip gateway interface, routeLookup table ip = some (gateway, interface) →
    ∃ e ∈ table, Matches ip e ∧ e.gateway = gateway ∧ e.interface = interface ∧
      ∀ e' ∈ table, Matches ip e' → e' = e ∨ Precedes calls e e'
  keys : (table.map RouteEntry.key).Nodup

theorem prefixLen_prefixMask : ∀ n ≤ 32, prefixLen (prefixMask n) = n := by
  decide +kernel

theorem prefixMask_lt : ∀ n ≤ 32, ∀ n' ≤ 32, prefixMask n < prefixMask n' ↔ n < n' := by
  decide +kernel

/-- The guards of the loop choose the preferred one of two entries. -/
theorem preferred_iff (he : Contiguous e.mask) (hb : Contiguous b.mask) :
    Preferred e b ↔ b.mask < e.mask ∨ e.mask = b.mask ∧ e.metric < b.metric := by
  obtain ⟨n, hn, hmask⟩ := he
  obtain ⟨m, hm, hmask'⟩ := hb
  rw [Preferred, hmask, hmask', prefixLen_prefixMask n hn, prefixLen_prefixMask m hm,
    prefixMask_lt m hm n hn, BitVec.lt_def]
  have heq : m = n ↔ prefixMask n = prefixMask m := by
    refine ⟨fun h => by rw [h], fun h => ?_⟩
    rw [← prefixLen_prefixMask m hm, ← h, prefixLen_prefixMask n hn]
  rw [heq]

/-- What the loop has chosen of the entries up to here. -/
def Chosen (table : List RouteEntry) (ip : Ip) : Option RouteEntry → Prop
  | none => ∀ e ∈ table, ¬ Matches ip e
  | some e => IsBest table ip e

theorem IsBest.concat (h : IsBest table ip b) (he : Matches ip e → ¬ Preferred e b) :
    IsBest (table ++ [e]) ip b := by
  obtain ⟨l₁, l₂, rfl, hm, hbefore, hbehind⟩ := h
  refine ⟨l₁, l₂ ++ [e], by simp, hm, hbefore, ?_⟩
  rw [forall_mem_append, forall_mem_singleton]
  exact ⟨hbehind, he⟩

/-- A new best entry is preferred to all that match before it. -/
theorem IsBest.replace (h : IsBest table ip b) (hm : Matches ip e) (hpref : Preferred e b) :
    IsBest (table ++ [e]) ip e := by
  obtain ⟨l₁, l₂, rfl, -, hbefore, hbehind⟩ := h
  refine ⟨l₁ ++ b :: l₂, [], rfl, hm, ?_, nofun⟩
  rw [forall_mem_append, forall_mem_cons]
  unfold Preferred at *
  refine ⟨fun e' he' hm' => ?_, fun _ => hpref, fun e' he' hm' => ?_⟩
  · have hfirst := hbefore e' he' hm'
    omega
  · have hnot := hbehind e' he' hm'
    omega

theorem chosen_choose (hmask : ∀ b ∈ table ++ [e], Contiguous b.mask) (h : Chosen table ip best) :
    Chosen (table ++ [e]) ip (choose ip best e) := by
  rw [forall_mem_append, forall_mem_singleton] at hmask
  unfold choose
  cases best with
  | none =>
    split
    · rename_i hm
      exact ⟨table, [], rfl, hm, fun e' he' hm' => absurd hm' (h e' he'), nofun⟩
    · rename_i hm
      rw [Chosen, forall_mem_append, forall_mem_singleton]
      exact ⟨h, hm⟩
  | some b =>
    have hb : Contiguous b.mask := by
      obtain ⟨l₁, l₂, rfl, -⟩ := h
      exact hmask.1 b (by simp)
    have hiff := preferred_iff hmask.2 hb
    dsimp only
    split_ifs with hm hlt hmetric
    · exact h.replace hm (hiff.mpr (.inl hlt))
    · exact h.replace hm (hiff.mpr (.inr hmetric))
    · exact h.concat fun _ hpref => (hiff.mp hpref).elim hlt hmetric
    · exact h.concat fun hm' => absurd hm' hm

theorem chosen_foldl (h : Chosen table ip best) (hmask : ∀ e ∈ table ++ l, Contiguous e.mask) :
    Chosen (table ++ l) ip (l.foldl (choose ip) best) := by
  induction l generalizing table best with
  | nil => rwa [append_nil]
  | cons e l ih =>
    rw [append_cons] at hmask ⊢
    exact ih (chosen_choose (fun b hb => hmask b (mem_append_left _ hb)) h) hmask

/-! ## Runs -/

/-- A call with a prefix as its mask. -/
def PrefixCall : Op → Prop
  | .add e => Contiguous e.mask
  | .remove _ mask => Contiguous mask

instance : DecidablePred PrefixCall
  | .add e => inferInstanceAs (Decidable (Contiguous e.mask))
  | .remove _ mask => inferInstanceAs (Decidable (Contiguous mask))

/-- Prefixes only, in the order in which their keys were inserted. -/
structure Wf (calls : List Op) (table : List RouteEntry) : Prop where
  prefixes : ∀ e ∈ table, Contiguous e.mask
  known : ∀ key, key ∈ table.map RouteEntry.key ↔ (insertedAt calls key).isSome = true
  sorted : (table.map RouteEntry.key).Pairwise (Earlier calls)

variable {calls : List Op} {table : List RouteEntry} {key : Ip × Ip}

theorem insertedAt_concat (calls : List Op) (op : Op) (key : Ip × Ip) :
    insertedAt (calls ++ [op]) key = stamp key (insertedAt calls key) (op, calls.length) := by
  rw [insertedAt, zipIdx_append, foldl_append, Nat.zero_add, zipIdx_cons, zipIdx_nil, foldl_cons,
    foldl_nil, insertedAt]

theorem insertedAt_lt (h : insertedAt calls key = some i) : i < calls.length := by
  -- by the last call: it stamps its own number or keeps an older one
  induction calls using reverseRecOn with
  | nil => cases h
  | append_singleton calls op ih =>
    rw [insertedAt_concat] at h
    rw [length_append, length_singleton]
    cases op with
    | add e => cases htime : insertedAt calls key <;> grind [stamp]
    | remove dest mask => grind [stamp]

theorem Earlier.ne (h : Earlier calls key key') : key ≠ key' := by
  rintro rfl
  obtain ⟨i, j, hi, hj, hlt⟩ := h
  cases hi.symm.trans hj
  exact lt_irrefl _ hlt

/-- A call that keeps the times of two keys keeps their order. -/
theorem Earlier.congr (h : Earlier calls key key')
    (hkey : insertedAt calls' key = insertedAt calls key)
    (hkey' : insertedAt calls' key' = insertedAt calls key') : Earlier calls' key key' := by
  obtain ⟨i, j, hi, hj, hlt⟩ := h
  exact ⟨i, j, hkey.trans hi, hkey'.trans hj, hlt⟩

theorem mem_routeAdd (h : e ∈ routeAdd b table) : e = b ∨ e ∈ table := by
  induction table with
  | nil => exact .inl (mem_singleton.mp h)
  | cons e' table ih =>
    rw [routeAdd] at h
    split at h <;> grind

/-- `route_add` leaves the row of keys as it is, or appends a new one. -/
theorem keys_routeAdd (e : RouteEntry) (table : List RouteEntry) :
    (routeAdd e table).map RouteEntry.key =
      if e.key ∈ table.map RouteEntry.key then table.map RouteEntry.key
      else table.map RouteEntry.key ++ [e.key] := by
  induction table with
  | nil => rfl
  | cons b table ih =>
    have hiff : (b.dest = e.dest ∧ b.mask = e.mask) ↔ e.key = b.key := by
      rw [RouteEntry.key, RouteEntry.key, Prod.mk.injEq, eq_comm, @eq_comm _ b.mask]
    rw [routeAdd]
    split
    · rename_i hkey
      rw [map_cons, map_cons, hiff.mp hkey, if_pos mem_cons_self]
    · rename_i hkey
      rw [map_cons, map_cons, ih]
      simp only [mem_cons, mt hiff.mpr hkey, false_or]
      split <;> rfl

theorem Wf.routeAdd (h : Wf calls table) (he : Contiguous e.mask) :
    Wf (calls ++ [.add e]) (routeAdd e table) := by
  have htime : ∀ key, insertedAt (calls ++ [.add e]) key =
      if e.key = key then (insertedAt calls key).or (some calls.length)
      else insertedAt calls key := fun key => insertedAt_concat calls _ key
  -- a key that is there keeps its time
  have hkeep : ∀ key ∈ table.map RouteEntry.key,
      insertedAt (calls ++ [.add e]) key = insertedAt calls key := by
    intro key hkey
    obtain ⟨i, hi⟩ := Option.isSome_iff_exists.mp ((h.known key).mp hkey)
    rw [htime, hi]
    split <;> rfl
  have hsorted : (table.map RouteEntry.key).Pairwise (Earlier (calls ++ [.add e])) :=
    h.sorted.imp_of_mem fun ha hb hlt => hlt.congr (hkeep _ ha) (hkeep _ hb)
  refine ⟨fun e' he' => ?_, fun key => ?_, ?_⟩
  · rcases mem_routeAdd he' with rfl | h'
    · exact he
    · exact h.prefixes e' h'
  · rw [keys_routeAdd, htime]
    have hknown := h.known key
    by_cases hkey : e.key = key
    · subst hkey
      rw [if_pos rfl]
      split <;> simp_all
    · rw [if_neg hkey, ← hknown]
      split
      · rfl
      · rw [mem_append, mem_singleton, or_iff_left (Ne.symm hkey)]
  · rw [keys_routeAdd]
    split
    · exact hsorted
    · rename_i hnew
      have hnone : insertedAt calls e.key = none := by
        rw [← Option.not_isSome_iff_eq_none]
        exact mt (h.known e.key).mpr hnew
      rw [pairwise_append]
      refine ⟨hsorted, pairwise_singleton _ _, fun key hkey key' hkey' => ?_⟩
      rw [mem_singleton] at hkey'
      subst hkey'
      obtain ⟨i, hi⟩ := Option.isSome_iff_exists.mp ((h.known key).mp hkey)
      exact ⟨i, calls.length, (hkeep key hkey).trans hi, by rw [htime, if_pos rfl, hnone]; rfl,
        insertedAt_lt hi⟩

theorem Wf.routeRemove (h : Wf calls table) (dest mask : Ip) :
    Wf (calls ++ [.remove dest mask]) (routeRemove dest mask table).2 := by
  have hkeys : (Route.routeRemove dest mask table).2.map RouteEntry.key =
      (table.map RouteEntry.key).filter fun key => key ≠ (dest, mask) := by
    rw [filter_map]
    refine congrArg (map RouteEntry.key) (filter_congr fun e _ => ?_)
    simp [RouteEntry.key]
  have htime : ∀ key, insertedAt (calls ++ [.remove dest mask]) key =
      if (dest, mask) = key then none else insertedAt calls key :=
    fun key => insertedAt_concat calls _ key
  have hkeep : ∀ key, key ≠ (dest, mask) →
      insertedAt (calls ++ [.remove dest mask]) key = insertedAt calls key :=
    fun key hne => (htime key).trans (if_neg (Ne.symm hne))
  refine ⟨fun e he => h.prefixes e (mem_of_mem_filter he), fun key => ?_, ?_⟩
  · rw [hkeys, mem_filter, h.known, htime]
    by_cases hkey : (dest, mask) = key
    · simp [hkey]
    · simp [hkey, Ne.symm hkey]
  · rw [hkeys]
    refine (h.sorted.sublist filter_sublist).imp_of_mem fun ha hb hlt => ?_
    exact hlt.congr (hkeep _ (by simpa using (mem_filter.mp ha).2))
      (hkeep _ (by simpa using (mem_filter.mp hb).2))

theorem Wf.step (h : Wf calls table) (hs : Route.step table op = some (r, table'))
    (hcall : PrefixCall op) : Wf (calls ++ [op]) table' := by
  cases op with
  | add e =>
    cases hs
    exact h.routeAdd hcall
  | remove dest mask =>
    cases hs
    exact h.routeRemove dest mask

/-- The entry that the loop keeps precedes the others: those behind it in the table, which
    may be as good, were inserted later. -/
theorem IsBest.precedes (h : IsBest table ip e) (hwf : Wf calls table) (he' : e' ∈ table)
    (hm : Matches ip e') : e' = e ∨ Precedes calls e e' := by
  obtain ⟨l₁, l₂, rfl, -, hbefore, hbehind⟩ := h
  rcases mem_append.mp he' with he' | he'
  · exact .inr (.inl (hbefore e' he' hm))
  rcases mem_cons.mp he' with rfl | he'
  · exact .inl rfl
  have hsorted := hwf.sorted
  rw [map_append, map_cons, pairwise_append, pairwise_cons] at hsorted
  have hearlier := hsorted.2.1.1 e'.key (mem_map_of_mem he')
  have hnot := hbehind e' he' hm
  unfold Precedes Preferred at *
  by_cases hsame : prefixLen e.mask = prefixLen e'.mask ∧ e.metric.toNat = e'.metric.toNat
  · exact .inr (.inr ⟨hsame.1, BitVec.eq_of_toNat_eq hsame.2, hearlier⟩)
  · exact .inr (.inl (by omega))

/-- After any calls with prefixes as masks the lookup is a longest-prefix match. -/
theorem longestPrefixMatch_of_run {tr : List (Transition (List RouteEntry) Op Bool)}
    (hrun : Run step [] tr table) (hcalls : ∀ e ∈ tr, PrefixCall e.op) :
    LongestPrefixMatch (tr.map Transition.op) table := by
  have hwf : Wf (tr.map Transition.op) table := by
    refine Run.invariant_of_guard (I := fun tr table => Wf (tr.map Transition.op) table)
      ⟨by simp, fun key => by simp [insertedAt], .nil⟩ ?_ hrun (Run.guard_of_forall_mem hcalls)
    intro tr table op r table' h hs hcall
    rw [map_append, map_singleton]
    exact h.step hs hcall
  have hchosen : ∀ ip, Chosen table ip (table.foldl (choose ip) none) := by
    intro ip
    have hnil : Chosen [] ip none := fun _ he => nomatch he
    exact chosen_foldl hnil hwf.prefixes
  refine ⟨fun ip => ?_, fun ip gateway interface hlookup => ?_, hwf.sorted.imp Earlier.ne⟩
  · have h := hchosen ip
    rw [routeLookup, Option.map_eq_none_iff]
    cases hbest : table.foldl (choose ip) none with
    | none =>
      rw [hbest] at h
      exact iff_of_true rfl h
    | some e =>
      rw [hbest] at h
      obtain ⟨l₁, l₂, rfl, hm, -⟩ := h
      exact iff_of_false nofun fun hno => hno e (by simp) hm
  · obtain ⟨e, hbest, heq⟩ := Option.map_eq_some_iff.mp hlookup
    have h : IsBest table ip e := by
      have h := hchosen ip
      rwa [hbest] at h
    cases heq
    have hfound := h
    obtain ⟨l₁, l₂, hsplit, hm, -⟩ := hfound
    exact ⟨e, by rw [hsplit]; simp, hm, rfl, rfl, fun e' he' hm' => h.precedes hwf he' hm'⟩

/-- Two routes to the same network, of which the first is removed and added again, beside a
    default route: the other one is older then, and is found. -/
theorem longestPrefixMatch_readded : ∃ tr table, Run step [] tr table ∧
    tr.length = 5 ∧ LongestPrefixMatch (tr.map Transition.op) table ∧
    routeLookup table 0x0a000007 = some (3, 0) ∧ routeLookup table 0x0b000007 = some (1, 0) := by
  obtain ⟨tr, table, hrun, -, hval⟩ := exists_run_of_exec step []
    [.add ⟨0, 0, 1, 0, 0⟩, .add ⟨0x0a000000, 0xff000000, 2, 0, 5⟩,
      .add ⟨0x0a000001, 0xff000000, 3, 0, 5⟩, .remove 0x0a000000 0xff000000,
      .add ⟨0x0a000000, 0xff000000, 4, 0, 5⟩]
    (fun tr table => decide (tr.length = 5 ∧ (∀ e ∈ tr, PrefixCall e.op) ∧
      routeLookup table 0x0a000007 = some (3, 0) ∧ routeLookup table 0x0b000007 = some (1, 0)))
    (by decide +kernel)
  obtain ⟨hlen, hcalls, hfound⟩ := of_decide_eq_true hval
  exact ⟨tr, table, hrun, hlen, longestPrefixMatch_of_run hrun hcalls, hfound⟩

end Route

end OpenOS.Net
