/-
  The mount table (kernel/src/fs/vfs.rs): `mount`, `unmount`, and what
  `resolve_fs` makes of a path against its components.

  `resolve_fs` takes the longest mounted path that is a textual prefix of the
  path.  By components it should take the longest one that ends where a
  component of the path ends; the two differ when the longest prefix ends inside
  a component.
-/

import Mathlib.Data.List.Nodup
import OpenOS.Base.Run
import OpenOS.Fs.Vfs

namespace OpenOS.Fs.Mount

open Base List Option Prod

/-! ## The table -/

/-- `MOUNT_TABLE`: the path and the file system of each mount point. -/
abbrev MountTable := List (String × Nat)

def mount (table : MountTable) (path : String) (fs : Nat) : Except Unit Unit × MountTable :=
  if path.toList.head? ≠ some '/' then (.error (), table)
  else if table.any fun mp => mp.1 = path then (.error (), table)
  else (.ok (), table ++ [(path, fs)])

def unmount (table : MountTable) (path : String) : Except Unit Unit × MountTable :=
  let rest := table.filter fun mp => mp.1 ≠ path
  if rest.length = table.length then (.error (), rest) else (.ok (), rest)

inductive Op
  | mount (path : String) (fs : Nat)
  | unmount (path : String)

def step : StepFn MountTable Op (Except Unit Unit)
  | table, .mount path fs => some (mount table path fs)
  | table, .unmount path => some (unmount table path)

/-- What the two calls keep: absolute paths, each mounted once. -/
structure Valid (table : MountTable) : Prop where
  absolute : AbsoluteMounts table
  distinct : (table.map fst).Nodup

theorem valid_mount (h : Valid table) (path : String) (fs : Nat) :
    Valid (mount table path fs).2 := by
  unfold mount
  split
  · exact h
  rename_i hhead
  split
  · exact h
  rename_i hany
  refine ⟨?_, ?_⟩
  · intro mp hmp
    rcases mem_append.mp hmp with hmp | hmp
    · exact h.absolute mp hmp
    · rw [mem_singleton.mp hmp]
      exact not_not.mp hhead
  · rw [map_append, nodup_append]
    refine ⟨h.distinct, nodup_singleton path, ?_⟩
    intro m hm m' hm' heq
    obtain ⟨mp, hmp, rfl⟩ := mem_map.mp hm
    refine hany (any_eq_true.mpr ⟨mp, hmp, decide_eq_true ?_⟩)
    rw [heq, mem_singleton.mp hm']

theorem valid_unmount (h : Valid table) (path : String) : Valid (unmount table path).2 := by
  have hrest : Valid (table.filter fun mp => mp.1 ≠ path) :=
    ⟨fun mp hmp => h.absolute mp (mem_filter.mp hmp).1,
      h.distinct.sublist (filter_sublist.map fst)⟩
  unfold unmount
  dsimp only
  split
  · exact hrest
  · exact hrest

theorem valid_of_run (hrun : Run step [] tr table) : Valid table := by
  have hempty : Valid [] := ⟨fun _ h => absurd h not_mem_nil, nodup_nil⟩
  refine Run.invariant (I := fun _ table => Valid table) hempty ?_ hrun
  intro _ table op r table' h hs
  cases op with
  | mount path fs =>
    rw [show table' = (mount table path fs).2 from (congrArg snd (some.inj hs)).symm]
    exact valid_mount h path fs
  | unmount path =>
    rw [show table' = (unmount table path).2 from (congrArg snd (some.inj hs)).symm]
    exact valid_unmount h path

/-! ## Components -/

/-- The components of a path: what stands between its slashes. -/
def components (path : List Char) : List (List Char) := (path.splitOn '/').filter (· ≠ [])

theorem components_append_slash (a b : List Char) :
    components (a ++ '/' :: b) = components a ++ components b := by
  rw [components, splitOn_append_cons_self, filter_append]
  rfl

theorem components_nil : components [] = [] := by decide

theorem components_slash (b : List Char) : components ('/' :: b) = components b :=
  components_append_slash [] b

theorem components_stripSlash (s : List Char) : components (stripSlash s) = components s := by
  unfold stripSlash
  split
  · rw [components_slash]
  · rfl

theorem flatten_components (s : List Char) : (components s).flatten = s.filter (· ≠ '/') := by
  have hflatten : ∀ L : List (List Char), (L.filter (· ≠ [])).flatten = L.flatten := by
    intro L
    induction L with
    | nil => rfl
    | cons x L ih =>
      by_cases hx : x = []
      · rw [filter_cons_of_neg (by simpa using hx), ih, hx]
        rfl
      · rw [filter_cons_of_pos (by simpa using hx), flatten_cons, ih, flatten_cons]
  rw [components, hflatten]
  induction s with
  | nil => rfl
  | cons c s ih =>
    rw [splitOn, splitOnP_cons_eq_if_modifyHead]
    by_cases hc : c = '/'
    · rw [if_pos (by simpa using hc), filter_cons_of_neg (by simpa using hc)]
      exact ih
    rw [if_neg (by simpa using hc), filter_cons_of_pos (by simpa using hc), ← ih]
    cases hsplit : s.splitOn '/' with
    | nil => exact absurd hsplit (splitOnP_ne_nil _ _)
    | cons x L =>
      have hsplit' : s.splitOnP (· == '/') = x :: L := hsplit
      rw [hsplit']
      rfl

/-! ## The longest textual prefix -/

/-- The search keeps a mounted prefix of the path that no mount point seen so
    far is longer than. -/
theorem longerMount_spec (path : List Char) (table : MountTable) (best : Option (List Char × Nat))
    (hbest : ∀ b, best = some b → b.1 <+: path) :
    (∀ b, table.foldl (longerMount path) best = some b → b.1 <+: path ∧
      (best = some b ∨ ∃ mp ∈ table, b = (mp.1.toList, mp.2)) ∧
      (∀ b₀, best = some b₀ → b₀.1.length ≤ b.1.length) ∧
      ∀ mp ∈ table, mp.1.toList <+: path → mp.1.toList.length ≤ b.1.length) ∧
    (table.foldl (longerMount path) best = none → best = none ∧
      ∀ mp ∈ table, mp.1.toList <+: path → mp.1.toList = []) := by
  induction table generalizing best with
  | nil =>
    refine ⟨fun b hb => ⟨hbest b hb, .inl hb, fun b₀ h₀ => ?_, nofun⟩, fun hnone => ⟨hnone, nofun⟩⟩
    cases h₀.symm.trans hb
    exact le_rfl
  | cons mp table ih =>
    rw [foldl_cons, longerMount]
    split
    · rename_i htake
      rw [Bool.and_eq_true, decide_eq_true_eq, isPrefixOf_iff_prefix] at htake
      obtain ⟨hpre, hlonger⟩ := htake
      obtain ⟨hsome, hnone⟩ := ih (some (mp.1.toList, mp.2))
        (fun b hb => some.inj hb ▸ hpre)
      refine ⟨fun b hb => ?_, fun h => absurd (hnone h).1 (some_ne_none _)⟩
      obtain ⟨hb₁, hb₂, hb₃, hb₄⟩ := hsome b hb
      have hmp := hb₃ _ rfl
      refine ⟨hb₁, .inr ?_, fun b₀ h₀ => ?_, fun mp' hmp' hpre' => ?_⟩
      · rcases hb₂ with hb₂ | ⟨mp', hmp', rfl⟩
        · exact ⟨mp, mem_cons_self, (some.inj hb₂).symm⟩
        · exact ⟨mp', mem_cons_of_mem _ hmp', rfl⟩
      · rw [h₀] at hlonger
        exact le_trans (Nat.le_of_lt hlonger) hmp
      · rcases mem_cons.mp hmp' with rfl | hmp'
        · exact hmp
        · exact hb₄ mp' hmp' hpre'
    · rename_i hskip
      rw [Bool.and_eq_true, decide_eq_true_eq, isPrefixOf_iff_prefix] at hskip
      obtain ⟨hsome, hnone⟩ := ih best hbest
      refine ⟨fun b hb => ?_, fun h => ⟨(hnone h).1, fun mp' hmp' hpre' => ?_⟩⟩
      · obtain ⟨hb₁, hb₂, hb₃, hb₄⟩ := hsome b hb
        refine ⟨hb₁, ?_, hb₃, fun mp' hmp' hpre' => ?_⟩
        · rcases hb₂ with hb₂ | ⟨mp', hmp', hb₂⟩
          · exact .inl hb₂
          · exact .inr ⟨mp', mem_cons_of_mem _ hmp', hb₂⟩
        · rcases mem_cons.mp hmp' with rfl | hmp'
          · -- not longer than the best of before, which `b` is not shorter than
            have hle := Nat.not_lt.mp fun hlt => hskip ⟨hpre', hlt⟩
            cases hbest' : best with
            | none =>
              rw [hbest'] at hle
              exact le_trans hle (Nat.zero_le _)
            | some b₀ =>
              rw [hbest'] at hle
              exact le_trans hle (hb₃ b₀ hbest')
          · exact hb₄ mp' hmp' hpre'
      · rcases mem_cons.mp hmp' with rfl | hmp'
        · have hle := Nat.not_lt.mp fun hlt => hskip ⟨hpre', hlt⟩
          rw [(hnone h).1] at hle
          exact length_eq_zero_iff.mp (Nat.le_zero.mp hle)
        · exact (hnone h).2 mp' hmp' hpre'

/-- A mounted path is a textual prefix of the path, and none is longer. -/
structure LongestPrefix (table : MountTable) (path m : String) (fs : Nat) : Prop where
  mem : (m, fs) ∈ table
  isPrefix : m.toList <+: path.toList
  longest : ∀ mp ∈ table, mp.1.toList <+: path.toList → mp.1.toList.length ≤ m.toList.length

/-- With the root mounted, `resolve_fs` takes the longest prefix of an absolute
    path. -/
theorem exists_longestPrefix (hroot : ("/", root) ∈ table)
    (habs : path.toList.head? = some '/') :
    ∃ m fs, LongestPrefix table path m fs ∧ resolveFs table path =
      some (fs, String.ofList (stripSlash (path.toList.drop m.toList.length))) := by
  obtain ⟨hsome, hnone⟩ := longerMount_spec path.toList table none nofun
  have hslash : "/".toList <+: path.toList := by
    cases hpath : path.toList with
    | nil =>
      rw [hpath] at habs
      cases habs
    | cons c cs =>
      rw [hpath] at habs
      cases habs
      exact ⟨cs, rfl⟩
  cases hfold : table.foldl (longerMount path.toList) none with
  | none => exact absurd ((hnone hfold).2 _ hroot hslash) (show "/".toList ≠ [] by decide)
  | some b =>
    obtain ⟨hpre, hmem, -, hlongest⟩ := hsome b hfold
    rcases hmem with hmem | ⟨mp, hmp, rfl⟩
    · cases hmem
    · refine ⟨mp.1, mp.2, ⟨hmp, hpre, hlongest⟩, ?_⟩
      rw [resolveFs, hfold]
      rfl

/-! ## Resolution by components -/

/-- A mounted path ends where a component of the path ends. -/
def EndsComponent (m path : List Char) : Prop := path = m ∨ m ++ ['/'] <+: path ∨ m = ['/']

/-- The mount point that the path belongs to by components. -/
structure Owner (table : MountTable) (path m : String) (fs : Nat) : Prop where
  mem : (m, fs) ∈ table
  ends : EndsComponent m.toList path.toList
  longest : ∀ mp ∈ table, EndsComponent mp.1.toList path.toList →
    mp.1.toList.length ≤ m.toList.length

/-- `resolve_fs` gives the file system of the owner of a path, and what is left
    of the path below it. -/
def ComponentWise (table : MountTable) (path : String) : Prop :=
  ∃ m fs r, resolveFs table path = some (fs, r) ∧ Owner table path m fs ∧
    components path.toList = components (m.toList ++ '/' :: r.toList)

/-- A mounted path that ends inside a component of the path is not in the way: a longer
    one ends with a component, or the owner is the same file system, mounted at the same
    path but for slashes at the end. -/
def NotInside (table : MountTable) (path : String) : Prop :=
  ∀ mp ∈ table, mp.1.toList <+: path.toList → ¬ EndsComponent mp.1.toList path.toList →
    (∃ mp' ∈ table, EndsComponent mp'.1.toList path.toList ∧
      mp.1.toList.length < mp'.1.toList.length) ∨
    ∃ m k, Owner table path m mp.2 ∧ mp.1.toList = m.toList ++ replicate k '/'

theorem EndsComponent.isPrefix (h : EndsComponent m path)
    (habs : path.head? = some '/') : m <+: path := by
  rcases h with rfl | h | rfl
  · exact prefix_rfl
  · exact (prefix_append m ['/']).trans h
  cases path with
  | nil => cases habs
  | cons c cs =>
    cases habs
    exact ⟨cs, rfl⟩

theorem components_of_endsComponent (h : EndsComponent m path) (habs : path.head? = some '/') :
    components path = components (m ++ '/' :: stripSlash (path.drop m.length)) := by
  rw [components_append_slash, components_stripSlash]
  rcases h with rfl | ⟨rest, rfl⟩ | rfl
  · rw [drop_length, components_nil, append_nil]
  · rw [append_assoc, drop_left, singleton_append, components_append_slash, components_slash]
  cases path with
  | nil => cases habs
  | cons c cs =>
    cases habs
    rfl

/-- If it is so for a shorter mounted path, the two differ by slashes. -/
theorem eq_append_slashes (hm : m <+: path) (hm' : m' <+: m)
    (hcomp : components path = components (m' ++ '/' :: stripSlash (path.drop m.length))) :
    ∃ k, m = m' ++ replicate k '/' := by
  obtain ⟨e, rfl⟩ := hm'
  obtain ⟨rest, rfl⟩ := hm
  rw [drop_left, components_append_slash, components_stripSlash] at hcomp
  have hchars := congrArg flatten hcomp
  rw [flatten_append, flatten_components, flatten_components, flatten_components,
    filter_append, filter_append, append_assoc, append_cancel_left_eq,
    append_left_eq_self, filter_eq_nil_iff] at hchars
  refine ⟨e.length, congrArg _ (eq_replicate_of_mem fun c hc => ?_)⟩
  simpa using hchars c hc

/-- A prefix of the path between a mounted path and the same with slashes is one
    that ends with a component. -/
theorem endsComponent_of_slashes (hlong : m ++ replicate k '/' <+: path) (hn : n <+: path)
    (hle : m.length ≤ n.length) (hlt : n.length < m.length + k) : EndsComponent n path := by
  have hmn : m <+: n := prefix_of_prefix_length_le ((prefix_append _ _).trans hlong) hn hle
  have hnm : n <+: m ++ replicate k '/' := prefix_of_prefix_length_le hn hlong (by simp; omega)
  obtain ⟨a, rfl⟩ := hmn
  obtain ⟨b, hb⟩ := hnm
  rw [append_assoc, append_cancel_left_eq] at hb
  have hlen : a.length + b.length = k := by
    rw [← length_append, hb, length_replicate]
  rw [length_append] at hlt
  cases b with
  | nil => simp at hlen; omega
  | cons c b =>
    have hc : c = '/' := eq_of_mem_replicate (hb ▸ mem_append_right a mem_cons_self)
    refine .inr (.inl (List.IsPrefix.trans ⟨b, ?_⟩ hlong))
    rw [← hb, hc]
    simp

section Resolution

variable {path m : String}

theorem LongestPrefix.owner (h : LongestPrefix table path m fs)
    (habs : path.toList.head? = some '/') (hends : EndsComponent m.toList path.toList) :
    Owner table path m fs :=
  ⟨h.mem, hends, fun mp hmp hends' => h.longest mp hmp (hends'.isPrefix habs)⟩

theorem componentWise_of_notInside (h : LongestPrefix table path m fs)
    (habs : path.toList.head? = some '/')
    (hres : resolveFs table path =
      some (fs, String.ofList (stripSlash (path.toList.drop m.toList.length))))
    (hclear : NotInside table path) : ComponentWise table path := by
  by_cases hends : EndsComponent m.toList path.toList
  · refine ⟨m, fs, _, hres, h.owner habs hends, ?_⟩
    rw [String.toList_ofList]
    exact components_of_endsComponent hends habs
  rcases hclear (m, fs) h.mem h.isPrefix hends with ⟨mp, hmp, hends', hlt⟩ | ⟨m', k, howner, hm⟩
  · exact absurd (h.longest mp hmp (hends'.isPrefix habs)) (Nat.not_le.mpr hlt)
  refine ⟨m', fs, _, hres, howner, ?_⟩
  -- the slashes between the two paths count for nothing
  obtain ⟨rest, hpath⟩ := h.isPrefix
  have hslashes : ∀ n (s : List Char), components (replicate n '/' ++ s) = components s := by
    intro n s
    induction n with
    | zero => rfl
    | succ n ih => rw [replicate_succ, cons_append, components_slash, ih]
  rw [String.toList_ofList, ← hpath, drop_left, components_append_slash,
    components_stripSlash, hm, append_assoc]
  cases k with
  | zero =>
    rw [hm] at hends
    exact absurd (by simpa using howner.ends) hends
  | succ k =>
    rw [replicate_succ, cons_append, components_append_slash, hslashes]

theorem notInside_of_componentWise (hvalid : Valid table) (h : LongestPrefix table path m fs)
    (habs : path.toList.head? = some '/')
    (hres : resolveFs table path =
      some (fs, String.ofList (stripSlash (path.toList.drop m.toList.length))))
    (hcomp : ComponentWise table path) : NotInside table path := by
  intro mp hmp hpre hends
  by_cases hm : EndsComponent m.toList path.toList
  · -- the longest prefix ends with a component, and this one does not
    refine .inl ⟨(m, fs), h.mem, hm, lt_of_le_of_ne (h.longest mp hmp hpre) fun heq => hends ?_⟩
    rwa [(prefix_of_prefix_length_le hpre h.isPrefix heq.le).eq_of_length heq]
  obtain ⟨m', fs', r, hres', howner, hcomp⟩ := hcomp
  obtain ⟨rfl, rfl⟩ := Prod.mk.inj (some.inj (hres'.symm.trans hres))
  rw [String.toList_ofList] at hcomp
  have hm' := howner.ends.isPrefix habs
  have hle : m'.toList.length ≤ m.toList.length := h.longest _ howner.mem hm'
  have hmm := prefix_of_prefix_length_le hm' h.isPrefix hle
  obtain ⟨k, hk⟩ := eq_append_slashes h.isPrefix hmm hcomp
  rcases Nat.lt_or_ge mp.1.toList.length m'.toList.length with hlt | hge
  · exact .inl ⟨_, howner.mem, howner.ends, hlt⟩
  by_cases heq : mp.1.toList.length = m.toList.length
  · have hsame : mp.1 = m := String.toList_injective
      ((prefix_of_prefix_length_le hpre h.isPrefix heq.le).eq_of_length heq)
    have hfs : mp.2 = fs' := by
      have hmem : (m, mp.2) ∈ table := hsame ▸ hmp
      exact congrArg snd (inj_on_of_nodup_map hvalid.distinct hmem h.mem rfl)
    exact .inr ⟨m', k, hfs ▸ howner, hsame ▸ hk⟩
  · refine absurd (endsComponent_of_slashes (hk ▸ h.isPrefix) hpre hge ?_) hends
    have hlen := congrArg length hk
    rw [length_append, length_replicate] at hlen
    have := h.longest mp hmp hpre
    omega

end Resolution

/-- On every mount table the two calls build with the root mounted, `resolve_fs` goes by
    components on exactly the absolute paths that no mounted path ends inside a
    component of. -/
theorem componentWise_iff_notInside {tr : List (Transition MountTable Op (Except Unit Unit))}
    {table : MountTable} {path : String} {root : Nat} (hrun : Run step [] tr table)
    (hroot : ("/", root) ∈ table) (habs : path.toList.head? = some '/') :
    ComponentWise table path ↔ NotInside table path := by
  obtain ⟨m, fs, hlongest, hres⟩ := exists_longestPrefix hroot habs
  exact ⟨notInside_of_componentWise (valid_of_run hrun) hlongest habs hres,
    componentWise_of_notInside hlongest habs hres⟩

/-- The root and a disk are mounted. -/
def rootAndDisk : List Op := [.mount "/" 0, .mount "/disk" 1]

theorem run_rootAndDisk : ∃ tr, Run step [] tr [("/", 0), ("/disk", 1)] ∧
    tr.map Transition.op = rootAndDisk := by
  have hfirst : step [] (.mount "/" 0) = some (.ok (), [("/", 0)]) := by decide +kernel
  have hsecond : step [("/", 0)] (.mount "/disk" 1) =
      some (.ok (), [("/", 0), ("/disk", 1)]) := by
    decide +kernel
  exact ⟨_, .snoc (.snoc .nil hfirst) hsecond, rfl⟩

/-- "/diskette" is taken to be in the file system mounted at "/disk". -/
theorem diskette_resolves_into_disk : ∃ tr table, Run step [] tr table ∧ ("/", 0) ∈ table ∧
    resolveFs table "/diskette" = some (1, "ette") ∧ ¬ ComponentWise table "/diskette" := by
  obtain ⟨tr, hrun, -⟩ := run_rootAndDisk
  have hres : resolveFs [("/", 0), ("/disk", 1)] "/diskette" = some (1, "ette") := by
    decide +kernel
  refine ⟨tr, _, hrun, mem_cons_self, hres, ?_⟩
  rintro ⟨m, fs, r, hres', howner, hcomp⟩
  obtain ⟨rfl, rfl⟩ := Prod.mk.inj (some.inj (hres.symm.trans hres'))
  have hm : m = "/disk" := by
    have hmem := howner.mem
    simp only [mem_cons, mk.injEq, not_mem_nil, or_false] at hmem
    rcases hmem with ⟨-, h⟩ | ⟨h, -⟩
    · cases h
    · exact h
  subst hm
  exact absurd hcomp (by decide +kernel)

theorem componentWise_iff_notInside_file :
    ComponentWise [("/", 0), ("/disk", 1)] "/disk/file" ↔
      NotInside [("/", 0), ("/disk", 1)] "/disk/file" := by
  obtain ⟨tr, hrun, -⟩ := run_rootAndDisk
  exact componentWise_iff_notInside hrun mem_cons_self (by decide +kernel)

end OpenOS.Fs.Mount
