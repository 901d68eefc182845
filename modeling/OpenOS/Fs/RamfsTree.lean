/-
  The shape of the in-memory file system: a table of slots, a root directory
  among them, and in each directory a list of its children.

  The calls keep it a tree as long as new entries have one-component names and
  a directory to be listed in, no directory with children is unlinked, and the
  two legacy calls, which know nothing of directories, change nothing.  `open`
  looks a whole path up as the name of a slot: it follows paths in exactly those
  trees in which every slot is a child of the root.
-/

import Mathlib.Data.List.Nodup
import Mathlib.Logic.Relation
import Mathlib.Tactic.MkIffOfInductiveProp
import OpenOS.Base.Run
import OpenOS.Fs.Contents

namespace OpenOS.Fs.Ramfs

open Function Base List Option Ramfs Prod
open Ramfs (new)

/-! ## Slots -/

variable {fs : Ramfs}

/-- The name a path opens: without the slashes at its start. -/
def key (path : String) : String := String.ofList (path.toList.dropWhile (· = '/'))

/-- The slot is in use under this name. -/
def Has (fs : Ramfs) (i : Fin 32) (name : String) : Prop :=
  (fs.files i).inUse = true ∧ nameOf (fs.files i).name = some name

/-- A directory by its inode number, for `unlink`. -/
def dirSlot (fs : Ramfs) (dir : Word) : Option (Fin 32) :=
  if dir = rootIno then fs.getRootDirIdx else fs.dirOf dir

theorem findFile_eq_none (h : fs.findFile name = none) (i : Fin 32) : ¬ fs.Has i name := by
  have hno := find?_eq_none.mp h i (mem_finRange i)
  intro hhas
  exact hno (by simpa [Has] using hhas)

theorem findFile_eq_none_of (h : ∀ i, ¬ fs.Has i name) : fs.findFile name = none := by
  apply find?_eq_none.mpr
  intro i _ hi
  exact h i (by simpa [Has] using hi)

/-- The slots of two states agree on what names and directories are read off. -/
structure SameSlots (fs fs' : Ramfs) : Prop where
  inUse : ∀ i, (fs'.files i).inUse = (fs.files i).inUse
  name : ∀ i, (fs'.files i).name = (fs.files i).name
  isDir : ∀ i, (fs'.files i).isDir = (fs.files i).isDir
  children : ∀ i, (fs'.files i).children = (fs.files i).children

theorem sameSlots_setData (fs : Ramfs) (i : Fin 32) (data : List Byte) :
    SameSlots fs (fs.setFile i { fs.files i with data := data }) := by
  have hj : ∀ j, (fs.setFile i { fs.files i with data := data }).files j =
      { fs.files j with data := if j = i then data else (fs.files j).data } := by
    intro j
    by_cases heq : j = i
    · rw [heq, files_setFile_self, if_pos rfl]
    · rw [files_setFile_of_ne heq, if_neg heq]
  constructor <;> intro j <;> rw [hj]

/-! ### New entries -/

/-- The slot of a new file, before the root directory lists it. -/
def newFile (name : String) : FileEntry := { name := utf8Bytes name, inUse := true }

theorem nameOf_utf8Bytes (h : (0 : Byte) ∉ utf8Bytes name) :
    nameOf (utf8Bytes name) = some name := by
  have hall : ∀ b ∈ utf8Bytes name, decide (b ≠ 0) = true := by
    intro b hb
    rw [decide_eq_true_eq]
    rintro rfl
    exact h hb
  have htake : (utf8Bytes name ++ []).takeWhile (fun b => decide (b ≠ 0)) =
      utf8Bytes name ++ [].takeWhile fun b => decide (b ≠ 0) :=
    takeWhile_append_of_pos hall
  rw [append_nil, takeWhile_nil, append_nil] at htake
  rw [nameOf, htake, fromUtf8_utf8Bytes]

/-- The root directory can be unlinked in once it has an entry. -/
def opened (fs : Ramfs) (dir : Word) : Prop := dir = rootIno → fs.getRootDirIdx ≠ none

/-- The entry of a new root directory. -/
def newRoot : FileEntry := { name := utf8Bytes ".", inUse := true, isDir := true }

theorem nameOf_newRoot : nameOf newRoot.name = some "." := nameOf_utf8Bytes (by decide +kernel)

theorem unlink_eq (hopened : fs.opened dir) : fs.unlink dir name =
      match fs.dirSlot dir with
      | none => (.error .notFound, fs)
      | some d => fs.unlinkChild d name := by
  rw [unlink, dirSlot]
  by_cases hroot : dir = rootIno
  · rw [if_pos hroot, if_pos hroot]
    cases hidx : fs.getRootDirIdx with
    | none => exact absurd hidx (hopened hroot)
    | some d => rfl
  · cases fs.dirOf dir <;> rw [if_neg hroot, if_neg hroot]

/-! ## Trees and paths -/

/-- A slot is listed in a directory. -/
def ChildOf (fs : Ramfs) (i d : Fin 32) : Prop :=
  (fs.files d).inUse = true ∧ (fs.files d).isDir = true ∧ ∃ c ∈ (fs.files d).children, c.2 = i

/-- The slots in use are a tree below the root directory. -/
structure IsTree (fs : Ramfs) : Prop where
  oneParent : ∀ i, (fs.files i).inUse = true → fs.getRootDirIdx ≠ some i → ∃! d, fs.ChildOf i d
  inUse : ∀ i d, fs.ChildOf i d → (fs.files i).inUse = true
  siblings : ∀ d, (fs.files d).inUse = true → (fs.files d).isDir = true →
    ((fs.files d).children.map fun c => nameOf c.1).Nodup
  acyclic : ∀ i, ¬ Relation.TransGen fs.ChildOf i i

/-- Follow names from a directory. -/
def walk (fs : Ramfs) : Fin 32 → List String → Option (Fin 32)
  | d, [] => some d
  | d, name :: names => (fs.findChild d name).bind fun i => fs.walk i names

/-- A name that can stand between slashes. -/
def IsComponent (name : String) : Prop := name ≠ "" ∧ '/' ∉ name.toList

/-- The path `d1/../dn/f`. -/
def pathOf (dirs : List String) (name : String) : String :=
  String.ofList (intercalate ['/'] ((dirs ++ [name]).map String.toList))

/-- `open` of a path gives the entry at its end, and no other of its name. -/
structure OpensPaths (fs : Ramfs) : Prop where
  found : ∀ root dirs name d i flags, fs.getRootDirIdx = some root →
    (∀ n ∈ dirs, IsComponent n) → IsComponent name →
    fs.walk root dirs = some d → fs.findChild d name = some i →
    ∃ fs', fs.openPath (pathOf dirs name) flags = some (.ok (inoOf i), fs')
  only : ∀ dirs name d i flags fs', (∀ n ∈ dirs, IsComponent n) → IsComponent name →
    fs.openPath (pathOf dirs name) flags = some (.ok (inoOf i), fs') →
    fs.ChildOf i d → nameOf (fs.files i).name = some name →
    ∃ root, fs.getRootDirIdx = some root ∧ fs.walk root dirs = some d

/-- Every slot in use but the root is in the root directory. -/
def RootOnly (fs : Ramfs) : Prop := ∀ i d, fs.ChildOf i d → fs.getRootDirIdx = some d

/-! ## The component -/

inductive TreeOp
  | openPath (path : String) (flags : OpenFlags)
  | create (parent : Word) (name : String)
  | mkdir (parent : Word) (name : String)
  | symlink (parent : Word) (name target : String)
  | unlink (parent : Word) (name : String)
  | rmdir (parent : Word) (name : String)
  | createFile (name : String) (data : List Byte)
  | deleteFile (name : String)
  deriving DecidableEq

inductive TreeRes
  | ino (r : Except FsError Word)
  | unit (r : Except FsError Unit)

def treeStep : StepFn Ramfs TreeOp TreeRes
  | fs, .openPath path flags => (fs.openPath path flags).map fun q => (.ino q.1, q.2)
  | fs, .create parent name => (fs.create parent name).map fun q => (.ino q.1, q.2)
  | fs, .mkdir parent name => (fs.mkdir parent name).map fun q => (.ino q.1, q.2)
  | fs, .symlink parent name target => (fs.symlink parent name target).map fun q => (.ino q.1, q.2)
  | fs, .unlink parent name =>
    let q := fs.unlink parent name
    some (.unit q.1, q.2)
  | fs, .rmdir parent name =>
    let q := fs.rmdir parent name
    some (.unit q.1, q.2)
  | fs, .createFile name data =>
    let q := fs.createFile name data
    some (.unit q.1, q.2)
  | fs, .deleteFile name =>
    let q := fs.deleteFile name
    some (.unit q.1, q.2)

/-- A name for a new entry: one component, without a zero byte, and not the name
    of the root entry. -/
def GoodName (name : String) : Prop := IsComponent name ∧ (0 : Byte) ∉ utf8Bytes name ∧ name ≠ "."

/-- The condition on a call. -/
def KeepsTree (fs : Ramfs) : TreeOp → Prop
  | .openPath path flags => key path ≠ "" → fs.findFile (key path) = none →
    flags.contains OpenFlags.CREATE = true → GoodName (key path) ∧ fs.getRootDirIdx ≠ none
  | .create _ name | .mkdir _ name | .symlink _ name _ => GoodName name
  | .unlink parent name => ∀ d i, fs.dirSlot parent = some d → fs.findChild d name = some i →
    (fs.files i).children = []
  | .rmdir _ _ => True
  | .createFile name data => nameRefused name = true ∨ maxFileSize < data.length ∨
    fs.findFile name ≠ none ∨ fs.findFreeSlot = none
  | .deleteFile name => fs.findFile name = none

/-! ## The invariant -/

/-- A table with root `r` that is a tree, with ranks that grow downwards. -/
@[mk_iff]
structure Rooted (fs : Ramfs) (r : Fin 32) : Prop where
  root : fs.Has r "."
  rootDir : (fs.files r).isDir = true
  names : ∀ i, (fs.files i).inUse = true → i ≠ r →
    ∃ n, nameOf (fs.files i).name = some n ∧ IsComponent n ∧ n ≠ "."
  listed : ∀ d c, (fs.files d).inUse = true → c ∈ (fs.files d).children →
    (fs.files d).isDir = true ∧ (fs.files c.2).inUse = true ∧ c.2 ≠ r ∧ c.1 = (fs.files c.2).name
  parent : ∀ i, (fs.files i).inUse = true → i ≠ r → ∃ d, fs.ChildOf i d
  unique : ∀ i d d', fs.ChildOf i d → fs.ChildOf i d' → d = d'
  siblings : ∀ d, (fs.files d).inUse = true → ((fs.files d).children.map fun c => nameOf c.1).Nodup
  ranked : ∃ rank : Fin 32 → Nat, ∀ i d, fs.ChildOf i d → rank d < rank i

/-- No slot is in use, or the slots in use are a tree. -/
def Shaped (fs : Ramfs) : Prop := (∀ i, (fs.files i).inUse = false) ∨ ∃ r, fs.Rooted r

section Rooted

theorem ne_of_inUse (hi : (fs.files i).inUse = true) (hj : (fs.files j).inUse = false) : i ≠ j := by
  rintro rfl
  rw [hj] at hi
  cases hi

theorem Rooted.getRootDirIdx (h : fs.Rooted r) : fs.getRootDirIdx = some r := by
  cases hidx : fs.getRootDirIdx with
  | none =>
    have hno := find?_eq_none.mp hidx r (mem_finRange r)
    simp [h.root.1, h.root.2, h.rootDir] at hno
  | some i =>
    have hi := find?_some hidx
    simp only [Bool.and_eq_true, decide_eq_true_eq] at hi
    by_contra hne
    have hir : i ≠ r := fun heq => hne (by rw [heq])
    obtain ⟨n, hn, -, hdot⟩ := h.names i hi.1.1 hir
    exact hdot (some.inj (hn.symm.trans hi.2))

theorem getRootDirIdx_of_unused (h : ∀ i, (fs.files i).inUse = false) :
    fs.getRootDirIdx = none := by
  apply find?_eq_none.mpr
  intro i _
  simp [h i]

theorem findFile_of_unused (h : ∀ i, (fs.files i).inUse = false) (name : String) :
    fs.findFile name = none :=
  findFile_eq_none_of fun i hi => by
    rw [Has, h i] at hi
    cases hi.1

theorem Rooted.inUse_of_childOf (h : fs.Rooted r) (hc : fs.ChildOf i d) :
    (fs.files i).inUse = true ∧ i ≠ r := by
  obtain ⟨huse, -, c, hmem, rfl⟩ := hc
  exact ⟨(h.listed d c huse hmem).2.1, (h.listed d c huse hmem).2.2.1⟩

/-- The lookup of a name in a directory. -/
theorem Rooted.findChild_eq_some (h : fs.Rooted r) (huse : (fs.files d).inUse = true) :
    fs.findChild d name = some i ↔ fs.ChildOf i d ∧ nameOf (fs.files i).name = some name := by
  constructor
  · intro hfind
    unfold findChild at hfind
    split at hfind
    · rename_i hdir
      obtain ⟨c, hc, rfl⟩ := map_eq_some_iff.mp hfind
      have hmem := mem_of_find?_eq_some hc
      have hname := find?_some hc
      rw [decide_eq_true_eq] at hname
      obtain ⟨-, -, -, heq⟩ := h.listed d c huse hmem
      exact ⟨⟨huse, hdir, c, hmem, rfl⟩, heq ▸ hname⟩
    · cases hfind
  · rintro ⟨⟨-, hdir, c, hmem, rfl⟩, hname⟩
    obtain ⟨-, -, -, heq⟩ := h.listed d c huse hmem
    rw [← heq] at hname
    rw [findChild, if_pos hdir]
    cases hfind : (fs.files d).children.find? fun c => nameOf c.1 = some name with
    | none =>
      have hno := find?_eq_none.mp hfind c hmem
      exact absurd (decide_eq_true hname) hno
    | some c' =>
      have hmem' := mem_of_find?_eq_some hfind
      have hname' := find?_some hfind
      rw [decide_eq_true_eq] at hname'
      -- of siblings only one has the name
      have hsame := inj_on_of_nodup_map (h.siblings d huse) hmem' hmem
        (hname'.trans hname.symm)
      rw [hsame]
      rfl

theorem Rooted.isTree (h : fs.Rooted r) : fs.IsTree where
  oneParent i huse hroot := by
    rw [h.getRootDirIdx] at hroot
    obtain ⟨d, hd⟩ := h.parent i huse fun heq => hroot (by rw [heq])
    exact ⟨d, hd, fun d' hd' => h.unique i d' d hd' hd⟩
  inUse _ _ hc := (h.inUse_of_childOf hc).1
  siblings d huse _ := h.siblings d huse
  acyclic i hcycle := by
    obtain ⟨rank, hrank⟩ := h.ranked
    have hlt : ∀ a b, Relation.TransGen fs.ChildOf a b → rank b < rank a := by
      intro a b hab
      induction hab with
      | single hstep => exact hrank _ _ hstep
      | tail _ hstep ih => exact (hrank _ _ hstep).trans ih
    exact absurd (hlt i i hcycle) (Nat.lt_irrefl _)

theorem not_childOf_of_unused (h : ∀ i, (fs.files i).inUse = false) (i d : Fin 32) :
    ¬ fs.ChildOf i d := by
  rintro ⟨huse, -⟩
  rw [h d] at huse
  cases huse

theorem isTree_of_unused (h : ∀ i, (fs.files i).inUse = false) : fs.IsTree where
  oneParent i huse _ := by
    rw [h i] at huse
    cases huse
  inUse i d hc := absurd hc (not_childOf_of_unused h i d)
  siblings d huse _ := by
    rw [h d] at huse
    cases huse
  acyclic i hcycle := by
    obtain ⟨d, hstep, -⟩ := Relation.TransGen.head'_iff.mp hcycle
    exact not_childOf_of_unused h i d hstep

theorem Shaped.isTree (h : fs.Shaped) : fs.IsTree := by
  rcases h with hunused | ⟨r, hr⟩
  · exact isTree_of_unused hunused
  · exact hr.isTree

/-! ## Changes that keep the shape -/

theorem Shaped.of_sameSlots (h : fs.Shaped) (hsame : SameSlots fs fs') : fs'.Shaped := by
  simpa only [Shaped, rooted_iff, Has, ChildOf, hsame.inUse, hsame.name, hsame.isDir,
    hsame.children] using h

/-- A free slot has become an entry of a directory. -/
structure Adds (fs : Ramfs) (d slot : Fin 32) (f : FileEntry) (fs' : Ramfs) : Prop where
  entry : fs'.files slot = f
  dir : fs'.files d =
    { fs.files d with children := (fs.files d).children ++ [(f.name, slot)] }
  other : ∀ i, i ≠ slot → i ≠ d → fs'.files i = fs.files i

theorem Adds.eq_of_ne (h : fs.Adds d slot f fs') (hi : i ≠ slot) :
    (fs'.files i).inUse = (fs.files i).inUse ∧ (fs'.files i).name = (fs.files i).name ∧
      (fs'.files i).isDir = (fs.files i).isDir := by
  by_cases hd : i = d
  · subst hd
    rw [h.dir]
    exact ⟨rfl, rfl, rfl⟩
  · rw [h.other i hi hd]
    exact ⟨rfl, rfl, rfl⟩

theorem Adds.mem_children (h : fs.Adds d slot f fs') (hchildren : f.children = [])
    (hc : c ∈ (fs'.files e).children) :
    e ≠ slot ∧ (c ∈ (fs.files e).children ∨ e = d ∧ c = (f.name, slot)) := by
  have he : e ≠ slot := by
    rintro rfl
    rw [h.entry, hchildren] at hc
    cases hc
  refine ⟨he, ?_⟩
  by_cases hd : e = d
  · subst hd
    rw [h.dir] at hc
    rcases mem_append.mp hc with hc | hc
    · exact .inl hc
    · exact .inr ⟨rfl, mem_singleton.mp hc⟩
  · rw [h.other e he hd] at hc
    exact .inl hc

theorem Adds.childOf_iff (h : fs.Adds d slot f fs') (hchildren : f.children = [])
    (hfree : (fs.files slot).inUse = false) (hd : (fs.files d).inUse = true)
    (hdir : (fs.files d).isDir = true) : fs'.ChildOf i e ↔ fs.ChildOf i e ∨ i = slot ∧ e = d := by
  constructor
  · rintro ⟨huse, hdir', c, hc, rfl⟩
    obtain ⟨he, hold | ⟨rfl, rfl⟩⟩ := h.mem_children hchildren hc
    · obtain ⟨huse', -, hdir''⟩ := h.eq_of_ne he
      exact .inl ⟨huse'.symm.trans huse, hdir''.symm.trans hdir', c, hold, rfl⟩
    · exact .inr ⟨rfl, rfl⟩
  · rintro (⟨huse, hdir', c, hc, rfl⟩ | ⟨rfl, rfl⟩)
    · have he := ne_of_inUse huse hfree
      obtain ⟨huse', -, hdir''⟩ := h.eq_of_ne he
      refine ⟨huse'.trans huse, hdir''.trans hdir', c, ?_, rfl⟩
      by_cases hed : e = d
      · subst hed
        rw [h.dir]
        exact mem_append_left _ hc
      · rwa [h.other e he hed]
    · rw [ChildOf, h.dir]
      exact ⟨hd, hdir, _, mem_append_right _ (mem_singleton.mpr rfl), rfl⟩

/-- A new entry with a good name, in a directory that does not have the name. -/
theorem Rooted.adds (hr : fs.Rooted r) (h : fs.Adds d slot f fs')
    (hfree : (fs.files slot).inUse = false) (hd : (fs.files d).inUse = true)
    (hdir : (fs.files d).isDir = true) (hinUse : f.inUse = true) (hchildren : f.children = [])
    (hname : nameOf f.name = some name) (hgood : IsComponent name) (hdot : name ≠ ".")
    (hnew : fs.findChild d name = none) : fs'.Rooted r := by
  have hchild := fun {i e} => h.childOf_iff (i := i) (e := e) hchildren hfree hd hdir
  have hused : ∀ i, (fs.files i).inUse = true → i ≠ slot := fun i huse => ne_of_inUse huse hfree
  have hrslot := hused r hr.root.1
  refine ⟨?_, ?_, ?_, ?_, ?_, ?_, ?_, ?_⟩
  · rw [Has, (h.eq_of_ne hrslot).1, (h.eq_of_ne hrslot).2.1]
    exact hr.root
  · rw [(h.eq_of_ne hrslot).2.2]
    exact hr.rootDir
  · intro i huse hne
    by_cases hi : i = slot
    · subst hi
      rw [h.entry]
      exact ⟨name, hname, hgood, hdot⟩
    · rw [(h.eq_of_ne hi).1] at huse
      rw [(h.eq_of_ne hi).2.1]
      exact hr.names i huse hne
  · intro e c huse hc
    obtain ⟨he, hold | ⟨rfl, rfl⟩⟩ := h.mem_children hchildren hc
    · rw [(h.eq_of_ne he).1] at huse
      obtain ⟨h₁, h₂, h₃, h₄⟩ := hr.listed e c huse hold
      have hc2 := hused c.2 h₂
      rw [(h.eq_of_ne he).2.2, (h.eq_of_ne hc2).1, (h.eq_of_ne hc2).2.1]
      exact ⟨h₁, h₂, h₃, h₄⟩
    rw [(h.eq_of_ne he).2.2]
    refine ⟨hdir, ?_, Ne.symm hrslot, ?_⟩
    · rwa [h.entry]
    · rw [h.entry]
  · intro i huse hne
    by_cases hi : i = slot
    · exact ⟨d, hchild.mpr (.inr ⟨hi, rfl⟩)⟩
    · rw [(h.eq_of_ne hi).1] at huse
      obtain ⟨e, he⟩ := hr.parent i huse hne
      exact ⟨e, hchild.mpr (.inl he)⟩
  · intro i e e' he he'
    rcases hchild.mp he with he | ⟨rfl, rfl⟩
    · rcases hchild.mp he' with he' | ⟨rfl, -⟩
      · exact hr.unique i e e' he he'
      · exact absurd rfl (hused i (hr.inUse_of_childOf he).1)
    · rcases hchild.mp he' with he' | ⟨-, rfl⟩
      · exact absurd rfl (hused i (hr.inUse_of_childOf he').1)
      · rfl
  · intro e huse
    by_cases he : e = slot
    · subst he
      rw [h.entry, hchildren]
      exact nodup_nil
    rw [(h.eq_of_ne he).1] at huse
    by_cases hed : e = d
    · subst hed
      rw [h.dir, map_append, nodup_append]
      refine ⟨hr.siblings e huse, nodup_singleton _, ?_⟩
      intro a ha b hb hab
      rw [map_singleton, mem_singleton] at hb
      obtain ⟨c, hc, rfl⟩ := mem_map.mp ha
      obtain ⟨-, -, -, heq⟩ := hr.listed e c huse hc
      have hthere : fs.findChild e name = some c.2 := by
        rw [hr.findChild_eq_some huse, ← heq, ← hname]
        exact ⟨⟨huse, hdir, c, hc, rfl⟩, hab.trans hb⟩
      cases hnew.symm.trans hthere
    · rw [h.other e he hed]
      exact hr.siblings e huse
  · obtain ⟨rank, hrank⟩ := hr.ranked
    -- the new entry is one below its directory
    refine ⟨update rank slot (rank d + 1), fun i e hc => ?_⟩
    rcases hchild.mp hc with hc | ⟨rfl, rfl⟩
    · rw [update_of_ne (hused e hc.1), update_of_ne (hused i (hr.inUse_of_childOf hc).1)]
      exact hrank i e hc
    · rw [update_self, update_of_ne (hused e hd)]
      exact Nat.lt_succ_self _

/-- The first entry: a new root directory. -/
theorem rooted_newRoot (hunused : ∀ i, (fs.files i).inUse = false) (slot : Fin 32) :
    (fs.setFile slot newRoot).Rooted slot := by
  have huse : ∀ i, ((fs.setFile slot newRoot).files i).inUse = true → i = slot := by
    intro i hi
    by_contra hne
    rw [files_setFile_of_ne hne, hunused i] at hi
    cases hi
  have hself : (fs.setFile slot newRoot).files slot = newRoot := files_setFile_self fs slot newRoot
  have hnone : ∀ i d, ¬ (fs.setFile slot newRoot).ChildOf i d := by
    rintro i d ⟨hd, -, c, hc, -⟩
    rw [huse d hd, hself] at hc
    cases hc
  refine ⟨⟨?_, ?_⟩, ?_, ?_, ?_, ?_, ?_, ?_, ?_⟩
  · rw [hself]
    rfl
  · rw [hself]
    exact nameOf_newRoot
  · rw [hself]
    rfl
  · intro i hi hne
    exact absurd (huse i hi) hne
  · intro d c hd hc
    rw [huse d hd, hself] at hc
    cases hc
  · intro i hi hne
    exact absurd (huse i hi) hne
  · intro i d d' hd
    exact absurd hd (hnone i d)
  · intro d hd
    rw [huse d hd, hself]
    exact nodup_nil
  · exact ⟨fun _ => 0, fun i d hc => absurd hc (hnone i d)⟩

/-! ## Removing an entry -/

/-- The table after an entry is dropped from a directory and cleared. -/
def dropEntry (fs : Ramfs) (d i : Fin 32) : Ramfs :=
  (fs.setFile d { fs.files d with
    children := (fs.files d).children.filter fun c => c.2 ≠ i }).clearSlot i

theorem dropEntry_self (fs : Ramfs) (d i : Fin 32) : (fs.dropEntry d i).files i = {} :=
  files_setFile_self _ _ _

theorem ne_dropped (huse : ((fs.dropEntry d i).files j).inUse = true) : j ≠ i :=
  ne_of_inUse huse (by rw [dropEntry_self])

theorem dropEntry_dir (fs : Ramfs) (hne : d ≠ i) : (fs.dropEntry d i).files d =
    { fs.files d with children := (fs.files d).children.filter fun c => c.2 ≠ i } := by
  rw [dropEntry, clearSlot, files_setFile_of_ne hne, files_setFile_self]

theorem dropEntry_of_ne (fs : Ramfs) (hi : j ≠ i) (hd : j ≠ d) :
    (fs.dropEntry d i).files j = fs.files j := by
  rw [dropEntry, clearSlot, files_setFile_of_ne hi, files_setFile_of_ne hd]

/-- Every slot but the dropped one stays, with fewer children. -/
theorem dropEntry_spec (fs : Ramfs) (hi : j ≠ i) :
    ((fs.dropEntry d i).files j).inUse = (fs.files j).inUse ∧
    ((fs.dropEntry d i).files j).name = (fs.files j).name ∧
    ((fs.dropEntry d i).files j).isDir = (fs.files j).isDir ∧
    ((fs.dropEntry d i).files j).children.Sublist (fs.files j).children := by
  by_cases hd : j = d
  · subst hd
    rw [fs.dropEntry_dir hi]
    exact ⟨rfl, rfl, rfl, filter_sublist⟩
  · rw [fs.dropEntry_of_ne hi hd]
    exact ⟨rfl, rfl, rfl, List.Sublist.refl _⟩

section

variable (hr : fs.Rooted r) (hc : fs.ChildOf i d) (hchildren : (fs.files i).children = [])
include hr hc hchildren

theorem Rooted.childOf_dropEntry_iff : (fs.dropEntry d i).ChildOf j e ↔ fs.ChildOf j e ∧ j ≠ i := by
  constructor
  · rintro ⟨huse, hdir, c, hmem, rfl⟩
    have he := ne_dropped huse
    obtain ⟨huse', -, hdir', hsub⟩ := fs.dropEntry_spec he
    have hold : fs.ChildOf c.2 e :=
      ⟨huse'.symm.trans huse, hdir'.symm.trans hdir, c, hsub.subset hmem, rfl⟩
    refine ⟨hold, fun heq => ?_⟩
    -- the list it was in does not have it any more
    obtain rfl : e = d := hr.unique i e d (heq ▸ hold) hc
    rw [fs.dropEntry_dir he] at hmem
    exact absurd heq (of_decide_eq_true (mem_filter.mp hmem).2)
  · rintro ⟨⟨huse, hdir, c, hmem, rfl⟩, hne⟩
    have he : e ≠ i := by
      rintro rfl
      rw [hchildren] at hmem
      cases hmem
    obtain ⟨huse', -, hdir', -⟩ := fs.dropEntry_spec he
    refine ⟨huse'.trans huse, hdir'.trans hdir, c, ?_, rfl⟩
    by_cases hed : e = d
    · subst hed
      rw [fs.dropEntry_dir he]
      exact mem_filter.mpr ⟨hmem, decide_eq_true hne⟩
    · rwa [fs.dropEntry_of_ne he hed]

/-- An entry without children can go. -/
theorem Rooted.dropEntry : (fs.dropEntry d i).Rooted r := by
  have hchild := fun {j e} => hr.childOf_dropEntry_iff (j := j) (e := e) hc hchildren
  have hri : r ≠ i := Ne.symm (hr.inUse_of_childOf hc).2
  have hused : ∀ j, ((fs.dropEntry d i).files j).inUse = true → j ≠ i := fun _ => ne_dropped
  refine ⟨?_, ?_, ?_, ?_, ?_, ?_, ?_, ?_⟩
  · rw [Has, (fs.dropEntry_spec hri).1, (fs.dropEntry_spec hri).2.1]
    exact hr.root
  · rw [(fs.dropEntry_spec hri).2.2.1]
    exact hr.rootDir
  · intro j huse hne
    have hj := hused j huse
    rw [(fs.dropEntry_spec hj).1] at huse
    rw [(fs.dropEntry_spec hj).2.1]
    exact hr.names j huse hne
  · intro e c huse hmem
    have he := hused e huse
    obtain ⟨huse', -, hdir', hsub⟩ := fs.dropEntry_spec he
    obtain ⟨h₁, h₂, h₃, h₄⟩ := hr.listed e c (huse'.symm.trans huse) (hsub.subset hmem)
    have hnew : (fs.dropEntry d i).ChildOf c.2 e := ⟨huse, hdir'.trans h₁, c, hmem, rfl⟩
    have hc2 := (hchild.mp hnew).2
    rw [hdir', (fs.dropEntry_spec hc2).1, (fs.dropEntry_spec hc2).2.1]
    exact ⟨h₁, h₂, h₃, h₄⟩
  · intro j huse hne
    have hj := hused j huse
    rw [(fs.dropEntry_spec hj).1] at huse
    obtain ⟨e, he⟩ := hr.parent j huse hne
    exact ⟨e, hchild.mpr ⟨he, hj⟩⟩
  · intro j e e' he he'
    exact hr.unique j e e' (hchild.mp he).1 (hchild.mp he').1
  · intro e huse
    obtain ⟨huse', -, -, hsub⟩ := fs.dropEntry_spec (hused e huse)
    exact (hr.siblings e (huse'.symm.trans huse)).sublist (hsub.map _)
  · obtain ⟨rank, hrank⟩ := hr.ranked
    exact ⟨rank, fun j e he => hrank j e (hchild.mp he).1⟩

end

/-! ## The calls -/

theorem Shaped.rooted (h : fs.Shaped) (huse : (fs.files i).inUse = true) : ∃ r, fs.Rooted r := by
  rcases h with hunused | hr
  · rw [hunused i] at huse
    cases huse
  · exact hr

theorem Shaped.ensureRootDir (h : fs.Shaped)
    (hrun : fs.ensureRootDir = some (root, fs')) : fs'.Rooted root := by
  unfold Ramfs.ensureRootDir at hrun
  rcases h with hunused | ⟨r, hr⟩
  · rw [getRootDirIdx_of_unused hunused] at hrun
    dsimp only at hrun
    split at hrun
    · cases hrun
    · cases hrun
      exact rooted_newRoot hunused _
  · rw [hr.getRootDirIdx] at hrun
    cases hrun
    exact hr

theorem adds_setFile (fs : Ramfs) (hne : d ≠ slot) (f : FileEntry) :
    fs.Adds d slot f ((fs.setFile slot f).setFile d
      { (fs.setFile slot f).files d with
        children := ((fs.setFile slot f).files d).children ++ [(f.name, slot)] }) where
  entry := by rw [files_setFile_of_ne (Ne.symm hne), files_setFile_self]
  dir := by rw [files_setFile_self, files_setFile_of_ne hne]
  other i hi hd := by rw [files_setFile_of_ne hd, files_setFile_of_ne hi]

theorem initSlot_eq_some
    (h : fs.initSlot slot name = some fs') : fs' = fs.setFile slot (newFile name) := by
  unfold initSlot at h
  split at h
  · exact (some.inj h).symm
  · cases h

/-- An entry in use, of the name, with nothing below it. -/
def Fresh (name : String) (entry : FileEntry) : Prop :=
  entry.inUse = true ∧ entry.children = [] ∧ entry.name = utf8Bytes name

theorem Rooted.addEntry (hr : fs.Rooted r)
    (hd : (fs.files d).inUse = true) (hdir : (fs.files d).isDir = true) (hgood : GoodName name)
    (hnew : fs.findChild d name = none) (hfinish : Fresh name (finish (newFile name)))
    (hrun : fs.addEntry d name finish = some (res, fs')) : fs'.Rooted r := by
  unfold Ramfs.addEntry at hrun
  split at hrun
  · cases hrun
    exact hr
  rename_i slot hslot
  have hfree := not_inUse_of_findFreeSlot hslot
  have hne := ne_of_inUse hd hfree
  split at hrun
  · cases hrun
  rename_i fs₁ hinit
  obtain rfl := initSlot_eq_some hinit
  have hset : (fs.setFile slot (newFile name)).setFile slot
      (finish ((fs.setFile slot (newFile name)).files slot)) =
      fs.setFile slot (finish (newFile name)) := by
    rw [files_setFile_self, setFile, setFile, setFile, update_idem]
  simp only [hset] at hrun
  cases hrun
  obtain ⟨hinUse, hchildren, hname⟩ := hfinish
  have hadds := adds_setFile fs hne (finish (newFile name))
  have hself : (fs.setFile slot (finish (newFile name))).files slot = finish (newFile name) :=
    files_setFile_self _ _ _
  rw [hself]
  refine hr.adds hadds hfree hd hdir hinUse hchildren ?_ hgood.1 hgood.2.2 hnew
  rw [hname]
  exact nameOf_utf8Bytes hgood.2.1

/-- A directory found by its inode number. -/
theorem dirOf_spec (h : fs.dirOf parent = some d) :
    (fs.files d).inUse = true ∧ (fs.files d).isDir = true := by
  obtain ⟨hslot, hdir⟩ := filter_eq_some_iff.mp h
  refine ⟨?_, hdir⟩
  unfold slotOf at hslot
  split at hslot
  · split at hslot
    · rename_i huse
      cases hslot
      exact huse
    · cases hslot
  · cases hslot

theorem Rooted.addNew (hr : fs.Rooted r) (hd : (fs.files d).inUse = true)
    (hdir : (fs.files d).isDir = true) (hgood : GoodName name)
    (hfinish : Fresh name (finish (newFile name)))
    (hrun : fs.addNew d name finish = some (res, fs')) : fs'.Rooted r := by
  unfold Ramfs.addNew at hrun
  split at hrun
  · cases hrun
    exact hr
  · rename_i hnew
    rw [not_isSome_iff_eq_none] at hnew
    exact hr.addEntry hd hdir hgood hnew hfinish hrun

/-- A new entry in a directory given by its inode number. -/
theorem Shaped.addNew (h : fs.Shaped) (hd : fs.dirOf parent = some d)
    (hgood : GoodName name) (hfinish : Fresh name (finish (newFile name)))
    (hrun : fs.addNew d name finish = some (res, fs')) : fs'.Shaped := by
  obtain ⟨huse, hdir⟩ := dirOf_spec hd
  obtain ⟨r, hr⟩ := h.rooted huse
  exact .inr ⟨r, hr.addNew huse hdir hgood hfinish hrun⟩

theorem Shaped.make (h : fs.Shaped) (hgood : GoodName name)
    (hfinish : Fresh name (finish (newFile name)))
    (hrun : fs.make parent name noParent finish = some (res, fs')) : fs'.Shaped := by
  unfold Ramfs.make at hrun
  split at hrun
  · cases hrun
    exact h
  split at hrun
  · split at hrun
    · cases hrun
    · rename_i root fs₁ hroot
      have hr := h.ensureRootDir hroot
      exact .inr ⟨root, hr.addNew hr.root.1 hr.rootDir hgood hfinish hrun⟩
  split at hrun
  · cases hrun
    exact h
  · rename_i d hd
    exact h.addNew hd hgood hfinish hrun

/-- Only the root can be new. -/
theorem files_ensureRootDir (hrun : fs.ensureRootDir = some (root, fs'))
    (hne : i ≠ root) : fs'.files i = fs.files i := by
  grind [ensureRootDir, files_setFile_of_ne]

/-- A name that no slot has is not in the root directory, which may be new. -/
theorem findChild_of_findFile (h : fs.Shaped) (hfile : fs.findFile name = none)
    (hrun : fs.ensureRootDir = some (root, fs')) : fs'.findChild root name = none := by
  have hr := h.ensureRootDir hrun
  cases hfind : fs'.findChild root name with
  | none => rfl
  | some i =>
    obtain ⟨hc, hname⟩ := (hr.findChild_eq_some hr.root.1).mp hfind
    obtain ⟨huse, hne⟩ := hr.inUse_of_childOf hc
    rw [files_ensureRootDir hrun hne] at huse hname
    exact absurd ⟨huse, hname⟩ (findFile_eq_none hfile i)

theorem Shaped.symlink (h : fs.Shaped) (hgood : GoodName name)
    (hrun : fs.symlink parent name target = some (res, fs')) : fs'.Shaped := by
  unfold Ramfs.symlink at hrun
  split at hrun
  · cases hrun
    exact h
  split at hrun
  · split at hrun
    · cases hrun
      exact h
    rename_i hfile
    rw [not_isSome_iff_eq_none] at hfile
    split at hrun
    · cases hrun
    rename_i root fs₁ hroot
    have hr := h.ensureRootDir hroot
    have hnew := findChild_of_findFile h hfile hroot
    exact .inr ⟨root, hr.addEntry hr.root.1 hr.rootDir hgood hnew ⟨rfl, rfl, rfl⟩ hrun⟩
  · split at hrun
    · cases hrun
      exact h
    · rename_i d hd
      exact h.addNew hd hgood ⟨rfl, rfl, rfl⟩ hrun

theorem Rooted.unlinkChild (hr : fs.Rooted r) (hd : (fs.files d).inUse = true)
    (hchildren : ∀ i, fs.findChild d name = some i → (fs.files i).children = []) :
    (fs.unlinkChild d name).2.Rooted r := by
  unfold Ramfs.unlinkChild
  split
  · exact hr
  · rename_i i hfind
    exact hr.dropEntry ((hr.findChild_eq_some hd).mp hfind).1 (hchildren i hfind)

theorem Rooted.rmdirChild (hr : fs.Rooted r)
    (hd : (fs.files d).inUse = true) : (fs.rmdirChild d name).2.Rooted r := by
  unfold Ramfs.rmdirChild
  split
  · exact hr
  rename_i i hfind
  split
  · exact hr
  split
  · exact hr
  rename_i hempty
  refine hr.unlinkChild hd fun j hj => ?_
  cases hfind.symm.trans hj
  simpa using hempty

theorem Shaped.unlink (h : fs.Shaped)
    (hsafe : fs.KeepsTree (.unlink parent name)) : (fs.unlink parent name).2.Shaped := by
  rcases h with hunused | ⟨r, hr⟩
  · have hroot := getRootDirIdx_of_unused hunused
    have hfile := findFile_of_unused hunused name
    have hdir : fs.dirOf parent = none := by
      cases hd : fs.dirOf parent with
      | none => rfl
      | some d =>
        have huse := (dirOf_spec hd).1
        rw [hunused d] at huse
        cases huse
    simp only [Ramfs.unlink, hroot, hfile, hdir, ite_self]
    exact .inl hunused
  · have hopened : fs.opened parent := fun _ => by
      rw [hr.getRootDirIdx]
      exact some_ne_none r
    rw [unlink_eq hopened]
    cases hd : fs.dirSlot parent with
    | none => exact .inr ⟨r, hr⟩
    | some d =>
      have huse : (fs.files d).inUse = true := by
        unfold dirSlot at hd
        split at hd
        · rw [hr.getRootDirIdx] at hd
          exact some.inj hd ▸ hr.root.1
        · exact (dirOf_spec hd).1
      exact .inr ⟨r, hr.unlinkChild huse fun i hi => hsafe d i hd hi⟩

theorem Shaped.rmdir (h : fs.Shaped) (parent : Word) (name : String) :
    (fs.rmdir parent name).2.Shaped := by
  unfold Ramfs.rmdir
  split
  · split
    · exact h
    rename_i root hroot
    rcases h with hunused | ⟨r, hr⟩
    · rw [getRootDirIdx_of_unused hunused] at hroot
      cases hroot
    · rw [hr.getRootDirIdx] at hroot
      exact .inr ⟨r, hr.rmdirChild (some.inj hroot ▸ hr.root.1)⟩
  · split
    · exact h
    rename_i d hd
    have huse := (dirOf_spec hd).1
    obtain ⟨r, hr⟩ := h.rooted huse
    exact .inr ⟨r, hr.rmdirChild huse⟩

theorem Rooted.getRootDirIdx_newFile (hr : fs.Rooted r) (hfree : (fs.files slot).inUse = false) :
    (fs.setFile slot (newFile name)).getRootDirIdx = some r := by
  rw [← hr.getRootDirIdx]
  unfold Ramfs.getRootDirIdx
  congr 1
  funext i
  by_cases hi : i = slot
  · subst hi
    rw [files_setFile_self, hfree]
    rfl
  · rw [files_setFile_of_ne hi]

theorem Rooted.openPath_creates (hr : fs.Rooted r)
    (hfree : (fs.files slot).inUse = false) (hgood : GoodName name)
    (hnew : fs.findFile name = none) : let fs' := fs.setFile slot (newFile name)
    (fs'.setFile r { fs'.files r with
      children := (fs'.files r).children ++ [((fs'.files slot).name, slot)] }).Rooted r := by
  intro fs'
  have hne := ne_of_inUse hr.root.1 hfree
  have hchild : fs.findChild r name = none := by
    cases hfind : fs.findChild r name with
    | none => rfl
    | some i =>
      obtain ⟨hc, hname⟩ := (hr.findChild_eq_some hr.root.1).mp hfind
      exact absurd ⟨(hr.inUse_of_childOf hc).1, hname⟩ (findFile_eq_none hnew i)
  have hself : fs'.files slot = newFile name := files_setFile_self _ _ _
  rw [hself]
  exact hr.adds (adds_setFile fs hne (newFile name)) hfree hr.root.1 hr.rootDir rfl rfl
    (nameOf_utf8Bytes hgood.2.1) hgood.1 hgood.2.2 hchild

theorem Shaped.openPath (h : fs.Shaped) (hsafe : fs.KeepsTree (.openPath path flags))
    (hrun : fs.openPath path flags = some (res, fs')) : fs'.Shaped := by
  unfold Ramfs.openPath at hrun
  dsimp only at hrun
  split at hrun
  · obtain ⟨⟨root, fs₁⟩, hroot, heq⟩ := map_eq_some_iff.mp hrun
    cases heq
    exact .inr ⟨root, h.ensureRootDir hroot⟩
  rename_i hkey
  split at hrun
  · cases hrun
    split
    · exact h.of_sameSlots (sameSlots_setData fs _ [])
    · exact h
  rename_i hnew
  split at hrun
  · rename_i hflag
    split at hrun
    · cases hrun
      exact h
    rename_i slot hslot
    split at hrun
    · cases hrun
    rename_i fs₁ hinit
    obtain rfl := initSlot_eq_some hinit
    obtain ⟨hgood, hroot⟩ := hsafe hkey hnew hflag
    have hfree := not_inUse_of_findFreeSlot hslot
    rcases h with hunused | ⟨r, hr⟩
    · exact absurd (getRootDirIdx_of_unused hunused) hroot
    · rw [hr.getRootDirIdx_newFile hfree] at hrun
      cases hrun
      exact .inr ⟨r, hr.openPath_creates hfree hgood hnew⟩
  · cases hrun
    exact h

/-- The legacy calls, where they change nothing. -/
theorem Shaped.createFile (h : fs.Shaped) (hsafe : fs.KeepsTree (.createFile name data)) :
    (fs.createFile name data).2.Shaped := by
  unfold Ramfs.createFile
  split
  · exact h
  rename_i hname
  split
  · exact h
  rename_i hlen
  split
  · exact h
  rename_i hfile
  split
  · exact h
  rename_i slot hslot
  rcases hsafe with hbad | hbad | hbad | hbad
  · exact absurd hbad hname
  · exact absurd hbad hlen
  · exact absurd (isSome_iff_ne_none.mpr hbad) hfile
  · rw [hbad] at hslot
    cases hslot

theorem Shaped.deleteFile (h : fs.Shaped)
    (hsafe : fs.KeepsTree (.deleteFile name)) : (fs.deleteFile name).2.Shaped := by
  rwa [Ramfs.deleteFile, show fs.findFile name = none from hsafe]

theorem Shaped.treeStep (h : fs.Shaped) (hsafe : fs.KeepsTree op)
    (hrun : treeStep fs op = some (res, fs')) : fs'.Shaped := by
  cases op with
  | openPath path flags =>
    obtain ⟨q, hq, heq⟩ := map_eq_some_iff.mp hrun
    cases heq
    exact h.openPath hsafe hq
  | create parent name =>
    obtain ⟨q, hq, heq⟩ := map_eq_some_iff.mp hrun
    cases heq
    exact h.make hsafe ⟨rfl, rfl, rfl⟩ hq
  | mkdir parent name =>
    obtain ⟨q, hq, heq⟩ := map_eq_some_iff.mp hrun
    cases heq
    exact h.make hsafe ⟨rfl, rfl, rfl⟩ hq
  | symlink parent name target =>
    obtain ⟨q, hq, heq⟩ := map_eq_some_iff.mp hrun
    cases heq
    exact h.symlink hsafe hq
  | unlink parent name =>
    cases hrun
    exact h.unlink hsafe
  | rmdir parent name =>
    cases hrun
    exact h.rmdir parent name
  | createFile name data =>
    cases hrun
    exact h.createFile hsafe
  | deleteFile name =>
    cases hrun
    exact h.deleteFile hsafe

/-! ## Paths -/

/-- What `open` gives, for a slot in use: the one found by the whole path. -/
theorem openPath_eq_ino (huse : (fs.files i).inUse = true)
    (hrun : fs.openPath path flags = some (.ok (inoOf i), fs')) :
    fs.findFile (key path) = some i := by
  unfold openPath at hrun
  rw [show String.ofList (path.toList.dropWhile (· = '/')) = key path from rfl] at hrun
  dsimp only at hrun
  split at hrun
  · obtain ⟨q, -, heq⟩ := map_eq_some_iff.mp hrun
    have hino : rootIno = inoOf i := Except.ok.inj (congrArg fst heq)
    exact absurd hino.symm (inoOf_ne_rootIno i)
  split at hrun
  · rename_i j hfind
    have hino : inoOf j = inoOf i := Except.ok.inj (congrArg fst (some.inj hrun))
    rw [hfind, inoOf_injective hino]
  -- a new file is in a slot that was free
  split at hrun
  · split at hrun
    · cases hrun
    rename_i slot hslot
    have hfree := not_inUse_of_findFreeSlot hslot
    split at hrun
    · cases hrun
    have hino : inoOf slot = inoOf i := by
      split at hrun <;> exact Except.ok.inj (congrArg fst (some.inj hrun))
    rw [inoOf_injective hino, huse] at hfree
    cases hfree
  · cases hrun

theorem openPath_of_findFile (flags : OpenFlags)
    (hkey : key path ≠ "") (hfind : fs.findFile (key path) = some i) :
    ∃ fs', fs.openPath path flags = some (.ok (inoOf i), fs') := by
  unfold openPath
  rw [show String.ofList (path.toList.dropWhile (· = '/')) = key path from rfl]
  simp only [hkey, hfind]
  exact ⟨_, rfl⟩

theorem IsComponent.exists_cons (h : IsComponent name) :
    ∃ c cs, name.toList = c :: cs ∧ c ≠ '/' := by
  cases hl : name.toList with
  | nil => exact absurd (String.toList_eq_nil_iff.mp hl) h.1
  | cons c cs =>
    refine ⟨c, cs, rfl, ?_⟩
    rintro rfl
    exact h.2 (hl ▸ mem_cons_self)

theorem pathOf_nil (name : String) : pathOf [] name = name := by
  simp [pathOf]

theorem toList_pathOf_cons (n : String) (ns : List String) (name : String) :
    (pathOf (n :: ns) name).toList = n.toList ++ '/' :: (pathOf ns name).toList := by
  rw [pathOf, pathOf]
  cases ns with
  | nil => simp
  | cons m ms => simp

theorem key_pathOf (hdirs : ∀ n ∈ dirs, IsComponent n) (hname : IsComponent name) :
    key (pathOf dirs name) = pathOf dirs name ∧ pathOf dirs name ≠ "" := by
  have hcons : ∃ c cs, (pathOf dirs name).toList = c :: cs ∧ c ≠ '/' := by
    cases dirs with
    | nil =>
      rw [pathOf_nil]
      exact hname.exists_cons
    | cons n ns =>
      obtain ⟨c, cs, hl, hc⟩ := (hdirs n mem_cons_self).exists_cons
      exact ⟨c, _, by rw [toList_pathOf_cons, hl, cons_append], hc⟩
  obtain ⟨c, cs, hl, hc⟩ := hcons
  constructor
  · rw [key, hl, dropWhile_cons_of_neg (by simpa using hc), ← hl, String.ofList_toList]
  · intro hempty
    rw [hempty] at hl
    cases hl

theorem Rooted.isComponent_of_has (hr : fs.Rooted r) (h : fs.Has i name) : IsComponent name := by
  by_cases hi : i = r
  · subst hi
    cases h.2.symm.trans hr.root.2
    exact ⟨by decide, by decide +kernel⟩
  · obtain ⟨n, hn, hcomp, -⟩ := hr.names i h.1 hi
    rwa [← some.inj (hn.symm.trans h.2)]

theorem findFile_has (h : fs.findFile name = some i) : fs.Has i name := by
  have hi := find?_some h
  simpa [Has] using hi

/-- A path with a directory in it names no slot. -/
theorem Rooted.findFile_pathOf (hr : fs.Rooted r) (name : String)
    (hne : dirs ≠ []) : fs.findFile (pathOf dirs name) = none := by
  apply findFile_eq_none_of
  intro i hi
  obtain ⟨n, ns, rfl⟩ := exists_cons_of_ne_nil hne
  refine (hr.isComponent_of_has hi).2 ?_
  rw [toList_pathOf_cons]
  exact mem_append_right _ mem_cons_self

theorem walk_append (fs : Ramfs) (d : Fin 32) (ns : List String) (n : String) :
    fs.walk d (ns ++ [n]) = (fs.walk d ns).bind fun e => fs.findChild e n := by
  induction ns generalizing d with
  | nil => cases h : fs.findChild d n <;> simp [walk]
  | cons m ms ih =>
    rw [cons_append, walk, walk]
    cases fs.findChild d m with
    | none => rfl
    | some e => exact ih e

theorem Rooted.exists_walk (hr : fs.Rooted r) (huse : (fs.files i).inUse = true) :
    ∃ dirs, (∀ n ∈ dirs, IsComponent n) ∧ fs.walk r dirs = some i := by
  obtain ⟨rank, hrank⟩ := hr.ranked
  induction hk : rank i using Nat.strong_induction_on generalizing i with
  | _ k ih =>
    by_cases hi : i = r
    · exact ⟨[], nofun, by rw [walk, hi]⟩
    obtain ⟨d, hc⟩ := hr.parent i huse hi
    obtain ⟨n, hn, hcomp, -⟩ := hr.names i huse hi
    obtain ⟨dirs, hdirs, hwalk⟩ := ih (rank d) (hk ▸ hrank i d hc) hc.1 rfl
    refine ⟨dirs ++ [n], ?_, ?_⟩
    · intro m hm
      rcases mem_append.mp hm with hm | hm
      · exact hdirs m hm
      · rwa [mem_singleton.mp hm]
    · rw [walk_append, hwalk]
      exact (hr.findChild_eq_some hc.1).mpr ⟨hc, hn⟩

theorem Rooted.walk_spec (hr : fs.Rooted r) {rank : Fin 32 → Nat}
    (hrank : ∀ i d, fs.ChildOf i d → rank d < rank i)
    (huse : (fs.files e).inUse = true) (hwalk : fs.walk e dirs = some d) :
    (fs.files d).inUse = true ∧ (dirs ≠ [] → rank e < rank d) := by
  induction dirs generalizing e with
  | nil =>
    cases hwalk
    exact ⟨huse, fun h => absurd rfl h⟩
  | cons n ns ih =>
    obtain ⟨i, hfind, hrest⟩ := bind_eq_some_iff.mp hwalk
    obtain ⟨hc, -⟩ := (hr.findChild_eq_some huse).mp hfind
    obtain ⟨huse', hlt⟩ := ih (hr.inUse_of_childOf hc).1 hrest
    refine ⟨huse', fun _ => ?_⟩
    cases ns with
    | nil =>
      cases hrest
      exact hrank _ _ hc
    | cons m ms => exact (hrank _ _ hc).trans (hlt (cons_ne_nil _ _))

theorem Rooted.findFile_of_has (hr : fs.Rooted r) (hparent : ∀ i d, fs.ChildOf i d → d = r)
    (h : fs.Has i name) : fs.findFile name = some i := by
  cases hfind : fs.findFile name with
  | none => exact absurd h (findFile_eq_none hfind i)
  | some j =>
    have hj := findFile_has hfind
    have hroot : ∀ k, fs.Has k name → (k = r ↔ name = ".") := by
      intro k hk
      constructor
      · rintro rfl
        exact some.inj (hk.2.symm.trans hr.root.2)
      · intro hdot
        by_contra hne
        obtain ⟨n, hn, -, hn'⟩ := hr.names k hk.1 hne
        exact hn' (hdot ▸ some.inj (hn.symm.trans hk.2))
    by_cases hdot : name = "."
    · rw [(hroot i h).mpr hdot, (hroot j hj).mpr hdot]
    have hchild : ∀ k, fs.Has k name → fs.findChild r name = some k := by
      intro k hk
      obtain ⟨d, hc⟩ := hr.parent k hk.1 fun hk' => hdot ((hroot k hk).mp hk')
      obtain rfl := hparent k d hc
      exact (hr.findChild_eq_some hr.root.1).mpr ⟨hc, hk.2⟩
    exact (hchild j hj).symm.trans (hchild i h)

/-- Paths are followed only where there is nothing to follow. -/
theorem Rooted.opensPaths_iff (hr : fs.Rooted r) : fs.OpensPaths ↔ fs.RootOnly := by
  constructor
  · intro hopens i d hc
    by_contra hd
    rw [hr.getRootDirIdx] at hd
    obtain ⟨huse, hi⟩ := hr.inUse_of_childOf hc
    obtain ⟨n, hn, hcomp, -⟩ := hr.names i huse hi
    obtain ⟨dirs, hdirs, hwalk⟩ := hr.exists_walk hc.1
    have hne : dirs ≠ [] := by
      rintro rfl
      exact hd hwalk
    obtain ⟨fs', hopen⟩ := hopens.found r dirs n d i 0 hr.getRootDirIdx hdirs hcomp hwalk
      ((hr.findChild_eq_some hc.1).mpr ⟨hc, hn⟩)
    have hfind := openPath_eq_ino huse hopen
    rw [(key_pathOf hdirs hcomp).1, hr.findFile_pathOf n hne] at hfind
    cases hfind
  · intro honly
    have hparent : ∀ i d, fs.ChildOf i d → d = r := fun i d hc =>
      (some.inj (hr.getRootDirIdx.symm.trans (honly i d hc))).symm
    obtain ⟨rank, hrank⟩ := hr.ranked
    constructor
    · intro root dirs name d i flags hroot hdirs hname hwalk hchild
      cases hr.getRootDirIdx.symm.trans hroot
      obtain ⟨huse, hlt⟩ := hr.walk_spec hrank hr.root.1 hwalk
      obtain ⟨hc, hni⟩ := (hr.findChild_eq_some huse).mp hchild
      obtain rfl := hparent i d hc
      -- the walk ends in the root, so it has no step
      obtain rfl : dirs = [] := by
        by_contra hne
        exact absurd (hlt hne) (Nat.lt_irrefl _)
      obtain ⟨hkey, hne⟩ := key_pathOf hdirs hname
      refine openPath_of_findFile flags (hkey.symm ▸ hne) ?_
      rw [hkey, pathOf_nil]
      exact hr.findFile_of_has hparent ⟨(hr.inUse_of_childOf hc).1, hni⟩
    · intro dirs name d i flags fs' hdirs hname hopen hc _
      have hfind := openPath_eq_ino (hr.inUse_of_childOf hc).1 hopen
      rw [(key_pathOf hdirs hname).1] at hfind
      obtain rfl : dirs = [] := by
        by_contra hne
        rw [hr.findFile_pathOf name hne] at hfind
        cases hfind
      exact ⟨r, hr.getRootDirIdx, congrArg some (hparent i d hc).symm⟩

theorem opensPaths_of_unused (h : ∀ i, (fs.files i).inUse = false) : fs.OpensPaths where
  found root _ _ _ _ _ hroot _ _ _ _ := by
    rw [getRootDirIdx_of_unused h] at hroot
    cases hroot
  only _ _ d i _ _ _ _ _ hc _ := absurd hc (not_childOf_of_unused h i d)

theorem Shaped.opensPaths_iff (h : fs.Shaped) : fs.OpensPaths ↔ fs.RootOnly := by
  rcases h with hunused | ⟨r, hr⟩
  · exact iff_of_true (opensPaths_of_unused hunused) fun i d hc =>
      absurd hc (not_childOf_of_unused hunused i d)
  · exact hr.opensPaths_iff

end Rooted

/-! ## Runs from the empty file system -/

theorem shaped_of_run (hrun : Run treeStep new tr fs)
    (hsafe : ∀ e ∈ tr, e.pre.KeepsTree e.op) : fs.Shaped := by
  refine Run.invariant_of_guard (I := fun _ fs => fs.Shaped)
    ?_ ?_ hrun (Run.guard_of_forall_mem hsafe)
  · exact .inl fun _ => rfl
  · intro _ fs op res fs' hshaped hstep hkeeps
    exact hshaped.treeStep hkeeps hstep

/-- Every run whose calls keep the shape leaves a tree, and `open` follows its
    paths if and only if every entry is in the root directory. -/
theorem tree_and_paths_of_run {tr : List (Transition Ramfs TreeOp TreeRes)} {fs : Ramfs}
    (hrun : Run treeStep new tr fs) (hsafe : ∀ e ∈ tr, e.pre.KeepsTree e.op) :
    fs.IsTree ∧ (fs.OpensPaths ↔ fs.RootOnly) :=
  ⟨(shaped_of_run hrun hsafe).isTree, (shaped_of_run hrun hsafe).opensPaths_iff⟩

theorem tree_and_paths_fileAndDir :
    ∃ tr fs, Run treeStep new tr fs ∧
      tr.map Transition.op = [.create 0 "f", .mkdir 0 "d", .unlink 0 "x"] ∧
      (∀ e ∈ tr, e.pre.KeepsTree e.op) ∧ fs.IsTree ∧ fs.RootOnly ∧ fs.OpensPaths := by
  have hfacts : ((exec treeStep new [.create 0 "f", .mkdir 0 "d", .unlink 0 "x"]).map fun q =>
      (q.1.map Transition.op, decide (∀ d, (q.2.files d).children ≠ [] →
        q.2.getRootDirIdx = some d),
        q.1.all fun e => (e.pre.dirSlot 0).all fun d => (e.pre.findChild d "x").isNone)) =
      some ([.create 0 "f", .mkdir 0 "d", .unlink 0 "x"], true, true) := by
    decide +kernel
  obtain ⟨tr, fs, hrun, heq⟩ := run_of_exec hfacts
  have hops : tr.map Transition.op = [.create 0 "f", .mkdir 0 "d", .unlink 0 "x"] :=
    congrArg fst heq
  have honly := of_decide_eq_true (congrArg (fun q => q.2.1) heq)
  have hfree : (tr.all fun e => (e.pre.dirSlot 0).all fun d =>
      (e.pre.findChild d "x").isNone) = true := congrArg (fun q => q.2.2) heq
  have hroot : fs.RootOnly := by
    rintro i d ⟨-, -, c, hc, -⟩
    exact honly d (ne_nil_of_mem hc)
  have hsafe : ∀ e ∈ tr, e.pre.KeepsTree e.op := by
    intro e he
    have hmem : e.op ∈ tr.map Transition.op := mem_map_of_mem he
    rw [hops] at hmem
    have hname : ∀ n ∈ ["f", "d"], GoodName n := by
      unfold GoodName IsComponent
      decide +kernel
    rcases mem_cons.mp hmem with h | hmem
    · rw [h]
      exact hname "f" (by decide)
    rcases mem_cons.mp hmem with h | hmem
    · rw [h]
      exact hname "d" (by decide)
    rw [mem_singleton.mp hmem]
    intro d i hd hi
    have hno := all_eq_true.mp hfree e he
    rw [hd, all_some, hi] at hno
    cases hno
  have hres := tree_and_paths_of_run hrun hsafe
  exact ⟨tr, fs, hrun, hops, hsafe, hres.1, hroot, hres.2.mpr hroot⟩

/-- These calls leave a slot in use that no directory lists. -/
theorem exists_unlisted
    (h : ((exec treeStep new ops).map fun q => decide (q.1.map Transition.op = ops ∧
      (q.2.files i).inUse ∧ q.2.getRootDirIdx ≠ some i ∧
      ∀ d, ∀ c ∈ (q.2.files d).children, c.2 ≠ i)) = some true) :
    ∃ tr fs, Run treeStep new tr fs ∧ tr.map Transition.op = ops ∧ ¬ fs.IsTree := by
  obtain ⟨tr, fs, hrun, heq⟩ := run_of_exec h
  obtain ⟨hops, huse, hroot, hno⟩ := of_decide_eq_true heq
  refine ⟨tr, fs, hrun, hops, fun htree => ?_⟩
  obtain ⟨d, ⟨-, -, c, hc, hi⟩, -⟩ := htree.oneParent i huse hroot
  exact hno d c hc hi

/-- The file `f` of a directory `d` is opened as `f`; the file of `create_file` is in
    no directory; the file in an unlinked directory is in none any more. -/
theorem open_ignores_directories :
    (∃ tr fs, Run treeStep new tr fs ∧
      tr.map Transition.op = [.mkdir 0 "d", .create (inoOf 1) "f"] ∧
      fs.getRootDirIdx = some 0 ∧ fs.walk 0 ["d"] = some 1 ∧ fs.findChild 1 "f" = some 2 ∧
      fs.findChild 0 "f" = none ∧
      (fs.openPath "f" 0).map (fun q => q.1.toOption) = some (some (inoOf 2)) ∧
      (fs.openPath "d/f" 0).map (fun q => q.1.toOption) = some none ∧ ¬ fs.OpensPaths) ∧
    (∃ tr fs, Run treeStep new tr fs ∧ tr.map Transition.op = [.createFile "g" []] ∧
      ¬ fs.IsTree) ∧
    ∃ tr fs, Run treeStep new tr fs ∧
      tr.map Transition.op = [.mkdir 0 "d", .create (inoOf 1) "f", .unlink 0 "d"] ∧
      ¬ fs.IsTree := by
  refine ⟨?_, exists_unlisted (i := 0) (by decide +kernel),
    exists_unlisted (i := 2) (by decide +kernel)⟩
  have hfacts : ((exec treeStep new [.mkdir 0 "d", .create (inoOf 1) "f"]).map fun q =>
      decide (q.1.map Transition.op = [.mkdir 0 "d", .create (inoOf 1) "f"] ∧
        q.2.getRootDirIdx = some 0 ∧ q.2.walk 0 ["d"] = some 1 ∧
        q.2.findChild 1 "f" = some 2 ∧ q.2.findChild 0 "f" = none ∧
        (q.2.openPath "f" 0).map (fun r => r.1.toOption) = some (some (inoOf 2)) ∧
        (q.2.openPath "d/f" 0).map (fun r => r.1.toOption) = some none)) = some true := by
    decide +kernel
  obtain ⟨tr, fs, hrun, heq⟩ := run_of_exec hfacts
  obtain ⟨hops, hroot, hdir, hfile, hnone, hopen, hpath⟩ := of_decide_eq_true heq
  refine ⟨tr, fs, hrun, hops, hroot, hdir, hfile, hnone, hopen, hpath, ?_⟩
  intro hopens
  obtain ⟨fs', hfound⟩ := hopens.found 0 ["d"] "f" 1 2 0 hroot
    (by unfold IsComponent; decide +kernel) (by unfold IsComponent; decide +kernel) hdir hfile
  rw [show pathOf ["d"] "f" = "d/f" by decide +kernel] at hfound
  rw [hfound] at hpath
  cases hpath

end OpenOS.Fs.Ramfs
