/-
  The virtual memory areas of a task (kernel/src/memory/vma.rs): an unordered
  list of regions, extended by `add`, which refuses an overlap, and searched by
  `find`.  The end of a region is computed with checked arithmetic at each use.
-/

import OpenOS.Base.Word

namespace OpenOS

/-- USER_SPACE_MAX. -/
def userSpaceMax : Nat := 0x0000800000000000

end OpenOS

namespace OpenOS.Memory

open OpenOS.Base

/-- Permission flags of a region. -/
structure VmaFlags where
  (read write execute : Bool)
deriving DecidableEq

/-- Type of a region. -/
inductive VmaType
  | code
  | data
  | stack
  | heap
  | mmap
  | fileMmap
deriving DecidableEq

/-- A region; `backing` is left out, no call modelled here makes one. -/
structure VmaRegion where
  start : Word
  size : Word
  flags : VmaFlags
  kind : VmaType
deriving DecidableEq

namespace VmaRegion

/-- `end()` -/
def stop (p : Profile) (r : VmaRegion) : Option Word := p.add r.start r.size

def contains (p : Profile) (r : VmaRegion) (addr : Word) : Option Bool :=
  if r.start ≤ addr then (r.stop p).map fun stop => decide (addr < stop) else some false

/-- The overlap test of `add`; the second end is computed only when needed. -/
def overlaps (p : Profile) (region existing : VmaRegion) : Option Bool := do
  let existingEnd ← existing.stop p
  if region.start < existingEnd then
    let regionEnd ← region.stop p
    return decide (existing.start < regionEnd)
  else return false

end VmaRegion

abbrev VmaList := List VmaRegion

namespace VmaList

/-- The loop of `add`: is there an existing region that overlaps? -/
def anyOverlap (p : Profile) (region : VmaRegion) : VmaList → Option Bool
  | [] => some false
  | existing :: rest => do
    if ← region.overlaps p existing then return true
    else anyOverlap p region rest

def add (p : Profile) (regions : VmaList) (region : VmaRegion) :
    Option (Except String Unit × VmaList) := do
  if ← anyOverlap p region regions then
    return (.error "VMA region overlaps with existing region", regions)
  else return (.ok (), regions ++ [region])

/-- `remove`: the first region that starts at the address. -/
def remove (regions : VmaList) (addr : Word) : Bool × VmaList :=
  (regions.any fun r => r.start = addr, regions.eraseP fun r => r.start = addr)

/-- `find`: the first region that contains the address. -/
def find (p : Profile) (addr : Word) : VmaList → Option (Option VmaRegion)
  | [] => some none
  | r :: rest => do
    if ← r.contains p addr then return some r
    else find p addr rest

end VmaList

end OpenOS.Memory
