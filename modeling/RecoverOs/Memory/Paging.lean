import RecoverOs.Basic
import RecoverOs.Lib.Bitmap
import RecoverOs.Logic.Bytes
import RecoverOs.Logic.Forest

namespace RecoverOs.Memory

open Bytes Lib

/-- The pages that `map_all_phy_mem` makes reachable for the kernel. -/
def memPages : Nat := 0x8000000 / pgSize

/-- The first 2 MB, which `mem_init` marks before anything is allocated. -/
def reservedPages : Nat := 0x200000 / pgSize

/-- `mem_bytes_total >> 12 / 8` shifts by one. -/
def poolBytesLen : Nat := 0x8000000 / 2 ^ (12 / 8)

/-- Pages of the physical memory are named by their number. -/
structure Ram where
  phys : Nat → Buffer
  pool : Bitmap

def entryAt (phys : Nat → Buffer) (page idx : Nat) : Nat := wordAt 8 (phys page) (8 * idx)

def Ram.setEntry (m : Ram) (page idx value : Nat) : Ram :=
  { m with phys := Function.update m.phys page (copy (m.phys page) (8 * idx) (byteOf value) 8) }

def prot : Nat := 7

/-- The page a present entry refers to. -/
def child (phys : Nat → Buffer) (page idx : Nat) : Option Nat :=
  if entryAt phys page idx % 2 = 1 then some (entryAt phys page idx / pgSize) else none

def poolAlloc (m : Ram) : Except Halt (Nat × Ram) :=
  match bitmapAlloc m.pool 1 with
  | some (idx, btmp) => .ok (idx, { m with pool := btmp })
  | none => .error .panic

def poolFree (m : Ram) (page : Nat) : Except Halt Ram := do
  assert (bitmapRead m.pool page)
  return { m with pool := bitmapSet m.pool page false }

def pageEntryIdx (vaddr pml : Nat) : Nat := vaddr / 2 ^ (9 * pml + 12) % 512

/-- The table page and the index of the entry for `vaddr`, `depth` levels below the `pml4` page. -/
def pageEntryPtr (m : Ram) (pml4 vaddr : Nat) : Nat → Except Halt (Nat × Nat)
  | 0 => .ok (pml4, pageEntryIdx vaddr 3)
  | depth + 1 => do
    let (page, idx) ← pageEntryPtr m pml4 vaddr depth
    let next := entryAt m.phys page idx / pgSize
    if next < memPages then return (next, pageEntryIdx vaddr (3 - (depth + 1))) else .error .fault

def mapLevel (m : Ram) (pml4 vaddr paddr depth : Nat) : Except Halt Ram := do
  let (page, idx) ← pageEntryPtr m pml4 vaddr depth
  if entryAt m.phys page idx % 2 = 1 then return m
  else
    let (eaddr, m) ← (if depth = 3 then .ok (paddr, m) else poolAlloc m)
    return m.setEntry page idx (eaddr * pgSize + prot)

/-- The first `cnt` turns of the loop of `page_map`. -/
def mapLevels (m : Ram) (pml4 vaddr paddr : Nat) : Nat → Except Halt Ram
  | 0 => .ok m
  | cnt + 1 => do
    let m ← mapLevels m pml4 vaddr paddr cnt
    mapLevel m pml4 vaddr paddr cnt

def pageMap (m : Ram) (pml4 vaddr : Nat) : Except Halt Ram := do
  let (paddr, m) ← poolAlloc m
  mapLevels m pml4 vaddr paddr 4

def pathOf (vaddr : Nat) : List Nat :=
  [pageEntryIdx vaddr 3, pageEntryIdx vaddr 2, pageEntryIdx vaddr 1, pageEntryIdx vaddr 0]

/-- The page the processor finds for `vaddr`. -/
def translate (phys : Nat → Buffer) (pml4 vaddr : Nat) : Option Nat :=
  Forest.follow (child phys) pml4 (pathOf vaddr)

def anyPresent (phys : Nat → Buffer) (page : Nat) : Nat → Bool
  | 0 => false
  | cnt + 1 => anyPresent phys page cnt || decide (entryAt phys page cnt % 2 = 1)

/-- The first loop of `page_unmap` at one level: the page the entry refers to, or 0 if that page has a word with its
    lowest bit set. -/
def unmapScan (m : Ram) (pml4 vaddr pml : Nat) : Except Halt Nat := do
  let (page, idx) ← pageEntryPtr m pml4 vaddr (3 - pml)
  let paddr := entryAt m.phys page idx / pgSize
  if memPages ≤ paddr then .error .fault
  else return (if anyPresent m.phys paddr 512 then 0 else paddr)

def freeUnlessZero (m : Ram) (page : Nat) : Except Halt Ram :=
  if page ≠ 0 then poolFree m page else .ok m

def unmapZeroed (m : Ram) (pml4 vaddr : Nat) : Except Halt Ram := do
  let p0 ← unmapScan m pml4 vaddr 0
  let p1 ← unmapScan m pml4 vaddr 1
  let p2 ← unmapScan m pml4 vaddr 2
  let p3 ← unmapScan m pml4 vaddr 3
  let m ← freeUnlessZero m p0
  let m ← freeUnlessZero m p1
  let m ← freeUnlessZero m p2
  freeUnlessZero m p3

end RecoverOs.Memory
