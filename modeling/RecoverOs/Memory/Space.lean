import RecoverOs.Memory.Paging

namespace RecoverOs.Memory

open Bytes Lib

abbrev Tid := Nat

def idleTask : Tid := 0
def initProc : Tid := 1

def defaultStack : Nat := 0x800000000000

def globalStackSize : Nat := 2 * pgSize

def wrap (n : Nat) : Nat := n % 2 ^ 64

def divRoundUp (x step : Nat) : Nat := wrap (x + step - 1) / step

/-- `vaddr` and `filesz` have four entries. -/
structure AddrSpace where
  vaddr : Nat → Nat
  filesz : Nat → Nat
  heapStart : Nat
  heapEnd : Nat

def AddrSpace.zero : AddrSpace where
  vaddr := fun _ => 0
  filesz := fun _ => 0
  heapStart := 0
  heapEnd := 0

inductive Life where
  | alive
  | hanging
  | died
  deriving DecidableEq, Repr

/-- `pml4` is the number of the physical page of the top-level table. -/
structure Proc where
  pml4 : Nat
  parentTask : Tid
  addrSpace : AddrSpace
  life : Life

/-- `kernelPool` says which pages of the kernel's own pool hold a top-level table. Tasks are numbered in the order of
    their creation and each call runs to its end; the stacks on which the calls run are left out. -/
structure Machine where
  ram : Ram
  kernelPool : Nat → Bool
  proc : Tid → Proc
  tasks : Nat

def Machine.modify (s : Machine) (t : Tid) (f : Proc → Proc) : Machine :=
  { s with proc := Function.update s.proc t (f (s.proc t)) }

def Machine.setSpace (s : Machine) (t : Tid) (f : AddrSpace → AddrSpace) : Machine :=
  s.modify t fun proc => { proc with addrSpace := f proc.addrSpace }

def inRange (start size vaddr : Nat) : Prop := start ≤ vaddr ∧ vaddr < wrap (start + size)

instance (start size vaddr : Nat) : Decidable (inRange start size vaddr) :=
  inferInstanceAs (Decidable (start ≤ vaddr ∧ vaddr < wrap (start + size)))

def inRg (space : AddrSpace) (vaddr : Nat) : Prop :=
  (∃ i < 4, inRange (space.vaddr i) (space.filesz i) vaddr) ∨
    inRange (defaultStack - globalStackSize) globalStackSize vaddr

instance (space : AddrSpace) (vaddr : Nat) : Decidable (inRg space vaddr) :=
  inferInstanceAs (Decidable ((∃ i < 4, inRange (space.vaddr i) (space.filesz i) vaddr) ∨
    inRange (defaultStack - globalStackSize) globalStackSize vaddr))

def inHeap (space : AddrSpace) (vaddr : Nat) : Prop :=
  inRange space.heapStart (wrap (space.heapEnd + 2 ^ 64 - space.heapStart)) vaddr

instance (space : AddrSpace) (vaddr : Nat) : Decidable (inHeap space vaddr) :=
  inferInstanceAs (Decidable (inRange space.heapStart (wrap (space.heapEnd + 2 ^ 64 - space.heapStart)) vaddr))

def pageStart (vaddr : Nat) : Nat := vaddr - vaddr % pgSize

def fillPage (m : Ram) (pml4 vaddr : Nat) (buf : Buffer) : Except Halt Ram :=
  match translate m.phys pml4 vaddr with
  | none => .error .fault
  | some page =>
    if page < memPages then .ok { m with phys := Function.update m.phys page (copy (m.phys page) 0 buf pgSize) }
    else .error .fault

/-- `copy_page` to and from the same address. When the source has no such page the read faults, and the handler
    runs `copy_page` for the same task again and again. -/
def copyPage (s : Machine) (page : Nat) (dTask sTask : Tid) : Except Halt Machine :=
  match translate s.ram.phys (s.proc sTask).pml4 page with
  | none => .error .stuck
  | some source => do
    let buf := s.ram.phys source
    let ram ← pageMap s.ram (s.proc dTask).pml4 page
    let ram ← fillPage ram (s.proc dTask).pml4 page buf
    return { s with ram := ram }

/-- The handler of a fault of task `t`. A fault outside every range is reported, and the handler loops for ever. -/
def intrPageHandle (s : Machine) (t : Tid) (vaddr : Nat) : Except Halt Machine :=
  if inRg (s.proc t).addrSpace vaddr then copyPage s (pageStart vaddr) t (s.proc t).parentTask
  else if inHeap (s.proc t).addrSpace vaddr then do
    let ram ← pageMap s.ram (s.proc t).pml4 (pageStart vaddr)
    return { s with ram := ram }
  else .error .stuck

/-- An access of task `t` to its user half, after the page fault it may cause. -/
def access (s : Machine) (t : Tid) (vaddr : Nat) : Except Halt Machine :=
  match translate s.ram.phys (s.proc t).pml4 vaddr with
  | some _ => .ok s
  | none => intrPageHandle s t vaddr

def loadByte (s : Machine) (t : Tid) (vaddr : Nat) : Except Halt (UInt8 × Machine) := do
  let s ← access s t vaddr
  match translate s.ram.phys (s.proc t).pml4 vaddr with
  | some page => if page < memPages then return (s.ram.phys page (vaddr % pgSize), s) else .error .fault
  | none => .error .fault

def setByte (m : Ram) (page off : Nat) (byte : UInt8) : Ram :=
  { m with phys := Function.update m.phys page (Function.update (m.phys page) off byte) }

def storeByte (s : Machine) (t : Tid) (vaddr : Nat) (byte : UInt8) : Except Halt Machine := do
  let s ← access s t vaddr
  match translate s.ram.phys (s.proc t).pml4 vaddr with
  | some page =>
    if page < memPages then return { s with ram := setByte s.ram page (vaddr % pgSize) byte } else .error .fault
  | none => .error .fault

def pageUnmap (s : Machine) (t : Tid) (vaddr : Nat) : Except Halt Machine := do
  let s ← access s t vaddr
  let ram ← fillPage s.ram (s.proc t).pml4 vaddr fun _ => 0
  let ram ← unmapZeroed ram (s.proc t).pml4 vaddr
  return { s with ram := ram }

def unmapPages (s : Machine) (t : Tid) (first : Nat) : Nat → Except Halt Machine
  | 0 => .ok s
  | cnt + 1 => do
    let s ← unmapPages s t first cnt
    pageUnmap s t ((first + cnt) * pgSize)

/-- The loop at the start of `sys_brk` tries the task and its parent, and then the parent for ever. -/
def brkOwner (s : Machine) (t : Tid) : Except Halt Tid :=
  if (s.proc t).addrSpace.heapStart ≠ 0 then .ok t
  else if (s.proc (s.proc t).parentTask).addrSpace.heapStart ≠ 0 then .ok (s.proc t).parentTask
  else .error .stuck

def sysBrk (s : Machine) (t : Tid) (brk : Nat) : Except Halt (Int × Machine) := do
  let owner ← brkOwner s t
  let space := (s.proc owner).addrSpace
  if brk = 0 then return ((space.heapEnd : Int), s)
  else if brk < space.heapStart ∨ defaultStack - pgSize < brk then return (-1, s)
  else
    let s ← (if brk < space.heapEnd then
        unmapPages s t (divRoundUp brk pgSize) (divRoundUp space.heapEnd pgSize - divRoundUp brk pgSize)
      else .ok s)
    return (0, s.setSpace owner fun space => { space with heapEnd := brk })

/-- A `PT_LOAD` header and the `nbyte` bytes that `sys_read` delivers for it. -/
structure Segment where
  vaddr : Nat
  memsz : Nat
  nbyte : Nat
  data : Buffer
  short : nbyte ≤ memsz

/-- The `PT_LOAD` headers that `elf_parse` gets to, and whether it gets past the last program header. -/
structure Image where
  segments : List Segment
  complete : Bool

def pgCnt (vaddr size : Nat) : Nat :=
  wrap (pgSize * divRoundUp (wrap (vaddr + size)) pgSize + 2 ^ 64 - pageStart vaddr) / pgSize

def mapPages (m : Ram) (pml4 start : Nat) : Nat → Except Halt Ram
  | 0 => .ok m
  | cnt + 1 => do
    let m ← mapPages m pml4 start cnt
    pageMap m pml4 (start + cnt * pgSize)

def storeBytes (s : Machine) (t : Tid) (vaddr : Nat) (data : Buffer) : Nat → Except Halt Machine
  | 0 => .ok s
  | cnt + 1 => do
    let s ← storeBytes s t vaddr data cnt
    storeByte s t (vaddr + cnt) (data cnt)

def segmentLoad (s : Machine) (t : Tid) (seg : Segment) : Except Halt Machine := do
  let ram ← mapPages s.ram (s.proc t).pml4 (pageStart seg.vaddr) (pgCnt seg.vaddr seg.memsz)
  storeBytes { s with ram := ram } t seg.vaddr seg.data seg.nbyte

/-- The loop of `elf_parse` over the `PT_LOAD` headers. A fifth one would be written past the arrays. -/
def loadSegments (s : Machine) (t : Tid) : Nat → List Segment → Except Halt Machine
  | _, [] => .ok s
  | loadIdx, seg :: rest => do
    let s ← segmentLoad s t seg
    if 4 ≤ loadIdx then .error .fault
    else
      let s := s.setSpace t fun space => { space with
        filesz := Function.update space.filesz loadIdx seg.memsz
        vaddr := Function.update space.vaddr loadIdx seg.vaddr
        heapStart := max space.heapStart (wrap (seg.vaddr + seg.memsz)) }
      loadSegments s t (loadIdx + 1) rest

def sysExecv (s : Machine) (t : Tid) (image : Image) : Except Halt Machine := do
  let s := s.setSpace t fun space => { space with heapStart := 0 }
  let s ← loadSegments s t 0 image.segments
  return (if image.complete then s.setSpace t fun space => { space with heapEnd := space.heapStart } else s)

def cloneTable (m : Ram) (source new : Nat) : Ram :=
  { m with phys := Function.update m.phys new fun i => if i < pgSize / 2 then 0 else m.phys source i }

/-- The loop of `sys_clone` that copies the first `cnt` pages of the stack. A page that the parent has not touched
    itself is first copied from its own parent, by the fault of the copy. -/
def copyStack (s : Machine) (t child : Tid) : Nat → Except Halt Machine
  | 0 => .ok s
  | cnt + 1 => do
    let s ← copyStack s t child cnt
    let page := defaultStack - globalStackSize + cnt * pgSize
    let s ← access s t page
    copyPage s page child t

/-- The part of `sys_clone` that concerns memory; `pml4` is the page that `alloc_pages` hands out. The zero that the
    call first stores in the frame of its caller counts as a store of the caller. -/
def sysClone (s : Machine) (t : Tid) (cloneVm : Bool) (pml4 : Nat) : Except Halt Machine :=
  let child := s.tasks
  let new : Proc :=
    { pml4 := (s.proc t).pml4, parentTask := t, addrSpace := AddrSpace.zero, life := .alive }
  let s := { s with tasks := s.tasks + 1, proc := Function.update s.proc child new }
  if cloneVm then .ok s
  else do
    offer (decide (0x104 ≤ pml4 ∧ pml4 < 0x104 + 8 * (252 / 8)) && !s.kernelPool pml4)
    let s := { s with
      kernelPool := Function.update s.kernelPool pml4 true
      ram := cloneTable s.ram (s.proc t).pml4 pml4 }
    let s := s.modify child fun proc => { proc with pml4 := pml4, addrSpace := (s.proc t).addrSpace }
    copyStack s t child (globalStackSize / pgSize)

def releaseSegments (s : Machine) (t : Tid) : Nat → Except Halt Machine
  | 0 => .ok s
  | cnt + 1 => do
    let s ← releaseSegments s t cnt
    let vaddr := (s.proc t).addrSpace.vaddr cnt
    if vaddr = 0 then return s
    else unmapPages s t (vaddr / pgSize) (pgCnt vaddr ((s.proc t).addrSpace.filesz cnt))

/-- The part of `release_prog_resource` that concerns memory. -/
def releaseProgResource (s : Machine) (t : Tid) : Except Halt Machine :=
  if (s.proc t).addrSpace.heapStart = 0 then .ok s
  else do
    let (_, s) ← sysBrk s t (s.proc t).addrSpace.heapStart
    let s ← releaseSegments s t 4
    pageUnmap s t (defaultStack - globalStackSize)

/-- `sys_exit` of a task whose pid is above 1. -/
def sysExit (s : Machine) (t : Tid) : Except Halt Machine := do
  assert (decide (initProc < t))
  let s := { s with proc := fun u =>
    if (s.proc u).parentTask = t then { s.proc u with parentTask := initProc } else s.proc u }
  let s ← releaseProgResource s t
  return s.modify t fun proc => { proc with life := .hanging }

def hangingChild (s : Machine) (t c : Tid) : Bool :=
  decide ((s.proc c).parentTask = t ∧ (s.proc c).life = .hanging)

def waitChild (s : Machine) (t : Tid) : Option Tid := (List.range s.tasks).find? (hangingChild s t)

def sysWait (s : Machine) (t : Tid) : Except Halt Machine :=
  match waitChild s t with
  | none => .ok s
  | some c => do
    let s := s.modify c fun proc => { proc with life := .died }
    if (s.proc t).pml4 ≠ (s.proc c).pml4 then
      assert (s.kernelPool (s.proc c).pml4)
      return { s with kernelPool := Function.update s.kernelPool (s.proc c).pml4 false }
    else return s

inductive MemOp where
  | pageMap (vaddr : Nat)
  | pageUnmap (vaddr : Nat)
  | fault (vaddr : Nat)
  | store (vaddr : Nat) (byte : UInt8)
  | brk (brk : Nat)
  | clone (cloneVm : Bool) (pml4 : Nat)
  | execv (image : Image)
  | exit
  | wait

def Machine.live (s : Machine) (t : Tid) : Bool := decide (t < s.tasks ∧ (s.proc t).life = .alive)

/-- A step of task `t`. User accesses are to the user half; a fault comes from a page that is not present. -/
def Machine.call (s : Machine) (t : Tid) : MemOp → Except Halt Machine
  | .pageMap vaddr => do
    let ram ← pageMap s.ram (s.proc t).pml4 vaddr
    return { s with ram := ram }
  | .pageUnmap vaddr => pageUnmap s t vaddr
  | .fault vaddr => do
    offer (decide (vaddr < defaultStack) && (translate s.ram.phys (s.proc t).pml4 vaddr).isNone)
    intrPageHandle s t vaddr
  | .store vaddr byte => do
    offer (decide (vaddr < defaultStack))
    storeByte s t vaddr byte
  | .brk brk => do
    let (_, s) ← sysBrk s t brk
    return s
  | .clone cloneVm pml4 => sysClone s t cloneVm pml4
  | .execv image => sysExecv s t image
  | .exit => sysExit s t
  | .wait => sysWait s t

def Machine.step (s : Machine) (op : Tid × MemOp) : Except Halt Machine := do
  offer (s.live op.1)
  s.call op.1 op.2

def kernelPml4 : Nat := 0x100

/-- The state that `mem_init` and `task_init` leave over the memory `phys`. -/
def Machine.start (phys : Nat → Buffer) : Machine where
  ram := { phys := phys, pool := ⟨poolBytesLen, fun idx => decide (idx < reservedPages)⟩ }
  kernelPool := fun _ => false
  proc := fun t => { pml4 := kernelPml4, parentTask := t, addrSpace := AddrSpace.zero, life := .alive }
  tasks := 2

end RecoverOs.Memory
