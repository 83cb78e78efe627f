import RecoverOs.Fs.File
import RecoverOs.Memory.Regions
import RecoverOs.Userprog.Elf

namespace RecoverOs.Userprog

open Bytes Memory Transition
open Fs (Files Ptr Whence FileType sysOpen sysLseek sysRead sysClose fdEntry fdRejected)

structure System where
  files : Files
  machine : Machine

/-- Ways a call of `elf_parse` ends without returning: one of the calls it makes does not return, or a header is written
    to an entry past the arrays of `struct addr_space`. -/
inductive Stop where
  | halt (halt : Halt)
  | overrun (loadIdx : Nat)
  deriving DecidableEq, Repr

def lift {α : Type} (x : Except Halt α) : Except Stop α := x.mapError .halt

def bytesOf (data : List UInt8) : Buffer := fun i => data.getD i 0

/-- `sys_read` while nobody types, so that a read of the console waits for ever. -/
def readFile (s : Files) (t : Tid) (fd : Int) (count : Nat) : Except Halt (Int × List UInt8 × Files) :=
  if (s.fileTable (fdEntry s t fd).toNat).fType = .chr then .error .stuck else sysRead s t fd count

/-- `segment_load`. Bytes past the user half would go to the kernel's own memory. -/
def segmentLoad (s : System) (t : Tid) (fd : Int) (phdr : Phdr) : Except Halt System := do
  let ram ← mapPages s.machine.ram (s.machine.proc t).pml4 (pageStart phdr.vaddr) (pgCnt phdr.vaddr phdr.memsz)
  let (_, files) ← sysLseek s.files t fd (toSigned phdr.offset) .seekSet
  let (_, data, files) ← readFile files t fd phdr.memsz
  if data ≠ [] ∧ defaultStack < phdr.vaddr + data.length then .error .fault
  else
    let machine ← storeBytes { s.machine with ram := ram } t phdr.vaddr (bytesOf data) data.length
    return { files := files, machine := machine }

def recordHeader (s : System) (t : Tid) (loadIdx : Nat) (phdr : Phdr) : System :=
  { s with machine := s.machine.setSpace t fun space => { space with
      filesz := Function.update space.filesz loadIdx phdr.memsz
      vaddr := Function.update space.vaddr loadIdx phdr.vaddr
      heapStart := max space.heapStart (wrap (phdr.vaddr + phdr.memsz)) } }

def elfLoop (t : Tid) (fd : Int) (ehdr : Ehdr) : Nat → Nat → Nat → System → Except Stop (Int × Nat × System)
  | 0, _, loadIdx, s => .ok (0, loadIdx, s)
  | left + 1, progIdx, loadIdx, s => do
    let (_, files) ← lift (sysLseek s.files t fd (toSigned (ehdr.phoff + progIdx * ehdr.phentsize)) .seekSet)
    let (nbyte, data, files) ← lift (readFile files t fd ehdr.phentsize)
    let s := { s with files := files }
    if nbyte ≠ ehdr.phentsize then return (-(phdrSize : Int), loadIdx, s)
    else
      let phdr := Phdr.load (bytesOf data)
      if phdr.type = ptLoad then
        let s ← lift (segmentLoad s t fd phdr)
        if 4 ≤ loadIdx then .error (.overrun loadIdx)
        else elfLoop t fd ehdr left (progIdx + 1) (loadIdx + 1) (recordHeader s t loadIdx phdr)
      else elfLoop t fd ehdr left (progIdx + 1) loadIdx s

def elfBody (s : System) (t : Tid) (fd : Int) : Except Stop (Int × System) := do
  let (nbyte, data, files) ← lift (readFile s.files t fd ehdrSize)
  let s := { s with files := files }
  let ehdr := Ehdr.load (bytesOf data)
  if nbyte ≠ ehdrSize ∨ ¬ ehdr.accepted then return (-(ehdrSize : Int), s)
  else
    let (ret, loadIdx, s) ← elfLoop t fd ehdr ehdr.phnum 0 0 s
    if ret < 0 then return (ret, s)
    else
      let s := { s with machine := s.machine.setSpace t fun space => { space with heapEnd := space.heapStart } }
      lift (assert (decide (loadIdx ≤ 4)))
      return (toSigned ehdr.entry, s)

def elfParse (s : System) (t : Tid) (pathname : List UInt8) : Except Stop (Int × System) := do
  let (fd, files) ← lift (sysOpen s.files t pathname)
  let s := { s with files := files }
  if fd < 0 then return (fd, s)
  else
    let (ret, s) ← elfBody s t fd
    let (_, files) ← lift (sysClose s.files t fd)
    return (ret, { s with files := files })

/-- A call that succeeds goes on at the entry point instead of returning. -/
def sysExecv (s : System) (t : Tid) (pathname : List UInt8) : Except Stop (Int × System) :=
  elfParse { s with machine := s.machine.setSpace t fun space => { space with heapStart := 0 } } t pathname

end RecoverOs.Userprog
