import RecoverOs.Fs.Dir

namespace RecoverOs.Fs

open Bytes

def maxFilesOpenPerProc : Nat := 32

def fileTableSize : Nat := 170

def fdInvalid : Int := 8

abbrev Tid := Nat

/-- What `f_inode` points to. A pipe's queue fills a page. -/
inductive Object where
  | console
  | inode (p : Ptr)
  | ioqueue (page : Nat)
  deriving DecidableEq, Repr

structure File where
  fPos : Int
  fInode : Option Object
  fType : FileType
  deriving DecidableEq, Repr

structure Ioqueue where
  buf : Buffer
  head : Nat
  tail : Nat

/-- Tasks are numbered in the order of their creation. `livePages` are the pages `sys_pipe` has taken and nobody has
    freed. Two history variables that no function reads: `pipes`, the pages that became the queue of a pipe, and
    `installed`, the object a descriptor was given. Each call runs to its end before the next one, so
    `file_table_lock` is left out. -/
structure Files where
  fs : State
  fileTable : Nat → File
  fdTable : Tid → Nat → Int
  tasks : Nat
  exited : Tid → Bool
  ioqueue : Nat → Ioqueue
  livePages : List Nat
  freshPage : Nat
  pipes : List Nat
  installed : Tid → Nat → Option Object

def Files.setFile (s : Files) (i : Nat) (f : File → File) : Files :=
  { s with fileTable := Function.update s.fileTable i (f (s.fileTable i)) }

def Files.setFd (s : Files) (t : Tid) (fd : Nat) (ftIdx : Int) (object : Option Object) : Files :=
  { s with
    fdTable := Function.update s.fdTable t (Function.update (s.fdTable t) fd ftIdx)
    installed := Function.update s.installed t (Function.update (s.installed t) fd object) }

def freeSlotFrom (table : Nat → File) : Nat → Nat → Nat
  | i, 0 => i
  | i, left + 1 => if (table i).fInode = none then i else freeSlotFrom table (i + 1) left

def getFreeSlot (s : Files) (inode : Option Object) (fType : FileType) : Nat × Files :=
  let i := freeSlotFrom s.fileTable 0 fileTableSize
  if i ≠ fileTableSize then (i, s.setFile i fun _ => { fPos := 0, fInode := inode, fType := fType }) else (i, s)

def freeFdFrom (table : Nat → Int) : Nat → Nat → Nat
  | i, 0 => i
  | i, left + 1 => if table i = -1 then i else freeFdFrom table (i + 1) left

def freeFdAlloc (s : Files) (t : Tid) : Nat := freeFdFrom (s.fdTable t) 0 maxFilesOpenPerProc

/-- `f_inode` of a file that is opened: the console for a character device, else the inode. -/
def openObject (fs : State) (de : Dirent) : Except Halt (Option Object × State) :=
  if de.fType = .chr then .ok (some .console, fs)
  else do
    let (opened, fs) ← inodeOpen fs de.iNo
    return (opened.map Object.inode, fs)

def sysOpen (s : Files) (t : Tid) (pathname : List UInt8) : Except Halt (Int × Files) := do
  let (pINo, deBuf, fs) ← pathPrase s.fs pathname
  let s := { s with fs := fs }
  if pINo < 0 ∨ deBuf.iNo = ulongMax then return (-fileIsntExist, s)
  else
    let fd := freeFdAlloc s t
    if fd = maxFilesOpenPerProc then return (-(fd : Int), s)
    else
      let (object, fs) ← openObject s.fs deBuf
      match getFreeSlot { s with fs := fs } object deBuf.fType with
      | (ftIdx, s) =>
        let s := if deBuf.fType = .chr then s.setFile ftIdx fun file => { file with fPos := 1 } else s
        if ftIdx = fileTableSize then return (-(ftIdx : Int), s)
        else return ((fd : Int), s.setFd t fd ftIdx object)

/-- Past the table lies the address of the interrupt stack, which is negative as a `ssize_t`. -/
def fdEntry (s : Files) (t : Tid) (fd : Int) : Int :=
  if 0 ≤ fd ∧ fd < maxFilesOpenPerProc then s.fdTable t fd.toNat else -1

def fdRejected (s : Files) (t : Tid) (fd : Int) : Bool :=
  decide (fd < 0) || decide ((maxFilesOpenPerProc : Int) < fd) || decide (fdEntry s t fd < 0) ||
    decide ((fileTableSize : Int) ≤ fdEntry s t fd)

def freePage (s : Files) (page : Nat) : Files := { s with livePages := s.livePages.erase page }

def dropSlot (s : Files) (i : Nat) : Except Halt Files :=
  let file := s.fileTable i
  let lowered := s.setFile i fun file => { file with fPos := file.fPos - 1 }
  match file.fType, file.fInode with
  | _, none => .error .panic
  | .chr, some _ =>
    .ok (if file.fPos - 1 = 0 then lowered.setFile i fun file => { file with fInode := none } else lowered)
  | .fifo, some (.ioqueue page) =>
    .ok (if file.fPos - 1 = 0 then (freePage lowered page).setFile i fun file => { file with fInode := none }
      else lowered)
  | .dir, some (.inode p) | .reg, some (.inode p) | .other _, some (.inode p) => do
    let fs ← inodeClose s.fs p
    return { s with fs := fs }.setFile i fun file => { file with fInode := none }
  | _, some _ => .error .fault

def sysClose (s : Files) (t : Tid) (fd : Int) : Except Halt (Int × Files) :=
  if fdRejected s t fd then .ok (-fdInvalid, s)
  else do
    let s ← dropSlot s (fdEntry s t fd).toNat
    return (0, s.setFd t fd.toNat (-1) none)

inductive Whence where
  | seekSet
  | seekCur
  | seekEnd
  deriving DecidableEq, Repr

def sysLseek (s : Files) (t : Tid) (fd offset : Int) (whence : Whence) : Except Halt (Int × Files) :=
  if fdRejected s t fd then .ok (-fdInvalid, s)
  else
    let i := (fdEntry s t fd).toNat
    match (s.fileTable i).fType, (s.fileTable i).fInode with
    | .reg, some (.inode p) | .dir, some (.inode p) =>
      let fileSize : Int := (s.fs.inode p).diskInode.fileSize
      let newPos := match whence with
        | .seekSet => offset
        | .seekCur => (s.fileTable i).fPos + offset
        | .seekEnd => fileSize + offset
      if newPos < 0 ∨ fileSize < newPos then .ok (-1, s)
      else .ok (newPos, s.setFile i fun file => { file with fPos := newPos })
    | .reg, _ | .dir, _ => .error .fault
    | _, _ => .ok (0, s)

def bufsize : Nat := 2048

def ioqLength (ioq : Ioqueue) : Nat :=
  if ioq.tail ≤ ioq.head then ioq.head - ioq.tail else bufsize - (ioq.tail - ioq.head)

/-- `ioq_putchar` by a task that nobody wakes when the queue is full. -/
def ioqPutchar (ioq : Ioqueue) (byte : UInt8) : Except Halt Ioqueue :=
  if (ioq.head + 1) % bufsize = ioq.tail then .error .stuck
  else .ok { ioq with buf := Function.update ioq.buf ioq.head byte, head := (ioq.head + 1) % bufsize }

def ioqGetchar (ioq : Ioqueue) : Except Halt (UInt8 × Ioqueue) :=
  if ioq.head = ioq.tail then .error .stuck
  else .ok (ioq.buf ioq.tail, { ioq with tail := (ioq.tail + 1) % bufsize })

def pipeReadLoop : Ioqueue → Nat → Except Halt (List UInt8 × Ioqueue)
  | ioq, 0 => .ok ([], ioq)
  | ioq, left + 1 => do
    let (byte, ioq) ← ioqGetchar ioq
    let (rest, ioq) ← pipeReadLoop ioq left
    return (byte :: rest, ioq)

def pipeWriteLoop (buffer : Buffer) : Ioqueue → Nat → Nat → Except Halt Ioqueue
  | ioq, _, 0 => .ok ioq
  | ioq, i, left + 1 => do
    let ioq ← ioqPutchar ioq (buffer i)
    pipeWriteLoop buffer ioq (i + 1) left

def sysRead (s : Files) (t : Tid) (fd : Int) (count : Nat) : Except Halt (Int × List UInt8 × Files) :=
  if fdRejected s t fd then .ok (-fdInvalid, [], s)
  else
    let i := (fdEntry s t fd).toNat
    match (s.fileTable i).fType, (s.fileTable i).fInode with
    | .dir, some (.inode p) | .reg, some (.inode p) => do
      let fs ← semaDown s.fs p
      let (nbyte, data) ← inodeRead fs p count (s.fileTable i).fPos.toNat
      let fs ← semaUp fs p
      let s := { s with fs := fs }
      return ((nbyte : Int), (List.range nbyte).map data,
        if 0 < nbyte then s.setFile i fun file => { file with fPos := file.fPos + nbyte } else s)
    | .dir, _ | .reg, _ => .error .fault
    | .chr, _ => .ok ((count : Int), [], s)
    | .fifo, some (.ioqueue page) => do
      let (data, ioq) ← pipeReadLoop (s.ioqueue page) (min (ioqLength (s.ioqueue page)) count)
      return ((data.length : Int), data, { s with ioqueue := Function.update s.ioqueue page ioq })
    | .fifo, _ => .error .fault
    | .other _, _ => .ok (0, [], s)

def sysWrite (s : Files) (t : Tid) (fd : Int) (buf : Buffer) (count : Nat) : Except Halt (Int × Files) :=
  if fdRejected s t fd then .ok (-fdInvalid, s)
  else
    let i := (fdEntry s t fd).toNat
    match (s.fileTable i).fType, (s.fileTable i).fInode with
    | .reg, some (.inode p) => do
      let fs ← semaDown s.fs p
      let (nbyte, fs) ← inodeWrite fs p buf count (s.fileTable i).fPos.toNat
      let fs ← semaUp fs p
      let s := { s with fs := fs }
      return (nbyte, if 0 < nbyte then s.setFile i fun file => { file with fPos := file.fPos + nbyte } else s)
    | .reg, _ => .error .fault
    | .chr, _ => .ok ((count : Int), s)
    | .fifo, some (.ioqueue page) => do
      let size := min (bufsize - ioqLength (s.ioqueue page)) count
      let ioq ← pipeWriteLoop buf (s.ioqueue page) 0 size
      return ((size : Int), { s with ioqueue := Function.update s.ioqueue page ioq })
    | .fifo, _ => .error .fault
    | .dir, _ | .other _, _ => .ok (0, s)

/-- The descriptors written to the caller's array stand beside the result. -/
def sysPipe (s : Files) (t : Tid) : Int × List Nat × Files :=
  let page := s.freshPage
  let s := { s with livePages := page :: s.livePages, freshPage := page + 1 }
  match getFreeSlot s (some (.ioqueue page)) .fifo with
  | (ftIdx, s) =>
    if ftIdx = fileTableSize then (-(fileTableSize : Int), [], s)
    else
      let empty : Ioqueue := { s.ioqueue page with head := 0, tail := 0 }
      let s := { s with ioqueue := Function.update s.ioqueue page empty, pipes := page :: s.pipes }
      let s := s.setFile ftIdx fun file => { file with fPos := 2 }
      let fd0 := freeFdAlloc s t
      if fd0 = maxFilesOpenPerProc then (-(maxFilesOpenPerProc : Int), [fd0], freePage s page)
      else
        let s := s.setFd t fd0 ftIdx (some (.ioqueue page))
        let fd1 := freeFdAlloc s t
        if fd1 = maxFilesOpenPerProc then
          (-(maxFilesOpenPerProc : Int), [fd0, fd1], freePage (s.setFd t fd0 (-1) none) page)
        else (0, [fd0, fd1], s.setFd t fd1 ftIdx (some (.ioqueue page)))

/-- The arguments are not checked: a number past the table writes to the rest of the task's page. -/
def sysDup2 (s : Files) (t : Tid) (oldfd newfd : Nat) : Except Halt (Int × Files) :=
  if oldfd < maxFilesOpenPerProc ∧ newfd < maxFilesOpenPerProc then
    .ok ((newfd : Int), s.setFd t oldfd (s.fdTable t newfd) (s.installed t newfd))
  else .error .fault

/-- `open_cnts` of an inode lies where a pipe's queue has bytes 56 to 63 of its buffer. -/
def bumpIoqueue (ioq : Ioqueue) : Ioqueue :=
  { ioq with buf := copy ioq.buf 56 (byteOf (wordAt 8 ioq.buf 56 + 1)) 8 }

def inheritSlot (s : Files) (ftIdx : Int) : Except Halt Files :=
  if ftIdx = -1 then .ok s
  else
    let i := ftIdx.toNat
    let raised := s.setFile i fun file => { file with fPos := file.fPos + 1 }
    match (s.fileTable i).fType, (s.fileTable i).fInode with
    | .chr, _ => .ok raised
    | .fifo, some (.ioqueue page) =>
      .ok { raised with ioqueue := Function.update s.ioqueue page (bumpIoqueue (s.ioqueue page)) }
    | .dir, some (.inode p) | .reg, some (.inode p) | .other _, some (.inode p) => .ok { s with fs := s.fs.addOpen p }
    | _, _ => .error .fault

def inheritSlots (s : Files) (table : Nat → Int) : Nat → Except Halt Files
  | 0 => .ok s
  | cnt + 1 => do
    let s ← inheritSlots s table cnt
    inheritSlot s (table cnt)

/-- The part of `sys_clone` that concerns descriptors. -/
def sysClone (s : Files) (t : Tid) : Except Halt (Int × Files) := do
  let child := s.tasks
  let s := { s with
    tasks := s.tasks + 1
    exited := Function.update s.exited child false
    fdTable := Function.update s.fdTable child (s.fdTable t)
    installed := Function.update s.installed child (s.installed t) }
  let s ← inheritSlots s (s.fdTable child) maxFilesOpenPerProc
  return ((child : Int), s)

/-- The first loop of `release_prog_resource` over the first `cnt` descriptors. -/
def releaseFds (s : Files) (t : Tid) : Nat → Except Halt Files
  | 0 => .ok s
  | cnt + 1 => do
    let s ← releaseFds s t cnt
    if s.fdTable t cnt ≠ -1 then
      let (_, s) ← sysClose s t cnt
      return s
    else return s

/-- The part of `sys_exit` that concerns descriptors. -/
def sysExit (s : Files) (t : Tid) : Except Halt Files := do
  assert (decide (1 < t))
  let s ← releaseFds s t maxFilesOpenPerProc
  return { s with exited := Function.update s.exited t true }

inductive FileOp where
  | open (pathname : List UInt8)
  | close (fd : Int)
  | read (fd : Int) (count : Nat)
  | write (fd : Int) (buf : Buffer) (count : Nat)
  | mknod (pathname : List UInt8) (type : FileType) (dev : Int)
  | unlink (pathname : List UInt8)
  | mkdir (pathname : List UInt8)
  | rmdir (pathname : List UInt8)
  | stat (pathname : List UInt8)
  | pipe
  | dup2 (oldfd newfd : Nat)
  | clone
  | exit

def Files.live (s : Files) (t : Tid) : Bool := decide (t < s.tasks) && !s.exited t

def Files.call (s : Files) (t : Tid) : FileOp → Except Halt Files
  | .open pathname => do
    let (_, s) ← sysOpen s t pathname
    return s
  | .close fd => do
    let (_, s) ← sysClose s t fd
    return s
  | .read fd count => do
    let (_, _, s) ← sysRead s t fd count
    return s
  | .write fd buf count => do
    let (_, s) ← sysWrite s t fd buf count
    return s
  | .mknod pathname type dev => do
    let (_, fs) ← sysMknod s.fs pathname type dev
    return { s with fs := fs }
  | .unlink pathname => do
    let (_, fs) ← sysUnlink s.fs pathname
    return { s with fs := fs }
  | .mkdir pathname => do
    let (_, fs) ← sysMkdir s.fs pathname
    return { s with fs := fs }
  | .rmdir pathname => do
    let (_, fs) ← sysRmdir s.fs pathname
    return { s with fs := fs }
  | .stat pathname => do
    let (_, _, fs) ← sysStat s.fs pathname
    return { s with fs := fs }
  | .pipe => .ok (sysPipe s t).2.2
  | .dup2 oldfd newfd => do
    let (_, s) ← sysDup2 s t oldfd newfd
    return s
  | .clone => do
    let (_, s) ← sysClone s t
    return s
  | .exit => sysExit s t

/-- A system call of a task that is alive. -/
def Files.step (s : Files) (op : Tid × FileOp) : Except Halt Files := do
  offer (s.live op.1)
  s.call op.1 op.2

def Files.start (fs : State) (tasks : Nat) : Files where
  fs := fs
  fileTable := fun _ => { fPos := 0, fInode := none, fType := .dir }
  fdTable := fun _ _ => -1
  tasks := tasks
  exited := fun _ => false
  ioqueue := fun _ => { buf := fun _ => 0, head := 0, tail := 0 }
  livePages := []
  freshPage := 0
  pipes := []
  installed := fun _ _ => none

end RecoverOs.Fs
