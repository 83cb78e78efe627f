import RecoverOs.Basic

namespace RecoverOs.Fs.Cache

abbrev Tid := Nat

abbrev Ptr := Nat

structure Semaphore where
  value : Nat
  waiters : List Tid
  deriving DecidableEq, Repr

/-- `live` is false before `kalloc` and after `kfree`; the words of a freed block stay as they are. -/
structure Inode where
  iNo : Nat
  openCnts : Int
  inodeLock : Semaphore
  live : Bool
  deriving DecidableEq, Repr

/-- Where a task stands: outside the functions, or at the `sema_down` it executes next. `openRead` and `useHold`
    wait for the disk, inside `open_inodes_lock` and inside `inode_lock`. -/
inductive Place where
  | outside
  | openLookup (iNo : Nat)
  | openRead (inode : Ptr) (iNo : Nat)
  | openCount (inode : Ptr)
  | useLock (inode : Ptr)
  | useHold (inode : Ptr)
  | closeLock (inode : Ptr)
  | closeList (inode : Ptr)
  deriving DecidableEq, Repr

/-- `held` lists the pointers `inode_open` has returned to a task and that the task has not closed. -/
structure State where
  tasks : Nat
  inode : Ptr → Inode
  openInodes : List Ptr
  openInodesLock : Semaphore
  place : Tid → Place
  held : Tid → List Ptr
  current : Option Tid
  ready : List Tid

def State.setPlace (s : State) (t : Tid) (place : Place) : State :=
  { s with place := Function.update s.place t place }

def State.setHeld (s : State) (t : Tid) (held : List Ptr) : State :=
  { s with held := Function.update s.held t held }

def State.setInode (s : State) (p : Ptr) (f : Inode → Inode) : State :=
  { s with inode := Function.update s.inode p (f (s.inode p)) }

/-- The part of `sema_down` that waits: the task joins the queue and another task runs. -/
def Semaphore.wait (sema : Semaphore) (t : Tid) : Except Halt Semaphore := do
  assert (!sema.waiters.contains t)
  return { sema with waiters := sema.waiters ++ [t] }

def Semaphore.up (sema : Semaphore) : Except Halt (Semaphore × Option Tid) := do
  assert (sema.value == 0)
  return ({ value := 1, waiters := sema.waiters.tail }, sema.waiters.head?)

def State.wake (s : State) (woken : Option Tid) : State :=
  { s with ready := woken.toList ++ s.ready }

def upOpenInodesLock (s : State) : Except Halt State := do
  let (sema, woken) ← s.openInodesLock.up
  return { s with openInodesLock := sema }.wake woken

def upInodeLock (s : State) (p : Ptr) : Except Halt State := do
  let (sema, woken) ← (s.inode p).inodeLock.up
  return (s.setInode p fun inode => { inode with inodeLock := sema }).wake woken

def waitOpenInodesLock (s : State) (t : Tid) : Except Halt State := do
  let sema ← s.openInodesLock.wait t
  return { s with openInodesLock := sema, current := none }

def waitInodeLock (s : State) (p : Ptr) (t : Tid) : Except Halt State := do
  let sema ← (s.inode p).inodeLock.wait t
  return { s.setInode p (fun inode => { inode with inodeLock := sema }) with current := none }

def findInode (s : State) (iNo : Nat) : Option Ptr :=
  s.openInodes.find? fun p => (s.inode p).iNo == iNo

def takeOpenInodesLock (s : State) : State :=
  { s with openInodesLock := { s.openInodesLock with value := 0 } }

def takeInodeLock (s : State) (p : Ptr) : State :=
  s.setInode p fun inode => { inode with inodeLock := { inode.inodeLock with value := 0 } }

/-- `inode_open` from its first `sema_down` on. A miss takes a block from `kalloc` (`fresh`) and has to wait for
    `block_read` with `open_inodes_lock` held. -/
def goLookup (s : State) (t : Tid) (iNo : Nat) (fresh : Ptr) : Except Halt State :=
  if s.openInodesLock.value = 0 then waitOpenInodesLock s t
  else
    match findInode s iNo with
    | some p => upOpenInodesLock ((takeOpenInodesLock s).setPlace t (.openCount p))
    | none => do
      offer (!(s.inode fresh).live)
      return { ((takeOpenInodesLock s).setInode fresh fun inode => { inode with live := true }).setPlace t
        (.openRead fresh iNo) with current := none }

/-- The rest of a miss, once the disk has answered. -/
def goRead (s : State) (t : Tid) (p : Ptr) (iNo : Nat) : Except Halt State :=
  upOpenInodesLock { (s.setInode p fun _ =>
      { iNo := iNo, openCnts := 0, inodeLock := ⟨1, []⟩, live := true }).setPlace t (.openCount p) with
    openInodes := p :: s.openInodes }

def goCount (s : State) (t : Tid) (p : Ptr) : Except Halt State :=
  if (s.inode p).inodeLock.value = 0 then waitInodeLock s p t
  else
    upInodeLock ((((takeInodeLock s p).setInode p fun inode =>
      { inode with openCnts := inode.openCnts + 1 }).setPlace t .outside).setHeld t (p :: s.held t)) p

/-- A caller takes `inode_lock` for an operation that may wait for the disk. -/
def goUse (s : State) (t : Tid) (p : Ptr) (io : Bool) : Except Halt State :=
  if (s.inode p).inodeLock.value = 0 then waitInodeLock s p t
  else
    let s := (takeInodeLock s p).setPlace t (.useHold p)
    .ok (if io then { s with current := none } else s)

def goHold (s : State) (t : Tid) (p : Ptr) (io : Bool) : Except Halt State :=
  if io then .ok { s with current := none } else upInodeLock (s.setPlace t .outside) p

/-- `inode_close` up to its second `sema_down`. -/
def goClose (s : State) (t : Tid) (p : Ptr) : Except Halt State :=
  if (s.inode p).inodeLock.value = 0 then waitInodeLock s p t
  else
    let s := ((takeInodeLock s p).setInode p fun inode => { inode with openCnts := inode.openCnts - 1 }).setHeld t
      ((s.held t).erase p)
    if (s.inode p).openCnts = 0 then .ok (s.setPlace t (.closeList p))
    else upInodeLock (s.setPlace t .outside) p

def goUnlink (s : State) (t : Tid) (p : Ptr) : Except Halt State :=
  if s.openInodesLock.value = 0 then waitOpenInodesLock s t
  else do
    let s ← upOpenInodesLock { takeOpenInodesLock s with openInodes := s.openInodes.erase p }
    upInodeLock ((s.setInode p fun inode => { inode with live := false }).setPlace t .outside) p

inductive Call where
  | inodeOpen (iNo : Nat)
  | use (inode : Ptr)
  | inodeClose (inode : Ptr)
  deriving DecidableEq, Repr

/-- `go fresh io` lets the running task execute up to its next `sema_down`; `fresh` is the block `kalloc` would return
    and `io` says whether an operation under `inode_lock` waits for the disk. A task gives up the processor only in a
    `sema_down` that has to wait. -/
inductive Op where
  | call (c : Call)
  | go (fresh : Ptr) (io : Bool)
  | diskDone (t : Tid)
  | dispatch
  deriving DecidableEq, Repr

def goTask (s : State) (t : Tid) (fresh : Ptr) (io : Bool) : Except Halt State :=
  match s.place t with
  | .outside => .error .refused
  | .openLookup iNo => goLookup s t iNo fresh
  | .openRead p iNo => if io then .ok { s with current := none } else goRead s t p iNo
  | .openCount p => goCount s t p
  | .useLock p => goUse s t p io
  | .useHold p => goHold s t p io
  | .closeLock p => goClose s t p
  | .closeList p => goUnlink s t p

def Place.onDisk : Place → Bool
  | .openRead _ _ | .useHold _ => true
  | _ => false

def callPlace (s : State) (t : Tid) : Call → Except Halt Place
  | .inodeOpen iNo => do
    offer (decide (iNo < 128))
    return .openLookup iNo
  | .use p => do
    offer ((s.held t).contains p)
    return .useLock p
  | .inodeClose p => do
    offer ((s.held t).contains p)
    return .closeLock p

def step (s : State) : Op → Except Halt State
  | .call c =>
    match s.current with
    | none => .error .refused
    | some t => do
      offer (decide (t < s.tasks) && s.place t == .outside)
      let place ← callPlace s t c
      return s.setPlace t place
  | .go fresh io =>
    match s.current with
    | none => .error .refused
    | some t => goTask s t fresh io
  | .diskDone t => do
    offer ((s.place t).onDisk && s.current != some t && !s.ready.contains t)
    return { s with ready := t :: s.ready }
  | .dispatch =>
    match s.current, s.ready with
    | none, t :: rest => .ok { s with current := some t, ready := rest }
    | _, _ => .error .refused

def start (tasks : Nat) (current : Tid) (ready : List Tid) : State where
  tasks := tasks
  inode := fun _ => { iNo := 0, openCnts := 0, inodeLock := ⟨1, []⟩, live := false }
  openInodes := []
  openInodesLock := ⟨1, []⟩
  place := fun _ => .outside
  held := fun _ => []
  current := some current
  ready := ready

end RecoverOs.Fs.Cache
