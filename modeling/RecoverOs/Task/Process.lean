import RecoverOs.Basic
import RecoverOs.Lib.Bitmap

namespace RecoverOs.Task

open Lib

abbrev Page := Nat

def kernelPml4 : Page := 0xffff800000100
def kernelPoolStart : Page := 0xffff800000104
def kernelPoolPages : Nat := 8 * (252 / 8)

inductive TaskStatus where
  | running
  | ready
  | blocked
  | hanging
  | waiting
  | died
  deriving DecidableEq, Repr

/-- The system call a task is inside while it is switched out. -/
inductive Place where
  | user
  | inWait
  | inExit
  deriving DecidableEq, Repr

structure TaskStruct where
  pml4 : Page
  pid : Int
  prio : Nat
  ticks : Nat
  status : TaskStatus
  parentTask : Page
  exitStatus : Int
  place : Place
  deriving DecidableEq, Repr

inductive Pml4Event where
  | alloc (page : Page)
  | free (page : Page)
  deriving DecidableEq, Repr

/-- `pml4Log` is a history variable: the top-level tables `sys_clone` has allocated and `sys_wait` has freed, newest
    first. No function reads it. A task is named by the kernel page that holds its `task_struct`, as in the source. -/
structure Tasks where
  task : Page → TaskStruct
  allTasksList : List Page
  readyTasksList : List Page
  current : Page
  idleTask : Page
  initProc : Page
  pidBitmap : Bitmap
  pool : Page → Bool
  pml4Log : List Pml4Event

def Tasks.modify (s : Tasks) (t : Page) (f : TaskStruct → TaskStruct) : Tasks :=
  { s with task := Function.update s.task t (f (s.task t)) }

def Tasks.setStatus (s : Tasks) (t : Page) (status : TaskStatus) : Tasks :=
  s.modify t fun ts => { ts with status := status }

def Tasks.setPlace (s : Tasks) (t : Page) (place : Place) : Tasks :=
  s.modify t fun ts => { ts with place := place }

/-- `alloc_pages(1)` answered with `page`: any page of the kernel pool whose bit is clear. Which one depends on
    what the rest of the kernel holds. -/
def allocPage (s : Tasks) (page : Page) : Except Halt Tasks := do
  offer (decide (kernelPoolStart ≤ page ∧ page < kernelPoolStart + kernelPoolPages) && !s.pool page)
  return { s with pool := Function.update s.pool page true }

def freePage (s : Tasks) (page : Page) : Except Halt Tasks := do
  assert (s.pool page)
  return { s with pool := Function.update s.pool page false }

/-- `alloc_pid`; the result of a failed `bitmap_alloc` is used as it is. -/
def allocPid (s : Tasks) : Int × Tasks :=
  match bitmapAlloc s.pidBitmap 1 with
  | some (bitIdx, btmp) => (bitIdx, { s with pidBitmap := btmp })
  | none => (-1, s)

def releasePid (s : Tasks) (pid : Int) : Tasks :=
  { s with pidBitmap := bitmapSet s.pidBitmap pid.toNat false }

def taskUnblock (s : Tasks) (t : Page) : Except Halt Tasks := do
  let status := (s.task t).status
  assert (status == .blocked || status == .hanging || status == .waiting)
  assert (!s.readyTasksList.contains t)
  return { s with readyTasksList := t :: s.readyTasksList }

def requeue (s : Tasks) : Except Halt Tasks := do
  let cur := s.task s.current
  if cur.status = .running then
    assert (cur.ticks == 0)
    assert (!s.readyTasksList.contains s.current)
    return { s.modify s.current (fun ts => { ts with status := .ready, ticks := ts.prio }) with
      readyTasksList := s.readyTasksList ++ [s.current] }
  else return s

def switchNext (s : Tasks) : Except Halt Tasks :=
  match s.readyTasksList with
  | [] => .error .fault
  | next :: rest => .ok { s.setStatus next .running with readyTasksList := rest, current := next }

def schedule (s : Tasks) : Except Halt Tasks := do
  let s ← requeue s
  let s ← (if s.readyTasksList.isEmpty then taskUnblock s s.idleTask else .ok s)
  switchNext s

def taskBlock (s : Tasks) (status : TaskStatus) : Except Halt Tasks := do
  assert (status == .blocked || status == .hanging || status == .waiting)
  schedule (s.setStatus s.current status)

def taskYield (s : Tasks) : Except Halt Tasks := do
  assert (!s.readyTasksList.contains s.current)
  schedule { s.setStatus s.current .ready with readyTasksList := s.readyTasksList ++ [s.current] }

def intrTimeHandle (s : Tasks) : Except Halt Tasks :=
  if (s.task s.current).ticks = 0 then schedule s
  else .ok (s.modify s.current fun ts => { ts with ticks := ts.ticks - 1 })

def initTask (s : Tasks) (task : Page) (prio : Nat) : Except Halt Tasks := do
  let (pid, s) := allocPid s
  let parent := if pid > 1 then s.current else task
  assert (!s.allTasksList.contains task)
  return { s.modify task (fun ts => { ts with
      pid := pid, parentTask := parent, pml4 := (s.task parent).pml4, prio := prio, ticks := prio,
      place := .user }) with
    allTasksList := s.allTasksList ++ [task] }

def createTask (s : Tasks) (task : Page) (prio : Nat) : Except Halt Tasks := do
  let s ← allocPage s task
  let s ← initTask s task prio
  assert (!s.readyTasksList.contains task)
  return { s.setStatus task .ready with readyTasksList := s.readyTasksList ++ [task] }

/-- What `memset(page, 0, PG_SIZE)` leaves of a `task_struct` in the page. -/
def Tasks.clear (s : Tasks) (page : Page) : Tasks :=
  s.modify page fun ts => { ts with
    pml4 := 0, pid := 0, prio := 0, ticks := 0, status := .running, parentTask := 0, exitStatus := 0 }

/-- `sys_clone` as the process tree sees it; `task` and `pml4` are the pages the pool hands out. The new table is
    cleared whatever the page held before. -/
def sysClone (s : Tasks) (cloneVm : Bool) (task pml4 : Page) : Except Halt Tasks := do
  let s ← createTask s task 30
  if cloneVm then return s
  else
    let s ← allocPage s pml4
    let s := s.modify task fun ts => { ts with pml4 := pml4 }
    return { s.clear pml4 with pml4Log := .alloc pml4 :: s.pml4Log }

def findHangingChild (s : Tasks) (parent elem : Page) : Bool :=
  decide ((s.task elem).parentTask = parent ∧ (s.task elem).status = .hanging)

def findChild (s : Tasks) (parent elem : Page) : Bool :=
  decide ((s.task elem).parentTask = parent)

def freePml4 (s : Tasks) (pml4 : Page) : Except Halt Tasks := do
  let s ← freePage s pml4
  return { s with pml4Log := .free pml4 :: s.pml4Log }

def reap (s : Tasks) (child : Page) : Except Halt Tasks := do
  let pml4 := (s.task child).pml4
  let pid := (s.task child).pid
  let s := s.setStatus child .died
  let s ← (if (s.task s.current).pml4 ≠ pml4 then freePml4 s pml4 else .ok s)
  let s := if s.readyTasksList.contains child then { s with readyTasksList := s.readyTasksList.erase child } else s
  let s := { s with allTasksList := s.allTasksList.erase child }
  freePage (releasePid s pid) child

def sysWait (s : Tasks) : Except Halt Tasks :=
  match s.allTasksList.find? (findHangingChild s s.current) with
  | some child => reap (s.setPlace s.current .user) child
  | none =>
    match s.allTasksList.find? (findChild s s.current) with
    | none => .ok (s.setPlace s.current .user)
    | some _ => taskBlock (s.setPlace s.current .inWait) .waiting

/-- What `sys_wait` returns: the pid of the child it reaped with the exit status it stores, or -1. It returns nothing
    before it has slept. -/
inductive WaitResult where
  | reaped (pid exitStatus : Int)
  | noChild
  | asleep
  deriving DecidableEq, Repr

def sysWaitTurn (s : Tasks) : Except Halt (WaitResult × Tasks) :=
  match s.allTasksList.find? (findHangingChild s s.current) with
  | some child => do
    let result := WaitResult.reaped (s.task child).pid (s.task child).exitStatus
    let s ← reap (s.setPlace s.current .user) child
    return (result, s)
  | none =>
    match s.allTasksList.find? (findChild s s.current) with
    | none => .ok (.noChild, s.setPlace s.current .user)
    | some _ => do
      let s ← taskBlock (s.setPlace s.current .inWait) .waiting
      return (.asleep, s)

def initAdopt (s : Tasks) (task : Page) : Tasks :=
  { s with task := fun p =>
      if p ∈ s.allTasksList ∧ (s.task p).parentTask = task then { s.task p with parentTask := s.initProc }
      else s.task p }

def exitStart (s : Tasks) (status : Int) : Except Halt Tasks := do
  let s := s.modify s.current fun ts => { ts with exitStatus := status, place := .inExit }
  assert (decide ((s.task s.current).pid > 1))
  return initAdopt s s.current

def exitFinish (s : Tasks) : Except Halt Tasks := do
  let parent := (s.task s.current).parentTask
  let s ← (if (s.task parent).status = .waiting then taskUnblock s parent else .ok s)
  taskBlock s .hanging

/-- `exitBlock` is a `sys_exit` that has to sleep while it releases its resources, `exitAgain` sleeps once more and
    `exitResume` completes it. `block` and `unblock` stand for every other sleep in the kernel. -/
inductive Op where
  | tick
  | idle
  | yield
  | block
  | unblock (t : Page)
  | clone (cloneVm : Bool) (task pml4 : Page)
  | wait
  | waitResume
  | exit (status : Int)
  | exitBlock (status : Int)
  | exitAgain
  | exitResume
  deriving DecidableEq, Repr

def Tasks.inCall (s : Tasks) : Bool :=
  s.current != s.idleTask && (s.task s.current).place == .user

def step (s : Tasks) : Op → Except Halt Tasks
  | .tick => do
    offer ((s.task s.current).place == .user)
    intrTimeHandle s
  | .idle => do
    offer (s.current == s.idleTask)
    taskBlock s .blocked
  | .yield => do
    offer s.inCall
    taskYield s
  | .block => do
    offer s.inCall
    taskBlock s .blocked
  | .unblock t => do
    offer (t != s.idleTask && s.allTasksList.contains t && (s.task t).status == .blocked &&
      !s.readyTasksList.contains t)
    taskUnblock s t
  | .clone cloneVm task pml4 => do
    offer s.inCall
    sysClone s cloneVm task pml4
  | .wait => do
    offer s.inCall
    sysWait s
  | .waitResume => do
    offer ((s.task s.current).place == .inWait)
    sysWait s
  | .exit status => do
    offer s.inCall
    let s ← exitStart s status
    exitFinish s
  | .exitBlock status => do
    offer s.inCall
    let s ← exitStart s status
    taskBlock s .blocked
  | .exitAgain => do
    offer ((s.task s.current).place == .inExit)
    taskBlock s .blocked
  | .exitResume => do
    offer ((s.task s.current).place == .inExit)
    exitFinish s

/-- The calls of `Op` and `create_task` by the kernel's own code. -/
inductive TreeOp where
  | call (op : Op)
  | create (task : Page) (prio : Nat)
  deriving DecidableEq, Repr

def treeStep (s : Tasks) : TreeOp → Except Halt Tasks
  | .call op => step s op
  | .create task prio => do
    offer s.inCall
    createTask s task prio

/-- The state `task_init` leaves, with `idle` and `main` the pages of the first two tasks and `held` the pages the
    rest of the kernel holds. -/
def taskInit (idle main : Page) (held : Page → Bool) : Tasks where
  task := fun p =>
    { pml4 := kernelPml4, pid := if p = main then 1 else 0, prio := 30, ticks := 30,
      status := if p = main then .running else .ready, parentTask := if p = main then main else idle,
      exitStatus := 0, place := .user }
  allTasksList := [idle, main]
  readyTasksList := [idle]
  current := main
  idleTask := idle
  initProc := main
  pidBitmap := ⟨128, fun idx => decide (idx < 2)⟩
  pool := fun p => p == idle || p == main || held p
  pml4Log := []

end RecoverOs.Task
