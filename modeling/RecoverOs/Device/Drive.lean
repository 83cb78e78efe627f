import RecoverOs.Device.Ide
import RecoverOs.Logic.Bytes
import RecoverOs.Task.Sync

namespace RecoverOs.Device

open Bytes Transition

inductive ChannelSema where
  | lock
  | diskDone
  deriving DecidableEq, Repr

/-- What a task does in one go. `copyOut` and `copyIn` are the two `memcpy` of `fs/bio.c`. -/
inductive Act where
  | port (op : PortOp)
  | expectIntr
  | down (k : ChannelSema)
  | up (k : ChannelSema)
  | busyWait (timeLimit : Nat)
  | copyOut (count off : Nat)
  | copyIn (count off : Nat)
  deriving DecidableEq, Repr

/-- `media` are the bytes of the master and of the slave. Each task has a page for its request and the buffer of its
    caller; addresses count from the page. Of a semaphore only its value is kept. -/
structure Ide (τ : Type) where
  regs : Channel
  busy : Bool
  media : Bool → Buffer
  expectingIntr : Bool
  lock : Nat
  diskDone : Nat
  iobuf : τ → Buffer
  buf : τ → Buffer

variable {τ : Type} [DecidableEq τ]

/-- `sema_down` as far as the value goes: with 0 the caller sleeps and tries again. -/
def downValue (value : Nat) : Except Halt Nat :=
  if value = 0 then .error .refused
  else do
    assert (value - 1 == 0)
    return value - 1

def upValue (value : Nat) : Except Halt Nat := do
  assert (value == 0)
  assert (value + 1 == 1)
  return value + 1

def Ide.moveIn (s : Ide τ) (t : τ) (m : Transfer) : Ide τ :=
  { s with
    iobuf := Function.update s.iobuf t
      (copy (s.iobuf t) m.addr (fun b => s.media m.slave (512 * m.sector + b)) (min (512 * m.count) m.size)) }

def Ide.moveOut (s : Ide τ) (t : τ) (m : Transfer) : Ide τ :=
  { s with
    media := Function.update s.media m.slave
      (copy (s.media m.slave) (512 * m.sector) (fun b => s.iobuf t (m.addr + b)) (min (512 * m.count) m.size)) }

/-- A command keeps the drive busy. The registers of a busy drive must not be touched, and the data register only for
    a command that waits for its data; the drive takes and gives the words as fast as they are moved. -/
def portAccess (hd : HD) (t : τ) (s : Ide τ) (op : PortOp) : Except Halt (Ide τ) :=
  if s.busy then .error .fault
  else match op, s.regs.step (portBase hd) op with
    | .outb port _, (regs, _) => .ok { s with regs := regs, busy := decide (port = regCmd hd) }
    | .insw _ _ _, (regs, some m) => .ok (Ide.moveIn { s with regs := regs } t m)
    | .outsw _ _ _, (regs, some m) => .ok (Ide.moveOut { s with regs := regs } t m)
    | _, (_, none) => .error .fault

/-- One action of task `t` and what it leaves to be done in its place. `busy_wait` looks at `reg_status` and sleeps
    while the drive is busy. -/
def act (hd : HD) (t : τ) (i : Act) (s : Ide τ) : Except Halt (List Act × Ide τ) :=
  match i with
  | .port op => do
    let s ← portAccess hd t s op
    return ([], s)
  | .expectIntr => .ok ([], { s with expectingIntr := true })
  | .down .lock => do
    let value ← downValue s.lock
    return ([], { s with lock := value })
  | .down .diskDone => do
    let value ← downValue s.diskDone
    return ([], { s with diskDone := value })
  | .up .lock => do
    let value ← upValue s.lock
    return ([], { s with lock := value })
  | .up .diskDone => do
    let value ← upValue s.diskDone
    return ([], { s with diskDone := value })
  | .busyWait timeLimit =>
    if timeLimit - 1 = 0 then .error .panic
    else if s.busy then .ok ([.busyWait (timeLimit - 1)], s)
    else do
      assert s.regs.command.isSome
      return ([], s)
  | .copyOut count off =>
    .ok ([], { s with buf := Function.update s.buf t (copy (s.buf t) 0 (fun b => s.iobuf t (off + b)) count) })
  | .copyIn count off =>
    .ok ([], { s with iobuf := Function.update s.iobuf t (copy (s.iobuf t) off (s.buf t) count) })

def intrHdHandle (s : Ide τ) : Except Halt (Ide τ) :=
  if s.expectingIntr then do
    let value ← upValue s.diskDone
    return { s with expectingIntr := false, diskDone := value }
  else .ok s

def ports (ops : List PortOp) : List Act := ops.map .port

def cmdOutActs (hd : HD) (cmd : UInt8) : List Act := .expectIntr :: ports (cmdOut hd cmd)

def timeLimit : Nat := 30 * 1000

def loopActs (secCnt : Nat) (turn : Nat → List Act) (secsDone : Nat) : List Act :=
  if secsDone ≤ secCnt then turn secsDone ++ loopActs secCnt turn (secsDone + 256) else []
termination_by secCnt + 1 - secsDone

def readTurn (hd : HD) (lba buf secCnt secsDone : Nat) : List Act :=
  let op := UInt8.ofNat (secsOp secCnt secsDone)
  ports (selectSector hd (lba + secsDone) op) ++ cmdOutActs hd cmdReadSector ++
    [.down .diskDone, .busyWait timeLimit] ++ ports (readFromSector hd (buf + secsDone * 512) op)

def writeTurn (hd : HD) (lba buf secCnt secsDone : Nat) : List Act :=
  let op := UInt8.ofNat (secsOp secCnt secsDone)
  ports (selectSector hd (lba + secsDone) op) ++ cmdOutActs hd cmdWriteSector ++ [.busyWait timeLimit] ++
    ports (write2sector hd (buf + secsDone * 512) op) ++ [.down .diskDone]

def request (hd : HD) (secCnt : Nat) (turn : Nat → List Act) : List Act :=
  [.down .lock] ++ ports (selectDisk hd) ++ loopActs secCnt turn 0 ++ [.up .lock]

def ideReadActs (hdCnt : Nat) (hd : HD) (lba buf secCnt : Nat) : Except Halt (List Act) := do
  assert (decide (0 < secCnt ∧ hd.number < hdCnt))
  return request hd secCnt (readTurn hd lba buf secCnt)

def ideWriteActs (hdCnt : Nat) (hd : HD) (lba buf secCnt : Nat) : Except Halt (List Act) := do
  assert (decide (0 < secCnt ∧ hd.number < hdCnt))
  return request hd secCnt (writeTurn hd lba buf secCnt)

def Act.access : Act → Option PortOp
  | .port op => some op
  | _ => none

theorem accesses_ports (ops : List PortOp) : (ports ops).filterMap Act.access = ops := by
  rw [ports, List.filterMap_map]
  exact List.filterMap_some

theorem accesses_loop {secCnt : Nat} {turn : Nat → List Act} {accesses : Nat → List PortOp}
    (same : ∀ secsDone, (turn secsDone).filterMap Act.access = accesses secsDone) (secsDone : Nat) :
    (loopActs secCnt turn secsDone).filterMap Act.access = ideLoop secCnt accesses secsDone := by
  induction secsDone using ideLoop.induct secCnt with
  | case1 secsDone more ih =>
    rw [loopActs, ideLoop, if_pos more, if_pos more, List.filterMap_append, same, ih]
  | case2 secsDone done =>
    rw [loopActs, ideLoop, if_neg done, if_neg done]
    rfl

theorem accesses_request {hd : HD} {secCnt : Nat} {turn : Nat → List Act} {accesses : Nat → List PortOp}
    (same : ∀ secsDone, (turn secsDone).filterMap Act.access = accesses secsDone) :
    (request hd secCnt turn).filterMap Act.access = selectDisk hd ++ ideLoop secCnt accesses 0 := by
  rw [request]
  simp only [List.filterMap_append, accesses_ports, accesses_loop same]
  exact List.append_nil _

/-- Without the semaphores and the waiting, a read makes the accesses of `ideRead`. -/
theorem ideReadActs_accesses (hdCnt : Nat) (hd : HD) (lba buf secCnt : Nat) :
    (ideReadActs hdCnt hd lba buf secCnt).map (List.filterMap Act.access) = ideRead hdCnt hd lba buf secCnt := by
  rw [ideReadActs, ideRead, map_bind]
  congr 1
  funext _
  apply congrArg Except.ok
  apply accesses_request
  intro secsDone
  simp [readTurn, cmdOutActs, accesses_ports, Act.access, List.filterMap_cons]

theorem ideWriteActs_accesses (hdCnt : Nat) (hd : HD) (lba buf secCnt : Nat) :
    (ideWriteActs hdCnt hd lba buf secCnt).map (List.filterMap Act.access) = ideWrite hdCnt hd lba buf secCnt := by
  rw [ideWriteActs, ideWrite, map_bind]
  congr 1
  funext _
  apply congrArg Except.ok
  apply accesses_request
  intro secsDone
  simp [writeTurn, cmdOutActs, accesses_ports, Act.access, List.filterMap_cons]

/-- A turn of the loop of `sema_down` that leaves it takes the value down, and one that sleeps finds it 0. -/
theorem downValue_semaTest {sema after : Task.Sync.Semaphore τ} {t : τ} {taken : Bool}
    (tested : Task.Sync.semaTest sema t = .ok (taken, after)) :
    downValue sema.value = if taken then .ok after.value else .error .refused := by
  unfold Task.Sync.semaTest at tested
  unfold downValue
  split at tested
  · rename_i zero
    simp only [bind_ok, assert_ok, pure_ok, Prod.mk.injEq] at tested
    obtain ⟨_, _, rfl, _⟩ := tested
    rw [if_pos zero]
    rfl
  · rename_i some_left
    simp only [bind_ok, assert_ok, pure_ok, Prod.mk.injEq] at tested
    obtain ⟨_, one, rfl, rfl⟩ := tested
    rw [if_neg some_left, assert, if_pos one]
    rfl

omit [DecidableEq τ] in
theorem upValue_semaUp {σ : Type} {unblock : σ → τ → Except Halt σ} {sema after : Task.Sync.Semaphore τ} {s s' : σ}
    (upped : Task.Sync.semaUp unblock sema s = .ok (after, s')) : upValue sema.value = .ok after.value := by
  unfold Task.Sync.semaUp at upped
  simp only [bind_ok, assert_ok, pure_ok, Prod.mk.injEq, Prod.exists] at upped
  obtain ⟨_, zero, woken, s'', chosen, _, one, rfl, -⟩ := upped
  have same : woken.value = sema.value := by
    split at chosen
    · cases chosen
      rfl
    · simp only [bind_ok, pure_ok, Prod.mk.injEq] at chosen
      obtain ⟨_, _, rfl, _⟩ := chosen
      rfl
  rw [same] at one ⊢
  rw [upValue, assert, if_pos zero, assert, if_pos one]
  rfl

end RecoverOs.Device
