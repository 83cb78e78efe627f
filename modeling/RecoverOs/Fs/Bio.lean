import RecoverOs.Device.Drive
import RecoverOs.Fs.Format

namespace RecoverOs.Fs

open Bytes Transition Device

structure Request where
  modify : Bool
  hd : HD
  bid : Nat
  buf : Buffer
  count : Nat
  off : Nat

def clipped (count off : Nat) : Nat := if blockSize < (off + count) % 2 ^ 64 then blockSize - off else count

def blockReadActs (hdCnt : Nat) (hd : HD) (bid count off : Nat) : Except Halt (List Act) :=
  if blockSize < off then .ok []
  else do
    let reads ← ideReadActs hdCnt hd (bid * sectsPerBlock) 0 sectsPerBlock
    return reads ++ [.copyOut (clipped count off) off]

def blockModifyActs (hdCnt : Nat) (hd : HD) (bid count off : Nat) : Except Halt (List Act) :=
  if blockSize < off then .ok []
  else do
    let reads ← ideReadActs hdCnt hd (bid * sectsPerBlock) 0 sectsPerBlock
    let writes ← ideWriteActs hdCnt hd (bid * sectsPerBlock) 0 sectsPerBlock
    return reads ++ [.copyIn (clipped count off) off] ++ writes

def Request.result (r : Request) : Nat := if blockSize < r.off then 0 else clipped r.count r.off

def Request.acts (hdCnt : Nat) (r : Request) : Except Halt (List Act) :=
  if r.modify then blockModifyActs hdCnt r.hd r.bid r.count r.off else blockReadActs hdCnt r.hd r.bid r.count r.off

/-- `rest` is what a task has still to do of its call. -/
structure Bio (τ : Type) where
  ide : Ide τ
  rest : τ → List Act
  call : τ → Option Request

/-- In `ready` the drive has finished its command, and `intr` is its interrupt, which may come at any time. -/
inductive BioOp (τ : Type) where
  | call (t : τ) (r : Request)
  | exec (t : τ)
  | ret (t : τ)
  | ready
  | intr

variable {τ : Type} [DecidableEq τ]

def Bio.step (hdCnt : Nat) (hd : HD) (s : Bio τ) : BioOp τ → Except Halt (Bio τ)
  | .call t r => do
    offer (s.call t).isNone
    let acts ← r.acts hdCnt
    return {
      ide := { s.ide with buf := Function.update s.ide.buf t r.buf }
      rest := Function.update s.rest t acts
      call := Function.update s.call t (some r) }
  | .exec t =>
    match s.rest t with
    | [] => .error .refused
    | i :: acts => do
      let (more, ide) ← act hd t i s.ide
      return { s with ide := ide, rest := Function.update s.rest t (more ++ acts) }
  | .ret t => do
    offer ((s.call t).isSome && (s.rest t).isEmpty)
    return { s with call := Function.update s.call t none }
  | .ready => .ok { s with ide := { s.ide with busy := false } }
  | .intr => do
    let ide ← intrHdHandle s.ide
    return { s with ide := ide }

def Bio.start (regs : Channel) (media : Bool → Buffer) (iobuf buf : τ → Buffer) : Bio τ where
  ide := {
    regs := regs
    busy := false
    media := media
    expectingIntr := false
    lock := 1
    diskDone := 0
    iobuf := iobuf
    buf := buf }
  rest := fun _ => []
  call := fun _ => none

inductive BlockEvent (τ : Type) where
  | call (t : τ) (r : Request)
  | ret (t : τ) (result : Nat) (buf : Buffer)

def Bio.visible (s : Bio τ) : BioOp τ → List (BlockEvent τ)
  | .call t r => [.call t r]
  | .ret t => (s.call t).toList.map fun r => .ret t r.result (s.ide.buf t)
  | _ => []

inductive Pending where
  | idle
  | called (r : Request)
  | done (r : Request) (buf : Buffer)

def Pending.request : Pending → Option Request
  | .idle => none
  | .called r => some r
  | .done r _ => some r

structure BlockDisks (τ : Type) where
  disk : Bool → Disk
  pending : τ → Pending

inductive BlockDisksOp (τ : Type) where
  | call (t : τ) (r : Request)
  | commit (t : τ)
  | ret (t : τ)

/-- Only the second drive of the first channel is addressed as a slave. -/
def Request.slave (r : Request) : Bool := decide (r.hd = .ata0s)

def BlockDisks.commit (s : BlockDisks τ) (t : τ) (r : Request) : BlockDisks τ :=
  if r.modify then {
    disk := Function.update s.disk r.slave (blockModify (s.disk r.slave) r.bid r.buf r.count r.off)
    pending := Function.update s.pending t (.done r r.buf) }
  else { s with
    pending := Function.update s.pending t (.done r (blockRead (s.disk r.slave) r.bid r.buf r.count r.off)) }

def BlockDisks.step (s : BlockDisks τ) : BlockDisksOp τ → Except Halt (BlockDisks τ)
  | .call t r =>
    match s.pending t with
    | .idle => .ok { s with pending := Function.update s.pending t (.called r) }
    | _ => .error .refused
  | .commit t =>
    match s.pending t with
    | .called r => .ok (s.commit t r)
    | _ => .error .refused
  | .ret t =>
    match s.pending t with
    | .done _ _ => .ok { s with pending := Function.update s.pending t .idle }
    | _ => .error .refused

def BlockDisks.start (media : Bool → Buffer) : BlockDisks τ where
  disk := fun slave bid i => media slave (blockSize * bid + i)
  pending := fun _ => .idle

def BlockDisks.visible (s : BlockDisks τ) : BlockDisksOp τ → List (BlockEvent τ)
  | .call t r => [.call t r]
  | .commit _ => []
  | .ret t =>
    match s.pending t with
    | .done r buf => [.ret t (min r.count (blockSize - r.off)) buf]
    | _ => []

/-- The block lies on a drive of this channel. -/
structure Request.Valid (hdCnt : Nat) (hd : HD) (r : Request) : Prop where
  present : r.hd.number < hdCnt
  channel : portBase r.hd = portBase hd
  small : r.bid * sectsPerBlock + sectsPerBlock < 2 ^ 28
  sum : r.off + r.count < 2 ^ 64

/-- No block is modified by two calls at once. -/
def Apart (s : Bio τ) (r : Request) : Prop :=
  r.modify = true → ∀ t other, s.call t = some other → other.modify = true → other.slave = r.slave → other.bid ≠ r.bid

def Allowed (hdCnt : Nat) (hd : HD) (s : Bio τ) : BioOp τ → Prop
  | .call _ r => r.Valid hdCnt hd ∧ Apart s r
  | _ => True

end RecoverOs.Fs
