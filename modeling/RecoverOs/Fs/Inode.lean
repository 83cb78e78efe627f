import RecoverOs.Basic
import RecoverOs.Logic.Bytes

namespace RecoverOs.Fs

open Bytes

def blockSize : Nat := 4096
def inodeCntMax : Nat := 128
def diskInodeSize : Nat := 128
def ndirect : Nat := 12

def divRoundUp (x step : Nat) : Nat := (x + step - 1) / step

def noBitInFsBtmp : Int := 1
def fileSizeTooBig : Int := 2

abbrev Disk := Nat → Buffer

abbrev Ptr := Nat

structure SuperBlock where
  blockBitmapStart : Nat
  blockBitmapSize : Nat
  inodeBitmapStart : Nat
  inodeTableStart : Nat
  inodeCntMax : Nat
  dataStart : Nat

/-- `direct` has `NDIRECT` entries. -/
structure DiskInode where
  fileSize : Nat
  direct : Nat → Nat

structure Inode where
  iNo : Nat
  diskInode : DiskInode
  openCnts : Int
  inodeLock : Nat

/-- `fresh` is the next address `kalloc` gives out. `ranOut` is a history variable that no function reads: whether an
    allocation in the block bitmap has failed. The lock `inode_lock` is held across calls and is kept;
    `open_inodes_lock` and `fs_bitmap_lock` are taken and released inside single functions and are left out. Pages and
    heap blocks are taken to be available. -/
structure State where
  disk : Disk
  sb : SuperBlock
  inode : Ptr → Inode
  openInodes : List Ptr
  fresh : Ptr
  ranOut : Bool

def State.setInode (s : State) (p : Ptr) (f : Inode → Inode) : State :=
  { s with inode := Function.update s.inode p (f (s.inode p)) }

def blockRead (disk : Disk) (bid : Nat) (buf : Buffer) (count off : Nat) : Buffer :=
  if blockSize < off then buf
  else copy buf 0 (fun i => disk bid (off + i)) (if blockSize < off + count then blockSize - off else count)

def blockModify (disk : Disk) (bid : Nat) (buf : Buffer) (count off : Nat) : Disk :=
  if blockSize < off then disk
  else Function.update disk bid
    (copy (disk bid) off buf (if blockSize < off + count then blockSize - off else count))

def blockId (sb : SuperBlock) (iNo : Nat) : Nat := iNo * diskInodeSize / blockSize + sb.inodeTableStart
def blockOff (iNo : Nat) : Nat := iNo * diskInodeSize % blockSize

def diskInodeBytes : Nat := 8 + 8 * ndirect

def DiskInode.store (inode : DiskInode) : Buffer :=
  fun i => if i < 8 then byteOf inode.fileSize i else byteOf (inode.direct (i / 8 - 1)) (i % 8)

def DiskInode.load (buf : Buffer) : DiskInode where
  fileSize := wordAt 8 buf 0
  direct := fun idx => if idx < ndirect then wordAt 8 buf (8 + 8 * idx) else 0

/-- `sema_down` on `inode_lock` by a task that nobody else will wake. -/
def semaDown (s : State) (p : Ptr) : Except Halt State :=
  if (s.inode p).inodeLock = 0 then .error .stuck
  else do
    let s := s.setInode p fun inode => { inode with inodeLock := inode.inodeLock - 1 }
    assert ((s.inode p).inodeLock == 0)
    return s

def semaUp (s : State) (p : Ptr) : Except Halt State := do
  assert ((s.inode p).inodeLock == 0)
  return s.setInode p fun inode => { inode with inodeLock := inode.inodeLock + 1 }

def findInode (s : State) (iNo : Nat) : Option Ptr :=
  s.openInodes.find? fun p => (s.inode p).iNo == iNo

def tableInode (s : State) (iNo : Nat) : DiskInode :=
  DiskInode.load (blockRead s.disk (blockId s.sb iNo) (fun _ => 0) diskInodeBytes (blockOff iNo))

/-- `inode_open` of an inode that is not in `open_inodes`. -/
def loadInode (s : State) (iNo : Nat) : State :=
  let inode : Inode := { iNo := iNo, diskInode := tableInode s iNo, openCnts := 0, inodeLock := 1 }
  { s.setInode s.fresh (fun _ => inode) with fresh := s.fresh + 1, openInodes := s.fresh :: s.openInodes }

/-- The body of `inode_open` under `open_inodes_lock`. -/
def lookupInode (s : State) (iNo : Nat) : Ptr × State :=
  match findInode s iNo with
  | some p => (p, s)
  | none => (s.fresh, loadInode s iNo)

def State.addOpen (s : State) (p : Ptr) : State :=
  s.setInode p fun inode => { inode with openCnts := inode.openCnts + 1 }

def inodeOpen (s : State) (iNo : Nat) : Except Halt (Option Ptr × State) :=
  if inodeCntMax ≤ iNo then .ok (none, s)
  else do
    let (p, s) := lookupInode s iNo
    let s ← semaDown s p
    let s ← semaUp (s.addOpen p) p
    return (some p, s)

/-- The caller uses the pointer without looking whether it is `NULL`. -/
def deref (p : Option Ptr) : Except Halt Ptr :=
  match p with
  | some p => .ok p
  | none => .error .fault

def inodeClose (s : State) (p : Ptr) : Except Halt State := do
  let s ← semaDown s p
  let s := s.setInode p fun inode => { inode with openCnts := inode.openCnts - 1 }
  let s := if (s.inode p).openCnts = 0 then { s with openInodes := s.openInodes.erase p } else s
  semaUp s p

def bitmapByte (disk : Disk) (start i : Nat) : UInt8 :=
  blockRead disk (i / blockSize + start) (fun _ => 1) 1 (i % blockSize) 0

def bitmapFind (disk : Disk) (start : Nat) : Nat → Nat → Option Nat
  | _, 0 => none
  | i, left + 1 => if bitmapByte disk start i = 0 then some i else bitmapFind disk start (i + 1) left

def fsBitmapAlloc (s : State) (start size : Nat) : Int × State :=
  match bitmapFind s.disk start 0 size with
  | none => (-noBitInFsBtmp, s)
  | some i =>
    ((i : Int), { s with disk := blockModify s.disk (i / blockSize + start) (fun _ => 1) 1 (i % blockSize) })

def fsBitmapFree (s : State) (start size idx : Nat) : Except Halt State := do
  assert (decide (idx < size))
  return { s with disk := blockModify s.disk (idx / blockSize + start) (fun _ => 0) 1 (idx % blockSize) }

def State.setDirect (s : State) (p : Ptr) (idx bid : Nat) : State :=
  s.setInode p fun inode =>
    { inode with diskInode := { inode.diskInode with direct := Function.update inode.diskInode.direct idx bid } }

def growBlocks (s : State) (p : Ptr) : Nat → Nat → Int × State
  | _, 0 => (0, s)
  | idx, left + 1 =>
    match fsBitmapAlloc s s.sb.blockBitmapStart s.sb.blockBitmapSize with
    | (bidx, after) =>
      if bidx < 0 then (bidx, { after with ranOut := true })
      else growBlocks (after.setDirect p idx (bidx.toNat + s.sb.blockBitmapStart - 1)) p (idx + 1) left

/-- The second loop of `inode_size_change`. The index is a difference of two `size_t`. -/
def shrinkBlocks (s : State) (p : Ptr) : Nat → Nat → Except Halt State
  | _, 0 => .ok s
  | idx, left + 1 => do
    let after ← fsBitmapFree s s.sb.blockBitmapStart s.sb.blockBitmapSize
      (((s.inode p).diskInode.direct idx + 2 ^ 64 - (s.sb.blockBitmapStart - 1)) % 2 ^ 64)
    shrinkBlocks after p (idx + 1) left

def State.setFileSize (s : State) (p : Ptr) (size : Nat) : State :=
  s.setInode p fun inode => { inode with diskInode := { inode.diskInode with fileSize := size } }

/-- The `block_modify` that writes an inode back to the inode table. -/
def storeInode (s : State) (p : Ptr) : State :=
  let inode := s.inode p
  { s with
    disk := blockModify s.disk (blockId s.sb inode.iNo) inode.diskInode.store diskInodeBytes (blockOff inode.iNo) }

def inodeSizeChange (s : State) (p : Ptr) (size : Nat) : Except Halt (Int × State) :=
  if ndirect * blockSize < size then .ok (-fileSizeTooBig, s)
  else
    let blockOldSize := divRoundUp (s.inode p).diskInode.fileSize pgSize
    let blockNewSize := divRoundUp size pgSize
    if blockOldSize < blockNewSize then
      match growBlocks s p blockOldSize (blockNewSize - blockOldSize) with
      | (result, after) =>
        if result < 0 then .ok (result, after) else .ok (0, storeInode (after.setFileSize p size) p)
    else do
      let after ← shrinkBlocks s p blockNewSize (blockOldSize - blockNewSize)
      return (0, storeInode (after.setFileSize p size) p)

def readBlocks (disk : Disk) (direct : Nat → Nat) (start : Nat) : Nat → Buffer
  | 0 => fun _ => 0
  | cnt + 1 =>
    copy (readBlocks disk direct start cnt) (cnt * pgSize)
      (blockRead disk (direct (start + cnt)) (fun _ => 0) blockSize 0) blockSize

def writeBlocks (disk : Disk) (direct : Nat → Nat) (start : Nat) (io : Buffer) : Nat → Disk
  | 0 => disk
  | cnt + 1 =>
    blockModify (writeBlocks disk direct start io cnt) (direct (start + cnt)) (fun i => io (cnt * pgSize + i)) blockSize
      0

def writeData (s : State) (p : Ptr) (buf : Buffer) (nbyte offset : Nat) : State :=
  let direct := (s.inode p).diskInode.direct
  let blockStart := offset / blockSize
  let blockCnt := divRoundUp (offset + nbyte) blockSize - blockStart
  let io := copy (readBlocks s.disk direct blockStart blockCnt) (offset % blockSize) buf nbyte
  { s with disk := writeBlocks s.disk direct blockStart io blockCnt }

/-- The number of blocks that hold the bytes from `offset` to `offset + nbyte`. -/
def blockSpan (offset nbyte : Nat) : Nat := divRoundUp (offset + nbyte) blockSize - offset / blockSize

/-- `alloc_pages` for the buffer of a read or a write. The pages are there, but of a count of 0 none is found. -/
def ioPages (blockCnt : Nat) : Except Halt Unit := if blockCnt = 0 then .error .panic else .ok ()

/-- `inode_write` once the file is large enough. When `offset + nbyte` does not fit in a `size_t`, the `memcpy` of
    `nbyte` bytes leaves every buffer. -/
def writeBack (s : State) (p : Ptr) (buf : Buffer) (nbyte offset : Nat) : Except Halt (Int × State) :=
  if 2 ^ 64 ≤ offset + nbyte then .error .fault
  else do
    ioPages (blockSpan offset nbyte)
    return ((nbyte : Int), writeData s p buf nbyte offset)

def inodeWrite (s : State) (p : Ptr) (buf : Buffer) (nbyte offset : Nat) : Except Halt (Int × State) :=
  let last := (offset + nbyte) % 2 ^ 64
  if (s.inode p).diskInode.fileSize < last then do
    let (success, s) ← inodeSizeChange s p last
    if success < 0 then return (success, s) else writeBack s p buf nbyte offset
  else writeBack s p buf nbyte offset

def inodeRead (s : State) (p : Ptr) (nbyte offset : Nat) : Except Halt (Nat × Buffer) :=
  let diskInode := (s.inode p).diskInode
  if diskInode.fileSize ≤ offset then .ok (0, fun _ => 0)
  else if 2 ^ 64 ≤ nbyte + offset then .error .fault
  else
    let nbyte := if diskInode.fileSize < nbyte + offset then diskInode.fileSize - offset else nbyte
    let blockStart := offset / blockSize
    let blockCnt := blockSpan offset nbyte
    do
      ioPages blockCnt
      return (nbyte, fun i => readBlocks s.disk diskInode.direct blockStart blockCnt (offset % blockSize + i))

def diskInodeCreate (s : State) : Int × State :=
  match fsBitmapAlloc s s.sb.inodeBitmapStart inodeCntMax with
  | (idx, after) =>
    if idx < 0 then (idx, after)
    else
      let inode : DiskInode := { fileSize := 0, direct := fun _ => 0 }
      (idx, { after with
        disk := blockModify after.disk (blockId s.sb idx.toNat) inode.store diskInodeBytes (blockOff idx.toNat) })

def diskInodeDelete (s : State) (iNo : Nat) : Except Halt State := do
  let s ← fsBitmapFree s s.sb.inodeBitmapStart inodeCntMax iNo
  let (opened, s) ← inodeOpen s iNo
  let p ← deref opened
  let s ← semaDown s p
  let (_, s) ← inodeSizeChange s p 0
  let s ← semaUp s p
  inodeClose s p

end RecoverOs.Fs
