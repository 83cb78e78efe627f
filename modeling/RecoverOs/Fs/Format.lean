import RecoverOs.Fs.Dir

namespace RecoverOs.Fs

open Bytes

structure Partition where
  startLba : UInt32
  secCnt : UInt32

def sectsPerBlock : Nat := 8

/-- The loop of `bitmap_format`: every block gets the first block of the buffer. -/
def formatBlocks (disk : Disk) (bid : Nat) (buf : Buffer) : Nat → Disk
  | 0 => disk
  | cnt + 1 => blockModify (formatBlocks disk bid buf cnt) (bid + cnt) buf blockSize 0

def bitmapFormat (disk : Disk) (bid bcnt size occur : Nat) : Disk :=
  let buf := fill (fun _ => 0) 1 (bcnt * blockSize)
  let buf := fill buf 0 size
  let buf := fill buf 1 occur
  formatBlocks disk bid buf bcnt

def Partition.superBlockBid (part : Partition) : Nat := part.startLba.toNat / sectsPerBlock
def Partition.blockCnt (part : Partition) : Nat := part.secCnt.toNat / sectsPerBlock

def inodeBitmapBcnt : Nat := divRoundUp inodeCntMax blockSize
def inodeTableBcnt : Nat := divRoundUp (inodeCntMax * diskInodeSize) blockSize

def Partition.superBlock (part : Partition) : SuperBlock :=
  let blockBitmapStart := part.superBlockBid + 1
  let inodeBitmapStart := blockBitmapStart + divRoundUp part.blockCnt blockSize
  let inodeTableStart := inodeBitmapStart + inodeBitmapBcnt
  { blockBitmapStart := blockBitmapStart
    blockBitmapSize := part.blockCnt
    inodeBitmapStart := inodeBitmapStart
    inodeTableStart := inodeTableStart
    inodeCntMax := inodeCntMax
    dataStart := inodeTableStart + inodeTableBcnt }

def SuperBlock.store (sb : SuperBlock) (page : Buffer) : Buffer := fun i =>
  if i < 8 then page i
  else if i < 16 then byteOf sb.blockBitmapStart (i - 8)
  else if i < 24 then byteOf sb.blockBitmapSize (i - 16)
  else if i < 32 then byteOf sb.inodeBitmapStart (i - 24)
  else if i < 40 then byteOf sb.inodeTableStart (i - 32)
  else if i < 48 then byteOf sb.inodeCntMax (i - 40)
  else if i < 56 then byteOf sb.dataStart (i - 48)
  else page i

def partitionFormat (disk : Disk) (part : Partition) : Disk :=
  let sb := part.superBlock
  let blockBitmapBcnt := divRoundUp part.blockCnt blockSize
  let disk := blockModify disk part.superBlockBid (sb.store (disk part.superBlockBid)) blockSize 0
  let disk := bitmapFormat disk sb.blockBitmapStart blockBitmapBcnt part.blockCnt
    (1 + blockBitmapBcnt + inodeBitmapBcnt + inodeTableBcnt)
  bitmapFormat disk sb.inodeBitmapStart inodeBitmapBcnt inodeCntMax 0

def createRootDir (s : State) : Except Halt State := do
  let (created, s) := diskInodeCreate s
  assert (created == 0)
  let (opened, s) ← inodeOpen s 0
  let rootInode ← deref opened
  let (added, s) ← direntAdd s rootInode { iNo := 0, filename := dotName 2, fType := .dir }
  assert (decide (0 < added))
  let (added, s) ← direntAdd s rootInode { iNo := 0, filename := dotName 1, fType := .dir }
  assert (decide (0 < added))
  inodeClose s rootInode

def mounted (disk : Disk) (sb : SuperBlock) : State where
  disk := disk
  sb := sb
  inode := fun _ => { iNo := 0, diskInode := { fileSize := 0, direct := fun _ => 0 }, openCnts := 0, inodeLock := 1 }
  openInodes := []
  fresh := 0
  ranOut := false

def format (disk : Disk) (part : Partition) : Except Halt State :=
  createRootDir (mounted (partitionFormat disk part) part.superBlock)

end RecoverOs.Fs
