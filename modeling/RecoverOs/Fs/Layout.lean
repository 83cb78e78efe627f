import RecoverOs.Fs.Format
import RecoverOs.Fs.OpenInodes

namespace RecoverOs.Fs

open Bytes Transition

/-- The regions follow each other: the super block at `base`, the block bitmap, the inode bitmap, the inode table and
    the data blocks. -/
structure Layout (base : Nat) (sb : SuperBlock) : Prop where
  blockBitmapStart : sb.blockBitmapStart = base + 1
  inodeBitmapStart : sb.inodeBitmapStart = base + 1 + divRoundUp sb.blockBitmapSize blockSize
  inodeTableStart : sb.inodeTableStart = sb.inodeBitmapStart + 1
  dataStart : sb.dataStart = sb.inodeTableStart + 4
  fits : base + sb.blockBitmapSize < 2 ^ 64

theorem superBlock_layout (part : Partition) : Layout part.superBlockBid part.superBlock := by
  refine ⟨rfl, rfl, rfl, rfl, ?_⟩
  have lba := part.startLba.toNat_lt
  have cnt := part.secCnt.toNat_lt
  simp only [Partition.superBlock, Partition.superBlockBid, Partition.blockCnt, sectsPerBlock]
  omega

theorem blockModify_other {disk : Disk} {bid bid' : Nat} {buf : Buffer} {count off : Nat} (other : bid' ≠ bid) :
    blockModify disk bid buf count off bid' = disk bid' := by
  unfold blockModify
  split
  · rfl
  · exact Function.update_of_ne other _ _

theorem blockModify_here {disk : Disk} {bid : Nat} {buf : Buffer} {count off : Nat} (fits : off + count ≤ blockSize) :
    blockModify disk bid buf count off bid = copy (disk bid) off buf count := by
  rw [blockModify, if_neg (by omega), if_neg (by omega), Function.update_self]

theorem blockRead_byte {disk : Disk} {bid : Nat} {buf : Buffer} {count off i : Nat} (fits : off + count ≤ blockSize)
    (bound : i < count) : blockRead disk bid buf count off i = disk bid (off + i) := by
  rw [blockRead, if_neg (by omega), if_neg (by omega), copy_inside (Nat.zero_le i) (by omega), Nat.sub_zero]

theorem bitmapByte_eq (disk : Disk) (start i : Nat) :
    bitmapByte disk start i = disk (i / blockSize + start) (i % blockSize) := by
  have below : i % blockSize < blockSize := Nat.mod_lt i (by decide)
  rw [bitmapByte, blockRead_byte (by omega) Nat.zero_lt_one, Nat.add_zero]

theorem bitmapByte_modify (disk : Disk) (start i j : Nat) (value : UInt8) :
    bitmapByte (blockModify disk (i / blockSize + start) (fun _ => value) 1 (i % blockSize)) start j =
      if j = i then value else bitmapByte disk start j := by
  have below : i % blockSize < blockSize := Nat.mod_lt i (by decide)
  rw [bitmapByte_eq, bitmapByte_eq]
  by_cases block : j / blockSize = i / blockSize
  · rw [block, blockModify_here (by omega)]
    by_cases here : j = i
    · rw [if_pos here, here, copy_inside (Nat.le_refl _) (by omega)]
    · rw [if_neg here]
      have byte : j % blockSize ≠ i % blockSize := by
        intro same
        apply here
        rw [← Nat.div_add_mod j blockSize, ← Nat.div_add_mod i blockSize, block, same]
      exact copy_outside (by omega)
  · have here : j ≠ i := fun same => block (by rw [same])
    rw [if_neg here, blockModify_other (by omega)]

theorem bitmapByte_congr {disk disk' : Disk} {start j : Nat}
    (same : disk' (j / blockSize + start) = disk (j / blockSize + start)) :
    bitmapByte disk' start j = bitmapByte disk start j := by
  rw [bitmapByte_eq, bitmapByte_eq, same]

theorem bitmapFind_some {disk : Disk} {start i left found : Nat} (ran : bitmapFind disk start i left = some found) :
    i ≤ found ∧ found < i + left ∧ bitmapByte disk start found = 0 := by
  induction left generalizing i with
  | zero => cases ran
  | succ left ih =>
    rw [bitmapFind] at ran
    split at ran
    · rename_i zero
      cases ran
      exact ⟨Nat.le_refl _, by omega, zero⟩
    · obtain ⟨low, high, zero⟩ := ih ran
      exact ⟨by omega, by omega, zero⟩

def blockMark (s : State) (idx : Nat) : UInt8 := bitmapByte s.disk s.sb.blockBitmapStart idx

def inodeMark (s : State) (iNo : Nat) : UInt8 := bitmapByte s.disk s.sb.inodeBitmapStart iNo

theorem tableOffset (iNo : Nat) : blockOff iNo + diskInodeBytes ≤ blockSize := by
  have fits : iNo * 128 % 4096 ≤ 3968 := by omega
  simp only [blockOff, diskInodeBytes, diskInodeSize, blockSize, ndirect]
  omega

theorem tableBlock {iNo : Nat} (bound : iNo < inodeCntMax) (sb : SuperBlock) :
    sb.inodeTableStart ≤ blockId sb iNo ∧ blockId sb iNo < sb.inodeTableStart + 4 := by
  have low : iNo < 128 := bound
  simp only [blockId, diskInodeSize, blockSize]
  omega

theorem load_congr {left right : Buffer} (same : ∀ i < diskInodeBytes, left i = right i) :
    DiskInode.load left = DiskInode.load right := by
  have size : wordAt 8 left 0 = wordAt 8 right 0 := by
    apply wordAt_congr
    intro i bound
    have inside : 0 + i < diskInodeBytes := by simp only [diskInodeBytes, ndirect]; omega
    exact same (0 + i) inside
  have direct : ∀ idx < ndirect, wordAt 8 left (8 + 8 * idx) = wordAt 8 right (8 + 8 * idx) := by
    intro idx low
    apply wordAt_congr
    intro i bound
    have below : idx < 12 := low
    have inside : 8 + 8 * idx + i < diskInodeBytes := by simp only [diskInodeBytes, ndirect]; omega
    exact same (8 + 8 * idx + i) inside
  rw [DiskInode.load, DiskInode.load, size]
  congr 1
  funext idx
  split
  · rename_i low
    exact direct idx low
  · rfl

theorem tableInode_congr {s after : State} {iNo : Nat} (sb : after.sb = s.sb)
    (same : ∀ i < diskInodeBytes, after.disk (blockId s.sb iNo) (blockOff iNo + i) =
      s.disk (blockId s.sb iNo) (blockOff iNo + i)) : tableInode after iNo = tableInode s iNo := by
  rw [tableInode, tableInode, sb]
  apply load_congr
  intro i bound
  rw [blockRead_byte (tableOffset iNo) bound, blockRead_byte (tableOffset iNo) bound, same i bound]

theorem tableInode_modify_other {s after : State} {iNo jNo : Nat} {buf : Buffer} (other : jNo ≠ iNo)
    (sb : after.sb = s.sb)
    (disk : after.disk = blockModify s.disk (blockId s.sb iNo) buf diskInodeBytes (blockOff iNo)) :
    tableInode after jNo = tableInode s jNo := by
  apply tableInode_congr sb
  intro i bound
  rw [disk]
  by_cases block : blockId s.sb jNo = blockId s.sb iNo
  · rw [block, blockModify_here (tableOffset iNo)]
    apply copy_outside
    simp only [blockId, blockOff, diskInodeBytes, diskInodeSize, blockSize, ndirect] at block bound ⊢
    omega
  · rw [blockModify_other block]

theorem tableInode_modify_here {s after : State} {iNo : Nat} {inode : DiskInode} (sb : after.sb = s.sb)
    (disk : after.disk = blockModify s.disk (blockId s.sb iNo) inode.store diskInodeBytes (blockOff iNo)) :
    (inode.fileSize < 2 ^ 64 → (tableInode after iNo).fileSize = inode.fileSize) ∧
    ∀ k < ndirect, inode.direct k < 2 ^ 64 → (tableInode after iNo).direct k = inode.direct k := by
  have byte : ∀ i < diskInodeBytes,
      blockRead after.disk (blockId s.sb iNo) (fun _ => 0) diskInodeBytes (blockOff iNo) i = inode.store i := by
    intro i bound
    rw [blockRead_byte (tableOffset iNo) bound, disk, blockModify_here (tableOffset iNo),
      copy_inside (by omega) (by omega), Nat.add_sub_cancel_left]
  simp only [tableInode, DiskInode.load, sb]
  constructor
  · intro fits
    apply wordAt_byteOf
    · intro i bound
      rw [byte (0 + i) (by simp only [diskInodeBytes, ndirect]; omega), DiskInode.store, if_pos (by omega),
        Nat.zero_add]
    · exact fits
  · intro k bound fits
    have below : k < 12 := bound
    rw [if_pos bound]
    apply wordAt_byteOf
    · intro i inside
      rw [byte (8 + 8 * k + i) (by simp only [diskInodeBytes, ndirect]; omega), DiskInode.store, if_neg (by omega)]
      have word : (8 + 8 * k + i) / 8 - 1 = k := by omega
      have rest : (8 + 8 * k + i) % 8 = i := by omega
      rw [word, rest]
    · exact fits

theorem formatBlocks_byte {disk : Disk} {bid cnt c i : Nat} {buf : Buffer} (block : c < cnt) (byte : i < blockSize) :
    formatBlocks disk bid buf cnt (bid + c) i = buf i := by
  induction cnt with
  | zero => exact absurd block (Nat.not_lt_zero c)
  | succ cnt ih =>
    rw [formatBlocks]
    by_cases last : c = cnt
    · rw [last, blockModify_here (by omega), copy_inside (Nat.zero_le i) (by omega), Nat.sub_zero]
    · rw [blockModify_other (by omega)]
      exact ih (by omega)

theorem formatBlocks_other {disk : Disk} {bid cnt b : Nat} {buf : Buffer} (outside : b < bid ∨ bid + cnt ≤ b) :
    formatBlocks disk bid buf cnt b = disk b := by
  induction cnt with
  | zero => rfl
  | succ cnt ih =>
    rw [formatBlocks, blockModify_other (by omega)]
    exact ih (by omega)

theorem bitmapFormat_byte {disk : Disk} {bid bcnt size occur c i : Nat} (block : c < bcnt) (byte : i < blockSize) :
    bitmapFormat disk bid bcnt size occur (bid + c) i = if i < occur then 1 else if i < size then 0 else 1 := by
  rw [bitmapFormat, formatBlocks_byte block byte]
  have covered : i < bcnt * blockSize := by
    calc i < 1 * blockSize := by omega
      _ ≤ bcnt * blockSize := Nat.mul_le_mul_right _ (Nat.lt_of_le_of_lt (Nat.zero_le c) block)
  simp only [fill, copy, Nat.zero_le, true_and, Nat.zero_add]
  rw [if_pos covered]

theorem bitmapFormat_other {disk : Disk} {bid bcnt size occur b : Nat} (outside : b < bid ∨ bid + bcnt ≤ b) :
    bitmapFormat disk bid bcnt size occur b = disk b :=
  formatBlocks_other outside

theorem partitionFormat_blockBitmap {disk : Disk} {part : Partition} {c i : Nat}
    (block : c < divRoundUp part.blockCnt blockSize) (byte : i < blockSize) :
    partitionFormat disk part (part.superBlock.blockBitmapStart + c) i =
      if i < 1 + divRoundUp part.blockCnt blockSize + inodeBitmapBcnt + inodeTableBcnt then 1
      else if i < part.blockCnt then 0 else 1 := by
  have before : part.superBlock.blockBitmapStart + c < part.superBlock.inodeBitmapStart := by
    simp only [Partition.superBlock]
    omega
  rw [partitionFormat, bitmapFormat_other (.inl before), bitmapFormat_byte block byte]

theorem partitionFormat_inodeBitmap {disk : Disk} {part : Partition} {i : Nat} (bound : i < inodeCntMax) :
    partitionFormat disk part part.superBlock.inodeBitmapStart i = 0 := by
  have low : i < 128 := bound
  have byte : i < blockSize := by
    simp only [blockSize]
    omega
  have only : 0 < inodeBitmapBcnt := by decide
  rw [partitionFormat]
  exact (bitmapFormat_byte only byte).trans (by rw [if_neg (Nat.not_lt_zero i), if_pos bound])

end RecoverOs.Fs
