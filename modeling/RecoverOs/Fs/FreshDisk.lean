import RecoverOs.Fs.Growth

namespace RecoverOs.Fs

open Bytes Transition

variable {disk : Disk} {part : Partition} {s after : State} {p : Ptr}

def Partition.regions (part : Partition) : List (Nat × Nat) :=
  let sb := part.superBlock
  [(part.superBlockBid, 1), (sb.blockBitmapStart, divRoundUp part.blockCnt blockSize),
    (sb.inodeBitmapStart, inodeBitmapBcnt), (sb.inodeTableStart, inodeTableBcnt),
    (sb.dataStart, part.superBlockBid + part.blockCnt - sb.dataStart)]

/-- The number of blocks in front of the data. -/
def Partition.metadata (part : Partition) : Nat := part.superBlock.dataStart - part.superBlockBid

structure Partition.Consecutive (part : Partition) : Prop where
  first : part.superBlockBid * sectsPerBlock = part.startLba.toNat
  chain : part.regions.IsChain fun left right => left.1 + left.2 = right.1
  nonempty : ∀ region ∈ part.regions, 0 < region.2
  bits : part.blockCnt ≤ divRoundUp part.blockCnt blockSize * blockSize ∧ inodeCntMax ≤ inodeBitmapBcnt * blockSize ∧
    inodeCntMax * diskInodeSize ≤ inodeTableBcnt * blockSize
  last : (part.superBlock.dataStart + (part.superBlockBid + part.blockCnt - part.superBlock.dataStart)) *
    sectsPerBlock ≤ part.startLba.toNat + part.secCnt.toNat

/-- The first block that a file gets is the first data block, for every file that grows and every new size. -/
def HandsOutFirst (part : Partition) (disk : Disk) : Prop :=
  ∀ (s : State) (p : Ptr) (size : Nat), s.disk = disk → s.sb = part.superBlock → size ≤ ndirect * blockSize →
    blockCount (s.inode p).diskInode.fileSize < blockCount size →
    ∃ result after, inodeSizeChange s p size = .ok (result, after) ∧
      (after.inode p).diskInode.direct (blockCount (s.inode p).diskInode.fileSize) = part.superBlock.dataStart

structure Formatted (part : Partition) (disk : Disk) : Prop where
  regions : part.Consecutive
  blocks : ∀ i < part.blockCnt, bitmapByte disk part.superBlock.blockBitmapStart i = 1 ↔ i < part.metadata
  inodes : ∀ i < inodeCntMax, bitmapByte disk part.superBlock.inodeBitmapStart i = 0
  first : HandsOutFirst part disk

theorem metadata_eq (part : Partition) :
    part.metadata = 1 + divRoundUp part.blockCnt blockSize + inodeBitmapBcnt + inodeTableBcnt := by
  simp only [Partition.metadata, Partition.superBlock]
  omega

theorem formatted_blockMark {i : Nat} (inside : i < part.blockCnt) :
    bitmapByte (partitionFormat disk part) part.superBlock.blockBitmapStart i =
      if i % blockSize < part.metadata then 1 else 0 := by
  have block : i / blockSize < divRoundUp part.blockCnt blockSize := by
    simp only [divRoundUp, blockSize]
    omega
  have byte : i % blockSize < blockSize := Nat.mod_lt i (by decide)
  have below : i % blockSize < part.blockCnt := Nat.lt_of_le_of_lt (Nat.mod_le i blockSize) inside
  rw [bitmapByte_eq, Nat.add_comm, partitionFormat_blockBitmap block byte, ← metadata_eq, if_pos below]

theorem formatted_inodeMark {i : Nat} (bound : i < inodeCntMax) :
    bitmapByte (partitionFormat disk part) part.superBlock.inodeBitmapStart i = 0 := by
  have small : i < blockSize := Nat.lt_trans bound (by decide)
  rw [bitmapByte_eq, Nat.div_eq_of_lt small, Nat.mod_eq_of_lt small, Nat.zero_add]
  exact partitionFormat_inodeBitmap bound

theorem formatted_blocks_iff (disk : Disk) (room : part.metadata < part.blockCnt) :
    (∀ i < part.blockCnt, bitmapByte (partitionFormat disk part) part.superBlock.blockBitmapStart i = 1 ↔
      i < part.metadata) ↔ part.blockCnt ≤ blockSize := by
  have marks : ∀ i < part.blockCnt,
      (bitmapByte (partitionFormat disk part) part.superBlock.blockBitmapStart i = 1 ↔
        i % blockSize < part.metadata) := by
    intro i inside
    rw [formatted_blockMark inside]
    split
    · rename_i low
      exact iff_of_true rfl low
    · rename_i high
      exact iff_of_false (by decide) high
  constructor
  · intro right
    by_contra several
    by_cases short : part.metadata ≤ blockSize
    · -- The first byte of the second block is marked like the super block.
      have second := (right blockSize (by omega)).mp ((marks blockSize (by omega)).mpr (by
        rw [Nat.mod_self, metadata_eq]
        omega))
      omega
    · have byte : part.metadata % blockSize < blockSize := Nat.mod_lt _ (by decide)
      have data := (right part.metadata room).mp ((marks part.metadata room).mpr (by omega))
      omega
  · intro single i inside
    rw [marks i inside, Nat.mod_eq_of_lt (by omega)]

theorem partition_consecutive (aligned : part.startLba.toNat % sectsPerBlock = 0)
    (room : part.metadata < part.blockCnt) : part.Consecutive := by
  have sizes := metadata_eq part
  have cnt : part.blockCnt = part.secCnt.toNat / 8 := rfl
  have bid : part.superBlockBid = part.startLba.toNat / 8 := rfl
  have data : part.superBlock.dataStart = part.superBlockBid + part.metadata := by
    rw [sizes]
    simp only [Partition.superBlock]
    omega
  have several : 0 < divRoundUp part.blockCnt blockSize := by
    simp only [divRoundUp, blockSize]
    omega
  constructor
  · simp only [sectsPerBlock] at aligned ⊢
    omega
  · simp [Partition.regions, Partition.superBlock]
  · intro region member
    simp only [Partition.regions, List.mem_cons, List.not_mem_nil, or_false] at member
    rcases member with rfl | rfl | rfl | rfl | rfl
    · exact Nat.zero_lt_one
    · exact several
    · show 0 < inodeBitmapBcnt
      decide
    · show 0 < inodeTableBcnt
      decide
    · show 0 < part.superBlockBid + part.blockCnt - part.superBlock.dataStart
      omega
  · refine ⟨?_, by decide, by decide⟩
    simp only [divRoundUp, blockSize]
    omega
  · simp only [sectsPerBlock] at aligned ⊢
    omega

theorem bitmapFind_first {start i left found : Nat} (low : i ≤ found) (high : found < i + left)
    (zero : bitmapByte disk start found = 0) (taken : ∀ j, i ≤ j → j < found → bitmapByte disk start j ≠ 0) :
    bitmapFind disk start i left = some found := by
  induction left generalizing i with
  | zero => omega
  | succ left ih =>
    rw [bitmapFind]
    by_cases here : i = found
    · rw [here, if_pos zero]
    · rw [if_neg (taken i (Nat.le_refl i) (by omega))]
      exact ih (by omega) (by omega) fun j more less => taken j (by omega) less

theorem growBlocks_first {base idx found : Nat} (left : Nat) (layout : Layout base s.sb)
    (free : bitmapFind s.disk s.sb.blockBitmapStart 0 s.sb.blockBitmapSize = some found) :
    ((growBlocks s p idx (left + 1)).2.inode p).diskInode.direct idx = found + s.sb.blockBitmapStart - 1 := by
  have allocated : fsBitmapAlloc s s.sb.blockBitmapStart s.sb.blockBitmapSize = ((found : Int), s.setMark found 1) := by
    rw [fsBitmapAlloc, free]
    rfl
  have notFailed : ¬ ((found : Int) < 0) := by omega
  rw [growBlocks, allocated]
  dsimp only
  rw [if_neg notFailed]
  have rest := (@growBlocks_remarked base ((s.setMark found 1).setDirect p idx
    ((found : Int).toNat + s.sb.blockBitmapStart - 1)) p (idx + 1) left layout).1
  rw [rest.direct idx (Nat.lt_succ_self idx), (setDirect_here _ p idx _).2, Function.update_self, Int.toNat_natCast]

theorem formatted_first (disk : Disk) (room : part.metadata < part.blockCnt) (single : part.blockCnt ≤ blockSize) :
    HandsOutFirst part (partitionFormat disk part) := by
  intro s p size onDisk sb fits grows
  have layout : Layout part.superBlockBid s.sb := by
    rw [sb]
    exact superBlock_layout part
  have marks : ∀ j ≤ part.metadata, bitmapByte s.disk s.sb.blockBitmapStart j = if j < part.metadata then 1 else 0 := by
    intro j low
    rw [onDisk, sb, formatted_blockMark (by omega), Nat.mod_eq_of_lt (by omega)]
  have free : bitmapFind s.disk s.sb.blockBitmapStart 0 s.sb.blockBitmapSize = some part.metadata := by
    apply bitmapFind_first (Nat.zero_le _)
    · rw [sb, Nat.zero_add]
      exact room
    · rw [marks _ (Nat.le_refl _), if_neg (Nat.lt_irrefl _)]
    · intro j _ less
      rw [marks j (by omega), if_pos less]
      decide
  have block : part.metadata + s.sb.blockBitmapStart - 1 = part.superBlock.dataStart := by
    rw [sb]
    simp only [Partition.metadata, Partition.superBlock]
    omega
  obtain ⟨left, count⟩ : ∃ left, blockCount size - blockCount (s.inode p).diskInode.fileSize = left + 1 :=
    ⟨blockCount size - blockCount (s.inode p).diskInode.fileSize - 1, by omega⟩
  have first := @growBlocks_first s p part.superBlockBid (blockCount (s.inode p).diskInode.fileSize) part.metadata left
    layout free
  have grew : divRoundUp (s.inode p).diskInode.fileSize pgSize < divRoundUp size pgSize := grows
  rw [block, ← count] at first
  unfold inodeSizeChange
  rw [if_neg (Nat.not_lt.mpr fits), if_pos grew]
  generalize grow : growBlocks s p (blockCount (s.inode p).diskInode.fileSize)
    (blockCount size - blockCount (s.inode p).diskInode.fileSize) = grown at first
  change growBlocks s p (divRoundUp (s.inode p).diskInode.fileSize pgSize)
    (divRoundUp size pgSize - divRoundUp (s.inode p).diskInode.fileSize pgSize) = grown at grow
  rw [grow]
  change ∃ result after, (if grown.1 < 0 then Except.ok (grown.1, grown.2)
    else .ok (0, storeInode (grown.2.setFileSize p size) p)) = (.ok (result, after) : Except Halt (Int × State)) ∧ _
  by_cases failed : grown.1 < 0
  · exact ⟨grown.1, grown.2, if_pos failed, first⟩
  · refine ⟨0, storeInode (grown.2.setFileSize p size) p, if_neg failed, ?_⟩
    rw [← first]
    simp [storeInode, State.setFileSize, State.setInode]

/-- Formatting marks exactly the metadata if and only if the block bitmap is one block. -/
theorem format_marks_metadata (disk : Disk) (part : Partition) (aligned : part.startLba.toNat % sectsPerBlock = 0)
    (room : part.metadata < part.blockCnt) : Formatted part (partitionFormat disk part) ↔ part.blockCnt ≤ blockSize := by
  constructor
  · intro formatted
    exact (formatted_blocks_iff disk room).mp formatted.blocks
  · intro single
    exact ⟨partition_consecutive aligned room, (formatted_blocks_iff disk room).mpr single,
      fun _ bound => formatted_inodeMark bound, formatted_first disk room single⟩

/-- A partition of 2560 blocks. -/
theorem format_marks_metadata_closed :
    Formatted ⟨2048, 20480⟩ (partitionFormat (fun _ _ => 0) ⟨2048, 20480⟩) ↔
      (⟨2048, 20480⟩ : Partition).blockCnt ≤ blockSize :=
  format_marks_metadata (fun _ _ => 0) ⟨2048, 20480⟩ (by decide) (by decide)

/-- A partition of 5000 blocks has 8 blocks of metadata, but byte 4096 of its block bitmap is set as well. -/
theorem format_marks_data : (⟨0, 40000⟩ : Partition).startLba.toNat % sectsPerBlock = 0 ∧
    (⟨0, 40000⟩ : Partition).metadata = 8 ∧ (⟨0, 40000⟩ : Partition).blockCnt = 5000 ∧
    bitmapByte (partitionFormat (fun _ _ => 0) ⟨0, 40000⟩) (⟨0, 40000⟩ : Partition).superBlock.blockBitmapStart
      4096 = 1 ∧
    ¬ Formatted ⟨0, 40000⟩ (partitionFormat (fun _ _ => 0) ⟨0, 40000⟩) := by
  refine ⟨by decide, by decide, by decide, ?_, ?_⟩
  · rw [formatted_blockMark (by decide)]
    rfl
  · intro formatted
    have single := (formatted_blocks_iff _ (by decide)).mp formatted.blocks
    exact absurd single (by decide)

end RecoverOs.Fs
