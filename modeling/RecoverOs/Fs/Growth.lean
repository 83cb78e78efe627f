import RecoverOs.Fs.Contents
import Mathlib.Data.Finset.Card
import Mathlib.Order.Interval.Finset.Nat

namespace RecoverOs.Fs

open Bytes Transition

variable {base : Nat} {created : Nat → Prop} {s after : State} {p : Ptr} {iNo : Nat}

def freeMarks (s : State) : Finset Nat := (Finset.range s.sb.blockBitmapSize).filter fun i => blockMark s i = 0

def freeBlocks (s : State) : Nat := (freeMarks s).card

theorem mem_freeMarks {i : Nat} : i ∈ freeMarks s ↔ i < s.sb.blockBitmapSize ∧ blockMark s i = 0 := by
  simp [freeMarks]

theorem freeBlocks_congr (size : after.sb.blockBitmapSize = s.sb.blockBitmapSize)
    (marks : ∀ i < s.sb.blockBitmapSize, blockMark after i = blockMark s i) : freeBlocks after = freeBlocks s := by
  have same : freeMarks after = freeMarks s := by
    ext i
    rw [mem_freeMarks, mem_freeMarks, size]
    constructor
    · intro free
      exact ⟨free.1, by rw [← marks i free.1]; exact free.2⟩
    · intro free
      exact ⟨free.1, by rw [marks i free.1]; exact free.2⟩
  rw [freeBlocks, freeBlocks, same]

theorem freeBlocks_take {i : Nat} (inside : i < s.sb.blockBitmapSize) (free : blockMark s i = 0) :
    freeBlocks (s.setMark i 1) + 1 = freeBlocks s := by
  have rest : freeMarks (s.setMark i 1) = (freeMarks s).erase i := by
    ext j
    rw [Finset.mem_erase, mem_freeMarks, mem_freeMarks, setMark_mark]
    by_cases here : j = i
    · simp [here]
    · simp only [here, if_false, ne_eq, not_false_eq_true, true_and]
      rfl
  rw [freeBlocks, rest]
  exact Finset.card_erase_add_one (mem_freeMarks.mpr ⟨inside, free⟩)

theorem freeBlocks_return {i : Nat} (inside : i < s.sb.blockBitmapSize) (marked : blockMark s i ≠ 0) :
    freeBlocks (s.setMark i 0) = freeBlocks s + 1 := by
  have more : freeMarks (s.setMark i 0) = insert i (freeMarks s) := by
    ext j
    rw [Finset.mem_insert, mem_freeMarks, mem_freeMarks, setMark_mark]
    by_cases here : j = i
    · rw [here, if_pos rfl]
      exact ⟨fun _ => .inl rfl, fun _ => ⟨inside, rfl⟩⟩
    · simp only [here, if_false, false_or]
      rfl
  rw [freeBlocks, more]
  apply Finset.card_insert_of_notMem
  intro free
  exact marked (mem_freeMarks.mp free).2

theorem bitmapFind_none {disk : Disk} {start i left : Nat} (ran : bitmapFind disk start i left = none) :
    ∀ j, i ≤ j → j < i + left → bitmapByte disk start j ≠ 0 := by
  induction left generalizing i with
  | zero =>
    intro j low high
    omega
  | succ left ih =>
    rw [bitmapFind] at ran
    split at ran
    · cases ran
    · rename_i marked
      intro j low high
      by_cases here : j = i
      · rw [here]
        exact marked
      · exact ih ran j (by omega) (by omega)

theorem blockAlloc_cases :
    (freeBlocks s = 0 ∧ fsBitmapAlloc s s.sb.blockBitmapStart s.sb.blockBitmapSize = (-1, s)) ∨
    ∃ i, i < s.sb.blockBitmapSize ∧ blockMark s i = 0 ∧
      fsBitmapAlloc s s.sb.blockBitmapStart s.sb.blockBitmapSize = ((i : Int), s.setMark i 1) := by
  cases searched : bitmapFind s.disk s.sb.blockBitmapStart 0 s.sb.blockBitmapSize with
  | none =>
    left
    constructor
    · rw [freeBlocks, Finset.card_eq_zero, Finset.eq_empty_iff_forall_notMem]
      intro i free
      rw [mem_freeMarks] at free
      exact bitmapFind_none searched i (Nat.zero_le i) (by omega) free.2
    · simp only [fsBitmapAlloc, searched]
      rfl
  | some i =>
    right
    obtain ⟨_, bound, zero⟩ := bitmapFind_some searched
    refine ⟨i, by omega, zero, ?_⟩
    simp only [fsBitmapAlloc, searched]
    rfl

theorem growBlocks_free (idx left : Nat) :
    (left ≤ freeBlocks s → (growBlocks s p idx left).1 = 0 ∧ (growBlocks s p idx left).2.ranOut = s.ranOut ∧
      freeBlocks (growBlocks s p idx left).2 + left = freeBlocks s) ∧
    (freeBlocks s < left → (growBlocks s p idx left).1 = -1 ∧ freeBlocks (growBlocks s p idx left).2 = 0) ∧
    (freeBlocks s = 0 → 0 < left → (growBlocks s p idx left).2 = { s with ranOut := true }) := by
  induction left generalizing s idx with
  | zero => simp [growBlocks]
  | succ left ih =>
    rcases @blockAlloc_cases s with ⟨none, failed⟩ | ⟨i, inside, free, taken⟩
    · have stops : growBlocks s p idx (left + 1) = (-1, { s with ranOut := true }) := by
        simp only [growBlocks, failed]
        rfl
      rw [stops]
      have same : freeBlocks { s with ranOut := true } = freeBlocks s := rfl
      refine ⟨fun enough => ?_, fun _ => ⟨rfl, same.trans none⟩, fun _ _ => rfl⟩
      omega
    · have step : growBlocks s p idx (left + 1) =
          growBlocks ((s.setMark i 1).setDirect p idx ((i : Int).toNat + s.sb.blockBitmapStart - 1)) p (idx + 1) left := by
        have notFailed : ¬ ((i : Int) < 0) := by omega
        simp only [growBlocks, taken, if_neg notFailed]
      have less : freeBlocks ((s.setMark i 1).setDirect p idx ((i : Int).toNat + s.sb.blockBitmapStart - 1)) + 1 =
          freeBlocks s := freeBlocks_take inside free
      obtain ⟨enough, short, _⟩ :=
        @ih ((s.setMark i 1).setDirect p idx ((i : Int).toNat + s.sb.blockBitmapStart - 1)) (idx + 1)
      rw [step]
      refine ⟨fun more => ?_, fun fewer => short (by omega), fun none => ?_⟩
      · obtain ⟨fine, flag, rest⟩ := enough (by omega)
        exact ⟨fine, flag, by omega⟩
      · omega

theorem shrinkBlocks_free {idx left : Nat} (layout : Layout base s.sb)
    (marked : ∀ k, idx ≤ k → k < idx + left → base ≤ (s.inode p).diskInode.direct k ∧
      (s.inode p).diskInode.direct k - base < s.sb.blockBitmapSize ∧
      blockMark s ((s.inode p).diskInode.direct k - base) ≠ 0)
    (apart : ∀ k l, idx ≤ k → k < l → l < idx + left → (s.inode p).diskInode.direct k ≠ (s.inode p).diskInode.direct l)
    (ran : shrinkBlocks s p idx left = .ok after) : freeBlocks after = freeBlocks s + left := by
  induction left generalizing s idx with
  | zero =>
    cases ran
    rfl
  | succ left ih =>
    obtain ⟨start, inside, taken⟩ := marked idx (Nat.le_refl idx) (by omega)
    have index : ((s.inode p).diskInode.direct idx + 2 ^ 64 - (s.sb.blockBitmapStart - 1)) % 2 ^ 64 =
        (s.inode p).diskInode.direct idx - base := by
      have fits := layout.fits
      rw [layout.blockBitmapStart]
      omega
    simp only [shrinkBlocks, bind_ok, index] at ran
    obtain ⟨freed, free, rest⟩ := ran
    obtain ⟨_, rfl⟩ := blockFree_ok.mp free
    have next := @ih (s.setMark ((s.inode p).diskInode.direct idx - base) 0) (idx + 1) layout
    rw [next ?_ ?_ rest, freeBlocks_return inside taken]
    · omega
    · intro k low high
      obtain ⟨above, bound, still⟩ := marked k (by omega) (by omega)
      refine ⟨above, bound, ?_⟩
      have other := apart idx k (Nat.le_refl idx) low (by omega)
      rw [setMark_mark, if_neg]
      · exact still
      · show (s.inode p).diskInode.direct k - base ≠ _
        omega
    · intro k l low less high
      exact apart k l (by omega) less (by omega)

/-- The blocks a file needs on top of those it has. -/
def neededBlocks (s : State) (p : Ptr) (size : Nat) : Nat :=
  blockCount size - blockCount (s.inode p).diskInode.fileSize

/-- A size change fails exactly when the size is too big or the blocks do not suffice. -/
theorem inodeSizeChange_negative {size : Nat} {result : Int} (ran : inodeSizeChange s p size = .ok (result, after)) :
    result < 0 ↔ ndirect * blockSize < size ∨ freeBlocks s < neededBlocks s p size := by
  rcases inodeSizeChange_cases ran with ⟨large, rfl, rfl⟩ | ⟨fits, more, success, grown, grow, last⟩ |
    ⟨fits, fewer, _, _, rfl, _⟩
  · exact ⟨fun _ => .inl large, fun _ => by decide⟩
  · obtain ⟨enough, short, _⟩ := @growBlocks_free s p (blockCount (s.inode p).diskInode.fileSize) (neededBlocks s p size)
    rw [neededBlocks, grow] at enough short
    have exactly : success < 0 ↔ freeBlocks s < neededBlocks s p size := by
      constructor
      · intro failed
        by_contra fine
        have zero : success = 0 := (enough (Nat.not_lt.mp fine)).1
        omega
      · intro few
        have failed : success = -1 := (short few).1
        omega
    rcases last with ⟨failed, rfl, _⟩ | ⟨fine, rfl, _⟩
    · exact ⟨fun _ => .inr (exactly.mp failed), fun _ => failed⟩
    · refine ⟨fun wrong => absurd wrong (by decide), fun either => ?_⟩
      rcases either with large | few
      · omega
      · exact absurd (exactly.mpr few) fine
  · refine ⟨fun wrong => absurd wrong (by decide), fun either => ?_⟩
    rw [neededBlocks] at either
    omega

theorem inodeWrite_enough {buf : Buffer} {nbyte offset : Nat} {result : Int} (small : offset + nbyte ≤ ndirect * blockSize)
    (enough : neededBlocks s p (offset + nbyte) ≤ freeBlocks s)
    (ran : inodeWrite s p buf nbyte offset = .ok (result, after)) : ¬ result < 0 := by
  have fits : offset + nbyte < 2 ^ 64 := by
    simp only [ndirect, blockSize] at small
    omega
  rcases inodeWrite_cases ran with ⟨success, failed, change, rfl⟩ | ⟨_, _, _, rfl, _⟩
  · rw [Nat.mod_eq_of_lt fits] at change
    rcases (inodeSizeChange_negative change).mp failed with large | short
    · omega
    · omega
  · omega

def spare (s : State) (iNo : Nat) : Nat := freeBlocks s + blockCount (fileSize s iNo)

section

variable (inv : OwnInv base created s) (isOpen : IsOpen s p iNo)
include inv isOpen

theorem OwnInv.sizeChange_spare {size : Nat} {result : Int} (ran : inodeSizeChange s p size = .ok (result, after))
    (fine : ¬ result < 0) : spare after iNo = spare s iNo := by
  have member : created iNo := isOpen.iNo ▸ inv.members p isOpen.mem
  have same := inodeSizeChange_same ran
  have before := current_open isOpen inv.cache
  have later := current_open (isOpen.same same) (inv.cache.same same)
  have sizeAfter := inodeSizeChange_fileSize ran fine
  have stored : ∀ middle : State, SameCache s middle →
      freeBlocks (storeInode (middle.setFileSize p size) p) = freeBlocks middle := by
    intro middle kept
    have number : ((middle.setFileSize p size).inode p).iNo = iNo :=
      ((setFileSize_same middle p size).iNo p).trans ((kept.iNo p).trans isOpen.iNo)
    refine freeBlocks_congr rfl fun i inside => ?_
    exact @storeInode_blocks base (middle.setFileSize p size) p (kept.sb ▸ inv.layout) (number ▸ inv.bounded iNo member) i inside
  rw [spare, spare, fileSize, fileSize, before, later, sizeAfter]
  rcases inodeSizeChange_cases ran with ⟨_, rfl, _⟩ | ⟨_, more, success, grown, grow, ⟨failed, rfl, _⟩ | ⟨_, _, rfl⟩⟩ |
    ⟨_, fewer, shrunk, shrink, _, rfl⟩
  · exact absurd (by decide) fine
  · exact absurd failed fine
  · have enough : neededBlocks s p size ≤ freeBlocks s := by
      by_contra short
      exact fine ((inodeSizeChange_negative ran).mpr (.inr (Nat.not_le.mp short)))
    obtain ⟨take, _⟩ := @growBlocks_free s p (blockCount (s.inode p).diskInode.fileSize) (neededBlocks s p size)
    obtain ⟨_, _, left⟩ := take enough
    have kept := growBlocks_same s p (blockCount (s.inode p).diskInode.fileSize) (neededBlocks s p size)
    rw [neededBlocks, grow] at left kept
    rw [stored grown kept]
    dsimp only at left
    omega
  · have holds : ∀ k < blockCount (s.inode p).diskInode.fileSize,
        (ledger s).Holds iNo k ((s.inode p).diskInode.direct k) := by
      intro k below
      refine ⟨?_, ?_⟩
      · simpa only [ledger, ownedCnt, before] using below
      · simp only [ledger, before]
    rw [stored shrunk (shrinkBlocks_same shrink), shrinkBlocks_free inv.layout ?_ ?_ shrink]
    · omega
    · intro k low high
      have good := inv.sound.good iNo k _ member (holds k (by omega))
      refine ⟨(good.index inv.layout).1, (good.index inv.layout).2, ?_⟩
      rw [good.marked]
      decide
    · intro k l low less high here
      have first := holds k (by omega)
      rw [here] at first
      have twice := inv.sound.apart iNo iNo k l _ member member first (holds l (by omega))
      omega

theorem OwnInv.write_spare {buf : Buffer} {nbyte offset : Nat} {result : Int}
    (ran : inodeWrite s p buf nbyte offset = .ok (result, after)) (fine : ¬ result < 0) :
    spare after iNo = spare s iNo := by
  have data : ∀ sized : State, OwnInv base created sized → IsOpen sized p iNo →
      offset + nbyte ≤ (sized.inode p).diskInode.fileSize → spare (writeData sized p buf nbyte offset) iNo = spare sized iNo := by
    intro sized own open' inside
    have same := writeData_same sized p buf nbyte offset
    have marks : ∀ i < sized.sb.blockBitmapSize, blockMark (writeData sized p buf nbyte offset) i = blockMark sized i := by
      intro i bound
      rw [blockMark, blockMark]
      apply bitmapByte_congr
      apply own.writeData_below open' inside
      have below := bitmapBlock_below own.layout bound
      have start := own.layout.inodeTableStart
      rw [own.layout.dataStart, same.sb]
      omega
    rw [spare, spare, freeBlocks_congr (by rw [same.sb]) marks, fileSize, fileSize,
      current_open (open'.same same) (own.cache.same same), current_open open' own.cache]
    rfl
  rcases inodeWrite_cases ran with ⟨success, failed, _, rfl⟩ | ⟨sized, resized, inside, _, rfl⟩
  · exact absurd failed fine
  · rcases resized with rfl | ⟨success, done, change⟩
    · exact data _ inv isOpen inside
    · rw [data sized (inv.size_change isOpen change) (isOpen.same (inodeSizeChange_same change)) inside,
        inv.sizeChange_spare isOpen change done]

end

structure Untouched (s after : State) (p : Ptr) : Prop where
  bitmap : ∀ i < s.sb.blockBitmapSize, blockMark after i = blockMark s i
  fileSize : (after.inode p).diskInode.fileSize = (s.inode p).diskInode.fileSize
  table : ∀ bid, s.sb.inodeTableStart ≤ bid → bid < s.sb.inodeTableStart + inodeTableBcnt → after.disk bid = s.disk bid

/-- A request that no allocation can fail for after another one has succeeded: the size is too big for any file, the
    free blocks suffice, or there are none. -/
def Traceless (s : State) (p : Ptr) (size : Nat) : Prop :=
  ndirect * blockSize < size ∨ neededBlocks s p size ≤ freeBlocks s ∨ freeBlocks s = 0

instance (s : State) (p : Ptr) (size : Nat) : Decidable (Traceless s p size) :=
  inferInstanceAs (Decidable (_ ∨ _ ∨ _))

theorem sizeChange_untouched {size : Nat} {result : Int} (ran : inodeSizeChange s p size = .ok (result, after))
    (failed : result < 0) : Untouched s after p ↔ Traceless s p size := by
  rcases inodeSizeChange_cases ran with ⟨large, _, rfl⟩ | ⟨fits, more, success, grown, grow, last⟩ |
    ⟨_, _, _, _, rfl, _⟩
  · exact ⟨fun _ => .inl large, fun _ => ⟨fun _ _ => rfl, rfl, fun _ _ _ => rfl⟩⟩
  · have short := ((inodeSizeChange_negative ran).mp failed).resolve_left (Nat.not_lt.mpr fits)
    obtain ⟨_, spent, stops⟩ := @growBlocks_free s p (blockCount (s.inode p).diskInode.fileSize) (neededBlocks s p size)
    rw [neededBlocks, grow] at spent stops
    have ends : after = grown := by
      rcases last with ⟨_, _, same⟩ | ⟨_, rfl, _⟩
      · exact same
      · exact absurd failed (by decide)
    subst ends
    constructor
    · intro untouched
      have same : SameCache s after := inodeSizeChange_same ran
      have count := freeBlocks_congr (by rw [same.sb]) untouched.bitmap
      rw [(spent short).2] at count
      exact .inr (.inr count.symm)
    · intro traceless
      have none : freeBlocks s = 0 := by
        rcases traceless with large | enough | none
        · omega
        · omega
        · exact none
      have unchanged : after = { s with ranOut := true } := stops none (by omega)
      rw [unchanged]
      exact ⟨fun _ _ => rfl, rfl, fun _ _ _ => rfl⟩
  · exact absurd failed (by decide)

theorem inodeSizeChange_short {size : Nat} (fits : ¬ ndirect * blockSize < size) (few : freeBlocks s < neededBlocks s p size) :
    ∃ after, inodeSizeChange s p size = .ok (-1, after) ∧ (freeBlocks s = 0 → after = { s with ranOut := true }) := by
  have more : divRoundUp (s.inode p).diskInode.fileSize pgSize < divRoundUp size pgSize := by
    have page : pgSize = blockSize := rfl
    simp only [neededBlocks, blockCount] at few
    rw [page]
    omega
  obtain ⟨_, short, stops⟩ := @growBlocks_free s p (blockCount (s.inode p).diskInode.fileSize) (neededBlocks s p size)
  refine ⟨(growBlocks s p (blockCount (s.inode p).diskInode.fileSize) (neededBlocks s p size)).2, ?_,
    fun none => stops none (by omega)⟩
  rw [inodeSizeChange, if_neg fits]
  dsimp only
  rw [if_pos more]
  have failed : (growBlocks s p (divRoundUp (s.inode p).diskInode.fileSize pgSize)
      (divRoundUp size pgSize - divRoundUp (s.inode p).diskInode.fileSize pgSize)).1 = -1 := (short few).1
  rw [failed, if_pos (by decide)]
  rfl

/-- A failed growth leaves no trace exactly when it has not taken a block before it fails. -/
theorem failed_growth_traceless_iff (s : State) (p : Ptr) (size : Nat) (buf : Buffer) (nbyte offset : Nat) :
    ((∀ result after, inodeSizeChange s p size = .ok (result, after) → result < 0 → Untouched s after p) ↔
      Traceless s p size) ∧
    ((∀ result after, inodeWrite s p buf nbyte offset = .ok (result, after) → result < 0 → Untouched s after p) ↔
      (offset + nbyte) % 2 ^ 64 ≤ (s.inode p).diskInode.fileSize ∨ Traceless s p ((offset + nbyte) % 2 ^ 64)) := by
  have change : ∀ size, (∀ result after, inodeSizeChange s p size = .ok (result, after) → result < 0 →
      Untouched s after p) ↔ Traceless s p size := by
    intro size
    constructor
    · intro clean
      by_contra traced
      have fits : ¬ ndirect * blockSize < size := fun large => traced (.inl large)
      have few : freeBlocks s < neededBlocks s p size := Nat.not_le.mp fun enough => traced (.inr (.inl enough))
      obtain ⟨after, ran, _⟩ := inodeSizeChange_short fits few
      exact traced ((sizeChange_untouched ran (by decide)).mp (clean (-1) after ran (by decide)))
    · intro traceless result after ran failed
      exact (sizeChange_untouched ran failed).mpr traceless
  refine ⟨change size, ?_⟩
  rw [← change]
  constructor
  · intro clean
    by_cases inside : (offset + nbyte) % 2 ^ 64 ≤ (s.inode p).diskInode.fileSize
    · exact .inl inside
    · right
      intro result after ran failed
      apply clean result after _ failed
      simp only [inodeWrite, if_pos (Nat.not_le.mp inside), ran, Bind.bind, Except.bind, if_pos failed]
      rfl
  · intro either result after ran failed
    rcases inodeWrite_cases ran with ⟨success, negative, change, rfl⟩ | ⟨_, _, _, rfl, _⟩
    · rcases either with inside | clean
      · simp only [inodeWrite, if_neg (Nat.not_lt.mpr inside)] at ran
        obtain ⟨_, _, rfl, _⟩ := writeBack_ok.mp ran
        omega
      · exact clean result after change failed
    · omega

/-- Two blocks are free and the root directory asks for four more: both stay marked. -/
theorem failed_growth_marks : ∃ fs loaded p after, format (fun _ _ => 0) ⟨64, 80⟩ = .ok fs ∧
    inodeOpen fs 0 = .ok (some p, loaded) ∧ inodeSizeChange loaded p 20480 = .ok (-1, after) ∧
    ¬ Untouched loaded after p := by
  have evaluated : endsIn (format (fun _ _ => 0) ⟨64, 80⟩) (fun fs =>
      endsIn (inodeOpen fs 0) fun opened => endsIn (deref opened.1) fun p =>
        endsIn (inodeSizeChange opened.2 p 20480) fun sized =>
          decide (sized.1 = -1) && decide (8 < opened.2.sb.blockBitmapSize ∧ blockMark opened.2 8 = 0 ∧
            blockMark sized.2 8 = 1)) = true := by
    decide +kernel
  obtain ⟨fs, formatted, rest⟩ := exists_of_endsIn evaluated
  obtain ⟨⟨opened, loaded⟩, opens, rest⟩ := exists_of_endsIn rest
  obtain ⟨p, pointer, rest⟩ := exists_of_endsIn rest
  obtain ⟨sized, change, rest⟩ := exists_of_endsIn rest
  rw [Bool.and_eq_true, decide_eq_true_eq, decide_eq_true_eq] at rest
  obtain ⟨minus, inside, before, marked⟩ := rest
  refine ⟨fs, loaded, p, sized.2, formatted, ?_, ?_, fun untouched => ?_⟩
  · cases opened with
    | none => cases pointer
    | some q =>
      obtain rfl := deref_some.mp pointer
      exact opens
  · rw [← minus]
    exact change
  · have same := untouched.bitmap 8 inside
    rw [before, marked] at same
    exact absurd same (by decide)

end RecoverOs.Fs
