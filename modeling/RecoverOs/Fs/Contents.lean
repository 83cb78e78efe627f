import RecoverOs.Fs.BlockOwnership

namespace RecoverOs.Fs

open Bytes Transition

variable {base : Nat} {created : Nat → Prop} {s middle after : State} {p : Ptr} {iNo : Nat}

def fileSize (s : State) (iNo : Nat) : Nat := (current s iNo).fileSize

/-- Byte `k` of the file. -/
def content (s : State) (iNo k : Nat) : UInt8 :=
  s.disk ((current s iNo).direct (k / blockSize)) (k % blockSize)

structure Agree (keep : Nat → Prop) (s after : State) : Prop where
  size : ∀ jNo, keep jNo → fileSize after jNo = fileSize s jNo
  byte : ∀ jNo, keep jNo → ∀ k < fileSize s jNo, content after jNo k = content s jNo k

theorem Agree.refl (keep : Nat → Prop) (s : State) : Agree keep s s :=
  ⟨fun _ _ => rfl, fun _ _ _ _ => rfl⟩

theorem Agree.trans {keep : Nat → Prop} (first : Agree keep s middle) (second : Agree keep middle after) :
    Agree keep s after where
  size := fun jNo kept => (second.size jNo kept).trans (first.size jNo kept)
  byte := by
    intro jNo kept k bound
    rw [second.byte jNo kept k (by rw [first.size jNo kept]; exact bound), first.byte jNo kept k bound]

theorem Agree.mono {keep fewer : Nat → Prop} (agree : Agree keep s after) (less : ∀ jNo, fewer jNo → keep jNo) :
    Agree fewer s after where
  size := fun jNo kept => agree.size jNo (less jNo kept)
  byte := fun jNo kept => agree.byte jNo (less jNo kept)

structure Steady (s after : State) : Prop extends SameCache s after where
  inodeLock : ∀ q, (after.inode q).inodeLock = (s.inode q).inodeLock
  ranOut : s.ranOut = true → after.ranOut = true

theorem Steady.refl (s : State) : Steady s s := ⟨.refl s, fun _ => rfl, id⟩

theorem Steady.trans (first : Steady s middle) (second : Steady middle after) : Steady s after where
  toSameCache := first.toSameCache.trans second.toSameCache
  inodeLock := fun q => (second.inodeLock q).trans (first.inodeLock q)
  ranOut := fun out => second.ranOut (first.ranOut out)

def Synced (s : State) : Prop :=
  ∀ p ∈ s.openInodes, (tableInode s (s.inode p).iNo).fileSize = (s.inode p).diskInode.fileSize

structure FileInv (base : Nat) (created : Nat → Prop) (s : State) : Prop extends OwnInv base created s where
  synced : Synced s

theorem byte_owned {k : Nat} (bound : k < fileSize s iNo) :
    (ledger s).Holds iNo (k / blockSize) ((current s iNo).direct (k / blockSize)) := by
  refine ⟨?_, rfl⟩
  simp only [ledger, ownedCnt, blockCount, divRoundUp, fileSize, blockSize] at bound ⊢
  omega

/-- Every file lies in data blocks of its own. What the block bitmap says about them is left open. -/
structure Placed (base : Nat) (created : Nat → Prop) (s : State) : Prop where
  layout : Layout base s.sb
  cache : CacheInv s
  members : ∀ p ∈ s.openInodes, created (s.inode p).iNo
  bounded : ∀ i, created i → i < inodeCntMax
  size : ∀ i, created i → (current s i).fileSize ≤ ndirect * blockSize
  apart : (ledger s).Sound created fun bid => s.sb.dataStart ≤ bid ∧ bid < base + s.sb.blockBitmapSize

theorem OwnInv.placed (inv : OwnInv base created s) : Placed base created s where
  layout := inv.layout
  cache := inv.cache
  members := inv.members
  bounded := inv.bounded
  size := inv.size
  apart := ⟨inv.sound.apart, fun i k bid member holds =>
    ⟨(inv.sound.good i k bid member holds).low, (inv.sound.good i k bid member holds).high⟩⟩

theorem Placed.keep (placed : Placed base created s) (sb : after.sb = s.sb) (cache : CacheInv after)
    (members : ∀ p ∈ after.openInodes, created (after.inode p).iNo)
    (currents : ∀ i, created i → current after i = current s i) : Placed base created after where
  layout := by rw [sb]; exact placed.layout
  cache := cache
  members := members
  bounded := placed.bounded
  size := fun i member => by rw [currents i member]; exact placed.size i member
  apart := by
    rw [sb]
    refine placed.apart.shorten ?_ fun _ _ _ _ _ range => range
    intro i member
    simp only [ledger, currents i member, Nat.le_refl, implies_true, and_self]

theorem Placed.same (placed : Placed base created s) (same : SameCache s after)
    (currents : ∀ i, created i → current after i = current s i) : Placed base created after := by
  refine placed.keep same.sb (placed.cache.same same) ?_ currents
  intro q inside
  rw [same.openInodes] at inside
  rw [same.iNo]
  exact placed.members q inside

theorem Placed.word (placed : Placed base created s) (member : created iNo) {k : Nat} (owned : k < ownedCnt (current s iNo)) :
    (current s iNo).direct k < 2 ^ 64 := by
  have high : (current s iNo).direct k < base + s.sb.blockBitmapSize := (placed.apart.good iNo k _ member ⟨owned, rfl⟩).2
  have fits := placed.layout.fits
  omega

theorem content_low (placed : Placed base created s) (member : created iNo) {k : Nat} (bound : k < fileSize s iNo) :
    s.sb.dataStart ≤ (current s iNo).direct (k / blockSize) :=
  (placed.apart.good iNo _ _ member (byte_owned bound)).1

theorem readBlocks_byte {disk : Disk} {direct : Nat → Nat} {start cnt j : Nat} (bound : j < cnt * blockSize) :
    readBlocks disk direct start cnt j = disk (direct (start + j / blockSize)) (j % blockSize) := by
  induction cnt with
  | zero => omega
  | succ cnt ih =>
    rw [readBlocks]
    have page : pgSize = blockSize := rfl
    rw [page]
    by_cases last : cnt * blockSize ≤ j
    · have high : j < cnt * blockSize + blockSize := by
        rw [Nat.succ_mul] at bound
        exact bound
      have block : j / blockSize = cnt := by
        apply Nat.div_eq_of_lt_le
        · exact last
        · rw [Nat.succ_mul]
          exact high
      have rest : j % blockSize = j - cnt * blockSize := by
        have split := Nat.div_add_mod j blockSize
        rw [block, Nat.mul_comm] at split
        omega
      rw [copy_inside last high, blockRead_byte (by omega) (by omega), block, rest, Nat.zero_add]
    · rw [copy_outside (.inl (Nat.not_le.mp last))]
      exact ih (Nat.not_le.mp last)

theorem writeBlocks_byte {disk : Disk} {direct : Nat → Nat} {start cnt c b : Nat} {io : Buffer}
    (distinct : ∀ i < cnt, ∀ j < cnt, direct (start + i) = direct (start + j) → i = j) (block : c < cnt)
    (byte : b < blockSize) : writeBlocks disk direct start io cnt (direct (start + c)) b = io (c * blockSize + b) := by
  induction cnt with
  | zero => omega
  | succ cnt ih =>
    rw [writeBlocks]
    have page : pgSize = blockSize := rfl
    rw [page]
    by_cases last : c = cnt
    · rw [last, blockModify_here (by omega), copy_inside (Nat.zero_le b) (by omega), Nat.sub_zero]
    · have other : direct (start + c) ≠ direct (start + cnt) := by
        intro same
        exact last (distinct c block cnt (Nat.lt_succ_self cnt) same)
      rw [blockModify_other other]
      exact ih (fun i low j high => distinct i (by omega) j (by omega)) (by omega)

theorem inodeRead_bytes {nbyte offset read : Nat} {buf : Buffer} (ran : inodeRead s p nbyte offset = .ok (read, buf)) :
    read = min nbyte ((s.inode p).diskInode.fileSize - offset) ∧ ∀ b < read,
      buf b = s.disk ((s.inode p).diskInode.direct ((offset + b) / blockSize)) ((offset + b) % blockSize) := by
  simp only [inodeRead] at ran
  by_cases past : (s.inode p).diskInode.fileSize ≤ offset
  · rw [if_pos past] at ran
    cases ran
    rw [Nat.sub_eq_zero_of_le past, Nat.min_zero]
    exact ⟨rfl, fun b bound => absurd bound (Nat.not_lt_zero b)⟩
  · rw [if_neg past] at ran
    by_cases huge : 2 ^ 64 ≤ nbyte + offset
    · rw [if_pos huge] at ran
      cases ran
    · rw [if_neg huge] at ran
      simp only [bind_ok, pure_ok, Prod.mk.injEq] at ran
      obtain ⟨_, _, count, rfl⟩ := ran
      have clipped : read = min nbyte ((s.inode p).diskInode.fileSize - offset) := by
        rw [← count]
        split <;> omega
      refine ⟨clipped, ?_⟩
      intro b bound
      simp only [count]
      have split := Nat.div_add_mod offset blockSize
      have inside : offset % blockSize + b < blockSpan offset read * blockSize := by
        simp only [blockSpan, divRoundUp, blockSize] at split ⊢
        omega
      have block : offset / blockSize + (offset % blockSize + b) / blockSize = (offset + b) / blockSize := by
        simp only [blockSize] at split ⊢
        omega
      have rest : (offset % blockSize + b) % blockSize = (offset + b) % blockSize := by
        simp only [blockSize] at split ⊢
        omega
      rw [readBlocks_byte inside, block, rest]

/-- `inode_read` returns the bytes of the file from `offset` on, as many as there are. -/
theorem inodeRead_spec {nbyte offset : Nat} (cache : CacheInv s) (isOpen : IsOpen s p iNo)
    (fits : offset + nbyte < 2 ^ 64) (spans : 0 < nbyte ∨ offset % blockSize ≠ 0) :
    ∃ buf, inodeRead s p nbyte offset = .ok (min nbyte (fileSize s iNo - offset), buf) ∧
      ∀ b < min nbyte (fileSize s iNo - offset), buf b = content s iNo (offset + b) := by
  have own := current_open isOpen cache
  have size : (s.inode p).diskInode.fileSize = fileSize s iNo := by rw [fileSize, own]
  have returns : ∃ read buf, inodeRead s p nbyte offset = .ok (read, buf) := by
    unfold inodeRead
    simp only [size]
    by_cases past : fileSize s iNo ≤ offset
    · rw [if_pos past]
      exact ⟨_, _, rfl⟩
    · rw [if_neg past, if_neg (by omega)]
      have pages : ioPages (blockSpan offset
          (if fileSize s iNo < nbyte + offset then fileSize s iNo - offset else nbyte)) = .ok () := by
        rw [ioPages_ok, blockSpan_pos]
        split <;> omega
      simp only [pages, Bind.bind, Except.bind]
      exact ⟨_, _, rfl⟩
  obtain ⟨read, buf, ran⟩ := returns
  obtain ⟨count, bytes⟩ := inodeRead_bytes ran
  rw [size] at count
  rw [← count]
  refine ⟨buf, ran, ?_⟩
  intro b bound
  rw [bytes b bound, content, own]

theorem current_sameMemory (same : SameCache s after)
    (memory : ∀ q, (after.inode q).diskInode = (s.inode q).diskInode)
    (table : tableInode after iNo = tableInode s iNo) : current after iNo = current s iNo := by
  rw [current, current, findInode_same same]
  cases findInode s iNo with
  | none => exact table
  | some q => exact memory q

theorem current_lock (s : State) (p : Ptr) (value jNo : Nat) :
    current (s.setInode p fun inode => { inode with inodeLock := value }) jNo = current s jNo := by
  apply current_sameMemory (.lock s p value) _ rfl
  intro q
  by_cases here : q = p
  · simp [here]
  · simp [here]

theorem Agree.lock (keep : Nat → Prop) (s : State) (p : Ptr) (value : Nat) :
    Agree keep s (s.setInode p fun inode => { inode with inodeLock := value }) where
  size := fun jNo _ => by rw [fileSize, fileSize, current_lock]
  byte := fun jNo _ k _ => by rw [content, content, current_lock]; rfl

/-- A write inside the file changes the bytes it covers and no other byte of any file. -/
theorem writeData_placed {buf : Buffer} {nbyte offset : Nat} (placed : Placed base created s) (isOpen : IsOpen s p iNo)
    (inside : offset + nbyte ≤ fileSize s iNo) :
    (∀ jNo < inodeCntMax, tableInode (writeData s p buf nbyte offset) jNo = tableInode s jNo) ∧
    (∀ jNo, created jNo → current (writeData s p buf nbyte offset) jNo = current s jNo) ∧
    (∀ jNo < inodeCntMax, inodeMark (writeData s p buf nbyte offset) jNo = inodeMark s jNo) ∧
    Agree (fun jNo => created jNo ∧ jNo ≠ iNo) s (writeData s p buf nbyte offset) ∧
    ∀ k < fileSize s iNo, content (writeData s p buf nbyte offset) iNo k =
      if offset ≤ k ∧ k < offset + nbyte then buf (k - offset) else content s iNo k := by
  have member : created iNo := isOpen.iNo ▸ placed.members p isOpen.mem
  have own := current_open isOpen placed.cache
  set after := writeData s p buf nbyte offset with defined
  set start := offset / blockSize with startIs
  set cnt := divRoundUp (offset + nbyte) blockSize - start with cntIs
  set io := copy (readBlocks s.disk (s.inode p).diskInode.direct start cnt) (offset % blockSize) buf nbyte with ioIs
  have disk : after.disk = writeBlocks s.disk (s.inode p).diskInode.direct start io cnt := rfl
  have owned : ∀ c < cnt, (ledger s).Holds iNo (start + c) ((s.inode p).diskInode.direct (start + c)) := by
    intro c bound
    refine ⟨?_, by simp only [ledger, own]⟩
    simp only [ledger, ownedCnt, blockCount, divRoundUp, fileSize, blockSize] at inside cntIs startIs ⊢
    omega
  have distinct : ∀ i < cnt, ∀ j < cnt,
      (s.inode p).diskInode.direct (start + i) = (s.inode p).diskInode.direct (start + j) → i = j := by
    intro i low j high same
    have apart := placed.apart.apart iNo iNo _ _ _ member member (owned i low) (same ▸ owned j high)
    omega
  have elsewhere : ∀ bid, (∀ c < cnt, bid ≠ (s.inode p).diskInode.direct (start + c)) → after.disk bid = s.disk bid := by
    intro bid other
    rw [disk]
    exact writeBlocks_other other
  have metadata : ∀ bid, bid < s.sb.dataStart → after.disk bid = s.disk bid := by
    intro bid low
    apply elsewhere
    intro c bound here
    have low' := (placed.apart.good iNo _ _ member (owned c bound)).1
    omega
  have table : ∀ jNo < inodeCntMax, tableInode after jNo = tableInode s jNo := by
    intro jNo bound
    refine table_of_disk rfl ?_ bound
    intro bid _ high
    apply metadata
    rw [placed.layout.dataStart]
    exact high
  have currents : ∀ jNo, created jNo → current after jNo = current s jNo := by
    intro jNo inside
    exact current_sameMemory (writeData_same s p buf nbyte offset) (fun _ => rfl) (table jNo (placed.bounded jNo inside))
  refine ⟨table, currents, ?_, ⟨?_, ?_⟩, ?_⟩
  · intro jNo bound
    rw [inodeMark, inodeMark]
    apply bitmapByte_congr
    apply metadata
    rw [inodeBitmapBlock bound, placed.layout.dataStart, placed.layout.inodeTableStart]
    show s.sb.inodeBitmapStart < _
    omega
  · intro jNo kept
    rw [fileSize, fileSize, currents jNo kept.1]
  · intro jNo kept k bound
    rw [content, content, currents jNo kept.1]
    rw [elsewhere]
    intro c low here
    have apart := placed.apart.apart jNo iNo _ _ _ kept.1 member (byte_owned bound) (here ▸ owned c low)
    exact kept.2 apart.1
  · intro k bound
    rw [content, content, currents iNo member, own]
    have split := Nat.div_add_mod k blockSize
    have below : k % blockSize < blockSize := Nat.mod_lt k (by decide)
    by_cases block : start ≤ k / blockSize ∧ k / blockSize < start + cnt
    · have place : k / blockSize = start + (k / blockSize - start) := by omega
      have byte := @writeBlocks_byte s.disk _ _ _ (k / blockSize - start) _ io distinct (by omega) below
      rw [← place] at byte
      rw [disk, byte, ioIs]
      have position : (k / blockSize - start) * blockSize + k % blockSize = k - start * blockSize := by
        simp only [blockSize] at split block ⊢
        omega
      rw [position]
      by_cases covered : offset ≤ k ∧ k < offset + nbyte
      · rw [if_pos covered, copy_inside]
        · congr 1
          simp only [blockSize] at startIs ⊢
          omega
        · simp only [blockSize] at startIs ⊢
          omega
        · simp only [blockSize] at startIs ⊢
          omega
      · rw [if_neg covered, copy_outside, readBlocks_byte]
        · have block' : start + (k - start * blockSize) / blockSize = k / blockSize := by
            simp only [blockSize] at split block ⊢
            omega
          have rest : (k - start * blockSize) % blockSize = k % blockSize := by
            simp only [blockSize] at split block ⊢
            omega
          rw [block', rest]
        · simp only [blockSize] at split block ⊢
          omega
        · simp only [blockSize] at startIs block split ⊢
          omega
    · have other : ¬ (offset ≤ k ∧ k < offset + nbyte) := by
        intro covered
        apply block
        simp only [divRoundUp, blockSize] at startIs cntIs ⊢
        omega
      rw [if_neg other, elsewhere]
      intro c low here
      apply block
      have first := byte_owned bound
      have second := owned c low
      rw [own] at first
      rw [← here] at second
      have apart := placed.apart.apart iNo iNo _ _ _ member member first second
      omega

theorem writeData_spec {buf : Buffer} {nbyte offset : Nat} (inv : OwnInv base created s) (isOpen : IsOpen s p iNo)
    (inside : offset + nbyte ≤ fileSize s iNo) :
    OwnInv base created (writeData s p buf nbyte offset) ∧
    (∀ jNo < inodeCntMax, tableInode (writeData s p buf nbyte offset) jNo = tableInode s jNo) ∧
    (∀ jNo, created jNo → current (writeData s p buf nbyte offset) jNo = current s jNo) ∧
    (∀ jNo < inodeCntMax, inodeMark (writeData s p buf nbyte offset) jNo = inodeMark s jNo) ∧
    Agree (fun jNo => created jNo ∧ jNo ≠ iNo) s (writeData s p buf nbyte offset) ∧
    ∀ k < fileSize s iNo, content (writeData s p buf nbyte offset) iNo k =
      if offset ≤ k ∧ k < offset + nbyte then buf (k - offset) else content s iNo k := by
  refine ⟨inv.write_data isOpen ?_, writeData_placed inv.placed isOpen inside⟩
  rw [← current_open isOpen inv.cache]
  exact inside

structure Remarked (s after : State) (p : Ptr) (idx : Nat) : Prop extends Steady s after where
  disk : ∀ bid, s.sb.inodeBitmapStart ≤ bid → after.disk bid = s.disk bid
  other : ∀ q, q ≠ p → (after.inode q).diskInode = (s.inode q).diskInode
  size : (after.inode p).diskInode.fileSize = (s.inode p).diskInode.fileSize
  direct : ∀ k < idx, (after.inode p).diskInode.direct k = (s.inode p).diskInode.direct k

theorem Remarked.refl (s : State) (p : Ptr) (idx : Nat) : Remarked s s p idx :=
  ⟨.refl s, fun _ _ => rfl, fun _ _ => rfl, rfl, fun _ _ => rfl⟩

theorem Remarked.trans {idx idx' : Nat} (first : Remarked s middle p idx) (second : Remarked middle after p idx')
    (later : idx ≤ idx') : Remarked s after p idx where
  toSteady := first.toSteady.trans second.toSteady
  disk := by
    intro bid high
    rw [second.disk bid (by rw [first.sb]; exact high), first.disk bid high]
  other := fun q differs => (second.other q differs).trans (first.other q differs)
  size := second.size.trans first.size
  direct := fun k low => (second.direct k (Nat.lt_of_lt_of_le low later)).trans (first.direct k low)

theorem bitmapBlock_below (layout : Layout base s.sb) {i : Nat} (inside : i < s.sb.blockBitmapSize) :
    i / blockSize + s.sb.blockBitmapStart < s.sb.inodeBitmapStart := by
  rw [layout.blockBitmapStart, layout.inodeBitmapStart]
  simp only [divRoundUp, blockSize]
  omega

theorem storeInode_blocks (layout : Layout base s.sb) (bound : (s.inode p).iNo < inodeCntMax) {i : Nat}
    (inside : i < s.sb.blockBitmapSize) : blockMark (storeInode s p) i = blockMark s i := by
  have below := bitmapBlock_below layout inside
  have start := layout.inodeTableStart
  have block := tableBlock bound s.sb
  rw [blockMark, blockMark]
  apply bitmapByte_congr
  apply blockModify_other
  show i / blockSize + s.sb.blockBitmapStart ≠ blockId s.sb (s.inode p).iNo
  omega

theorem setMark_remarked (layout : Layout base s.sb) {i idx : Nat} (inside : i < s.sb.blockBitmapSize) (value : UInt8) :
    Remarked s (s.setMark i value) p idx := by
  refine ⟨⟨.ofDisk s _, fun _ => rfl, id⟩, ?_, fun _ _ => rfl, rfl, fun _ _ => rfl⟩
  intro bid high
  have below := bitmapBlock_below layout inside
  exact blockModify_other (by omega)

theorem setDirect_remarked (s : State) (p : Ptr) (idx bid : Nat) : Remarked s (s.setDirect p idx bid) p idx := by
  refine ⟨⟨setDirect_same s p idx bid, ?_, id⟩, fun _ _ => rfl, fun q other => setDirect_memory s p idx bid other,
    (setDirect_here s p idx bid).1, ?_⟩
  · intro q
    by_cases here : q = p
    · simp [State.setDirect, here]
    · simp [State.setDirect, here]
  · intro k low
    rw [(setDirect_here s p idx bid).2, Function.update_of_ne (by omega)]

theorem growBlocks_remarked {idx : Nat} (left : Nat) (layout : Layout base s.sb) :
    Remarked s (growBlocks s p idx left).2 p idx ∧
    ((growBlocks s p idx left).1 < 0 → (growBlocks s p idx left).2.ranOut = true) := by
  induction left generalizing s idx with
  | zero =>
    refine ⟨.refl s p idx, ?_⟩
    intro failed
    exact absurd failed (by show ¬ ((0 : Int) < 0); decide)
  | succ left ih =>
    rw [growBlocks]
    cases allocated : fsBitmapAlloc s s.sb.blockBitmapStart s.sb.blockBitmapSize with
    | mk bidx taken =>
      rcases fsBitmapAlloc_cases allocated with ⟨rfl, rfl⟩ | ⟨i, inside, _, rfl, rfl⟩
      · refine ⟨⟨⟨⟨rfl, rfl, rfl, fun _ => rfl, fun _ => rfl⟩, fun _ => rfl, fun _ => rfl⟩, fun _ _ => rfl,
          fun _ _ => rfl, rfl, fun _ _ => rfl⟩, fun _ => rfl⟩
      · have marked := @setMark_remarked base s p layout i idx inside 1
        have set := setDirect_remarked (s.setMark i 1) p idx ((i : Int).toNat + s.sb.blockBitmapStart - 1)
        obtain ⟨rest, failed⟩ := @ih ((s.setMark i 1).setDirect p idx ((i : Int).toNat + s.sb.blockBitmapStart - 1))
          (idx + 1) layout
        have notFailed : ¬ ((i : Int) < 0) := by omega
        dsimp only
        rw [if_neg notFailed]
        exact ⟨(marked.trans set (Nat.le_refl idx)).trans rest (Nat.le_succ idx), failed⟩

theorem blockFree_ok {size idx : Nat} :
    fsBitmapFree s s.sb.blockBitmapStart size idx = .ok after ↔ idx < size ∧ after = s.setMark idx 0 := by
  simp only [fsBitmapFree, bind_ok, assert_ok, decide_eq_true_eq, pure_ok, State.setMark]
  constructor
  · rintro ⟨_, inside, rfl⟩
    exact ⟨inside, rfl⟩
  · rintro ⟨inside, rfl⟩
    exact ⟨(), inside, rfl⟩

theorem shrinkBlocks_remarked {idx left idx' : Nat} (layout : Layout base s.sb)
    (ran : shrinkBlocks s p idx left = .ok after) : Remarked s after p idx' := by
  induction left generalizing s idx with
  | zero =>
    cases ran
    exact .refl _ p idx'
  | succ left ih =>
    simp only [shrinkBlocks, bind_ok] at ran
    obtain ⟨freed, free, rest⟩ := ran
    obtain ⟨inside, equal⟩ := blockFree_ok.mp free
    have marked := @setMark_remarked base s p layout _ idx' inside 0
    rw [← equal] at marked
    exact marked.trans (ih (by rw [marked.sb]; exact layout) rest) (Nat.le_refl idx')

theorem shrinkBlocks_ok {idx left : Nat} (layout : Layout base s.sb)
    (ranges : ∀ k, idx ≤ k → k < idx + left →
      base ≤ (s.inode p).diskInode.direct k ∧ (s.inode p).diskInode.direct k < base + s.sb.blockBitmapSize) :
    ∃ after, shrinkBlocks s p idx left = .ok after := by
  induction left generalizing s idx with
  | zero => exact ⟨s, rfl⟩
  | succ left ih =>
    obtain ⟨low, high⟩ := ranges idx (Nat.le_refl idx) (by omega)
    obtain ⟨index, defined⟩ : ∃ index,
        ((s.inode p).diskInode.direct idx + 2 ^ 64 - (s.sb.blockBitmapStart - 1)) % 2 ^ 64 = index := ⟨_, rfl⟩
    have inside : index < s.sb.blockBitmapSize := by
      have fits := layout.fits
      rw [layout.blockBitmapStart] at defined
      omega
    obtain ⟨last, rest⟩ := @ih (s.setMark index 0) (idx + 1) layout fun k more less => ranges k (by omega) (by omega)
    refine ⟨last, ?_⟩
    simp only [shrinkBlocks, bind_ok, defined]
    exact ⟨_, blockFree_ok.mpr ⟨inside, rfl⟩, rest⟩

/-- The inode at `p`, its copy in the table and the block bitmap have changed; the blocks it owned are still in place. -/
structure Recut (s after : State) (p : Ptr) (number : Nat) : Prop extends Steady s after where
  data : ∀ bid, s.sb.dataStart ≤ bid → after.disk bid = s.disk bid
  bitmap : after.disk s.sb.inodeBitmapStart = s.disk s.sb.inodeBitmapStart
  table : ∀ jNo < inodeCntMax, jNo ≠ number → tableInode after jNo = tableInode s jNo
  other : ∀ q, q ≠ p → (after.inode q).diskInode = (s.inode q).diskInode
  direct : ∀ k < blockCount (s.inode p).diskInode.fileSize,
    (after.inode p).diskInode.direct k = (s.inode p).diskInode.direct k

theorem Remarked.table {idx : Nat} (remarked : Remarked s after p idx) (layout : Layout base s.sb)
    (bound : iNo < inodeCntMax) : tableInode after iNo = tableInode s iNo := by
  refine table_of_disk remarked.sb ?_ bound
  intro bid low _
  apply remarked.disk
  rw [layout.inodeTableStart] at low
  omega

theorem Remarked.recut (remarked : Remarked s after p (blockCount (s.inode p).diskInode.fileSize))
    (layout : Layout base s.sb) : Recut s after p iNo where
  toSteady := remarked.toSteady
  data := by
    intro bid low
    apply remarked.disk
    rw [layout.dataStart, layout.inodeTableStart] at low
    omega
  bitmap := remarked.disk _ (Nat.le_refl _)
  table := fun jNo bound _ => remarked.table layout bound
  other := remarked.other
  direct := remarked.direct

theorem Remarked.commit {size : Nat} (remarked : Remarked s middle p (blockCount (s.inode p).diskInode.fileSize))
    (layout : Layout base s.sb) (number : (s.inode p).iNo = iNo) (bound : iNo < inodeCntMax) :
    Recut s (storeInode (middle.setFileSize p size) p) p iNo := by
  set sized := middle.setFileSize p size with sizedIs
  have same : SameCache middle sized := setFileSize_same middle p size
  have numbered : (sized.inode p).iNo = iNo := (same.iNo p).trans ((remarked.iNo p).trans number)
  have disk : (storeInode sized p).disk = blockModify middle.disk (blockId middle.sb iNo)
      (sized.inode p).diskInode.store diskInodeBytes (blockOff iNo) := by
    rw [← numbered]
    rfl
  have block := tableBlock bound middle.sb
  rw [remarked.sb] at block
  have other : ∀ bid, bid < s.sb.inodeTableStart ∨ s.sb.inodeTableStart + 4 ≤ bid →
      (storeInode sized p).disk bid = middle.disk bid := by
    intro bid outside
    rw [disk]
    apply blockModify_other
    rw [remarked.sb]
    omega
  constructor
  case toSteady =>
    refine remarked.toSteady.trans ⟨same.trans (storeInode_same sized p), ?_, id⟩
    intro q
    by_cases here : q = p
    · simp [storeInode, sizedIs, State.setFileSize, here]
    · simp [storeInode, sizedIs, State.setFileSize, here]
  case data =>
    intro bid low
    rw [other bid (by rw [layout.dataStart] at low; omega)]
    apply remarked.disk
    rw [layout.dataStart, layout.inodeTableStart] at low
    omega
  case bitmap =>
    rw [other _ (by rw [layout.inodeTableStart]; omega)]
    exact remarked.disk _ (Nat.le_refl _)
  case table =>
    intro jNo inside differs
    have stored : tableInode (storeInode sized p) jNo = tableInode middle jNo :=
      tableInode_modify_other differs (storeInode_same sized p).sb disk
    rw [stored]
    exact remarked.table layout inside
  case other =>
    intro q differs
    rw [← remarked.other q differs]
    simp [storeInode, sizedIs, State.setFileSize, differs]
  case direct =>
    intro k low
    rw [← remarked.direct k low]
    simp [storeInode, sizedIs, State.setFileSize]

theorem Recut.marks (recut : Recut s after p iNo) : ∀ jNo < inodeCntMax, inodeMark after jNo = inodeMark s jNo := by
  intro jNo bound
  rw [inodeMark, inodeMark, recut.sb]
  apply bitmapByte_congr
  rw [inodeBitmapBlock bound]
  exact recut.bitmap

section

variable (recut : Recut s after p iNo) (placed : Placed base created s) (isOpen : IsOpen s p iNo)
include recut placed isOpen

theorem Recut.current_eq {jNo : Nat} (inside : created jNo) (differs : jNo ≠ iNo) : current after jNo = current s jNo :=
  current_other recut.toSameCache isOpen recut.other differs (recut.table jNo (placed.bounded jNo inside) differs)

theorem Recut.others : Agree (fun jNo => created jNo ∧ jNo ≠ iNo) s after where
  size := fun jNo kept => by rw [fileSize, fileSize, recut.current_eq placed isOpen kept.1 kept.2]
  byte := by
    intro jNo kept k bound
    rw [content, content, recut.current_eq placed isOpen kept.1 kept.2]
    rw [recut.data _ (content_low placed kept.1 bound)]

theorem Recut.bytes : ∀ k < fileSize s iNo, content after iNo k = content s iNo k := by
  intro k bound
  have member : created iNo := isOpen.iNo ▸ placed.members p isOpen.mem
  have own := current_open isOpen placed.cache
  have low := content_low placed member bound
  have held : k / blockSize < blockCount (s.inode p).diskInode.fileSize := by
    have counted := (byte_owned bound).1
    simpa only [ledger, ownedCnt, own] using counted
  rw [content, content, current_open (isOpen.same recut.toSameCache) (placed.cache.same recut.toSameCache)]
  rw [own] at low ⊢
  rw [recut.direct _ held, recut.data _ low]

end

structure Resized (base : Nat) (created : Nat → Prop) (s after : State) (p : Ptr) (iNo size : Nat) (result : Int) :
    Prop where
  own : OwnInv base created after
  synced : Synced s → Synced after
  recut : Recut s after p iNo
  failed : result < 0 → after.ranOut = true ∧ fileSize after iNo = fileSize s iNo
  done : ¬ result < 0 → result = 0 ∧ fileSize after iNo = size

theorem Resized.inv {size : Nat} {result : Int} (resized : Resized base created s after p iNo size result)
    (inv : FileInv base created s) : FileInv base created after :=
  ⟨resized.own, resized.synced inv.synced⟩

theorem Recut.synced (recut : Recut s after p iNo) (cache : CacheInv s) (isOpen : IsOpen s p iNo) (synced : Synced s)
    (here : (tableInode after iNo).fileSize = (after.inode p).diskInode.fileSize) : Synced after := by
  intro q member
  rw [recut.openInodes] at member
  rw [recut.iNo]
  by_cases same : q = p
  · rw [same, isOpen.iNo]
    exact here
  · have differs : (s.inode q).iNo ≠ iNo := by
      intro number
      exact same (cache.unique q member p isOpen.mem (number.trans isOpen.iNo.symm))
    rw [recut.table _ (cache.bounded q member) differs, recut.other q same]
    exact synced q member

theorem storeInode_synced {size : Nat} (number : (middle.inode p).iNo = iNo) (small : size ≤ ndirect * blockSize) :
    (tableInode (storeInode (middle.setFileSize p size) p) iNo).fileSize = size ∧
    ((storeInode (middle.setFileSize p size) p).inode p).diskInode.fileSize = size := by
  set sized := middle.setFileSize p size
  have numbered : (sized.inode p).iNo = iNo := ((setFileSize_same middle p size).iNo p).trans number
  have disk : (storeInode sized p).disk = blockModify sized.disk (blockId sized.sb iNo)
      (sized.inode p).diskInode.store diskInodeBytes (blockOff iNo) := by
    rw [← numbered]
    rfl
  have set : (sized.inode p).diskInode.fileSize = size := by
    simp [sized, State.setFileSize]
  refine ⟨?_, set⟩
  rw [(tableInode_modify_here (storeInode_same sized p).sb disk).1, set]
  rw [set]
  simp only [ndirect, blockSize] at small
  omega

def Settled (s : State) (iNo : Nat) : Prop :=
  (tableInode s iNo).fileSize = fileSize s iNo ∧
    ∀ k < ownedCnt (current s iNo), (tableInode s iNo).direct k = (current s iNo).direct k

theorem storeInode_settled (cache : CacheInv s) (isOpen : IsOpen s p iNo) (small : fileSize s iNo ≤ ndirect * blockSize)
    (words : ∀ k < ownedCnt (current s iNo), (current s iNo).direct k < 2 ^ 64) : Settled (storeInode s p) iNo := by
  have same := storeInode_same s p
  have own := current_open isOpen cache
  have stored : current (storeInode s p) iNo = current s iNo := by
    rw [current_open (isOpen.same same) (cache.same same), own]
    rfl
  have disk : (storeInode s p).disk = blockModify s.disk (blockId s.sb iNo) (current s iNo).store diskInodeBytes
      (blockOff iNo) := by
    rw [own, ← isOpen.iNo]
    rfl
  obtain ⟨size, direct⟩ := tableInode_modify_here same.sb disk
  have few := ownedCnt_le small
  rw [fileSize] at small
  simp only [ndirect, blockSize] at small
  refine ⟨?_, ?_⟩
  · rw [fileSize, stored]
    exact size (by omega)
  · intro k owned
    rw [stored] at owned ⊢
    exact direct k (Nat.lt_of_lt_of_le owned few) (words k owned)

theorem inodeSizeChange_less {size : Nat} {result : Int} (layout : Layout base s.sb) (cache : CacheInv s)
    (isOpen : IsOpen s p iNo) (small : size ≤ ndirect * blockSize) (less : size ≤ fileSize s iNo)
    (words : ∀ k < blockCount size, (current s iNo).direct k < 2 ^ 64)
    (ran : inodeSizeChange s p size = .ok (result, after)) :
    Recut s after p iNo ∧ fileSize after iNo = size ∧ Settled after iNo := by
  have bound : iNo < inodeCntMax := isOpen.iNo ▸ cache.bounded p isOpen.mem
  have own := current_open isOpen cache
  have size' : (s.inode p).diskInode.fileSize = fileSize s iNo := by rw [fileSize, own]
  rcases inodeSizeChange_cases ran with ⟨large, _, _⟩ | ⟨_, more, _⟩ | ⟨_, _, shrunk, shrink, rfl, rfl⟩
  · omega
  · simp only [blockCount, divRoundUp, blockSize, size'] at more
    omega
  · have remarked : Remarked s shrunk p (blockCount (s.inode p).diskInode.fileSize) := shrinkBlocks_remarked layout shrink
    obtain ⟨_, set⟩ := @storeInode_synced shrunk p iNo size ((remarked.iNo p).trans isOpen.iNo) small
    have recut := @Remarked.commit base s shrunk p iNo size remarked layout isOpen.iNo bound
    have sizedSame := remarked.toSameCache.trans (setFileSize_same shrunk p size)
    have sizedOpen := isOpen.same sizedSame
    have sized : current (shrunk.setFileSize p size) iNo = ((shrunk.setFileSize p size).inode p).diskInode :=
      current_open sizedOpen (cache.same sizedSame)
    have sizedSize : fileSize (shrunk.setFileSize p size) iNo = size := by
      rw [fileSize, sized]
      simp [State.setFileSize]
    refine ⟨recut, ?_, storeInode_settled (cache.same sizedSame) sizedOpen (by rw [sizedSize]; exact small) ?_⟩
    · rw [fileSize, current_open (isOpen.same recut.toSameCache) (cache.same recut.toSameCache), set]
    · intro k owned
      have counted : k < blockCount size := by
        have fits := sizedSize
        rw [fileSize] at fits
        rwa [ownedCnt, fits] at owned
      have fewer : k < blockCount (s.inode p).diskInode.fileSize := by
        rw [size']
        simp only [blockCount, divRoundUp, blockSize] at counted ⊢
        omega
      have direct : (current (shrunk.setFileSize p size) iNo).direct k = (current s iNo).direct k := by
        rw [sized, own, ← remarked.direct k fewer]
        simp [State.setFileSize]
      rw [direct]
      exact words k counted

theorem inodeSizeChange_spec {size : Nat} (inv : OwnInv base created s) (isOpen : IsOpen s p iNo)
    (small : size ≤ ndirect * blockSize) :
    ∃ result after, inodeSizeChange s p size = .ok (result, after) ∧ Resized base created s after p iNo size result := by
  have member : created iNo := isOpen.iNo ▸ inv.members p isOpen.mem
  have own := current_open isOpen inv.cache
  have bound := inv.bounded iNo member
  have ran : ∃ result after, inodeSizeChange s p size = .ok (result, after) := by
    unfold inodeSizeChange
    rw [if_neg (Nat.not_lt.mpr small)]
    dsimp only
    split
    · split
      · exact ⟨_, _, rfl⟩
      · exact ⟨_, _, rfl⟩
    · rename_i fewer
      obtain ⟨shrunk, shrink⟩ := @shrinkBlocks_ok base s p (divRoundUp size pgSize)
        (divRoundUp (s.inode p).diskInode.fileSize pgSize - divRoundUp size pgSize) inv.layout (by
          intro k _ less
          have holds : (ledger s).Holds iNo k ((s.inode p).diskInode.direct k) := by
            refine ⟨?_, by simp only [ledger, own]⟩
            simp only [ledger, ownedCnt, blockCount, own]
            have page : pgSize = blockSize := rfl
            rw [page] at less fewer
            omega
          have good := inv.sound.good iNo k _ member holds
          exact ⟨(good.index inv.layout).1, good.high⟩)
      rw [shrink]
      exact ⟨_, _, rfl⟩
  obtain ⟨result, after, ran⟩ := ran
  refine ⟨result, after, ran, ?_⟩
  have ownership := inv.size_change isOpen ran
  have sizeBefore : (s.inode p).diskInode.fileSize = fileSize s iNo := by rw [fileSize, own]
  have sizeAfter : fileSize after iNo = (after.inode p).diskInode.fileSize := by
    rw [fileSize, current_open (isOpen.same (inodeSizeChange_same ran)) ownership.cache]
  rcases inodeSizeChange_cases ran with ⟨large, _, _⟩ | ⟨_, _, success, grown, grow, last⟩ |
    ⟨_, _, shrunk, shrink, rfl, rfl⟩
  · omega
  · obtain ⟨remarked, flagged⟩ := @growBlocks_remarked base s p (blockCount (s.inode p).diskInode.fileSize)
      (blockCount size - blockCount (s.inode p).diskInode.fileSize) inv.layout
    rw [grow] at remarked flagged
    rcases last with ⟨failed, rfl, rfl⟩ | ⟨fine, rfl, rfl⟩
    · have recut : Recut s after p iNo := remarked.recut inv.layout
      have unchanged : (after.inode p).diskInode.fileSize = (s.inode p).diskInode.fileSize := remarked.size
      refine ⟨ownership, fun synced => recut.synced inv.cache isOpen synced ?_, recut, ?_, fun fine => absurd failed fine⟩
      · rw [remarked.table inv.layout bound, unchanged, ← isOpen.iNo]
        exact synced p isOpen.mem
      · intro _
        exact ⟨flagged failed, by rw [sizeAfter, unchanged, sizeBefore]⟩
    · obtain ⟨stored, set⟩ := @storeInode_synced grown p iNo size ((remarked.iNo p).trans isOpen.iNo) small
      have recut := @Remarked.commit base s grown p iNo size remarked inv.layout isOpen.iNo bound
      refine ⟨ownership, fun synced => recut.synced inv.cache isOpen synced (stored.trans set.symm), recut,
        fun failed => ?_, fun _ => ⟨rfl, ?_⟩⟩
      · exact absurd failed (by decide)
      · rw [sizeAfter, set]
  · have remarked : Remarked s shrunk p (blockCount (s.inode p).diskInode.fileSize) :=
      shrinkBlocks_remarked inv.layout shrink
    obtain ⟨stored, set⟩ := @storeInode_synced shrunk p iNo size ((remarked.iNo p).trans isOpen.iNo) small
    have recut := @Remarked.commit base s shrunk p iNo size remarked inv.layout isOpen.iNo bound
    refine ⟨ownership, fun synced => recut.synced inv.cache isOpen synced (stored.trans set.symm), recut,
      fun failed => ?_, fun _ => ⟨rfl, ?_⟩⟩
    · exact absurd failed (by decide)
    · rw [sizeAfter, set]

/-- What a write of `nbyte` bytes of `buf` at `offset` leaves. -/
structure Written (base : Nat) (created : Nat → Prop) (s after : State) (iNo : Nat) (buf : Buffer) (nbyte offset : Nat)
    (result : Int) : Prop where
  own : OwnInv base created after
  synced : Synced s → Synced after
  steady : Steady s after
  table : ∀ jNo < inodeCntMax, jNo ≠ iNo → tableInode after jNo = tableInode s jNo
  marks : ∀ jNo < inodeCntMax, inodeMark after jNo = inodeMark s jNo
  others : Agree (fun jNo => created jNo ∧ jNo ≠ iNo) s after
  failed : result < 0 → after.ranOut = true ∧ Agree (· = iNo) s after
  done : ¬ result < 0 → result = nbyte ∧ fileSize after iNo = max (fileSize s iNo) (offset + nbyte) ∧
    ∀ k < fileSize after iNo, offset ≤ k ∧ k < offset + nbyte ∨ k < fileSize s iNo →
      content after iNo k = if offset ≤ k ∧ k < offset + nbyte then buf (k - offset) else content s iNo k

theorem Synced.write {buf : Buffer} {nbyte offset : Nat} (synced : Synced s) (cache : CacheInv s)
    (table : ∀ jNo < inodeCntMax, tableInode (writeData s p buf nbyte offset) jNo = tableInode s jNo) :
    Synced (writeData s p buf nbyte offset) := by
  intro q inside
  show (tableInode (writeData s p buf nbyte offset) (s.inode q).iNo).fileSize = (s.inode q).diskInode.fileSize
  rw [table _ (cache.bounded q inside)]
  exact synced q inside

theorem inodeWrite_spec {buf : Buffer} {nbyte offset : Nat} (inv : OwnInv base created s) (isOpen : IsOpen s p iNo)
    (small : offset + nbyte ≤ ndirect * blockSize) (spans : 0 < nbyte ∨ offset % blockSize ≠ 0) :
    ∃ result after, inodeWrite s p buf nbyte offset = .ok (result, after) ∧
      Written base created s after iNo buf nbyte offset result := by
  have own := current_open isOpen inv.cache
  have size : (s.inode p).diskInode.fileSize = fileSize s iNo := by rw [fileSize, own]
  have member : created iNo := isOpen.iNo ▸ inv.members p isOpen.mem
  have fits : offset + nbyte < 2 ^ 64 := by
    simp only [ndirect, blockSize] at small
    omega
  have pages : ioPages (blockSpan offset nbyte) = .ok () := ioPages_ok.mpr (blockSpan_pos.mpr spans)
  simp only [inodeWrite, writeBack, Nat.mod_eq_of_lt fits, if_neg (Nat.not_le.mpr fits), pages, Bind.bind, Except.bind]
  rw [size]
  by_cases beyond : fileSize s iNo < offset + nbyte
  · rw [if_pos beyond]
    obtain ⟨success, sized, change, resized⟩ := inodeSizeChange_spec inv isOpen small
    simp only [change]
    have others := resized.recut.others inv.placed isOpen
    have marks := resized.recut.marks
    by_cases failed : success < 0
    · rw [if_pos failed]
      obtain ⟨out, unchanged⟩ := resized.failed failed
      refine ⟨success, sized, rfl, resized.own, resized.synced, resized.recut.toSteady, resized.recut.table, marks, others,
        fun _ => ⟨out, ?_, ?_⟩, fun fine => absurd failed fine⟩
      · rintro _ rfl
        exact unchanged
      · rintro _ rfl
        exact resized.recut.bytes inv.placed isOpen
    · rw [if_neg failed]
      have grown := (resized.done failed).2
      have sizedOpen := isOpen.same resized.recut.toSameCache
      obtain ⟨writtenOwn, writtenTable, currents, writtenMarks, writtenOthers, bytes⟩ :=
        @writeData_spec base created sized p iNo buf nbyte offset resized.own sizedOpen (Nat.le_of_eq grown.symm)
      refine ⟨(nbyte : Int), _, rfl, writtenOwn, fun synced => (resized.synced synced).write resized.own.cache writtenTable,
        ?_, ?_, ?_, others.trans writtenOthers, fun wrong => ?_, fun _ => ⟨rfl, ?_, ?_⟩⟩
      · exact resized.recut.toSteady.trans ⟨writeData_same sized p buf nbyte offset, fun _ => rfl, id⟩
      · intro jNo bound differs
        rw [writtenTable jNo bound, resized.recut.table jNo bound differs]
      · intro jNo bound
        rw [writtenMarks jNo bound, marks jNo bound]
      · omega
      · rw [fileSize, currents iNo member]
        have final : (current sized iNo).fileSize = offset + nbyte := grown
        omega
      · intro k bound covered
        rw [fileSize, currents iNo member] at bound
        rw [bytes k bound]
        by_cases inside : offset ≤ k ∧ k < offset + nbyte
        · rw [if_pos inside, if_pos inside]
        · rw [if_neg inside, if_neg inside]
          exact resized.recut.bytes inv.placed isOpen k (covered.resolve_left inside)
  · rw [if_neg beyond]
    obtain ⟨writtenOwn, writtenTable, currents, writtenMarks, writtenOthers, bytes⟩ :=
      @writeData_spec base created s p iNo buf nbyte offset inv isOpen (Nat.not_lt.mp beyond)
    have sameSize : fileSize (writeData s p buf nbyte offset) iNo = fileSize s iNo := by
      rw [fileSize, fileSize, currents iNo member]
    refine ⟨(nbyte : Int), _, rfl, writtenOwn, fun synced => synced.write inv.cache writtenTable,
      ⟨writeData_same s p buf nbyte offset, fun _ => rfl, id⟩, fun jNo bound _ => writtenTable jNo bound, writtenMarks,
      writtenOthers, fun wrong => ?_, fun _ => ⟨rfl, ?_, ?_⟩⟩
    · omega
    · omega
    · intro k bound _
      rw [sameSize] at bound
      exact bytes k bound

theorem inodeWrite_inside {buf : Buffer} {nbyte offset : Nat} {result : Int}
    (ran : inodeWrite s p buf nbyte offset = .ok (result, after))
    (inside : offset + nbyte ≤ (s.inode p).diskInode.fileSize) : ¬ result < 0 ∧ after = writeData s p buf nbyte offset := by
  have low := Nat.mod_le (offset + nbyte) (2 ^ 64)
  simp only [inodeWrite] at ran
  rw [if_neg (by omega)] at ran
  obtain ⟨_, _, rfl, rfl⟩ := writeBack_ok.mp ran
  exact ⟨by omega, rfl⟩

theorem inodeSizeChange_shrinks {size : Nat} {result : Int} (ran : inodeSizeChange s p size = .ok (result, after))
    (small : (s.inode p).diskInode.fileSize ≤ ndirect * blockSize) (less : size ≤ (s.inode p).diskInode.fileSize) :
    ¬ result < 0 := by
  rcases inodeSizeChange_cases ran with ⟨large, _, _⟩ | ⟨_, more, _⟩ | ⟨_, _, _, _, rfl, _⟩
  · omega
  · simp only [blockCount, divRoundUp, blockSize] at more
    omega
  · decide

end RecoverOs.Fs
