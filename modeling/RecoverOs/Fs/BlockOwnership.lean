import RecoverOs.Fs.Layout
import RecoverOs.Logic.Ledger
import Mathlib.Tactic.Set

namespace RecoverOs.Fs

open Bytes Transition

/-- The copy of an inode that counts: the one in memory if there is one. -/
def current (s : State) (iNo : Nat) : DiskInode :=
  match findInode s iNo with
  | some p => (s.inode p).diskInode
  | none => tableInode s iNo

def ownedCnt (inode : DiskInode) : Nat := blockCount inode.fileSize

def ledger (s : State) : Ledger Nat Nat where
  count := fun iNo => ownedCnt (current s iNo)
  entry := fun iNo => (current s iNo).direct

structure Good (base : Nat) (s : State) (bid : Nat) : Prop where
  low : s.sb.dataStart ≤ bid
  high : bid < base + s.sb.blockBitmapSize
  marked : blockMark s (bid - base) = 1

theorem Good.index {base bid : Nat} {s : State} (good : Good base s bid) (layout : Layout base s.sb) :
    base ≤ bid ∧ bid - base < s.sb.blockBitmapSize := by
  have low := good.low
  have high := good.high
  rw [layout.dataStart, layout.inodeTableStart, layout.inodeBitmapStart] at low
  omega

/-- The copy in the table is empty or agrees with the one in memory on what they own. -/
def Coherent (table cached : DiskInode) : Prop :=
  table.fileSize = 0 ∨ (table.fileSize = cached.fileSize ∧ ∀ k < ownedCnt cached, table.direct k = cached.direct k)

structure Frame (base : Nat) (created : Nat → Prop) (s : State) : Prop where
  layout : Layout base s.sb
  cache : CacheInv s
  members : ∀ p ∈ s.openInodes, created (s.inode p).iNo
  bounded : ∀ i, created i → i < inodeCntMax
  reserved : ∀ idx, idx < s.sb.dataStart - base → idx < s.sb.blockBitmapSize → blockMark s idx ≠ 0
  size : ∀ i, created i → (current s i).fileSize ≤ ndirect * blockSize
  coherent : ∀ p ∈ s.openInodes, Coherent (tableInode s (s.inode p).iNo) (s.inode p).diskInode

structure OwnInv (base : Nat) (created : Nat → Prop) (s : State) : Prop extends Frame base created s where
  sound : (ledger s).Sound created (Good base s)

variable {base : Nat} {created : Nat → Prop} {s after : State} {p : Ptr} {iNo : Nat}

theorem ownedCnt_le {inode : DiskInode} (small : inode.fileSize ≤ ndirect * blockSize) : ownedCnt inode ≤ ndirect := by
  simp only [ownedCnt, blockCount, divRoundUp, ndirect, blockSize] at small ⊢
  omega

theorem ownedCnt_zero {inode : DiskInode} (empty : inode.fileSize = 0) : ownedCnt inode = 0 := by
  simp [ownedCnt, blockCount, divRoundUp, empty, blockSize]

theorem current_open (isOpen : IsOpen s p iNo) (cache : CacheInv s) : current s iNo = (s.inode p).diskInode := by
  rw [current, isOpen.found cache]

theorem current_other (same : SameCache s after) (isOpen : IsOpen s p iNo)
    (memory : ∀ q, q ≠ p → (after.inode q).diskInode = (s.inode q).diskInode) {jNo : Nat} (other : jNo ≠ iNo)
    (table : tableInode after jNo = tableInode s jNo) : current after jNo = current s jNo := by
  rw [current, current, findInode_same same]
  cases found : findInode s jNo with
  | none => exact table
  | some q =>
    have differs : q ≠ p := by
      intro here
      apply other
      rw [← isOpen.iNo, ← here, (findInode_isOpen found).iNo]
    exact memory q differs

theorem current_opened (inv : CacheInv s) (opened : Opened s iNo p after) (jNo : Nat) :
    current after jNo = current s jNo := by
  have table : tableInode after jNo = tableInode s jNo := by
    rw [tableInode, tableInode, opened.disk, opened.sb]
  cases found : findInode s jNo with
  | some q =>
    have isOpen := findInode_isOpen found
    have stays : IsOpen after q jNo := ⟨opened.grows isOpen.mem, (opened.old q isOpen.mem).1.trans isOpen.iNo⟩
    rw [current_open stays opened.inv, current_open isOpen inv, (opened.old q isOpen.mem).2.1]
  | none =>
    have before : current s jNo = tableInode s jNo := by
      rw [current, found]
    cases later : findInode after jNo with
    | none => rw [current, later, before, table]
    | some q =>
      have isOpen := findInode_isOpen later
      have isNew : q ∉ s.openInodes := by
        intro member
        apply findInode_none found member
        rw [← (opened.old q member).1, isOpen.iNo]
      obtain ⟨here, _, loaded⟩ := opened.new q isOpen.mem isNew
      have number : iNo = jNo := by
        rw [← opened.isOpen.iNo, ← here, isOpen.iNo]
      rw [current_open isOpen opened.inv, loaded, before, number]

theorem current_closed (inv : CacheInv s) (closed : Closed s p after) (member : p ∈ s.openInodes) (jNo : Nat) :
    current after jNo = current s jNo ∨
    (jNo = (s.inode p).iNo ∧ current after jNo = tableInode s jNo ∧ current s jNo = (s.inode p).diskInode) := by
  have table : tableInode after jNo = tableInode s jNo := by
    rw [tableInode, tableInode, closed.disk, closed.sb]
  cases found : findInode s jNo with
  | none =>
    left
    have later : findInode after jNo = none := by
      cases later : findInode after jNo with
      | none => rfl
      | some q =>
        have isOpen := findInode_isOpen later
        have stayed := ((closed.shrinks q).mp isOpen.mem).1
        exact absurd ((closed.iNo q).symm.trans isOpen.iNo) (findInode_none found stayed)
    rw [current, current, found, later, table]
  | some q =>
    have isOpen := findInode_isOpen found
    by_cases stays : q ∈ after.openInodes
    · left
      have still : IsOpen after q jNo := ⟨stays, (closed.iNo q).trans isOpen.iNo⟩
      rw [current_open still closed.inv, current_open isOpen inv, closed.diskInode]
    · right
      have here : q = p := by
        by_contra other
        exact stays ((closed.shrinks q).mpr ⟨isOpen.mem, fun same => absurd same other⟩)
      subst here
      have gone : findInode after jNo = none := by
        cases later : findInode after jNo with
        | none => rfl
        | some r =>
          have open' := findInode_isOpen later
          have stayed := ((closed.shrinks r).mp open'.mem).1
          have same := inv.unique r stayed q isOpen.mem (by rw [← closed.iNo r, open'.iNo, isOpen.iNo])
          exact absurd (same ▸ open'.mem) stays
      refine ⟨isOpen.iNo.symm, ?_, current_open isOpen inv⟩
      rw [current, gone, table]

theorem mark_of_disk (sb : after.sb = s.sb) (layout : Layout base s.sb)
    (disk : ∀ bid, bid < s.sb.inodeBitmapStart → after.disk bid = s.disk bid) {idx : Nat}
    (inside : idx < s.sb.blockBitmapSize) : blockMark after idx = blockMark s idx := by
  rw [blockMark, blockMark, sb]
  apply bitmapByte_congr
  apply disk
  rw [layout.blockBitmapStart, layout.inodeBitmapStart]
  simp only [divRoundUp, blockSize]
  omega

theorem table_of_disk (sb : after.sb = s.sb)
    (disk : ∀ bid, s.sb.inodeTableStart ≤ bid → bid < s.sb.inodeTableStart + 4 → after.disk bid = s.disk bid)
    (bound : iNo < inodeCntMax) : tableInode after iNo = tableInode s iNo := by
  obtain ⟨low, high⟩ := tableBlock bound s.sb
  apply tableInode_congr sb
  intro i _
  rw [disk _ low high]

theorem Frame.change (frame : Frame base created s) (same : SameCache s after) (isOpen : IsOpen s p iNo)
    (memory : ∀ q, q ≠ p → (after.inode q).diskInode = (s.inode q).diskInode)
    (table : ∀ jNo < inodeCntMax, jNo ≠ iNo → tableInode after jNo = tableInode s jNo)
    (coherent : Coherent (tableInode after iNo) (after.inode p).diskInode)
    (size : (after.inode p).diskInode.fileSize ≤ ndirect * blockSize)
    (reserved : ∀ idx, idx < s.sb.dataStart - base → idx < s.sb.blockBitmapSize → blockMark after idx ≠ 0) :
    Frame base created after where
  layout := by rw [same.sb]; exact frame.layout
  cache := frame.cache.same same
  members := by simp only [same.openInodes, same.iNo]; exact frame.members
  bounded := frame.bounded
  reserved := by rw [same.sb]; exact reserved
  size := by
    intro jNo member
    by_cases here : jNo = iNo
    · rw [here, current_open (isOpen.same same) (frame.cache.same same)]
      exact size
    · rw [current_other same isOpen memory here (table jNo (frame.bounded jNo member) here)]
      exact frame.size jNo member
  coherent := by
    intro q member
    rw [same.openInodes] at member
    rw [same.iNo]
    by_cases here : q = p
    · rw [here, isOpen.iNo]
      exact coherent
    · have other : (s.inode q).iNo ≠ iNo := by
        intro number
        exact here (frame.cache.unique q member p isOpen.mem (number.trans isOpen.iNo.symm))
      rw [table _ (frame.cache.bounded q member) other, memory q here]
      exact frame.coherent q member

def State.setMark (s : State) (idx : Nat) (value : UInt8) : State :=
  { s with
    disk := blockModify s.disk (idx / blockSize + s.sb.blockBitmapStart) (fun _ => value) 1 (idx % blockSize) }

theorem setMark_mark (s : State) (idx jdx : Nat) (value : UInt8) :
    blockMark (s.setMark idx value) jdx = if jdx = idx then value else blockMark s jdx :=
  bitmapByte_modify s.disk s.sb.blockBitmapStart idx jdx value

theorem setMark_table (layout : Layout base s.sb) {idx : Nat} (inside : idx < s.sb.blockBitmapSize) (value : UInt8)
    (bound : iNo < inodeCntMax) : tableInode (s.setMark idx value) iNo = tableInode s iNo := by
  have sb : (s.setMark idx value).sb = s.sb := rfl
  apply table_of_disk sb _ bound
  intro bid low _
  apply blockModify_other
  rw [layout.inodeTableStart, layout.inodeBitmapStart] at low
  rw [layout.blockBitmapStart]
  simp only [divRoundUp, blockSize] at low ⊢
  omega

theorem fsBitmapAlloc_cases {start size : Nat} {result : Int} (ran : fsBitmapAlloc s start size = (result, after)) :
    (result = -1 ∧ after = s) ∨
    ∃ i, i < size ∧ bitmapByte s.disk start i = 0 ∧ result = (i : Int) ∧
      after = { s with disk := blockModify s.disk (i / blockSize + start) (fun _ => 1) 1 (i % blockSize) } := by
  unfold fsBitmapAlloc at ran
  split at ran
  · cases ran
    exact .inl ⟨rfl, rfl⟩
  · rename_i i found
    obtain ⟨_, bound, zero⟩ := bitmapFind_some found
    cases ran
    exact .inr ⟨i, by omega, zero, rfl, rfl⟩

def ledgerWith (s : State) (iNo cnt : Nat) : Ledger Nat Nat :=
  { ledger s with count := Function.update (ledger s).count iNo cnt }

theorem ledgerWith_self (s : State) (iNo : Nat) : ledgerWith s iNo (ownedCnt (current s iNo)) = ledger s := by
  simp [ledgerWith, ledger]

theorem setDirect_memory (s : State) (p : Ptr) (idx bid : Nat) {q : Ptr} (other : q ≠ p) :
    ((s.setDirect p idx bid).inode q).diskInode = (s.inode q).diskInode := by
  simp [State.setDirect, other]

theorem setDirect_here (s : State) (p : Ptr) (idx bid : Nat) :
    ((s.setDirect p idx bid).inode p).diskInode.fileSize = (s.inode p).diskInode.fileSize ∧
    ((s.setDirect p idx bid).inode p).diskInode.direct = Function.update (s.inode p).diskInode.direct idx bid := by
  simp [State.setDirect]

theorem grow_step {idx i : Nat} (frame : Frame base created s) (isOpen : IsOpen s p iNo) (member : created iNo)
    (beyond : ownedCnt (s.inode p).diskInode ≤ idx) (sound : (ledgerWith s iNo idx).Sound created (Good base s))
    (inside : i < s.sb.blockBitmapSize) (free : blockMark s i = 0) :
    Frame base created ((s.setMark i 1).setDirect p idx (base + i)) ∧
    (ledgerWith ((s.setMark i 1).setDirect p idx (base + i)) iNo (idx + 1)).Sound created
      (Good base ((s.setMark i 1).setDirect p idx (base + i))) := by
  set next := (s.setMark i 1).setDirect p idx (base + i) with defined
  have same : SameCache s next := (SameCache.ofDisk s _).trans (setDirect_same _ p idx (base + i))
  have mark : ∀ j, blockMark next j = if j = i then 1 else blockMark s j := fun j => setMark_mark s i j 1
  have table : ∀ jNo < inodeCntMax, tableInode next jNo = tableInode s jNo := by
    intro jNo bound
    exact setMark_table frame.layout inside 1 bound
  have memory : ∀ q, q ≠ p → (next.inode q).diskInode = (s.inode q).diskInode := by
    intro q other
    exact setDirect_memory (s.setMark i 1) p idx (base + i) other
  obtain ⟨size, direct⟩ : (next.inode p).diskInode.fileSize = (s.inode p).diskInode.fileSize ∧
      (next.inode p).diskInode.direct = Function.update (s.inode p).diskInode.direct idx (base + i) :=
    setDirect_here (s.setMark i 1) p idx (base + i)
  have notReserved : s.sb.dataStart - base ≤ i := by
    by_contra low
    exact frame.reserved i (Nat.not_le.mp low) inside free
  have stays : Frame base created next := by
    apply frame.change same isOpen memory (fun jNo bound _ => table jNo bound)
    · rw [table iNo (frame.bounded iNo member)]
      have before := frame.coherent p isOpen.mem
      rw [isOpen.iNo] at before
      rcases before with empty | ⟨equal, agree⟩
      · exact .inl empty
      · refine .inr ⟨equal.trans size.symm, ?_⟩
        intro k bound
        have below : k < ownedCnt (s.inode p).diskInode := by
          rw [ownedCnt, size] at bound
          exact bound
        rw [direct, Function.update_of_ne (by omega)]
        exact agree k below
    · rw [size, ← current_open isOpen frame.cache]
      exact frame.size iNo member
    · intro j low high
      rw [mark]
      split
      · decide
      · exact frame.reserved j low high
  refine ⟨stays, ?_⟩
  have entry : ∀ jNo, created jNo → jNo ≠ iNo → current next jNo = current s jNo := by
    intro jNo inside other
    exact current_other same isOpen memory other (table jNo (frame.bounded jNo inside))
  have own : (current next iNo).direct = Function.update (current s iNo).direct idx (base + i) := by
    rw [current_open (isOpen.same same) stays.cache, current_open isOpen frame.cache, direct]
  have kept : (ledgerWith s iNo idx).Sound created (Good base next) := by
    apply sound.shorten (fun _ _ => ⟨Nat.le_refl _, fun _ _ => rfl⟩)
    intro _ _ bid _ _ good
    refine ⟨by rw [same.sb]; exact good.low, by rw [same.sb]; exact good.high, ?_⟩
    rw [mark]
    split
    · rfl
    · exact good.marked
  apply kept.extend (i := iNo) (r := base + i)
  · simp [ledgerWith]
  · intro jNo inside other
    simp only [ledgerWith, ledger, Function.update_of_ne other, entry jNo inside other]
  · intro jNo inside k bound
    by_cases here : jNo = iNo
    · subst here
      simp only [ledgerWith, Function.update_self] at bound
      simp only [ledgerWith, ledger, own]
      rw [Function.update_of_ne (by omega)]
    · simp only [ledgerWith, ledger, entry jNo inside here]
  · simp [ledgerWith, ledger, own]
  · intro jNo k inside holds
    have marked := (sound.good jNo k (base + i) inside holds).marked
    rw [Nat.add_sub_cancel_left, free] at marked
    exact absurd marked (by decide)
  · refine ⟨?_, ?_, ?_⟩
    · rw [same.sb]
      omega
    · rw [same.sb]
      omega
    · rw [mark, if_pos (Nat.add_sub_cancel_left base i)]

theorem Frame.ranOut (frame : Frame base created s) (flag : Bool) : Frame base created { s with ranOut := flag } where
  layout := frame.layout
  cache := ⟨frame.cache.nodup, frame.cache.below, frame.cache.bounded, frame.cache.unique⟩
  members := frame.members
  bounded := frame.bounded
  reserved := frame.reserved
  size := frame.size
  coherent := frame.coherent

structure Grown (base : Nat) (created : Nat → Prop) (s : State) (p : Ptr) (iNo idx left : Nat) (result : Int)
    (after : State) : Prop where
  frame : Frame base created after
  same : SameCache s after
  fileSize : (after.inode p).diskInode.fileSize = (s.inode p).diskInode.fileSize
  failed : result < 0 ∨ result = 0
  rows : ∃ cnt, idx ≤ cnt ∧ (¬ result < 0 → cnt = idx + left) ∧
    (ledgerWith after iNo cnt).Sound created (Good base after)

theorem grow_spec {idx : Nat} (left : Nat) (frame : Frame base created s) (isOpen : IsOpen s p iNo) (member : created iNo)
    (beyond : ownedCnt (s.inode p).diskInode ≤ idx) (sound : (ledgerWith s iNo idx).Sound created (Good base s)) :
    Grown base created s p iNo idx left (growBlocks s p idx left).1 (growBlocks s p idx left).2 := by
  induction left generalizing s idx with
  | zero => exact ⟨frame, .refl s, rfl, .inr rfl, idx, Nat.le_refl _, fun _ => rfl, sound⟩
  | succ left ih =>
    rw [growBlocks]
    cases allocated : fsBitmapAlloc s s.sb.blockBitmapStart s.sb.blockBitmapSize with
    | mk bidx taken =>
      rcases fsBitmapAlloc_cases allocated with ⟨rfl, rfl⟩ | ⟨i, inside, free, rfl, rfl⟩
      · refine ⟨frame.ranOut true, ⟨rfl, rfl, rfl, fun _ => rfl, fun _ => rfl⟩, rfl, .inl ?_, ?_⟩
        · show (-1 : Int) < 0
          decide
        · refine ⟨idx, Nat.le_refl _, fun success => absurd (by decide : (-1 : Int) < 0) success, ?_⟩
          exact ⟨sound.apart, fun jNo k bid inside holds =>
            ⟨(sound.good jNo k bid inside holds).low, (sound.good jNo k bid inside holds).high,
              (sound.good jNo k bid inside holds).marked⟩⟩
      · have number : (i : Int).toNat + s.sb.blockBitmapStart - 1 = base + i := by
          rw [frame.layout.blockBitmapStart]
          omega
        obtain ⟨nextFrame, nextSound⟩ := grow_step frame isOpen member beyond sound inside free
        have same : SameCache s ((s.setMark i 1).setDirect p idx (base + i)) :=
          (SameCache.ofDisk s _).trans (setDirect_same _ p idx (base + i))
        have size := (setDirect_here (s.setMark i 1) p idx (base + i)).1
        have rest := ih nextFrame (isOpen.same same) (by rw [ownedCnt, size]; exact Nat.le_succ_of_le beyond) nextSound
        have notFailed : ¬ ((i : Int) < 0) := by omega
        dsimp only
        rw [if_neg notFailed, number]
        obtain ⟨cnt, more, success, rows⟩ := rest.rows
        refine ⟨rest.frame, same.trans rest.same, rest.fileSize.trans size, rest.failed, cnt, by omega, ?_, rows⟩
        intro fine
        have total := success fine
        omega

theorem commit_spec {size : Nat} (frame : Frame base created s) (isOpen : IsOpen s p iNo) (member : created iNo)
    (small : size ≤ ndirect * blockSize)
    (sound : (ledgerWith s iNo (blockCount size)).Sound created (Good base s)) :
    OwnInv base created (storeInode (s.setFileSize p size) p) := by
  set sized := s.setFileSize p size
  set next := storeInode sized p
  have same : SameCache s next := (setFileSize_same s p size).trans (storeInode_same sized p)
  have number : (sized.inode p).iNo = iNo := ((setFileSize_same s p size).iNo p).trans isOpen.iNo
  have disk : next.disk = blockModify s.disk (blockId s.sb iNo) (sized.inode p).diskInode.store diskInodeBytes
      (blockOff iNo) := by
    rw [← number]
    rfl
  have bound := frame.bounded iNo member
  have fileSize : (sized.inode p).diskInode.fileSize = size := by
    simp [sized, State.setFileSize]
  have direct : (sized.inode p).diskInode.direct = (current s iNo).direct := by
    rw [current_open isOpen frame.cache]
    simp [sized, State.setFileSize]
  have memory : ∀ q, q ≠ p → (next.inode q).diskInode = (s.inode q).diskInode := by
    intro q other
    simp [next, sized, storeInode, State.setFileSize, other]
  have table : ∀ jNo < inodeCntMax, jNo ≠ iNo → tableInode next jNo = tableInode s jNo := by
    intro jNo _ other
    exact tableInode_modify_other other same.sb disk
  have mark : ∀ j < s.sb.blockBitmapSize, blockMark next j = blockMark s j := by
    intro j inside
    apply mark_of_disk same.sb frame.layout _ inside
    intro bid low
    rw [disk]
    apply blockModify_other
    have := (tableBlock bound s.sb).1
    rw [frame.layout.inodeTableStart] at this
    omega
  have stored := tableInode_modify_here same.sb disk
  have held : ∀ k < blockCount size, (sized.inode p).diskInode.direct k < 2 ^ 64 := by
    intro k inside
    have good := sound.good iNo k _ member ⟨by simpa [ledgerWith] using inside, rfl⟩
    have high := good.high
    have fits := frame.layout.fits
    simp only [ledgerWith, ledger] at high
    rw [direct]
    omega
  have fewBlocks : blockCount size ≤ ndirect := by
    simp only [blockCount, divRoundUp, ndirect, blockSize] at small ⊢
    omega
  have stays : Frame base created next := by
    apply frame.change same isOpen memory table
    · right
      have fits : (sized.inode p).diskInode.fileSize < 2 ^ 64 := by
        rw [fileSize]
        simp only [ndirect, blockSize] at small
        omega
      refine ⟨stored.1 fits, ?_⟩
      intro k inside
      have below : k < blockCount size := by
        rw [← fileSize]
        exact inside
      exact stored.2 k (by omega) (held k below)
    · exact fileSize.symm ▸ small
    · intro j low high
      rw [mark j high]
      exact frame.reserved j low high
  refine ⟨stays, ?_⟩
  have own : current next iNo = (sized.inode p).diskInode := current_open (isOpen.same same) stays.cache
  apply sound.shorten
  · intro jNo inside
    by_cases here : jNo = iNo
    · subst here
      simp only [ledgerWith, ledger, Function.update_self, own, ownedCnt, fileSize, direct]
      exact ⟨Nat.le_refl _, fun _ _ => trivial⟩
    · have other := current_other same isOpen memory here (table jNo (frame.bounded jNo inside) here)
      simp only [ledgerWith, ledger, Function.update_of_ne here, other]
      exact ⟨Nat.le_refl _, fun _ _ => trivial⟩
  · intro _ _ bid _ _ good
    refine ⟨by rw [same.sb]; exact good.low, by rw [same.sb]; exact good.high, ?_⟩
    rw [mark _ (good.index frame.layout).2]
    exact good.marked

theorem shrink_spec {idx left cnt : Nat} (frame : Frame base created s) (isOpen : IsOpen s p iNo)
    (sound : (ledgerWith s iNo cnt).Sound created (Good base s))
    (ranges : ∀ k, idx ≤ k → k < idx + left →
      s.sb.dataStart ≤ (s.inode p).diskInode.direct k ∧
      (s.inode p).diskInode.direct k < base + s.sb.blockBitmapSize ∧
      ∀ jNo l, created jNo → ¬ (ledgerWith s iNo cnt).Holds jNo l ((s.inode p).diskInode.direct k))
    (ran : shrinkBlocks s p idx left = .ok after) :
    Frame base created after ∧ SameCache s after ∧ (after.inode p).diskInode = (s.inode p).diskInode ∧
    (ledgerWith after iNo cnt).Sound created (Good base after) := by
  induction left generalizing s idx with
  | zero =>
    cases ran
    exact ⟨frame, .refl _, rfl, sound⟩
  | succ left ih =>
    simp only [shrinkBlocks, bind_ok] at ran
    obtain ⟨freed, free, rest⟩ := ran
    obtain ⟨low, high, unheld⟩ := ranges idx (Nat.le_refl _) (by omega)
    set bid := (s.inode p).diskInode.direct idx
    have start : base ≤ bid := by
      rw [frame.layout.dataStart, frame.layout.inodeTableStart, frame.layout.inodeBitmapStart] at low
      omega
    have index : (bid + 2 ^ 64 - (s.sb.blockBitmapStart - 1)) % 2 ^ 64 = bid - base := by
      have fits := frame.layout.fits
      rw [frame.layout.blockBitmapStart]
      omega
    rw [index] at free
    simp only [fsBitmapFree, bind_ok, pure_ok] at free
    obtain ⟨_, _, rfl⟩ := free
    have inside : bid - base < s.sb.blockBitmapSize := by omega
    have same : SameCache s (s.setMark (bid - base) 0) := .ofDisk s _
    have mark := fun j => setMark_mark s (bid - base) j 0
    have table : ∀ jNo < inodeCntMax, tableInode (s.setMark (bid - base) 0) jNo = tableInode s jNo :=
      fun jNo bound => setMark_table frame.layout inside 0 bound
    have unchanged : ∀ jNo, created jNo → current (s.setMark (bid - base) 0) jNo = current s jNo := by
      intro jNo member
      by_cases here : jNo = iNo
      · rw [here, current_open isOpen frame.cache, current_open (isOpen.same same) (frame.cache.same same)]
        rfl
      · exact current_other same isOpen (fun _ _ => rfl) here (table jNo (frame.bounded jNo member))
    have nextFrame : Frame base created (s.setMark (bid - base) 0) := by
      apply frame.change same isOpen (fun _ _ => rfl) (fun jNo bound _ => table jNo bound)
      · have before := frame.coherent p isOpen.mem
        rw [isOpen.iNo] at before
        rw [table iNo (isOpen.iNo ▸ frame.cache.bounded p isOpen.mem)]
        exact before
      · have before := frame.size _ (frame.members p isOpen.mem)
        rw [isOpen.iNo, current_open isOpen frame.cache] at before
        exact before
      · intro j reserved bound
        rw [mark, if_neg (by omega)]
        exact frame.reserved j reserved bound
    have shorter : Ledger.Shortens (ledgerWith s iNo cnt) (ledgerWith (s.setMark (bid - base) 0) iNo cnt) created := by
      intro jNo member
      by_cases here : jNo = iNo
      · subst here
        simp only [ledgerWith, ledger, Function.update_self, unchanged jNo member]
        exact ⟨Nat.le_refl _, fun _ _ => trivial⟩
      · simp only [ledgerWith, ledger, Function.update_of_ne here, unchanged jNo member]
        exact ⟨Nat.le_refl _, fun _ _ => trivial⟩
    have nextSound : (ledgerWith (s.setMark (bid - base) 0) iNo cnt).Sound created
        (Good base (s.setMark (bid - base) 0)) := by
      apply sound.shorten shorter
      intro jNo k other member holds good
      refine ⟨good.low, good.high, ?_⟩
      have differs : other ≠ bid := by
        intro here
        exact unheld jNo k member (here ▸ shorter.holds member holds)
      have above := (good.index frame.layout).1
      rw [mark, if_neg (by omega)]
      exact good.marked
    have nextRanges : ∀ k, idx + 1 ≤ k → k < idx + 1 + left →
        s.sb.dataStart ≤ (s.inode p).diskInode.direct k ∧
        (s.inode p).diskInode.direct k < base + s.sb.blockBitmapSize ∧
        ∀ jNo l, created jNo →
          ¬ (ledgerWith (s.setMark (bid - base) 0) iNo cnt).Holds jNo l ((s.inode p).diskInode.direct k) := by
      intro k more less
      obtain ⟨first, second, third⟩ := ranges k (by omega) (by omega)
      exact ⟨first, second, fun jNo l member holds => third jNo l member (shorter.holds member holds)⟩
    obtain ⟨lastFrame, lastSame, lastInode, lastSound⟩ := ih nextFrame (isOpen.same same) nextSound nextRanges rest
    exact ⟨lastFrame, same.trans lastSame, lastInode, lastSound⟩

/-- `inode_size_change` keeps the ownership of blocks, whatever it returns. -/
theorem OwnInv.size_change {size : Nat} {result : Int} (inv : OwnInv base created s) (isOpen : IsOpen s p iNo)
    (ran : inodeSizeChange s p size = .ok (result, after)) : OwnInv base created after := by
  have member : created iNo := isOpen.iNo ▸ inv.members p isOpen.mem
  have own := current_open isOpen inv.cache
  have sound : (ledgerWith s iNo (blockCount (s.inode p).diskInode.fileSize)).Sound created (Good base s) := by
    have count : blockCount (s.inode p).diskInode.fileSize = ownedCnt (current s iNo) := by
      rw [own, ownedCnt]
    rw [count, ledgerWith_self]
    exact inv.sound
  rcases inodeSizeChange_cases ran with ⟨_, _, rfl⟩ | ⟨small, more, success, grown, grow, last⟩ |
    ⟨small, fewer, shrunk, shrink, _, rfl⟩
  · exact inv
  · have growth := grow_spec (blockCount size - blockCount (s.inode p).diskInode.fileSize) inv.toFrame isOpen member
      (Nat.le_refl _) sound
    rw [ownedCnt, grow] at growth
    obtain ⟨cnt, atLeast, exactly, rows⟩ := growth.rows
    have grownOpen := isOpen.same growth.same
    have fileSize : (grown.inode p).diskInode.fileSize = (s.inode p).diskInode.fileSize := growth.fileSize
    rcases last with ⟨_, _, rfl⟩ | ⟨fine, _, rfl⟩
    · refine ⟨growth.frame, rows.shorten ?_ (fun _ _ _ _ _ good => good)⟩
      intro jNo _
      by_cases here : jNo = iNo
      · subst here
        simp only [ledgerWith, ledger, Function.update_self, ownedCnt, current_open grownOpen growth.frame.cache, fileSize]
        exact ⟨atLeast, fun _ _ => trivial⟩
      · simp only [ledgerWith, ledger, Function.update_of_ne here]
        exact ⟨Nat.le_refl _, fun _ _ => trivial⟩
    · have total : cnt = blockCount size := by
        have := exactly fine
        omega
      exact commit_spec growth.frame grownOpen member small (total ▸ rows)
  · have shorter : Ledger.Shortens (ledgerWith s iNo (blockCount (s.inode p).diskInode.fileSize))
        (ledgerWith s iNo (blockCount size)) created := by
      intro jNo _
      by_cases here : jNo = iNo
      · subst here
        simp only [ledgerWith, Function.update_self]
        exact ⟨fewer, fun _ _ => trivial⟩
      · simp only [ledgerWith, Function.update_of_ne here]
        exact ⟨Nat.le_refl _, fun _ _ => trivial⟩
    have shortSound : (ledgerWith s iNo (blockCount size)).Sound created (Good base s) :=
      sound.shorten shorter (fun _ _ _ _ _ good => good)
    have holds : ∀ k, k < blockCount (s.inode p).diskInode.fileSize →
        (ledgerWith s iNo (blockCount (s.inode p).diskInode.fileSize)).Holds iNo k ((s.inode p).diskInode.direct k) := by
      intro k below
      refine ⟨by simpa [ledgerWith] using below, ?_⟩
      simp only [ledgerWith, ledger, own]
    obtain ⟨frame, same, _, rows⟩ := shrink_spec inv.toFrame isOpen shortSound (by
      intro k above below
      have held := holds k (by omega)
      have good := sound.good iNo k _ member held
      refine ⟨good.low, good.high, ?_⟩
      intro jNo l inside kept
      obtain ⟨here, index⟩ := sound.apart iNo jNo k l _ member inside held (shorter.holds inside kept)
      have bound := kept.1
      rw [← here, ← index] at bound
      simp only [ledgerWith, Function.update_self] at bound
      omega) shrink
    exact commit_spec frame (isOpen.same same) member small rows

theorem Coherent.refl (inode : DiskInode) : Coherent inode inode := .inr ⟨rfl, fun _ _ => rfl⟩

theorem Coherent.shorter {table cached : DiskInode} (coherent : Coherent table cached) :
    ownedCnt table ≤ ownedCnt cached ∧ ∀ k < ownedCnt table, table.direct k = cached.direct k := by
  rcases coherent with empty | ⟨size, direct⟩
  · rw [ownedCnt_zero empty]
    exact ⟨Nat.zero_le _, fun k bound => absurd bound (Nat.not_lt_zero k)⟩
  · have count : ownedCnt table = ownedCnt cached := by
      rw [ownedCnt, ownedCnt, size]
    rw [count]
    exact ⟨Nat.le_refl _, direct⟩

theorem Coherent.size {table cached : DiskInode} {limit : Nat} (coherent : Coherent table cached)
    (small : cached.fileSize ≤ limit) : table.fileSize ≤ limit := by
  rcases coherent with empty | ⟨size, _⟩
  · rw [empty]
    exact Nat.zero_le _
  · rw [size]
    exact small

/-- A step that writes no mark and leaves each inode as it was, or as it is in the table. -/
theorem OwnInv.carry (inv : OwnInv base created s) (sb : after.sb = s.sb) (cache : CacheInv after)
    (marks : ∀ idx < s.sb.blockBitmapSize, blockMark after idx = blockMark s idx)
    (members : ∀ p ∈ after.openInodes, created (after.inode p).iNo)
    (coherent : ∀ p ∈ after.openInodes, Coherent (tableInode after (after.inode p).iNo) (after.inode p).diskInode)
    (currents : ∀ jNo, created jNo → Coherent (current after jNo) (current s jNo)) : OwnInv base created after where
  layout := by rw [sb]; exact inv.layout
  cache := cache
  members := members
  bounded := inv.bounded
  reserved := by
    intro idx low high
    rw [sb] at low high
    rw [marks idx high]
    exact inv.reserved idx low high
  size := fun jNo member => (currents jNo member).size (inv.size jNo member)
  coherent := coherent
  sound := by
    apply inv.sound.shorten
    · intro jNo member
      exact (currents jNo member).shorter
    · intro _ _ bid _ _ good
      refine ⟨by rw [sb]; exact good.low, by rw [sb]; exact good.high, ?_⟩
      rw [marks _ (good.index inv.layout).2]
      exact good.marked

theorem OwnInv.opened (inv : OwnInv base created s) (member : created iNo) (opened : Opened s iNo p after) :
    OwnInv base created after := by
  have table : ∀ jNo, tableInode after jNo = tableInode s jNo := by
    intro jNo
    rw [tableInode, tableInode, opened.disk, opened.sb]
  apply inv.carry opened.sb opened.inv
  · intro idx _
    rw [blockMark, blockMark, opened.disk, opened.sb]
  · intro q inside
    by_cases before : q ∈ s.openInodes
    · rw [(opened.old q before).1]
      exact inv.members q before
    · rw [(opened.new q inside before).1, opened.isOpen.iNo]
      exact member
  · intro q inside
    rw [table]
    by_cases before : q ∈ s.openInodes
    · rw [(opened.old q before).1, (opened.old q before).2.1]
      exact inv.coherent q before
    · obtain ⟨here, _, loaded⟩ := opened.new q inside before
      rw [loaded, here, opened.isOpen.iNo]
      exact .refl _
  · intro jNo _
    rw [current_opened inv.cache opened]
    exact .refl _

theorem OwnInv.closed (inv : OwnInv base created s) (member : p ∈ s.openInodes) (closed : Closed s p after) :
    OwnInv base created after := by
  have table : ∀ jNo, tableInode after jNo = tableInode s jNo := by
    intro jNo
    rw [tableInode, tableInode, closed.disk, closed.sb]
  apply inv.carry closed.sb closed.inv
  · intro idx _
    rw [blockMark, blockMark, closed.disk, closed.sb]
  · intro q inside
    rw [closed.iNo]
    exact inv.members q ((closed.shrinks q).mp inside).1
  · intro q inside
    rw [table, closed.iNo, closed.diskInode]
    exact inv.coherent q ((closed.shrinks q).mp inside).1
  · intro jNo _
    rcases current_closed inv.cache closed member jNo with same | ⟨here, new, old⟩
    · rw [same]
      exact .refl _
    · rw [new, old, here]
      exact inv.coherent p member

theorem OwnInv.quiet (inv : OwnInv base created s) (sb : after.sb = s.sb)
    (openInodes : after.openInodes = s.openInodes) (fresh : after.fresh = s.fresh)
    (inode : ∀ q, (after.inode q).iNo = (s.inode q).iNo ∧ (after.inode q).diskInode = (s.inode q).diskInode)
    (marks : ∀ idx < s.sb.blockBitmapSize, blockMark after idx = blockMark s idx)
    (table : ∀ jNo < inodeCntMax, tableInode after jNo = tableInode s jNo) : OwnInv base created after := by
  have cache : CacheInv after := by
    constructor
    case nodup => rw [openInodes]; exact inv.cache.nodup
    case below => rw [openInodes, fresh]; exact inv.cache.below
    case bounded => simp only [openInodes, fun q => (inode q).1]; exact inv.cache.bounded
    case unique => simp only [openInodes, fun q => (inode q).1]; exact inv.cache.unique
  apply inv.carry sb cache marks
  · simp only [openInodes, fun q => (inode q).1]
    exact inv.members
  · intro q inside
    rw [openInodes] at inside
    rw [(inode q).1, (inode q).2, table _ (inv.cache.bounded q inside)]
    exact inv.coherent q inside
  · intro jNo member
    have same : current after jNo = current s jNo := by
      simp only [current, findInode, openInodes, fun q => (inode q).1]
      split
      · exact (inode _).2
      · exact table jNo (inv.bounded jNo member)
    rw [same]
    exact .refl _

theorem OwnInv.lock (inv : OwnInv base created s) (p : Ptr) (value : Nat) :
    OwnInv base created (s.setInode p fun inode => { inode with inodeLock := value }) := by
  apply inv.quiet (State.setInode_sb s p _) (State.setInode_openInodes s p _) (State.setInode_fresh s p _)
  · intro q
    rw [State.setInode_inode]
    split
    · rename_i here
      rw [here]
      exact ⟨rfl, rfl⟩
    · exact ⟨rfl, rfl⟩
  · exact fun _ _ => rfl
  · exact fun _ _ => rfl

theorem OwnInv.data {disk : Disk} (inv : OwnInv base created s)
    (kept : ∀ bid, bid < s.sb.dataStart → bid ≠ s.sb.inodeBitmapStart → disk bid = s.disk bid) :
    OwnInv base created { s with disk := disk } := by
  have data := inv.layout.dataStart
  have table := inv.layout.inodeTableStart
  have sb : ({ s with disk := disk } : State).sb = s.sb := rfl
  apply inv.quiet sb rfl rfl (fun _ => ⟨rfl, rfl⟩)
  · intro idx inside
    apply mark_of_disk sb inv.layout _ inside
    intro bid low
    exact kept bid (by omega) (by omega)
  · intro jNo bound
    apply table_of_disk sb _ bound
    intro bid low high
    exact kept bid (by omega) (by omega)

theorem writeBlocks_other {disk : Disk} {direct : Nat → Nat} {start cnt bid : Nat} {io : Buffer}
    (other : ∀ i < cnt, bid ≠ direct (start + i)) : writeBlocks disk direct start io cnt bid = disk bid := by
  induction cnt with
  | zero => rfl
  | succ cnt ih =>
    rw [writeBlocks, blockModify_other (other cnt (Nat.lt_succ_self cnt))]
    exact ih fun i bound => other i (Nat.lt_succ_of_lt bound)

theorem OwnInv.writeData_below {buf : Buffer} {nbyte offset bid : Nat} (inv : OwnInv base created s)
    (isOpen : IsOpen s p iNo) (inside : offset + nbyte ≤ (s.inode p).diskInode.fileSize) (below : bid < s.sb.dataStart) :
    (writeData s p buf nbyte offset).disk bid = s.disk bid := by
  have member : created iNo := isOpen.iNo ▸ inv.members p isOpen.mem
  apply writeBlocks_other
  intro i bound here
  have held : (ledger s).Holds iNo (offset / blockSize + i) bid := by
    constructor
    · simp only [ledger, ownedCnt, current_open isOpen inv.cache, blockCount]
      simp only [divRoundUp, blockSize] at bound ⊢
      omega
    · rw [here]
      simp only [ledger, current_open isOpen inv.cache]
  have low := (inv.sound.good iNo _ bid member held).low
  omega

theorem OwnInv.write_data {buf : Buffer} {nbyte offset : Nat} (inv : OwnInv base created s)
    (isOpen : IsOpen s p iNo) (inside : offset + nbyte ≤ (s.inode p).diskInode.fileSize) :
    OwnInv base created (writeData s p buf nbyte offset) := by
  apply inv.data
  intro bid below _
  exact inv.writeData_below isOpen inside below

theorem inodeSizeChange_fileSize {size : Nat} {result : Int} (ran : inodeSizeChange s p size = .ok (result, after))
    (fine : ¬ result < 0) : (after.inode p).diskInode.fileSize = size := by
  have stored : ∀ middle : State, ((storeInode (middle.setFileSize p size) p).inode p).diskInode.fileSize = size := by
    intro middle
    simp [storeInode, State.setFileSize]
  rcases inodeSizeChange_cases ran with ⟨_, rfl, _⟩ | ⟨_, _, _, grown, _, ⟨failed, rfl, _⟩ | ⟨_, _, rfl⟩⟩ |
    ⟨_, _, shrunk, _, _, rfl⟩
  · exact absurd (by decide : -fileSizeTooBig < 0) fine
  · exact absurd failed fine
  · exact stored grown
  · exact stored shrunk

theorem inodeWrite_cases {buf : Buffer} {nbyte offset : Nat} {result : Int}
    (ran : inodeWrite s p buf nbyte offset = .ok (result, after)) :
    (∃ success, success < 0 ∧ inodeSizeChange s p ((offset + nbyte) % 2 ^ 64) = .ok (success, after) ∧
      result = success) ∨
    ∃ sized, (sized = s ∨ ∃ success, ¬ success < 0 ∧ inodeSizeChange s p (offset + nbyte) = .ok (success, sized)) ∧
      offset + nbyte ≤ (sized.inode p).diskInode.fileSize ∧ result = (nbyte : Int) ∧
      after = writeData sized p buf nbyte offset := by
  simp only [inodeWrite] at ran
  split at ran
  · simp only [bind_ok, Prod.exists] at ran
    obtain ⟨success, sized, change, rest⟩ := ran
    split at rest
    · rename_i failed
      cases rest
      exact .inl ⟨_, failed, change, rfl⟩
    · rename_i fine
      obtain ⟨small, _, rfl, rfl⟩ := writeBack_ok.mp rest
      rw [Nat.mod_eq_of_lt small] at change
      have size := inodeSizeChange_fileSize change fine
      exact .inr ⟨sized, .inr ⟨success, fine, change⟩, by omega, rfl, rfl⟩
  · rename_i fits
    obtain ⟨small, _, rfl, rfl⟩ := writeBack_ok.mp ran
    rw [Nat.mod_eq_of_lt small] at fits
    exact .inr ⟨s, .inl rfl, Nat.not_lt.mp fits, rfl, rfl⟩

theorem OwnInv.write {buf : Buffer} {nbyte offset : Nat} {result : Int} (inv : OwnInv base created s)
    (isOpen : IsOpen s p iNo) (ran : inodeWrite s p buf nbyte offset = .ok (result, after)) :
    OwnInv base created after := by
  rcases inodeWrite_cases ran with ⟨_, _, change, _⟩ | ⟨sized, resized, inside, _, rfl⟩
  · exact inv.size_change isOpen change
  · rcases resized with rfl | ⟨_, _, change⟩
    · exact inv.write_data isOpen inside
    · exact (inv.size_change isOpen change).write_data (isOpen.same (inodeSizeChange_same change)) inside

theorem diskInodeCreate_cases {result : Int} (ran : diskInodeCreate s = (result, after)) :
    (result = -1 ∧ after = s) ∨
    ∃ i marked, i < inodeCntMax ∧ inodeMark s i = 0 ∧ result = (i : Int) ∧
      marked = blockModify s.disk (i / blockSize + s.sb.inodeBitmapStart) (fun _ => 1) 1 (i % blockSize) ∧
      after = { s with
        disk := blockModify marked (blockId s.sb i) (DiskInode.store { fileSize := 0, direct := fun _ => 0 })
          diskInodeBytes (blockOff i) } := by
  unfold diskInodeCreate at ran
  cases allocated : fsBitmapAlloc s s.sb.inodeBitmapStart inodeCntMax with
  | mk idx taken =>
    rw [allocated] at ran
    dsimp only at ran
    rcases fsBitmapAlloc_cases allocated with ⟨rfl, rfl⟩ | ⟨i, inside, free, rfl, rfl⟩
    · rw [if_pos (by decide)] at ran
      cases ran
      exact .inl ⟨rfl, rfl⟩
    · rw [if_neg (by omega)] at ran
      cases ran
      exact .inr ⟨i, _, inside, free, rfl, rfl, rfl⟩

theorem inodeBitmapBlock {i : Nat} (bound : i < inodeCntMax) (start : Nat) : i / blockSize + start = start := by
  have low : i < 128 := bound
  simp only [blockSize]
  omega

theorem OwnInv.clear {i : Nat} (inv : OwnInv base created s) (bound : i < inodeCntMax)
    (defined : after = { s with
      disk := blockModify s.disk (blockId s.sb i) (DiskInode.store { fileSize := 0, direct := fun _ => 0 })
        diskInodeBytes (blockOff i) }) : OwnInv base (fun jNo => created jNo ∨ jNo = i) after := by
  have same : SameCache s after := by
    rw [defined]
    exact .ofDisk s _
  have memory : after.inode = s.inode := by
    rw [defined]
  have disk : after.disk = blockModify s.disk (blockId s.sb i)
      (DiskInode.store { fileSize := 0, direct := fun _ => 0 }) diskInodeBytes (blockOff i) := by
    rw [defined]
  have here : (tableInode after i).fileSize = 0 :=
    (tableInode_modify_here same.sb disk).1 (by decide)
  have elsewhere : ∀ jNo, jNo ≠ i → tableInode after jNo = tableInode s jNo :=
    fun jNo other => tableInode_modify_other other same.sb disk
  have uncached : ∀ jNo, jNo = i → findInode after jNo = none → (current after jNo).fileSize = 0 := by
    intro jNo number missing
    rw [current, missing, number]
    exact here
  have carried : OwnInv base created after := by
    apply inv.carry same.sb (inv.cache.same same)
    · intro idx inside
      apply mark_of_disk same.sb inv.layout _ inside
      intro bid low
      rw [disk]
      apply blockModify_other
      have block := (tableBlock bound s.sb).1
      rw [inv.layout.inodeTableStart] at block
      omega
    · simp only [same.openInodes, same.iNo]
      exact inv.members
    · intro q inside
      rw [same.openInodes] at inside
      rw [memory]
      by_cases number : (s.inode q).iNo = i
      · rw [number]
        exact .inl here
      · rw [elsewhere _ number]
        exact inv.coherent q inside
    · intro jNo _
      cases found : findInode after jNo with
      | some q =>
        have before : findInode s jNo = some q := by
          rw [← findInode_same same, found]
        rw [current, current, found, before, memory]
        exact .refl _
      | none =>
        by_cases number : jNo = i
        · exact .inl (uncached jNo number found)
        · have before : findInode s jNo = none := by
            rw [← findInode_same same, found]
          rw [current, current, found, before]
          rw [elsewhere jNo number]
          exact .refl _
  have new : ∀ jNo, (created jNo ∨ jNo = i) → created jNo ∨ (current after jNo).fileSize = 0 := by
    intro jNo member
    rcases member with member | number
    · exact .inl member
    · cases found : findInode after jNo with
      | some q =>
        have isOpen := findInode_isOpen found
        exact .inl (isOpen.iNo ▸ carried.members q isOpen.mem)
      | none => exact .inr (uncached jNo number found)
  refine { carried with members := ?_, bounded := ?_, size := ?_, sound := ?_ }
  · exact fun q inside => .inl (carried.members q inside)
  · intro jNo member
    rcases member with member | number
    · exact inv.bounded jNo member
    · exact number ▸ bound
  · intro jNo member
    rcases new jNo member with old | empty
    · exact carried.size jNo old
    · rw [empty]
      exact Nat.zero_le _
  · apply carried.sound.enroll
    intro jNo member
    rcases new jNo member with old | empty
    · exact .inl old
    · exact .inr (ownedCnt_zero empty)

theorem OwnInv.create {result : Int} (inv : OwnInv base created s) (ran : diskInodeCreate s = (result, after)) :
    OwnInv base (fun jNo => created jNo ∨ (jNo : Int) = result) after := by
  rcases diskInodeCreate_cases ran with ⟨rfl, rfl⟩ | ⟨i, marked, bound, _, rfl, rfl, rfl⟩
  · have none : ∀ jNo, (created jNo ∨ (jNo : Int) = -1) → created jNo := by
      intro jNo member
      rcases member with member | negative
      · exact member
      · omega
    refine { inv with members := ?_, bounded := ?_, size := ?_, sound := ?_ }
    · exact fun p inside => .inl (inv.members p inside)
    · exact fun jNo member => inv.bounded jNo (none jNo member)
    · exact fun jNo member => inv.size jNo (none jNo member)
    · exact inv.sound.enroll fun jNo member => .inl (none jNo member)
  · have alloc : OwnInv base created { s with
        disk := blockModify s.disk (i / blockSize + s.sb.inodeBitmapStart) (fun _ => 1) 1 (i % blockSize) } := by
      apply inv.data
      intro bid _ other
      apply blockModify_other
      rw [inodeBitmapBlock bound]
      exact other
    have cleared := alloc.clear bound rfl
    simpa only [Int.ofNat_inj] using cleared

theorem OwnInv.dirent_add {de : Dirent} {result : Int} (inv : OwnInv base created s) (isOpen : IsOpen s p iNo)
    (ran : direntAdd s p de = .ok (result, after)) : OwnInv base created after := by
  simp only [direntAdd, bind_ok] at ran
  obtain ⟨_, _, rest⟩ := ran
  split at rest
  · exact inv.write isOpen rest
  · cases rest
    exact inv

theorem OwnInv.open_inode {opened : Option Ptr} (inv : OwnInv base created s) (member : created iNo)
    (ran : inodeOpen s iNo = .ok (opened, after)) :
    OwnInv base created after ∧ ∃ p, opened = some p ∧ Opened s iNo p after := by
  cases opened with
  | none =>
    rcases inodeOpen_cases ran with ⟨large, _, _⟩ | ⟨_, some, _⟩
    · exact absurd (inv.bounded iNo member) (Nat.not_lt.mpr large)
    · cases some
  | some p =>
    obtain ⟨_, opened⟩ := inodeOpen_opened inv.cache ran
    exact ⟨inv.opened member opened, p, rfl, opened⟩

theorem OwnInv.delete (inv : OwnInv base created s) (member : created iNo) (ran : diskInodeDelete s iNo = .ok after) :
    OwnInv base created after := by
  obtain ⟨freed, opened, p, sized, free, opens, ⟨_, change⟩, closes⟩ := diskInodeDelete_cases inv.cache ran
  have freedInv : OwnInv base created freed := by
    simp only [fsBitmapFree, bind_ok, pure_ok] at free
    obtain ⟨_, _, rfl⟩ := free
    apply inv.data
    intro bid _ other
    apply blockModify_other
    rw [inodeBitmapBlock (inv.bounded iNo member)]
    exact other
  have isOpen := opens.isOpen.same (.lock opened p 0)
  have sizedInv := ((freedInv.opened member opens).lock p 0).size_change isOpen change
  exact (sizedInv.lock p 1).closed (isOpen.same (inodeSizeChange_same change)).mem closes

end RecoverOs.Fs
