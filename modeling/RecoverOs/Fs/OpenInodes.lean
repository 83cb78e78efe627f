import RecoverOs.Fs.Dir

namespace RecoverOs.Fs

open Transition

@[simp] theorem State.setInode_inode (s : State) (p q : Ptr) (f : Inode → Inode) :
    (s.setInode p f).inode q = if q = p then f (s.inode p) else s.inode q := by
  simp [State.setInode, Function.update_apply]

@[simp] theorem State.setInode_disk (s : State) (p : Ptr) (f : Inode → Inode) : (s.setInode p f).disk = s.disk := rfl

@[simp] theorem State.setInode_sb (s : State) (p : Ptr) (f : Inode → Inode) : (s.setInode p f).sb = s.sb := rfl

@[simp] theorem State.setInode_openInodes (s : State) (p : Ptr) (f : Inode → Inode) :
    (s.setInode p f).openInodes = s.openInodes := rfl

@[simp] theorem State.setInode_fresh (s : State) (p : Ptr) (f : Inode → Inode) : (s.setInode p f).fresh = s.fresh := rfl

@[simp] theorem State.setInode_ranOut (s : State) (p : Ptr) (f : Inode → Inode) :
    (s.setInode p f).ranOut = s.ranOut := rfl

theorem State.setInode_congr {s : State} {p : Ptr} {f g : Inode → Inode} (same : f (s.inode p) = g (s.inode p)) :
    s.setInode p f = s.setInode p g := by
  rw [State.setInode, State.setInode, same]

@[simp] theorem State.setInode_setInode (s : State) (p : Ptr) (f g : Inode → Inode) :
    (s.setInode p f).setInode p g = s.setInode p fun inode => g (f inode) := by
  simp [State.setInode]

theorem semaDown_ok {s after : State} {p : Ptr} : semaDown s p = .ok after ↔
    (s.inode p).inodeLock = 1 ∧ after = s.setInode p fun inode => { inode with inodeLock := 0 } := by
  unfold semaDown
  split
  · rename_i zero
    simp [zero]
  · simp only [bind_ok, assert_ok, pure_ok, State.setInode_inode, if_pos, beq_iff_eq]
    constructor
    · rintro ⟨_, one, rfl⟩
      have exact : (s.inode p).inodeLock = 1 := by omega
      exact ⟨exact, State.setInode_congr (by simp [exact])⟩
    · rintro ⟨one, rfl⟩
      exact ⟨(), by omega, State.setInode_congr (by simp [one])⟩

theorem semaUp_ok {s after : State} {p : Ptr} : semaUp s p = .ok after ↔
    (s.inode p).inodeLock = 0 ∧ after = s.setInode p fun inode => { inode with inodeLock := 1 } := by
  simp only [semaUp, bind_ok, assert_ok, pure_ok, beq_iff_eq]
  constructor
  · rintro ⟨_, zero, rfl⟩
    exact ⟨zero, State.setInode_congr (by simp [zero])⟩
  · rintro ⟨zero, rfl⟩
    exact ⟨(), zero, State.setInode_congr (by simp [zero])⟩

def State.dropOpen (s : State) (p : Ptr) : State :=
  let s := s.setInode p fun inode => { inode with openCnts := inode.openCnts - 1 }
  if (s.inode p).openCnts = 0 then { s with openInodes := s.openInodes.erase p } else s

theorem inodeOpen_cases {s after : State} {iNo : Nat} {opened : Option Ptr}
    (ran : inodeOpen s iNo = .ok (opened, after)) :
    (inodeCntMax ≤ iNo ∧ opened = none ∧ after = s) ∨
    (iNo < inodeCntMax ∧ opened = some (lookupInode s iNo).1 ∧
      after = (lookupInode s iNo).2.addOpen (lookupInode s iNo).1) := by
  unfold inodeOpen at ran
  split at ran
  · rename_i large
    cases ran
    exact .inl ⟨large, rfl, rfl⟩
  · rename_i small
    simp only [bind_ok, pure_ok, Prod.mk.injEq] at ran
    obtain ⟨locked, down, raised, up, rfl, rfl⟩ := ran
    obtain ⟨one, rfl⟩ := semaDown_ok.mp down
    obtain ⟨_, rfl⟩ := semaUp_ok.mp up
    refine .inr ⟨Nat.not_le.mp small, rfl, ?_⟩
    rw [State.addOpen, State.addOpen, State.setInode_setInode, State.setInode_setInode]
    exact State.setInode_congr (by simp [one])

theorem inodeClose_cases {s after : State} {p : Ptr} (ran : inodeClose s p = .ok after) :
    (s.inode p).inodeLock = 1 ∧ after = s.dropOpen p := by
  simp only [inodeClose, bind_ok] at ran
  obtain ⟨locked, down, up⟩ := ran
  obtain ⟨one, rfl⟩ := semaDown_ok.mp down
  obtain ⟨_, rfl⟩ := semaUp_ok.mp up
  refine ⟨one, ?_⟩
  have relocked : (s.setInode p fun inode => { inode with openCnts := inode.openCnts - 1, inodeLock := 1 }) =
      s.setInode p fun inode => { inode with openCnts := inode.openCnts - 1 } :=
    State.setInode_congr (by simp [one])
  simp only [State.dropOpen, State.setInode_setInode, State.setInode_inode, if_pos]
  split
  · rw [← relocked]
    simp [State.setInode]
  · simpa using relocked

structure CacheInv (s : State) : Prop where
  nodup : s.openInodes.Nodup
  below : ∀ p ∈ s.openInodes, p < s.fresh
  bounded : ∀ p ∈ s.openInodes, (s.inode p).iNo < inodeCntMax
  unique : ∀ p ∈ s.openInodes, ∀ q ∈ s.openInodes, (s.inode p).iNo = (s.inode q).iNo → p = q

structure IsOpen (s : State) (p : Ptr) (iNo : Nat) : Prop where
  mem : p ∈ s.openInodes
  iNo : (s.inode p).iNo = iNo

theorem findInode_none {s : State} {iNo : Nat} (missing : findInode s iNo = none) {p : Ptr}
    (member : p ∈ s.openInodes) : (s.inode p).iNo ≠ iNo := by
  intro same
  exact List.find?_eq_none.mp missing p member (beq_iff_eq.mpr same)

theorem findInode_isOpen {s : State} {iNo : Nat} {p : Ptr} (found : findInode s iNo = some p) : IsOpen s p iNo := by
  have number := List.find?_some found
  exact ⟨List.mem_of_find?_eq_some found, by simpa using number⟩

theorem IsOpen.found {s : State} {p : Ptr} {iNo : Nat} (isOpen : IsOpen s p iNo) (inv : CacheInv s) :
    findInode s iNo = some p := by
  cases found : findInode s iNo with
  | none => exact absurd isOpen.iNo (findInode_none found isOpen.mem)
  | some q =>
    have other := findInode_isOpen found
    rw [inv.unique q other.mem p isOpen.mem (by rw [other.iNo, isOpen.iNo])]

structure SameCache (s after : State) : Prop where
  sb : after.sb = s.sb
  openInodes : after.openInodes = s.openInodes
  fresh : after.fresh = s.fresh
  iNo : ∀ q, (after.inode q).iNo = (s.inode q).iNo
  openCnts : ∀ q, (after.inode q).openCnts = (s.inode q).openCnts

theorem SameCache.refl (s : State) : SameCache s s :=
  ⟨rfl, rfl, rfl, fun _ => rfl, fun _ => rfl⟩

theorem SameCache.trans {s middle after : State} (first : SameCache s middle) (second : SameCache middle after) :
    SameCache s after where
  sb := second.sb.trans first.sb
  openInodes := second.openInodes.trans first.openInodes
  fresh := second.fresh.trans first.fresh
  iNo := fun q => (second.iNo q).trans (first.iNo q)
  openCnts := fun q => (second.openCnts q).trans (first.openCnts q)

theorem CacheInv.same {s after : State} (inv : CacheInv s) (same : SameCache s after) : CacheInv after where
  nodup := by rw [same.openInodes]; exact inv.nodup
  below := by rw [same.openInodes, same.fresh]; exact inv.below
  bounded := by simp only [same.openInodes, same.iNo]; exact inv.bounded
  unique := by simp only [same.openInodes, same.iNo]; exact inv.unique

theorem IsOpen.same {s after : State} {p : Ptr} {iNo : Nat} (isOpen : IsOpen s p iNo) (same : SameCache s after) :
    IsOpen after p iNo where
  mem := by rw [same.openInodes]; exact isOpen.mem
  iNo := by rw [same.iNo]; exact isOpen.iNo

theorem findInode_same {s after : State} (same : SameCache s after) (iNo : Nat) :
    findInode after iNo = findInode s iNo := by
  simp only [findInode, same.openInodes, same.iNo]

theorem SameCache.ofDisk (s : State) (disk : Disk) : SameCache s { s with disk := disk } :=
  ⟨rfl, rfl, rfl, fun _ => rfl, fun _ => rfl⟩

theorem SameCache.ofInode (s : State) (p : Ptr) (f : Inode → Inode)
    (kept : ∀ inode, (f inode).iNo = inode.iNo ∧ (f inode).openCnts = inode.openCnts) :
    SameCache s (s.setInode p f) := by
  have inode : ∀ q, ((s.setInode p f).inode q).iNo = (s.inode q).iNo ∧
      ((s.setInode p f).inode q).openCnts = (s.inode q).openCnts := by
    intro q
    rw [State.setInode_inode]
    split
    · rename_i same
      rw [same]
      exact kept _
    · exact ⟨rfl, rfl⟩
  exact ⟨rfl, rfl, rfl, fun q => (inode q).1, fun q => (inode q).2⟩

theorem SameCache.lock (s : State) (p : Ptr) (value : Nat) :
    SameCache s (s.setInode p fun inode => { inode with inodeLock := value }) :=
  .ofInode s p _ fun _ => ⟨rfl, rfl⟩

theorem setDirect_same (s : State) (p : Ptr) (idx bid : Nat) : SameCache s (s.setDirect p idx bid) :=
  .ofInode s p _ fun _ => ⟨rfl, rfl⟩

theorem setFileSize_same (s : State) (p : Ptr) (size : Nat) : SameCache s (s.setFileSize p size) :=
  .ofInode s p _ fun _ => ⟨rfl, rfl⟩

theorem fsBitmapAlloc_same (s : State) (start size : Nat) : SameCache s (fsBitmapAlloc s start size).2 := by
  unfold fsBitmapAlloc
  split
  · exact .refl s
  · exact .ofDisk s _

theorem fsBitmapFree_same {s after : State} {start size idx : Nat} (ran : fsBitmapFree s start size idx = .ok after) :
    SameCache s after := by
  simp only [fsBitmapFree, bind_ok, pure_ok] at ran
  obtain ⟨_, _, rfl⟩ := ran
  exact .ofDisk s _

theorem growBlocks_same (s : State) (p : Ptr) (idx left : Nat) : SameCache s (growBlocks s p idx left).2 := by
  induction left generalizing s idx with
  | zero => exact .refl s
  | succ left ih =>
    have allocated := fsBitmapAlloc_same s s.sb.blockBitmapStart s.sb.blockBitmapSize
    simp only [growBlocks]
    split
    · exact ⟨allocated.sb, allocated.openInodes, allocated.fresh, allocated.iNo, allocated.openCnts⟩
    · exact (allocated.trans (setDirect_same _ _ _ _)).trans (ih _ _)

theorem shrinkBlocks_same {s after : State} {p : Ptr} {idx left : Nat}
    (ran : shrinkBlocks s p idx left = .ok after) : SameCache s after := by
  induction left generalizing s idx with
  | zero =>
    cases ran
    exact .refl _
  | succ left ih =>
    simp only [shrinkBlocks, bind_ok] at ran
    obtain ⟨freed, free, rest⟩ := ran
    exact (fsBitmapFree_same free).trans (ih rest)

theorem storeInode_same (s : State) (p : Ptr) : SameCache s (storeInode s p) :=
  .ofDisk s _

def blockCount (size : Nat) : Nat := divRoundUp size blockSize

theorem inodeSizeChange_cases {s after : State} {p : Ptr} {size : Nat} {result : Int}
    (ran : inodeSizeChange s p size = .ok (result, after)) :
    (ndirect * blockSize < size ∧ result = -fileSizeTooBig ∧ after = s) ∨
    (size ≤ ndirect * blockSize ∧ blockCount (s.inode p).diskInode.fileSize < blockCount size ∧
      ∃ success grown, growBlocks s p (blockCount (s.inode p).diskInode.fileSize)
          (blockCount size - blockCount (s.inode p).diskInode.fileSize) = (success, grown) ∧
        ((success < 0 ∧ result = success ∧ after = grown) ∨
          (¬ success < 0 ∧ result = 0 ∧ after = storeInode (grown.setFileSize p size) p))) ∨
    (size ≤ ndirect * blockSize ∧ blockCount size ≤ blockCount (s.inode p).diskInode.fileSize ∧
      ∃ shrunk, shrinkBlocks s p (blockCount size)
          (blockCount (s.inode p).diskInode.fileSize - blockCount size) = .ok shrunk ∧
        result = 0 ∧ after = storeInode (shrunk.setFileSize p size) p) := by
  unfold inodeSizeChange at ran
  by_cases large : ndirect * blockSize < size
  · rw [if_pos large] at ran
    cases ran
    exact .inl ⟨large, rfl, rfl⟩
  · rw [if_neg large] at ran
    dsimp only at ran
    by_cases grows : divRoundUp (s.inode p).diskInode.fileSize pgSize < divRoundUp size pgSize
    · rw [if_pos grows] at ran
      refine .inr (.inl ⟨Nat.not_lt.mp large, grows, _, _, rfl, ?_⟩)
      split at ran
      · rename_i failed
        cases ran
        exact .inl ⟨failed, rfl, rfl⟩
      · rename_i fine
        cases ran
        exact .inr ⟨fine, rfl, rfl⟩
    · rw [if_neg grows] at ran
      simp only [bind_ok, pure_ok, Prod.mk.injEq] at ran
      obtain ⟨shrunk, shrink, rfl, rfl⟩ := ran
      exact .inr (.inr ⟨Nat.not_lt.mp large, Nat.not_lt.mp grows, shrunk, shrink, rfl, rfl⟩)

theorem inodeSizeChange_same {s after : State} {p : Ptr} {size : Nat} {result : Int}
    (ran : inodeSizeChange s p size = .ok (result, after)) : SameCache s after := by
  rcases inodeSizeChange_cases ran with ⟨_, _, rfl⟩ | ⟨_, _, success, grown, grow, last⟩ | ⟨_, _, shrunk, shrink, _, rfl⟩
  · exact .refl _
  · have same : SameCache s grown := by
      have grew := growBlocks_same s p (blockCount (s.inode p).diskInode.fileSize)
        (blockCount size - blockCount (s.inode p).diskInode.fileSize)
      rw [grow] at grew
      exact grew
    rcases last with ⟨_, _, rfl⟩ | ⟨_, _, rfl⟩
    · exact same
    · exact (same.trans (setFileSize_same _ _ _)).trans (storeInode_same _ _)
  · exact ((shrinkBlocks_same shrink).trans (setFileSize_same _ _ _)).trans (storeInode_same _ _)

theorem writeData_same (s : State) (p : Ptr) (buf : Bytes.Buffer) (nbyte offset : Nat) :
    SameCache s (writeData s p buf nbyte offset) :=
  .ofDisk s _

theorem ioPages_ok {blockCnt : Nat} {u : Unit} : ioPages blockCnt = .ok u ↔ 0 < blockCnt := by
  cases blockCnt with
  | zero => simp [ioPages]
  | succ n => simp [ioPages]

theorem blockSpan_pos {offset nbyte : Nat} : 0 < blockSpan offset nbyte ↔ 0 < nbyte ∨ offset % blockSize ≠ 0 := by
  simp only [blockSpan, divRoundUp, blockSize]
  omega

theorem writeBack_ok {s after : State} {p : Ptr} {buf : Bytes.Buffer} {nbyte offset : Nat} {result : Int} :
    writeBack s p buf nbyte offset = .ok (result, after) ↔
      offset + nbyte < 2 ^ 64 ∧ 0 < blockSpan offset nbyte ∧ result = (nbyte : Int) ∧
        after = writeData s p buf nbyte offset := by
  unfold writeBack
  by_cases large : 2 ^ 64 ≤ offset + nbyte
  · rw [if_pos large]
    constructor
    · intro wrong
      cases wrong
    · intro small
      omega
  · simp only [if_neg large, bind_ok, ioPages_ok, pure_ok, Prod.mk.injEq]
    constructor
    · intro returned
      obtain ⟨_, pages, count, same⟩ := returned
      exact ⟨by omega, pages, count.symm, same.symm⟩
    · intro right
      exact ⟨(), right.2.1, right.2.2.1.symm, right.2.2.2.symm⟩

theorem inodeWrite_same {s after : State} {p : Ptr} {buf : Bytes.Buffer} {nbyte offset : Nat} {result : Int}
    (ran : inodeWrite s p buf nbyte offset = .ok (result, after)) : SameCache s after := by
  simp only [inodeWrite] at ran
  split at ran
  · simp only [bind_ok, Prod.exists] at ran
    obtain ⟨success, resized, change, rest⟩ := ran
    have same := inodeSizeChange_same change
    split at rest
    · cases rest
      exact same
    · obtain ⟨_, _, _, rfl⟩ := writeBack_ok.mp rest
      exact same.trans (writeData_same _ _ _ _ _)
  · obtain ⟨_, _, _, rfl⟩ := writeBack_ok.mp ran
    exact writeData_same _ _ _ _ _

theorem direntAdd_same {s after : State} {p : Ptr} {de : Dirent} {result : Int}
    (ran : direntAdd s p de = .ok (result, after)) : SameCache s after := by
  simp only [direntAdd, bind_ok] at ran
  obtain ⟨found, _, rest⟩ := ran
  split at rest
  · exact inodeWrite_same rest
  · cases rest
    exact .refl s

theorem direntDelete_same {s after : State} {p : Ptr} {name : Bytes.Buffer} {result : Int}
    (ran : direntDelete s p name = .ok (result, after)) : SameCache s after := by
  simp only [direntDelete, bind_ok] at ran
  obtain ⟨idx, _, rest⟩ := ran
  split at rest
  · cases rest
    exact .refl s
  · simp only [bind_ok, Prod.exists, pure_ok, Prod.mk.injEq] at rest
    obtain ⟨_, endDe, _, _, written, write, _, shrunk, change, _, rfl⟩ := rest
    exact (inodeWrite_same write).trans (inodeSizeChange_same change)

theorem diskInodeCreate_same (s : State) : SameCache s (diskInodeCreate s).2 := by
  have allocated := fsBitmapAlloc_same s s.sb.inodeBitmapStart inodeCntMax
  simp only [diskInodeCreate]
  split
  · exact allocated
  · exact allocated.trans (.ofDisk _ _)

theorem CacheInv.loadInode {s : State} {iNo : Nat} (inv : CacheInv s) (bound : iNo < inodeCntMax)
    (missing : findInode s iNo = none) : CacheInv (loadInode s iNo) := by
  have newer : s.fresh ∉ s.openInodes := fun member => Nat.lt_irrefl _ (inv.below _ member)
  have old : ∀ p ∈ s.openInodes, (Fs.loadInode s iNo).inode p = s.inode p := by
    intro p member
    have other : p ≠ s.fresh := fun same => newer (same ▸ member)
    simp [Fs.loadInode, other]
  have new : ((Fs.loadInode s iNo).inode s.fresh).iNo = iNo := by
    simp [Fs.loadInode]
  constructor
  case nodup => exact List.nodup_cons.mpr ⟨newer, inv.nodup⟩
  case below =>
    intro p member
    rcases List.mem_cons.mp member with rfl | member
    · exact Nat.lt_succ_self _
    · exact Nat.lt_succ_of_lt (inv.below p member)
  case bounded =>
    intro p member
    rcases List.mem_cons.mp member with rfl | member
    · rw [new]
      exact bound
    · rw [old p member]
      exact inv.bounded p member
  case unique =>
    intro p left q right same
    rcases List.mem_cons.mp left with rfl | left <;> rcases List.mem_cons.mp right with rfl | right
    · rfl
    · rw [new, old q right] at same
      exact absurd same.symm (findInode_none missing right)
    · rw [new, old p left] at same
      exact absurd same (findInode_none missing left)
    · rw [old p left, old q right] at same
      exact inv.unique p left q right same

theorem lookupInode_cases (s : State) (iNo : Nat) :
    (∃ p, findInode s iNo = some p ∧ lookupInode s iNo = (p, s)) ∨
    (findInode s iNo = none ∧ lookupInode s iNo = (s.fresh, loadInode s iNo)) := by
  unfold lookupInode
  split
  · rename_i p found
    exact .inl ⟨p, found, rfl⟩
  · rename_i missing
    exact .inr ⟨missing, rfl⟩

structure Opened (s : State) (iNo : Nat) (p : Ptr) (after : State) : Prop where
  sb : after.sb = s.sb
  disk : after.disk = s.disk
  ranOut : after.ranOut = s.ranOut
  inv : CacheInv after
  isOpen : IsOpen after p iNo
  grows : s.openInodes ⊆ after.openInodes
  new : ∀ q ∈ after.openInodes, q ∉ s.openInodes → q = p ∧ (after.inode q).openCnts = 1 ∧
    (after.inode q).diskInode = tableInode s iNo
  old : ∀ q ∈ s.openInodes, (after.inode q).iNo = (s.inode q).iNo ∧ (after.inode q).diskInode = (s.inode q).diskInode ∧
    (after.inode q).openCnts = (s.inode q).openCnts + (if q = p then 1 else 0)
  fresh : s.fresh ≤ after.fresh

theorem addOpen_inv {s : State} {p : Ptr} (inv : CacheInv s) : CacheInv (s.addOpen p) := by
  have same : ∀ q, ((s.addOpen p).inode q).iNo = (s.inode q).iNo := by
    intro q
    simp only [State.addOpen, State.setInode_inode]
    split
    · rename_i here
      rw [here]
    · rfl
  constructor
  case nodup => exact inv.nodup
  case below => exact inv.below
  case bounded =>
    simp only [same]
    exact inv.bounded
  case unique =>
    simp only [same]
    exact inv.unique

theorem inodeOpen_opened {s after : State} {iNo : Nat} {p : Ptr} (inv : CacheInv s)
    (ran : inodeOpen s iNo = .ok (some p, after)) : iNo < inodeCntMax ∧ Opened s iNo p after := by
  rcases inodeOpen_cases ran with ⟨_, none, _⟩ | ⟨bound, some, result⟩
  · cases none
  refine ⟨bound, ?_⟩
  cases some
  subst result
  rcases lookupInode_cases s iNo with ⟨q, found, hit⟩ | ⟨missing, miss⟩
  · have isOpen := findInode_isOpen found
    simp only [hit]
    constructor
    case inv => exact addOpen_inv inv
    case isOpen => exact ⟨isOpen.mem, by simpa [State.addOpen] using isOpen.iNo⟩
    case grows => exact List.Subset.refl _
    case new => exact fun r member other => absurd member other
    case old =>
      intro r _
      simp only [State.addOpen, State.setInode_inode]
      split
      · rename_i here
        simp [here]
      · simp
    case fresh => exact Nat.le_refl _
    all_goals rfl
  · have newer : s.fresh ∉ s.openInodes := fun member => Nat.lt_irrefl _ (inv.below _ member)
    simp only [miss]
    constructor
    case inv => exact addOpen_inv (inv.loadInode bound missing)
    case isOpen => exact ⟨List.mem_cons_self, by simp [State.addOpen, loadInode]⟩
    case grows => exact List.subset_cons_self _ _
    case new =>
      intro r member other
      rcases List.mem_cons.mp member with rfl | member
      · simp [State.addOpen, loadInode]
      · exact absurd member other
    case old =>
      intro r member
      have other : r ≠ s.fresh := fun same => newer (same ▸ member)
      simp [State.addOpen, loadInode, other]
    case fresh => exact Nat.le_succ _
    all_goals rfl

structure Closed (s : State) (p : Ptr) (after : State) : Prop where
  sb : after.sb = s.sb
  disk : after.disk = s.disk
  ranOut : after.ranOut = s.ranOut
  fresh : after.fresh = s.fresh
  inv : CacheInv after
  shrinks : ∀ q, q ∈ after.openInodes ↔ q ∈ s.openInodes ∧ (q = p → (s.inode p).openCnts ≠ 1)
  iNo : ∀ q, (after.inode q).iNo = (s.inode q).iNo
  diskInode : ∀ q, (after.inode q).diskInode = (s.inode q).diskInode
  openCnts : ∀ q, (after.inode q).openCnts = (s.inode q).openCnts - (if q = p then 1 else 0)

theorem inodeClose_closed {s after : State} {p : Ptr} (inv : CacheInv s) (ran : inodeClose s p = .ok after) :
    Closed s p after := by
  obtain ⟨_, rfl⟩ := inodeClose_cases ran
  have inode : ∀ q, (s.dropOpen p).inode q = if q = p then
      { s.inode p with openCnts := (s.inode p).openCnts - 1 } else s.inode q := by
    intro q
    simp only [State.dropOpen]
    split <;> simp
  have member : ∀ q, q ∈ (s.dropOpen p).openInodes ↔
      q ∈ s.openInodes ∧ (q = p → (s.inode p).openCnts ≠ 1) := by
    intro q
    simp only [State.dropOpen, State.setInode_inode, if_pos]
    split
    · rename_i zero
      have one : (s.inode p).openCnts = 1 := by omega
      simp only [State.setInode_openInodes, inv.nodup.mem_erase_iff, one]
      simp [and_comm]
    · rename_i more
      have other : (s.inode p).openCnts ≠ 1 := by omega
      simp [other]
  have iNo : ∀ q, ((s.dropOpen p).inode q).iNo = (s.inode q).iNo := by
    intro q
    rw [inode]
    split
    · rename_i here
      rw [here]
    · rfl
  have sublist : (s.dropOpen p).openInodes.Sublist s.openInodes := by
    simp only [State.dropOpen]
    split
    · exact List.erase_sublist
    · exact List.Sublist.refl _
  have fresh : (s.dropOpen p).fresh = s.fresh := by
    simp only [State.dropOpen]
    split <;> rfl
  constructor
  case sb => simp only [State.dropOpen]; split <;> rfl
  case disk => simp only [State.dropOpen]; split <;> rfl
  case ranOut => simp only [State.dropOpen]; split <;> rfl
  case fresh => exact fresh
  case inv =>
    constructor
    case nodup => exact inv.nodup.sublist sublist
    case below =>
      intro q inside
      rw [fresh]
      exact inv.below q (sublist.subset inside)
    case bounded =>
      intro q inside
      rw [iNo]
      exact inv.bounded q (sublist.subset inside)
    case unique =>
      intro q left r right same
      rw [iNo, iNo] at same
      exact inv.unique q (sublist.subset left) r (sublist.subset right) same
  case shrinks => exact member
  case iNo => exact iNo
  all_goals
    intro q
    rw [inode]
    split
    · rename_i here
      simp [here]
    · simp

def Counted (s : State) : Prop := ∀ p ∈ s.openInodes, 0 < (s.inode p).openCnts

structure SameHandles (s after : State) : Prop where
  mem : ∀ q, q ∈ after.openInodes ↔ q ∈ s.openInodes
  iNo : ∀ q ∈ s.openInodes, (after.inode q).iNo = (s.inode q).iNo
  openCnts : ∀ q ∈ s.openInodes, (after.inode q).openCnts = (s.inode q).openCnts

theorem opened_closed {s opened worked after : State} {iNo : Nat} {p : Ptr} (counted : Counted s)
    (opens : Opened s iNo p opened) (same : SameCache opened worked) (closes : Closed worked p after) :
    SameHandles s after := by
  have old : ∀ q ∈ s.openInodes, (after.inode q).iNo = (s.inode q).iNo ∧
      (after.inode q).openCnts = (s.inode q).openCnts := by
    intro q member
    obtain ⟨number, _, count⟩ := opens.old q member
    rw [closes.iNo, same.iNo, closes.openCnts, same.openCnts, count, number]
    exact ⟨rfl, by omega⟩
  refine ⟨?_, fun q member => (old q member).1, fun q member => (old q member).2⟩
  intro q
  rw [closes.shrinks, same.openInodes, same.openCnts]
  constructor
  · intro ⟨member, more⟩
    by_contra absent
    obtain ⟨here, one, _⟩ := opens.new q member absent
    exact more here (here ▸ one)
  · intro member
    refine ⟨opens.grows member, ?_⟩
    intro here
    have positive := counted q member
    have count := (opens.old q member).2.2
    rw [if_pos here] at count
    rw [← here, count]
    omega

theorem SameCache.handles {s after : State} (same : SameCache s after) : SameHandles s after where
  mem := fun q => by rw [same.openInodes]
  iNo := fun q _ => same.iNo q
  openCnts := fun q _ => same.openCnts q

theorem SameHandles.trans {s middle after : State} (first : SameHandles s middle) (second : SameHandles middle after) :
    SameHandles s after where
  mem := fun q => (second.mem q).trans (first.mem q)
  iNo := fun q member => (second.iNo q ((first.mem q).mpr member)).trans (first.iNo q member)
  openCnts := fun q member => (second.openCnts q ((first.mem q).mpr member)).trans (first.openCnts q member)

theorem Counted.same {s after : State} (counted : Counted s) (same : SameHandles s after) : Counted after := by
  intro q member
  have before := (same.mem q).mp member
  rw [same.openCnts q before]
  exact counted q before

theorem deref_some {p q : Ptr} : deref (some p) = .ok q ↔ p = q := by
  simp [deref]

theorem diskInodeDelete_cases {s after : State} {iNo : Nat} (cache : CacheInv s)
    (ran : diskInodeDelete s iNo = .ok after) : ∃ freed opened p sized,
    fsBitmapFree s s.sb.inodeBitmapStart inodeCntMax iNo = .ok freed ∧ Opened freed iNo p opened ∧
    (∃ result, inodeSizeChange (opened.setInode p fun inode => { inode with inodeLock := 0 }) p 0 =
      .ok (result, sized)) ∧
    Closed (sized.setInode p fun inode => { inode with inodeLock := 1 }) p after := by
  simp only [diskInodeDelete, bind_ok, Prod.exists] at ran
  obtain ⟨freed, free, found, opened, opens, q, pointer, locked, down, result, sized, change, unlocked, up, close⟩ := ran
  have freedCache := cache.same (fsBitmapFree_same free)
  cases found with
  | none => cases pointer
  | some p =>
    obtain rfl := deref_some.mp pointer
    have open' := (inodeOpen_opened freedCache opens).2
    obtain ⟨_, rfl⟩ := semaDown_ok.mp down
    obtain ⟨_, rfl⟩ := semaUp_ok.mp up
    have last := ((open'.inv.same (.lock opened p 0)).same (inodeSizeChange_same change)).same (.lock sized p 1)
    exact ⟨freed, opened, p, sized, free, open', ⟨result, change⟩, inodeClose_closed last close⟩

theorem diskInodeDelete_handles {s after : State} {iNo : Nat} (cache : CacheInv s) (counted : Counted s)
    (ran : diskInodeDelete s iNo = .ok after) : CacheInv after ∧ SameHandles s after := by
  obtain ⟨freed, opened, p, sized, free, opens, ⟨_, change⟩, closes⟩ := diskInodeDelete_cases cache ran
  have first := (fsBitmapFree_same free).handles
  have worked := ((SameCache.lock opened p 0).trans (inodeSizeChange_same change)).trans (.lock sized p 1)
  exact ⟨closes.inv, first.trans (opened_closed (counted.same first) opens worked closes)⟩

end RecoverOs.Fs
