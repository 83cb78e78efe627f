import RecoverOs.Fs.Contents

namespace RecoverOs.Fs

open Bytes Transition

variable {base : Nat} {created : Nat → Prop} {s middle after : State} {p : Ptr} {iNo : Nat} {held : List Ptr}

structure Locks (s : State) (held : List Ptr) : Prop where
  taken : ∀ q ∈ held, q ∈ s.openInodes ∧ (s.inode q).inodeLock = 0
  free : ∀ q ∈ s.openInodes, q ∉ held → (s.inode q).inodeLock = 1

theorem Locks.steady (locks : Locks s held) (steady : Steady s after) : Locks after held where
  taken := by
    intro q member
    rw [steady.openInodes, steady.inodeLock]
    exact locks.taken q member
  free := by
    intro q member unheld
    rw [steady.openInodes] at member
    rw [steady.inodeLock]
    exact locks.free q member unheld

structure Undone (base : Nat) (created : Nat → Prop) (s after : State) : Prop where
  inv : FileInv base created after
  files : Agree created s after
  disk : after.disk = s.disk
  sb : after.sb = s.sb
  ranOut : s.ranOut = true → after.ranOut = true

theorem Undone.refl (inv : FileInv base created s) : Undone base created s s :=
  ⟨inv, .refl created s, rfl, rfl, id⟩

theorem Undone.marks (undone : Undone base created s after) (jNo : Nat) : inodeMark after jNo = inodeMark s jNo := by
  rw [inodeMark, inodeMark, undone.disk, undone.sb]

theorem Undone.blocks (undone : Undone base created s after) (i : Nat) : blockMark after i = blockMark s i := by
  rw [blockMark, blockMark, undone.disk, undone.sb]

theorem Undone.flag (inv : FileInv base created s) : Undone base created s { s with ranOut := true } :=
  ⟨⟨⟨inv.toFrame.ranOut true, ⟨inv.sound.apart, fun jNo k bid member holds =>
    ⟨(inv.sound.good jNo k bid member holds).low, (inv.sound.good jNo k bid member holds).high,
      (inv.sound.good jNo k bid member holds).marked⟩⟩⟩, inv.synced⟩, ⟨fun _ _ => rfl, fun _ _ _ _ => rfl⟩, rfl, rfl, fun _ => rfl⟩

theorem Undone.trans (first : Undone base created s middle) (second : Undone base created middle after) :
    Undone base created s after where
  inv := second.inv
  files := first.files.trans second.files
  disk := second.disk.trans first.disk
  sb := second.sb.trans first.sb
  ranOut := fun out => second.ranOut (first.ranOut out)

theorem FileInv.lock (inv : FileInv base created s) (p : Ptr) (value : Nat) :
    Undone base created s (s.setInode p fun inode => { inode with inodeLock := value }) := by
  have same := SameCache.lock s p value
  have memory : ∀ q, ((s.setInode p fun inode => { inode with inodeLock := value }).inode q).diskInode =
      (s.inode q).diskInode := by
    intro q
    by_cases here : q = p
    · simp [here]
    · simp [here]
  refine ⟨⟨inv.toOwnInv.lock p value, ?_⟩, .lock created s p value, rfl, rfl, id⟩
  intro q member
  rw [same.iNo, memory]
  exact inv.synced q member

theorem semaDown_spec (inv : FileInv base created s) (locks : Locks s held) (isOpen : IsOpen s p iNo) (unheld : p ∉ held) :
    ∃ after, semaDown s p = .ok after ∧ Undone base created s after ∧ SameCache s after ∧ Locks after (p :: held) ∧
      (∀ q, (after.inode q).diskInode = (s.inode q).diskInode) := by
  refine ⟨_, semaDown_ok.mpr ⟨locks.free p isOpen.mem unheld, rfl⟩, inv.lock p 0, .lock s p 0, ⟨?_, ?_⟩, ?_⟩
  · intro q member
    rcases List.mem_cons.mp member with rfl | earlier
    · exact ⟨isOpen.mem, by simp⟩
    · have other : q ≠ p := fun same => unheld (same ▸ earlier)
      simpa [other] using locks.taken q earlier
  · intro q member outside
    have other : q ≠ p := fun same => outside (same ▸ List.mem_cons_self ..)
    simpa [other] using locks.free q member fun inside => outside (List.mem_cons_of_mem _ inside)
  · intro q
    by_cases here : q = p
    · simp [here]
    · simp [here]

theorem semaUp_spec (inv : FileInv base created s) (locks : Locks s (p :: held)) (unheld : p ∉ held) :
    ∃ after, semaUp s p = .ok after ∧ Undone base created s after ∧ SameCache s after ∧ Locks after held := by
  refine ⟨_, semaUp_ok.mpr ⟨(locks.taken p (List.mem_cons_self ..)).2, rfl⟩, inv.lock p 1, .lock s p 1, ?_, ?_⟩
  · intro q member
    have other : q ≠ p := fun same => unheld (same ▸ member)
    simpa [other] using locks.taken q (List.mem_cons_of_mem _ member)
  · intro q member outside
    by_cases here : q = p
    · simp [here]
    · simp only [State.setInode_inode, here, if_false]
      refine locks.free q member ?_
      intro inside
      rcases List.mem_cons.mp inside with same | earlier
      · exact here same
      · exact outside earlier

theorem inodeOpen_spec (inv : FileInv base created s) (member : created iNo) (locks : Locks s held)
    (unlocked : ∀ q ∈ held, (s.inode q).iNo ≠ iNo) :
    ∃ p after, inodeOpen s iNo = .ok (some p, after) ∧ Opened s iNo p after ∧ Undone base created s after ∧
      Locks after held ∧ p ∉ held := by
  have bound := inv.bounded iNo member
  have newer : s.fresh ∉ s.openInodes := fun inside => Nat.lt_irrefl _ (inv.cache.below _ inside)
  have looked : ((lookupInode s iNo).2.inode (lookupInode s iNo).1).inodeLock = 1 ∧ (lookupInode s iNo).1 ∉ held := by
    rcases lookupInode_cases s iNo with ⟨q, found, hit⟩ | ⟨_, miss⟩
    · have isOpen := findInode_isOpen found
      have outside : q ∉ held := fun inside => unlocked q inside isOpen.iNo
      rw [hit]
      exact ⟨locks.free q isOpen.mem outside, outside⟩
    · rw [miss]
      refine ⟨by simp [loadInode], ?_⟩
      intro inside
      exact newer (locks.taken _ inside).1
  obtain ⟨free, outside⟩ := looked
  have ran : inodeOpen s iNo =
      .ok (some (lookupInode s iNo).1, (lookupInode s iNo).2.addOpen (lookupInode s iNo).1) := by
    unfold inodeOpen
    rw [if_neg (Nat.not_le.mpr bound)]
    simp only [semaDown_ok.mpr ⟨free, rfl⟩, Bind.bind, Except.bind, Pure.pure, Except.pure]
    have up : semaUp (((lookupInode s iNo).2.setInode (lookupInode s iNo).1
        fun inode => { inode with inodeLock := 0 }).addOpen (lookupInode s iNo).1) (lookupInode s iNo).1 =
        .ok ((lookupInode s iNo).2.addOpen (lookupInode s iNo).1) := by
      refine semaUp_ok.mpr ⟨by simp [State.addOpen], ?_⟩
      simp only [State.addOpen, State.setInode_setInode]
      exact State.setInode_congr (by simp [free])
    rw [up]
  obtain ⟨_, opened⟩ := inodeOpen_opened inv.cache ran
  refine ⟨_, _, ran, opened, ?_, ?_, outside⟩
  · refine ⟨⟨inv.toOwnInv.opened member opened, ?_⟩, ⟨?_, ?_⟩, opened.disk, opened.sb, fun out => opened.ranOut ▸ out⟩
    · intro q inside
      have table : ∀ jNo, tableInode ((lookupInode s iNo).2.addOpen (lookupInode s iNo).1) jNo = tableInode s jNo := by
        intro jNo
        rw [tableInode, tableInode, opened.disk, opened.sb]
      rw [table]
      by_cases before : q ∈ s.openInodes
      · rw [(opened.old q before).1, (opened.old q before).2.1]
        exact inv.synced q before
      · obtain ⟨here, _, loaded⟩ := opened.new q inside before
        rw [loaded, here, opened.isOpen.iNo]
    · intro jNo _
      rw [fileSize, fileSize, current_opened inv.cache opened]
    · intro jNo _ k _
      rw [content, content, current_opened inv.cache opened, opened.disk]
  · rcases lookupInode_cases s iNo with ⟨q, found, hit⟩ | ⟨missing, miss⟩
    · rw [hit]
      have lock : ∀ r, ((s.addOpen q).inode r).inodeLock = (s.inode r).inodeLock := by
        intro r
        by_cases here : r = q
        · simp [State.addOpen, here]
        · simp [State.addOpen, here]
      refine ⟨?_, ?_⟩
      · intro r inside
        rw [lock]
        exact locks.taken r inside
      · intro r inside unheld
        rw [lock]
        exact locks.free r inside unheld
    · rw [miss]
      have lock : ∀ r ∈ s.openInodes, (((loadInode s iNo).addOpen s.fresh).inode r).inodeLock = (s.inode r).inodeLock := by
        intro r inside
        have other : r ≠ s.fresh := fun same => newer (same ▸ inside)
        simp [State.addOpen, loadInode, other]
      refine ⟨?_, ?_⟩
      · intro r inside
        obtain ⟨open', taken⟩ := locks.taken r inside
        rw [lock r open']
        exact ⟨List.mem_cons_of_mem _ open', taken⟩
      · intro r inside unheld
        rcases List.mem_cons.mp inside with rfl | before
        · simp [State.addOpen, loadInode]
        · rw [lock r before]
          exact locks.free r before unheld

theorem inodeClose_spec (inv : FileInv base created s) (isOpen : IsOpen s p iNo) (locks : Locks s held) (unheld : p ∉ held) :
    ∃ after, inodeClose s p = .ok after ∧ Closed s p after ∧ Undone base created s after ∧ Locks after held := by
  have one := locks.free p isOpen.mem unheld
  have ran : ∃ after, inodeClose s p = .ok after := by
    unfold inodeClose
    simp only [semaDown_ok.mpr ⟨one, rfl⟩, Bind.bind, Except.bind]
    refine ⟨_, semaUp_ok.mpr ⟨?_, rfl⟩⟩
    split <;> simp
  obtain ⟨after, ran⟩ := ran
  have closed := inodeClose_closed inv.cache ran
  have table : ∀ jNo, tableInode after jNo = tableInode s jNo := by
    intro jNo
    rw [tableInode, tableInode, closed.disk, closed.sb]
  refine ⟨after, ran, closed, ⟨⟨inv.toOwnInv.closed isOpen.mem closed, ?_⟩, ⟨?_, ?_⟩, closed.disk, closed.sb,
    fun out => closed.ranOut ▸ out⟩, ?_⟩
  · intro q inside
    rw [table, closed.iNo, closed.diskInode]
    exact inv.synced q ((closed.shrinks q).mp inside).1
  · intro jNo _
    rw [fileSize, fileSize]
    rcases current_closed inv.cache closed isOpen.mem jNo with same | ⟨here, new, old⟩
    · rw [same]
    · rw [new, old, here]
      exact inv.synced p isOpen.mem
  · intro jNo _ k bound
    rw [content, content, closed.disk]
    rcases current_closed inv.cache closed isOpen.mem jNo with same | ⟨here, new, old⟩
    · rw [same]
    · have coherent := inv.coherent p isOpen.mem
      rw [fileSize, old] at bound
      have size := inv.synced p isOpen.mem
      rw [new, old, here]
      rcases coherent with empty | ⟨_, agree⟩
      · omega
      · rw [agree]
        simp only [ownedCnt, blockCount, divRoundUp, blockSize] at bound ⊢
        omega
  · have lock : ∀ q, (after.inode q).inodeLock = (s.inode q).inodeLock := by
      intro q
      obtain ⟨_, rfl⟩ := inodeClose_cases ran
      simp only [State.dropOpen]
      by_cases here : q = p
      · split <;> simp [here]
      · split <;> simp [here]
    refine ⟨?_, ?_⟩
    · intro q member
      obtain ⟨open', taken⟩ := locks.taken q member
      rw [lock]
      exact ⟨(closed.shrinks q).mpr ⟨open', fun here => absurd (here ▸ member) unheld⟩, taken⟩
    · intro q member outside
      rw [lock]
      exact locks.free q ((closed.shrinks q).mp member).1 outside

/-- A byte of the inode bitmap is written. -/
def State.setInodeMark (s : State) (iNo : Nat) (value : UInt8) : State :=
  { s with
    disk := blockModify s.disk (iNo / blockSize + s.sb.inodeBitmapStart) (fun _ => value) 1 (iNo % blockSize) }

theorem setInodeMark_disk (s : State) (value : UInt8) (bound : iNo < inodeCntMax) {bid : Nat}
    (other : bid ≠ s.sb.inodeBitmapStart) : (s.setInodeMark iNo value).disk bid = s.disk bid := by
  apply blockModify_other
  rw [inodeBitmapBlock bound]
  exact other

theorem FileInv.setInodeMark (inv : FileInv base created s) (bound : iNo < inodeCntMax) (value : UInt8) :
    FileInv base created (s.setInodeMark iNo value) ∧ Agree created s (s.setInodeMark iNo value) ∧
    (∀ jNo, inodeMark (s.setInodeMark iNo value) jNo = if jNo = iNo then value else inodeMark s jNo) ∧
    ∀ jNo < inodeCntMax, current (s.setInodeMark iNo value) jNo = current s jNo := by
  have same : SameCache s (s.setInodeMark iNo value) := .ofDisk s _
  have table : ∀ jNo < inodeCntMax, tableInode (s.setInodeMark iNo value) jNo = tableInode s jNo := by
    intro jNo inside
    refine table_of_disk rfl ?_ inside
    intro bid low _
    apply setInodeMark_disk s value bound
    rw [inv.layout.inodeTableStart] at low
    omega
  have currents : ∀ jNo < inodeCntMax, current (s.setInodeMark iNo value) jNo = current s jNo :=
    fun jNo inside => current_sameMemory same (fun _ => rfl) (table jNo inside)
  refine ⟨⟨?_, ?_⟩, ⟨?_, ?_⟩, ?_, currents⟩
  · apply inv.toOwnInv.data
    intro bid _ other
    exact setInodeMark_disk s value bound other
  · intro q inside
    show (tableInode (s.setInodeMark iNo value) (s.inode q).iNo).fileSize = (s.inode q).diskInode.fileSize
    rw [table _ (inv.cache.bounded q inside)]
    exact inv.synced q inside
  · intro jNo member
    rw [fileSize, fileSize, currents jNo (inv.bounded jNo member)]
  · intro jNo member k inside
    rw [content, content, currents jNo (inv.bounded jNo member), setInodeMark_disk s value bound]
    have low := content_low inv.placed member inside
    rw [inv.layout.dataStart, inv.layout.inodeTableStart] at low
    omega
  · intro jNo
    exact bitmapByte_modify s.disk s.sb.inodeBitmapStart iNo jNo value

/-- A new inode: the number was free, and the file is empty. -/
structure Created (base : Nat) (created : Nat → Prop) (s after : State) (iNo : Nat) : Prop where
  bound : iNo < inodeCntMax
  free : inodeMark s iNo = 0
  inv : FileInv base (fun jNo => created jNo ∨ jNo = iNo) after
  files : Agree created s after
  empty : fileSize after iNo = 0
  marks : ∀ jNo < inodeCntMax, inodeMark after jNo = if jNo = iNo then 1 else inodeMark s jNo
  steady : Steady s after
  blocks : ∀ i < s.sb.blockBitmapSize, blockMark after i = blockMark s i

/-- The number that `disk_inode_create` takes. -/
def FirstFree (s : State) (i : Nat) : Prop := bitmapFind s.disk s.sb.inodeBitmapStart 0 inodeCntMax = some i

instance (s : State) (i : Nat) : Decidable (FirstFree s i) := inferInstanceAs (Decidable (_ = _))

theorem diskInodeCreate_first {i : Nat} (ran : diskInodeCreate s = ((i : Int), after)) : FirstFree s i := by
  unfold diskInodeCreate fsBitmapAlloc at ran
  cases search : bitmapFind s.disk s.sb.inodeBitmapStart 0 inodeCntMax with
  | none =>
    rw [search] at ran
    cases ran
  | some j =>
    rw [search] at ran
    dsimp only at ran
    rw [if_neg (by omega)] at ran
    have number : (j : Int) = i := congrArg Prod.fst ran
    rw [FirstFree, search, Int.ofNat_inj.mp number]

theorem diskInodeCreate_vacant {result : Int} (inv : FileInv base created s)
    (vacant : ∀ jNo, FirstFree s jNo → created jNo → fileSize s jNo = 0) (ran : diskInodeCreate s = (result, after)) :
    (result = -1 ∧ after = s) ∨ ∃ i : Nat, result = i ∧ Created base created s after i := by
  have ownership := inv.toOwnInv.create ran
  rcases diskInodeCreate_cases ran with failed | ⟨i, marked, bound, free, rfl, markedIs, defined⟩
  · exact .inl failed
  have idle := vacant i (diskInodeCreate_first ran)
  refine .inr ⟨i, rfl, ?_⟩
  obtain ⟨takenInv, takenFiles, takenMarks, takenCurrent⟩ := inv.setInodeMark bound 1
  set taken := s.setInodeMark i 1 with takenIs
  have disk : after.disk = blockModify taken.disk (blockId taken.sb i)
      (DiskInode.store { fileSize := 0, direct := fun _ => 0 }) diskInodeBytes (blockOff i) := by
    rw [defined, markedIs]
    rfl
  have same : SameCache taken after := by
    rw [defined]
    exact ⟨rfl, rfl, rfl, fun _ => rfl, fun _ => rfl⟩
  have memory : ∀ q, (after.inode q) = taken.inode q := by
    intro q
    rw [defined]
    rfl
  have block := tableBlock bound taken.sb
  have data : ∀ bid, bid < s.sb.inodeTableStart ∨ s.sb.inodeTableStart + 4 ≤ bid → after.disk bid = taken.disk bid := by
    intro bid outside
    rw [disk]
    apply blockModify_other
    have sameStart : taken.sb.inodeTableStart = s.sb.inodeTableStart := rfl
    omega
  have here : (tableInode after i).fileSize = 0 :=
    (tableInode_modify_here same.sb disk).1 (by decide)
  have elsewhere : ∀ jNo, jNo ≠ i → tableInode after jNo = tableInode taken jNo :=
    fun jNo other => tableInode_modify_other other same.sb disk
  have cachedEmpty : ∀ q ∈ taken.openInodes, (taken.inode q).iNo = i → (taken.inode q).diskInode.fileSize = 0 := by
    intro q inside number
    have isOpen : IsOpen taken q i := ⟨inside, number⟩
    have member : created i := number ▸ takenInv.members q inside
    have empty := idle member
    rw [← takenFiles.size i member, fileSize, current_open isOpen takenInv.cache] at empty
    exact empty
  have currents : ∀ jNo, jNo ≠ i → current after jNo = current taken jNo := by
    intro jNo other
    exact current_sameMemory same (fun q => by rw [memory]) (elsewhere jNo other)
  have empty : fileSize after i = 0 := by
    rw [fileSize, current, findInode_same same]
    cases found : findInode taken i with
    | none => exact here
    | some q =>
      have isOpen := findInode_isOpen found
      show (after.inode q).diskInode.fileSize = 0
      rw [memory]
      exact cachedEmpty q isOpen.mem isOpen.iNo
  have created' : ∀ jNo, created jNo → fileSize after jNo = fileSize taken jNo := by
    intro jNo member
    by_cases number : jNo = i
    · rw [number, empty, takenFiles.size i (number ▸ member), idle (number ▸ member)]
    · rw [fileSize, fileSize, currents jNo number]
  constructor
  case bound => exact bound
  case free => exact free
  case inv =>
    refine ⟨by simpa only [Int.ofNat_inj] using ownership, ?_⟩
    intro q inside
    rw [same.openInodes] at inside
    rw [memory]
    by_cases number : (taken.inode q).iNo = i
    · rw [number, here, cachedEmpty q inside number]
    · rw [elsewhere _ number]
      exact takenInv.synced q inside
  case files =>
    refine takenFiles.trans ⟨created', ?_⟩
    intro jNo member k inside
    by_cases number : jNo = i
    · rw [← created' jNo member, number, empty] at inside
      omega
    · rw [content, content, currents jNo number]
      have low := content_low takenInv.placed member inside
      rw [takenInv.layout.dataStart] at low
      exact congrFun (data _ (.inr low)) _
  case empty => exact empty
  case marks =>
    intro jNo inside
    rw [← takenMarks jNo, inodeMark, inodeMark, same.sb]
    apply bitmapByte_congr
    rw [inodeBitmapBlock inside]
    apply data
    have start := inv.layout.inodeTableStart
    have sameStart : taken.sb.inodeBitmapStart = s.sb.inodeBitmapStart := rfl
    omega
  case steady =>
    have first : Steady s taken := ⟨.ofDisk s _, fun _ => rfl, id⟩
    refine first.trans ⟨same, fun q => by rw [memory], ?_⟩
    rw [defined]
    exact id
  case blocks =>
    intro i inside
    have below := bitmapBlock_below inv.layout inside
    have start := inv.layout.inodeTableStart
    rw [blockMark, blockMark, same.sb]
    apply bitmapByte_congr
    have sameStart : taken.sb.blockBitmapStart = s.sb.blockBitmapStart := rfl
    rw [sameStart, data _ (.inl (by omega))]
    exact setInodeMark_disk s 1 bound (Nat.ne_of_lt below)

theorem diskInodeCreate_spec {result : Int} (inv : FileInv base created s)
    (idle : ∀ jNo, created jNo → inodeMark s jNo = 0 → fileSize s jNo = 0)
    (ran : diskInodeCreate s = (result, after)) :
    (result = -1 ∧ after = s) ∨ ∃ i : Nat, result = i ∧ Created base created s after i := by
  apply diskInodeCreate_vacant inv _ ran
  intro jNo first member
  exact idle jNo member (bitmapFind_some first).2.2

theorem sizeChange_blocks {size : Nat} {result : Int} (layout : Layout base s.sb) (bound : (s.inode p).iNo < inodeCntMax)
    (same : blockCount size = blockCount (s.inode p).diskInode.fileSize)
    (ran : inodeSizeChange s p size = .ok (result, after)) :
    ∀ i < s.sb.blockBitmapSize, blockMark after i = blockMark s i := by
  intro i inside
  rcases inodeSizeChange_cases ran with ⟨_, _, rfl⟩ | ⟨_, more, _⟩ | ⟨_, _, shrunk, shrink, _, rfl⟩
  · rfl
  · omega
  · rw [same, Nat.sub_self] at shrink
    cases shrink
    have number : ((s.setFileSize p size).inode p).iNo = (s.inode p).iNo := (setFileSize_same s p size).iNo p
    exact @storeInode_blocks base (s.setFileSize p size) p layout (number ▸ bound) i inside

structure Deleted (base : Nat) (created : Nat → Prop) (s after : State) (iNo : Nat) : Prop where
  inv : FileInv base created after
  others : Agree (fun jNo => created jNo ∧ jNo ≠ iNo) s after
  empty : fileSize after iNo = 0
  marks : ∀ jNo < inodeCntMax, inodeMark after jNo = if jNo = iNo then 0 else inodeMark s jNo
  isOpen : ∀ q jNo, IsOpen s q jNo → jNo ≠ iNo → IsOpen after q jNo
  sb : after.sb = s.sb
  ranOut : s.ranOut = true → after.ranOut = true
  blocks : fileSize s iNo = 0 → ∀ i < s.sb.blockBitmapSize, blockMark after i = blockMark s i

theorem diskInodeDelete_spec (inv : FileInv base created s) (member : created iNo) (locks : Locks s held)
    (unlocked : ∀ q ∈ held, (s.inode q).iNo ≠ iNo) :
    ∃ after, diskInodeDelete s iNo = .ok after ∧ Deleted base created s after iNo ∧ Locks after held := by
  have bound := inv.bounded iNo member
  obtain ⟨freedInv, freedFiles, freedMarks, _⟩ := inv.setInodeMark bound 0
  have freed : fsBitmapFree s s.sb.inodeBitmapStart inodeCntMax iNo = .ok (s.setInodeMark iNo 0) := by
    simp only [fsBitmapFree, (assert_ok _ ()).mpr (decide_eq_true bound)]
    rfl
  have freedLocks : Locks (s.setInodeMark iNo 0) held := ⟨locks.taken, locks.free⟩
  obtain ⟨p, opened, opens, open', openUndone, openLocks, unheld⟩ :=
    inodeOpen_spec freedInv member freedLocks unlocked
  obtain ⟨locked, down, lockUndone, lockSame, lockLocks, _⟩ :=
    semaDown_spec openUndone.inv openLocks open'.isOpen unheld
  have lockedOpen := open'.isOpen.same lockSame
  obtain ⟨result, sized, change, resized⟩ :=
    @inodeSizeChange_spec base created locked p iNo 0 lockUndone.inv.toOwnInv lockedOpen (Nat.zero_le _)
  have sizedOpen := lockedOpen.same resized.recut.toSameCache
  obtain ⟨raised, up, upUndone, upSame, upLocks⟩ :=
    semaUp_spec (resized.inv lockUndone.inv) (lockLocks.steady resized.recut.toSteady) unheld
  obtain ⟨after, close, closed, closeUndone, closeLocks⟩ :=
    inodeClose_spec upUndone.inv (sizedOpen.same upSame) upLocks unheld
  -- Shrinking cannot run out of blocks, so the size is 0.
  have fine : ¬ result < 0 := by
    apply inodeSizeChange_shrinks change _ (Nat.zero_le _)
    rw [← current_open lockedOpen lockUndone.inv.cache]
    exact lockUndone.inv.size iNo member
  refine ⟨after, ?_, ?_, closeLocks⟩
  · simp only [diskInodeDelete, freed, opens, deref, down, change, up, Bind.bind, Except.bind]
    exact close
  · have sized0 := (resized.done fine).2
    constructor
    case inv => exact closeUndone.inv
    case others =>
      have tail := (upUndone.trans closeUndone).files
      have head := freedFiles.trans ((openUndone.trans lockUndone).files)
      have middle := resized.recut.others lockUndone.inv.placed lockedOpen
      exact ((head.mono fun _ kept => kept.1).trans middle).trans (tail.mono fun _ kept => kept.1)
    case empty =>
      rw [(upUndone.trans closeUndone).files.size iNo member]
      exact sized0
    case marks =>
      intro jNo inside
      rw [(upUndone.trans closeUndone).marks jNo, resized.recut.marks jNo inside, (openUndone.trans lockUndone).marks jNo]
      exact freedMarks jNo
    case isOpen =>
      intro q jNo isOpen other
      have first : IsOpen (s.setInodeMark iNo 0) q jNo := ⟨isOpen.mem, isOpen.iNo⟩
      have second : IsOpen opened q jNo := ⟨open'.grows first.mem, (open'.old q first.mem).1.trans first.iNo⟩
      have third := ((second.same lockSame).same resized.recut.toSameCache).same upSame
      have different : q ≠ p := by
        intro here
        have number := third.iNo
        rw [here, (sizedOpen.same upSame).iNo] at number
        exact other number.symm
      exact ⟨(closed.shrinks q).mpr ⟨third.mem, fun here => absurd here different⟩, (closed.iNo q).trans third.iNo⟩
    case ranOut =>
      intro out
      apply (upUndone.trans closeUndone).ranOut
      apply resized.recut.ranOut
      exact (openUndone.trans lockUndone).ranOut out
    case sb =>
      rw [(upUndone.trans closeUndone).sb, resized.recut.sb, (openUndone.trans lockUndone).sb]
      rfl
    case blocks =>
      intro vacant i inside
      have empty : (locked.inode p).diskInode.fileSize = 0 := by
        have size := (freedFiles.trans (openUndone.trans lockUndone).files).size iNo member
        rw [fileSize, current_open lockedOpen lockUndone.inv.cache, vacant] at size
        exact size
      rw [(upUndone.trans closeUndone).blocks, sizeChange_blocks lockUndone.inv.layout (by
        rw [lockedOpen.iNo]
        exact bound) (by rw [empty]) change i (by rw [(openUndone.trans lockUndone).sb]; exact inside),
        (openUndone.trans lockUndone).blocks]
      have below := bitmapBlock_below inv.layout inside
      rw [blockMark, blockMark]
      apply bitmapByte_congr
      exact setInodeMark_disk s 0 bound (Nat.ne_of_lt below)

end RecoverOs.Fs
