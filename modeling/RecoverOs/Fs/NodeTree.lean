import RecoverOs.Fs.File
import RecoverOs.Fs.OpenCounts
import RecoverOs.Fs.PathWalk

namespace RecoverOs.Fs

open Bytes Transition

section

variable {s middle after : State} {p : Ptr} {iNo : Nat}

structure Numbered (s after : State) : Prop where
  fresh : s.fresh ≤ after.fresh
  iNo : ∀ q < s.fresh, (after.inode q).iNo = (s.inode q).iNo

theorem Numbered.refl (s : State) : Numbered s s := ⟨Nat.le_refl _, fun _ _ => rfl⟩

theorem Numbered.trans (first : Numbered s middle) (second : Numbered middle after) : Numbered s after where
  fresh := Nat.le_trans first.fresh second.fresh
  iNo := fun q below => (second.iNo q (Nat.lt_of_lt_of_le below first.fresh)).trans (first.iNo q below)

theorem SameCache.numbered (same : SameCache s after) : Numbered s after :=
  ⟨Nat.le_of_eq same.fresh.symm, fun q _ => same.iNo q⟩

theorem addOpen_numbered (s : State) (p : Ptr) : Numbered s (s.addOpen p) := by
  refine ⟨Nat.le_refl _, ?_⟩
  intro q _
  by_cases here : q = p
  · simp [State.addOpen, here]
  · simp [State.addOpen, here]

theorem inodeOpen_numbered {found : Option Ptr} (ran : inodeOpen s iNo = .ok (found, after)) : Numbered s after := by
  rcases inodeOpen_cases ran with ⟨_, _, rfl⟩ | ⟨_, _, rfl⟩
  · exact .refl _
  rcases lookupInode_cases s iNo with ⟨q, _, hit⟩ | ⟨_, miss⟩
  · rw [hit]
    exact addOpen_numbered s q
  · rw [miss]
    have loaded : Numbered s (loadInode s iNo) := by
      refine ⟨Nat.le_succ _, ?_⟩
      intro q below
      simp [loadInode, Nat.ne_of_lt below]
    exact loaded.trans (addOpen_numbered _ _)

theorem inodeClose_numbered (ran : inodeClose s p = .ok after) : Numbered s after := by
  obtain ⟨_, rfl⟩ := inodeClose_cases ran
  have iNo : ∀ q, ((s.setInode p fun inode => { inode with openCnts := inode.openCnts - 1 }).inode q).iNo =
      (s.inode q).iNo := by
    intro q
    by_cases here : q = p
    · simp [here]
    · simp [here]
  simp only [State.dropOpen]
  split
  · exact ⟨Nat.le_refl _, fun q _ => iNo q⟩
  · exact ⟨Nat.le_refl _, fun q _ => iNo q⟩

theorem locked_numbered {found : Option Ptr} {opened locked worked unlocked : State}
    (opens : inodeOpen s iNo = .ok (found, opened)) (down : semaDown opened p = .ok locked) (work : Numbered locked worked)
    (up : semaUp worked p = .ok unlocked) (close : inodeClose unlocked p = .ok after) : Numbered s after := by
  obtain ⟨_, rfl⟩ := semaDown_ok.mp down
  obtain ⟨_, rfl⟩ := semaUp_ok.mp up
  have first := (inodeOpen_numbered opens).trans (SameCache.lock opened p 0).numbered
  exact ((first.trans work).trans (SameCache.lock worked p 1).numbered).trans (inodeClose_numbered close)

theorem walk_numbered {name rest : List UInt8} {result : Int} {de : Dirent}
    (ran : walk s p name rest = .ok (result, de, after)) : Numbered s after := by
  induction rest generalizing s p name with
  | nil => exact (lastEntry_same ran).1.numbered
  | cons c rest ih =>
    rw [walk] at ran
    split at ran
    · simp only [bind_ok] at ran
      obtain ⟨_, _, locked, down, dirIdx, _, ran⟩ := ran
      obtain ⟨_, rfl⟩ := semaDown_ok.mp down
      have lockedSame := (SameCache.lock s p 0).numbered
      split at ran
      · simp only [bind_ok, pure_ok, Prod.mk.injEq] at ran
        obtain ⟨closed, close, _, _, rfl⟩ := ran
        exact lockedSame.trans (inodeClose_numbered close)
      · simp only [bind_ok] at ran
        obtain ⟨entry, _, unlocked, up, ran⟩ := ran
        obtain ⟨_, rfl⟩ := semaUp_ok.mp up
        have same := lockedSame.trans (SameCache.lock _ p 1).numbered
        split at ran
        · simp only [bind_ok, pure_ok, Prod.mk.injEq] at ran
          obtain ⟨closed, close, _, _, rfl⟩ := ran
          exact same.trans (inodeClose_numbered close)
        · simp only [bind_ok, Prod.exists] at ran
          obtain ⟨closed, close, found, opened, opens, q, pointer, ran⟩ := ran
          exact ((same.trans (inodeClose_numbered close)).trans (inodeOpen_numbered opens)).trans (ih ran)
    · exact ih ran

theorem pathPrase_numbered {pathname : List UInt8} {result : Int} {de : Dirent}
    (ran : pathPrase s pathname = .ok (result, de, after)) : Numbered s after := by
  cases pathname with
  | nil => cases ran
  | cons c rest =>
    simp only [pathPrase, bind_ok, Prod.exists] at ran
    obtain ⟨found, opened, opens, q, pointer, ran⟩ := ran
    exact (inodeOpen_numbered opens).trans (walk_numbered ran)

theorem diskInodeDelete_numbered (ran : diskInodeDelete s iNo = .ok after) : Numbered s after := by
  simp only [diskInodeDelete, bind_ok, Prod.exists] at ran
  obtain ⟨freed, free, found, opened, opens, q, pointer, locked, down, result, sized, change, unlocked, up, close⟩ := ran
  exact (fsBitmapFree_same free).numbered.trans (locked_numbered opens down (inodeSizeChange_same change).numbered up close)

theorem addNode_numbered {pINo dev result : Int} {name : Buffer} {type : FileType}
    (ran : addNode s pINo name type dev = .ok (result, after)) : Numbered s after := by
  simp only [addNode, bind_ok, Prod.exists] at ran
  obtain ⟨found, opened, opens, q, pointer, locked, down, added, worked, add, ran⟩ := ran
  have work := (direntAdd_same add).numbered
  split at ran
  · simp only [bind_ok, pure_ok, Prod.mk.injEq] at ran
    obtain ⟨deleted, delete, unlocked, up, closed, close, _, rfl⟩ := ran
    refine locked_numbered opens down (work.trans ?_) up close
    split at delete
    · exact diskInodeDelete_numbered delete
    · cases delete
      exact .refl _
  · simp only [bind_ok, pure_ok, Prod.mk.injEq] at ran
    obtain ⟨unlocked, up, closed, close, _, rfl⟩ := ran
    exact locked_numbered opens down work up close

theorem removeNode_numbered {pINo result : Int} {de : Dirent} (ran : removeNode s pINo de = .ok (result, after)) :
    Numbered s after := by
  simp only [removeNode, bind_ok, pure_ok, Prod.exists, Prod.mk.injEq] at ran
  obtain ⟨deleted, delete, found, opened, opens, q, pointer, locked, down, _, worked, remove, unlocked, up, closed, close,
    _, rfl⟩ := ran
  exact (diskInodeDelete_numbered delete).trans (locked_numbered opens down (direntDelete_same remove).numbered up close)

theorem openObject_numbered {de : Dirent} {object : Option Object} (ran : openObject s de = .ok (object, after)) :
    Numbered s after := by
  unfold openObject at ran
  split at ran
  · cases ran
    exact .refl _
  · simp only [bind_ok, pure_ok, Prod.exists, Prod.mk.injEq] at ran
    obtain ⟨found, opened, opens, _, rfl⟩ := ran
    exact inodeOpen_numbered opens

theorem sysMknod_numbered {pathname : List UInt8} {type : FileType} {dev result : Int}
    (ran : sysMknod s pathname type dev = .ok (result, after)) : Numbered s after := by
  simp only [sysMknod] at ran
  split at ran
  · cases ran
    exact .refl _
  simp only [bind_ok, Prod.exists] at ran
  obtain ⟨pINo, de, resolved, resolve, ran⟩ := ran
  refine (pathPrase_numbered resolve).trans ?_
  split at ran
  · cases ran
    exact .refl _
  split at ran
  · cases ran
    exact .refl _
  split at ran
  · have create := (diskInodeCreate_same resolved).numbered
    rcases creates : diskInodeCreate resolved with ⟨number, made⟩
    rw [creates] at ran create
    dsimp only at ran
    split at ran
    · cases ran
      exact create
    · exact create.trans (addNode_numbered ran)
  · exact addNode_numbered ran

theorem sysUnlink_numbered {pathname : List UInt8} {result : Int} (ran : sysUnlink s pathname = .ok (result, after)) :
    Numbered s after := by
  simp only [sysUnlink, bind_ok, Prod.exists] at ran
  obtain ⟨pINo, de, resolved, resolve, ran⟩ := ran
  refine (pathPrase_numbered resolve).trans ?_
  split at ran
  · cases ran
    exact .refl _
  split at ran
  · cases ran
    exact .refl _
  split at ran
  · cases ran
    exact .refl _
  · exact removeNode_numbered ran

end

section

variable {base : Nat} {created regular : Nat → Prop} {tree : Tree} {s after : State} {p : Ptr} {target : Nat}
  {entries : List Entry} {parents : List (List UInt8)} {last : List UInt8}

theorem Intact.forget {i : Nat} (intact : Intact base created tree s) (unused : ¬ Used s i)
    (shut : ∀ p ∈ s.openInodes, (s.inode p).iNo ≠ i) : Intact base (fun j => created j ∧ j ≠ i) tree s where
  inv :=
    { intact.inv with
      members := fun p member => ⟨intact.inv.members p member, shut p member⟩
      bounded := fun j member => intact.inv.bounded j member.1
      size := fun j member => intact.inv.size j member.1
      sound :=
        ⟨fun j j' k l bid first second => intact.inv.sound.apart j j' k l bid first.1 second.1,
          fun j k bid member => intact.inv.sound.good j k bid member.1⟩ }
  member := fun d entries found => ⟨intact.member d entries found, (intact.consistent.unused_ne unused found).symm⟩
  lists := intact.lists
  locks := intact.locks
  consistent := intact.consistent
  bits := intact.bits
  allocated := by
    intro j used
    refine ⟨intact.allocated j used, ?_⟩
    rintro rfl
    exact unused used

theorem Intact.vacate (intact : Intact base created tree s)
    (vacant : ∀ p ∈ s.openInodes, FirstFree s (s.inode p).iNo → (s.inode p).diskInode.fileSize = 0) :
    ∃ created', Intact base created' tree s ∧ ∀ i, FirstFree s i → created' i → fileSize s i = 0 := by
  by_cases some : ∃ i, FirstFree s i
  swap
  · exact ⟨created, intact, fun i first => absurd ⟨i, first⟩ some⟩
  obtain ⟨i, first⟩ := some
  have one : ∀ j, FirstFree s j → j = i := fun j first' => Option.some.inj (first'.symm.trans first)
  by_cases cached : ∃ p ∈ s.openInodes, (s.inode p).iNo = i
  · obtain ⟨p, member, number⟩ := cached
    refine ⟨created, intact, ?_⟩
    intro j first' _
    rw [one j first', fileSize, current_open ⟨member, number⟩ intact.inv.cache]
    exact vacant p member (number ▸ first)
  · have unused : ¬ Used s i := fun used => used.2 (bitmapFind_some first).2.2
    refine ⟨_, intact.forget unused fun p member number => cached ⟨p, member, number⟩, ?_⟩
    intro j first' member
    exact absurd (one j first') member.2

structure Planted (base : Nat) (created : Nat → Prop) (tree : Tree) (regular : Nat → Prop) (s : State) : Prop extends
    Intact base created tree s where
  files : tree.NoDevice
  apart : ∀ i, regular i → tree i = none

/-- A consistent tree of files and directories is on the disk, and the inodes of `regular` are no directories of it. -/
def TreeWith (base : Nat) (regular : Nat → Prop) (s : State) : Prop := ∃ created tree, Planted base created tree regular s

theorem Planted.keep (planted : Planted base created tree regular s) (intact : Intact base created tree after) :
    Planted base created tree regular after :=
  ⟨intact, planted.files, planted.apart⟩

theorem TreeWith.mono {fewer : Nat → Prop} (inv : TreeWith base regular s) (less : ∀ i, fewer i → regular i) :
    TreeWith base fewer s := by
  obtain ⟨created, tree, planted⟩ := inv
  exact ⟨created, tree, planted.toIntact, planted.files, fun i inside => planted.apart i (less i inside)⟩

theorem Planted.not_dir {i d : Nat} (planted : Planted base created tree regular s) (inside : regular i)
    (found : tree d = some entries) : i ≠ d := by
  rintro rfl
  rw [planted.apart i inside] at found
  cases found

theorem Planted.reaches (planted : Planted base created tree regular s) (resolved : resolveDir s 0 parents = some target) :
    Leads tree 0 parents target ∧ ∃ entries, tree target = some entries ∧ dirEntries s target = entries := by
  obtain ⟨top, root⟩ := Option.isSome_iff_exists.mp planted.consistent.root
  have leads := planted.toIntact.leads root resolved
  obtain ⟨entries, found⟩ := planted.leads_dir leads
  exact ⟨leads, entries, found, planted.dirEntries found⟩

theorem Planted.path_prase {pINo : Int} {de : Dirent} (planted : Planted base created tree regular s)
    (slashless : ∀ name ∈ parents, slash ∉ name) (good : Component last)
    (resolved : resolveDir s 0 parents = some target)
    (ran : pathPrase s (pathOf (parents ++ [last])) = .ok (pINo, de, after)) :
    Planted base created tree regular after ∧ pINo = target ∧
      (de.iNo ≠ ulongMax → created de.iNo ∧ (de.fType = .dir ∨ de.fType = .reg ∧ tree de.iNo = none)) := by
  obtain ⟨leads, entries, found, _⟩ := planted.reaches resolved
  obtain ⟨de', resolved', ran', lastIs, undone, locks⟩ := pathPrase_spec planted.toIntact leads slashless good found
  rw [ran] at ran'
  cases ran'
  refine ⟨planted.keep (planted.undone undone locks), rfl, ?_⟩
  intro there
  cases lastIs with
  | missing absent iNo filename => exact absurd iNo there
  | found entry member named is =>
    have isNode := planted.files target entries found entry member
    rw [is.iNo, is.fType]
    refine ⟨planted.allocated _ (planted.consistent.node_used found member isNode), ?_⟩
    by_cases plain : entry.Plain
    · exact (planted.consistent.typed target entry ⟨⟨entries, found, member⟩, plain, isNode⟩).2.imp_left And.left
    · exact .inl (planted.consistent.dots_dir found member plain)

theorem Planted.open_object {de : Dirent} {object : Option Object} (planted : Planted base created tree regular s)
    (member : created de.iNo) (kind : de.fType = .dir ∨ de.fType = .reg ∧ tree de.iNo = none)
    (ran : openObject s de = .ok (object, after)) :
    TreeWith base (fun i => regular i ∨ de.fType = .reg ∧ i = de.iNo) after ∧
      ∃ p, object = some (.inode p) ∧ IsOpen after p de.iNo := by
  obtain ⟨p, opened, opens, isOpen, undone, locks, _⟩ :=
    inodeOpen_spec planted.inv member planted.locks fun q inside => by cases inside
  have node : de.fType ≠ .chr := by
    rcases kind with isDir | ⟨isReg, _⟩
    · simp [isDir]
    · simp [isReg]
  rw [openObject, if_neg node] at ran
  simp only [opens, Bind.bind, Except.bind] at ran
  cases ran
  refine ⟨⟨created, tree, planted.undone undone locks, planted.files, ?_⟩, p, rfl, isOpen.isOpen⟩
  rintro i (inside | ⟨isReg, rfl⟩)
  · exact planted.apart i inside
  · rcases kind with isDir | ⟨_, none⟩
    · rw [isReg] at isDir
      cases isDir
    · exact none

theorem Intact.sys_stat {entry : Entry} (intact : Intact base created tree s) (leads : Leads tree 0 parents target)
    (slashless : ∀ name ∈ parents, slash ∉ name) (good : Component last) (found : tree target = some entries)
    (member : entry ∈ entries) (named : entry.name = last) (isNode : entry.fType ≠ .chr) :
    ∃ final, sysStat s (pathOf (parents ++ [last])) =
      .ok (0, some { ino := entry.iNo, fileType := entry.fType, size := fileSize s entry.iNo }, final) := by
  obtain ⟨de, resolved, parsed, lastIs, undone, locks⟩ := pathPrase_spec intact leads slashless good found
  have inside := intact.allocated _ (intact.consistent.node_used found member isNode)
  have is : de.Is entry := by
    cases lastIs with
    | missing absent => exact absurd named (absent entry member)
    | found other member' named' is =>
      rw [← intact.consistent.same_entry found member' member (named'.trans named.symm)]
      exact is
  obtain ⟨q, opened, locked, opens, down, isOpen, enter, lockedLocks⟩ := enter_spec undone.inv inside locks
  obtain ⟨raised, final, up, close, _⟩ := leaveDir_spec enter.inv isOpen lockedLocks
  have size : (locked.inode q).diskInode.fileSize = fileSize s entry.iNo := by
    rw [← current_open isOpen enter.inv.cache]
    exact (undone.files.trans enter.files).size entry.iNo inside
  have inTree := natCast_ne_isntExist target
  have there := node_ne_ulongMax (intact.inv.bounded _ inside)
  refine ⟨final, ?_⟩
  simp only [sysStat, parsed, Bind.bind, Except.bind, if_neg inTree, is.iNo, if_neg there, opens, deref, down, up, close,
    is.fType, size]
  rfl

/-- What a successful `sys_mknod` of a file leaves: the path is that of an empty file. -/
structure NewNode (s after : State) (pathname : List UInt8) (i : Nat) : Prop where
  first : FirstFree s i
  stat : ∃ stat final, sysStat after pathname = .ok (0, some stat, final) ∧ stat.ino = i ∧ stat.size = 0

theorem TreeWith.sys_mknod {result : Int} (inv : TreeWith base regular s) (slashless : ∀ name ∈ parents, slash ∉ name)
    (good : Component last) (resolved : resolveDir s 0 parents = some target)
    (vacant : (∀ entry ∈ dirEntries s target, entry.name ≠ last) →
      ∀ p ∈ s.openInodes, FirstFree s (s.inode p).iNo → (s.inode p).diskInode.fileSize = 0)
    (ran : sysMknod s (pathOf (parents ++ [last])) .reg 0 = .ok (result, after)) :
    TreeWith base regular after ∧ (0 ≤ result → ∃ i : Nat, result = i ∧
      (∀ entry ∈ dirEntries s target, entry.name ≠ last) ∧ NewNode s after (pathOf (parents ++ [last])) i) := by
  obtain ⟨created, tree, planted⟩ := inv
  obtain ⟨leads, entries, found, listed⟩ := planted.reaches resolved
  rw [listed] at vacant ⊢
  obtain ⟨created', intact, empty⟩ : ∃ created', Intact base created' tree s ∧
      ((∀ entry ∈ entries, entry.name = last → entry.iNo = ulongMax) → ∀ i, FirstFree s i → created' i → fileSize s i = 0) := by
    by_cases absent : ∀ entry ∈ entries, entry.name ≠ last
    · obtain ⟨created', intact, empty⟩ := planted.vacate (vacant absent)
      exact ⟨created', intact, fun _ => empty⟩
    · refine ⟨created, planted.toIntact, ?_⟩
      intro missing
      refine absurd ?_ absent
      intro entry member named
      have isNode := planted.files target entries found entry member
      exact node_ne_ulongMax (planted.consistent.node_used found member isNode).1 (missing entry member named)
  obtain ⟨_, _, ran', outcome⟩ :=
    @sysMknod_vacant base created' tree s target entries parents last .reg 0 intact leads slashless good found (.inr rfl) empty
  rw [ran] at ran'
  cases ran'
  cases outcome with
  | failed negative why created'' intact'' =>
    exact ⟨⟨created'', tree, intact'', planted.files, planted.apart⟩, fun fine => by omega⟩
  | device isChr => cases isChr
  | file i isReg number first unused absent intact'' idle empty' =>
    have new := planted.consistent.unused_dir unused
    have apart := planted.consistent.unused_ne unused found
    have leads' : Leads (tree.add target entries ⟨last, i, .reg⟩ none) 0 parents target := leads.add found new
    refine ⟨⟨_, _, intact'', planted.files.add found (.file rfl) apart, ?_⟩, fun _ => ⟨i, number, absent, first, ?_⟩⟩
    · intro j inside
      have other := planted.not_dir inside found
      by_cases here : j = i
      · rw [here]
        exact Tree.add_new apart
      · rw [Tree.add_other other here]
        exact planted.apart j inside
    · obtain ⟨final, stat⟩ := intact''.sys_stat leads' slashless good Tree.add_here
        (List.mem_append_right entries (List.mem_singleton.mpr rfl)) rfl FileType.noConfusion
      exact ⟨_, final, stat, rfl, empty'⟩

theorem TreeWith.sys_unlink {result : Int} (inv : TreeWith base regular s) (slashless : ∀ name ∈ parents, slash ∉ name)
    (good : Component last) (resolved : resolveDir s 0 parents = some target)
    (ran : sysUnlink s (pathOf (parents ++ [last])) = .ok (result, after)) : TreeWith base regular after := by
  obtain ⟨created, tree, planted⟩ := inv
  obtain ⟨leads, entries, found, _⟩ := planted.reaches resolved
  have noDevice := planted.files target entries found
  by_cases plain : last ≠ dot ∧ last ≠ ddot
  · obtain ⟨_, _, ran', outcome⟩ := sysUnlink_spec planted.toIntact leads slashless good plain found
      fun entry member _ => noDevice entry member
    rw [ran] at ran'
    cases ran'
    cases outcome with
    | failed negative undone locks => exact ⟨created, tree, planted.keep (planted.undone undone locks)⟩
    | removed success entry rest named split removed =>
      refine ⟨created, _, removed.intact, planted.files.remove found split, ?_⟩
      intro j inside
      have other := planted.not_dir inside found
      by_cases here : j = entry.iNo
      · rw [here] at other ⊢
        exact Tree.remove_gone other
      · rw [Tree.remove_other other here]
        exact planted.apart j inside
  · -- '.' and '..' are directories, which `sys_unlink` leaves alone.
    obtain ⟨de, resolved', parsed, lastIs, undone, locks⟩ := pathPrase_spec planted.toIntact leads slashless good found
    cases lastIs with
    | missing absent => exact absurd (planted.plain found absent) plain
    | found entry member named is =>
      have isNode := noDevice entry member
      have there : de.iNo ≠ ulongMax := by
        rw [is.iNo]
        exact node_ne_ulongMax (planted.consistent.node_used found member isNode).1
      have isDir := planted.consistent.dots_dir found member (by rw [Entry.Plain, named]; exact plain)
      rw [sysUnlink_dir parsed there (is.fType.trans isDir)] at ran
      cases ran
      exact ⟨created, tree, planted.keep (planted.undone undone locks)⟩

theorem inodeSizeChange_updated {iNo size : Nat} {result : Int} (inv : OwnInv base created s) (isOpen : IsOpen s p iNo)
    (ran : inodeSizeChange s p size = .ok (result, after)) : Updated base created s after iNo := by
  by_cases small : size ≤ ndirect * blockSize
  · obtain ⟨_, _, ran', resized⟩ := inodeSizeChange_spec inv isOpen small
    rw [ran] at ran'
    cases ran'
    exact ⟨resized.own, resized.synced, resized.recut.toSteady, resized.recut.marks, resized.recut.others inv.placed isOpen⟩
  · rw [inodeSizeChange, if_pos (Nat.not_le.mp small)] at ran
    cases ran
    exact ⟨inv, id, .refl s, fun _ _ => rfl, .refl _ s⟩

theorem writeData_updated {iNo nbyte offset : Nat} {buf : Buffer} (inv : OwnInv base created s) (isOpen : IsOpen s p iNo)
    (inside : offset + nbyte ≤ (s.inode p).diskInode.fileSize) :
    Updated base created s (writeData s p buf nbyte offset) iNo := by
  rw [← current_open isOpen inv.cache] at inside
  obtain ⟨own, table, _, marks, others, _⟩ := @writeData_spec base created s p iNo buf nbyte offset inv isOpen inside
  exact ⟨own, fun synced => synced.write inv.cache table, ⟨writeData_same s p buf nbyte offset, fun _ => rfl, id⟩, marks,
    others⟩

theorem inodeWrite_updated {iNo nbyte offset : Nat} {buf : Buffer} {result : Int} (inv : OwnInv base created s)
    (isOpen : IsOpen s p iNo) (ran : inodeWrite s p buf nbyte offset = .ok (result, after)) :
    Updated base created s after iNo := by
  rcases inodeWrite_cases ran with ⟨_, _, change, _⟩ | ⟨sized, resized, inside, _, rfl⟩
  · exact inodeSizeChange_updated inv isOpen change
  · rcases resized with rfl | ⟨_, _, change⟩
    · exact writeData_updated inv isOpen inside
    · have first := inodeSizeChange_updated inv isOpen change
      exact first.trans (writeData_updated first.own (isOpen.same first.steady.toSameCache) inside)

theorem Planted.write {iNo nbyte offset : Nat} {buf : Buffer} {result : Int} {locked written : State}
    (planted : Planted base created tree regular s) (isOpen : IsOpen s p iNo) (isReg : regular iNo)
    (down : semaDown s p = .ok locked) (write : inodeWrite locked p buf nbyte offset = .ok (result, written))
    (up : semaUp written p = .ok after) :
    Planted base created tree regular after ∧ Agree (fun jNo => created jNo ∧ jNo ≠ iNo) s after := by
  obtain ⟨_, down', enter, same, lockedLocks, _⟩ :=
    semaDown_spec planted.inv planted.locks isOpen List.not_mem_nil
  rw [down] at down'
  cases down'
  have updated := inodeWrite_updated enter.inv.toOwnInv (isOpen.same same) write
  obtain ⟨_, up', leave, _, locks⟩ :=
    semaUp_spec (updated.inv enter.inv) (lockedLocks.steady updated.steady) List.not_mem_nil
  rw [up] at up'
  cases up'
  have others : Agree (fun jNo => created jNo ∧ jNo ≠ iNo) s after :=
    ((enter.files.mono fun _ kept => kept.1).trans updated.others).trans (leave.files.mono fun _ kept => kept.1)
  refine ⟨planted.keep (planted.toIntact.keep ?_ planted.consistent ?_), others⟩
  · refine ⟨leave.inv, planted.member, ?_, locks⟩
    intro d siblings found
    have other := (planted.not_dir isReg found).symm
    exact (planted.lists d siblings found).agree others ⟨planted.member d siblings found, other⟩
  · intro j bound
    rw [leave.marks, updated.marks j bound, enter.marks]

theorem Planted.close (planted : Planted base created tree regular s) (member : p ∈ s.openInodes)
    (ran : inodeClose s p = .ok after) : Planted base created tree regular after := by
  obtain ⟨_, ran', _, undone, locks⟩ := inodeClose_spec planted.inv ⟨member, rfl⟩ planted.locks List.not_mem_nil
  rw [ran] at ran'
  cases ran'
  exact planted.keep (planted.undone undone locks)

end

end RecoverOs.Fs
