import RecoverOs.Fs.Mknod

namespace RecoverOs.Fs

open Bytes Transition

variable {base : Nat} {created : Nat → Prop} {tree : Tree} {s after : State} {p : Ptr} {iNo target : Nat}
  {entries : List Entry} {entry : Entry} {de : Dirent}

theorem Opened.agree (cache : CacheInv s) (opened : Opened s iNo p after) (keep : Nat → Prop) : Agree keep s after where
  size := fun jNo _ => by rw [fileSize, fileSize, current_opened cache opened]
  byte := fun jNo _ k _ => by rw [content, content, current_opened cache opened, opened.disk]

theorem Closed.agree (cache : CacheInv s) (closed : Closed s p after) (isOpen : IsOpen s p iNo) (settled : Settled s iNo)
    (keep : Nat → Prop) : Agree keep s after where
  size := by
    intro jNo _
    rw [fileSize, fileSize]
    rcases current_closed cache closed isOpen.mem jNo with same | ⟨here, new, _⟩
    · rw [same]
    · rw [new, here, isOpen.iNo]
      exact settled.1
  byte := by
    intro jNo _ k bound
    rw [content, content, closed.disk]
    rcases current_closed cache closed isOpen.mem jNo with same | ⟨here, new, _⟩
    · rw [same]
    · rw [isOpen.iNo] at here
      subst here
      rw [new, settled.2 _ (byte_owned bound).1]

theorem Placed.opened (placed : Placed base created s) (member : created iNo) (opened : Opened s iNo p after) :
    Placed base created after := by
  refine placed.keep opened.sb opened.inv ?_ fun i _ => current_opened placed.cache opened i
  intro q inside
  by_cases before : q ∈ s.openInodes
  · rw [(opened.old q before).1]
    exact placed.members q before
  · rw [(opened.new q inside before).1, opened.isOpen.iNo]
    exact member

/-- What `disk_inode_delete` has done when it returns, whatever the inode table held for the number. -/
structure Cleared (base : Nat) (created : Nat → Prop) (s after : State) (iNo : Nat) : Prop where
  bound : iNo < inodeCntMax
  placed : Placed base (fun jNo => created jNo ∨ jNo = iNo) after
  others : Agree (fun jNo => created jNo ∧ jNo ≠ iNo) s after
  marks : ∀ jNo < inodeCntMax, inodeMark after jNo = if jNo = iNo then 0 else inodeMark s jNo

theorem diskInodeDelete_cleared (inv : FileInv base created s) (ran : diskInodeDelete s iNo = .ok after) :
    Cleared base created s after iNo := by
  obtain ⟨freed, opened, p, sized, free, opens, ⟨result, change⟩, closes⟩ := diskInodeDelete_cases inv.cache ran
  simp only [fsBitmapFree, bind_ok, assert_ok, decide_eq_true_eq, pure_ok] at free
  obtain ⟨_, bound, rfl⟩ := free
  obtain ⟨freedInv, _, freedMarks, freedCurrent⟩ := inv.setInodeMark bound 0
  change Opened (s.setInodeMark iNo 0) iNo p opened at opens
  have lockSame := SameCache.lock opened p 0
  have lockCache := opens.inv.same lockSame
  have lockOpen := opens.isOpen.same lockSame
  have layout : Layout base (opened.setInode p fun inode => { inode with inodeLock := 0 }).sb := by
    rw [lockSame.sb, opens.sb]
    exact inv.layout
  obtain ⟨recut, empty, settled⟩ := inodeSizeChange_less layout lockCache lockOpen (Nat.zero_le _) (Nat.zero_le _)
    (fun k none => absurd none (Nat.not_lt_zero k)) change
  have sizedCache := lockCache.same recut.toSameCache
  have freeSame := SameCache.lock sized p 1
  have freeOpen := (lockOpen.same recut.toSameCache).same freeSame
  have closedCurrent := current_closed (sizedCache.same freeSame) closes freeOpen.mem
  have currents : ∀ jNo, created jNo → jNo ≠ iNo → current after jNo = current s jNo := by
    intro jNo member differs
    have inside := inv.bounded jNo member
    rcases closedCurrent jNo with same | ⟨here, _⟩
    · rw [same, current_lock, current_other recut.toSameCache lockOpen recut.other differs (recut.table jNo inside differs),
        current_lock, current_opened freedInv.cache opens, freedCurrent jNo inside]
    · exact absurd (here.trans freeOpen.iNo) differs
  have vacant : fileSize after iNo = 0 := by
    rcases closedCurrent iNo with same | ⟨_, new, _⟩
    · rw [fileSize, same, current_lock]
      exact empty
    · rw [fileSize, new]
      exact settled.1.trans empty
  refine ⟨bound, ⟨?_, closes.inv, ?_, ?_, ?_, ?_⟩, ⟨?_, ?_⟩, ?_⟩
  · rw [closes.sb, freeSame.sb, recut.sb]
    exact layout
  · intro q inside
    have before := ((closes.shrinks q).mp inside).1
    rw [closes.iNo, freeSame.iNo, recut.iNo, lockSame.iNo]
    rw [freeSame.openInodes, recut.openInodes, lockSame.openInodes] at before
    by_cases old : q ∈ s.openInodes
    · left
      rw [(opens.old q old).1]
      exact inv.members q old
    · right
      rw [(opens.new q before old).1, opens.isOpen.iNo]
  · rintro jNo (member | rfl)
    · exact inv.bounded jNo member
    · exact bound
  · rintro jNo member
    by_cases here : jNo = iNo
    · rw [here]
      exact (Nat.le_of_eq vacant).trans (Nat.zero_le _)
    · rw [currents jNo (member.resolve_right here) here]
      exact inv.size jNo (member.resolve_right here)
  · have none : (ledger after).count iNo = 0 := ownedCnt_zero vacant
    have rows : (ledger after).Sound created fun bid => s.sb.dataStart ≤ bid ∧ bid < base + s.sb.blockBitmapSize := by
      refine inv.placed.apart.shorten ?_ fun _ _ _ _ _ range => range
      intro jNo member
      by_cases here : jNo = iNo
      · rw [here, none]
        exact ⟨Nat.zero_le _, fun k wrong => absurd wrong (Nat.not_lt_zero k)⟩
      · simp only [ledger, currents jNo member here, Nat.le_refl, implies_true, and_self]
    have sb : after.sb = s.sb := by
      rw [closes.sb, freeSame.sb, recut.sb, lockSame.sb, opens.sb]
      rfl
    rw [sb]
    refine rows.enroll ?_
    rintro jNo (member | rfl)
    · exact .inl member
    · exact .inr none
  · intro jNo kept
    rw [fileSize, fileSize, currents jNo kept.1 kept.2]
  · intro jNo kept k inside
    have low := content_low inv.placed kept.1 inside
    have start := inv.layout.dataStart
    have table := inv.layout.inodeTableStart
    rw [content, content, currents jNo kept.1 kept.2, closes.disk]
    have data := recut.data ((current s jNo).direct (k / blockSize)) (by rw [lockSame.sb, opens.sb]; exact low)
    change sized.disk _ _ = _
    rw [data]
    change opened.disk _ _ = _
    rw [opens.disk, setInodeMark_disk s 0 bound (by omega)]
  · intro jNo inside
    have cut := recut.marks jNo inside
    rw [← freedMarks jNo]
    have last : inodeMark after jNo = inodeMark sized jNo := by
      rw [inodeMark, inodeMark, closes.disk, closes.sb]
      rfl
    rw [last, cut]
    rw [inodeMark, inodeMark, ← opens.disk, ← opens.sb]
    rfl

theorem direntDelete_either {dNo : Nat} {buf : Buffer} {name : List UInt8} (lists : Lists s dNo entries)
    (inv : OwnInv base created s) (isOpen : IsOpen s p dNo) (spells : Spells buf name) (nonzero : 0 ∉ name) :
    ∃ result after, direntDelete s p buf = .ok (result, after) ∧ Updated base created s after dNo := by
  by_cases present : ∃ entry ∈ entries, entry.name = name
  · obtain ⟨k, entry, after, _, _, call, updated, _⟩ := direntDelete_spec lists.rows inv isOpen spells nonzero present
    exact ⟨0, after, call, updated⟩
  · refine ⟨-direntIsntExist, s, ?_, inv, id, .refl s, fun _ _ => rfl, .refl _ s⟩
    exact direntDelete_absent lists.rows inv isOpen spells nonzero fun entry inside named => present ⟨entry, inside, named⟩

/-- The last lines of `sys_unlink` and `sys_rmdir` with the number of any inode in use, that of the directory itself
    included. -/
theorem removeNode_used (intact : Intact base created tree s) (found : tree target = some entries)
    (member : entry ∈ entries) (is : de.Is entry) (used : Used s entry.iNo) :
    ∃ after, removeNode s target de = .ok (0, after) ∧
      (∀ j < inodeCntMax, inodeMark after j = if j = entry.iNo then 0 else inodeMark s j) ∧
      Agree (fun j => created j ∧ j ≠ entry.iNo ∧ j ≠ target) s after := by
  have inside := intact.allocated _ used
  have nonzero := ((intact.lists target entries found).name entry member).nonzero
  obtain ⟨deleted, delete, gone, locks⟩ := diskInodeDelete_spec intact.inv inside intact.locks fun q held => by cases held
  have stored := (gone.stored locks intact.toStored).empty inside gone.empty
  obtain ⟨siblings, still⟩ : ∃ siblings, Function.update (Function.update tree entry.iNo none) entry.iNo (some []) target =
      some siblings := by
    by_cases here : target = entry.iNo
    · exact ⟨[], by rw [here, Function.update_self]⟩
    · exact ⟨entries, by rw [Function.update_of_ne here, Function.update_of_ne here, found]⟩
  obtain ⟨p, opened, locked, opens, down, isOpen, lists, enter, lockedLocks⟩ := enterDir_spec stored still
  obtain ⟨result, changed, call, updated⟩ := direntDelete_either lists enter.inv.toOwnInv isOpen is.name nonzero
  obtain ⟨raised, after, up, close, leave, leaveLocks⟩ := leaveDir_spec (updated.inv enter.inv)
    (isOpen.same updated.steady.toSameCache) (lockedLocks.steady updated.steady)
  refine ⟨after, ?_, ?_, ?_⟩
  · simp only [removeNode, is.iNo, delete, Int.toNat_natCast, opens, deref, down, call, up, close, Bind.bind, Except.bind]
    rfl
  · intro j bound
    rw [leave.marks, updated.marks j bound, enter.marks, gone.marks j bound]
  · have first := gone.others.mono fun j (kept : created j ∧ j ≠ entry.iNo ∧ j ≠ target) => ⟨kept.1, kept.2.1⟩
    have second := (enter.files.mono fun j (kept : created j ∧ j ≠ entry.iNo ∧ j ≠ target) => kept.1)
    have third := updated.others.mono fun j (kept : created j ∧ j ≠ entry.iNo ∧ j ≠ target) => ⟨kept.1, kept.2.2⟩
    exact ((first.trans second).trans third).trans (leave.files.mono fun j kept => kept.1)

theorem removeNode_unused {result : Int} (intact : Intact base created tree s) (found : tree target = some entries)
    (member : entry ∈ entries) (is : de.Is entry) (unused : ¬ Used s entry.iNo)
    (ran : removeNode s target de = .ok (result, after)) :
    (∃ k, entries[k]? = some entry ∧ dirEntries after target = Catalog.removeAt entries k) ∧
      (∀ j < inodeCntMax, inodeMark after j = inodeMark s j) ∧ Agree (fun j => Used s j ∧ j ≠ target) s after := by
  simp only [removeNode, bind_ok, Prod.exists, pure_ok, Prod.mk.injEq, is.iNo, Int.toNat_natCast] at ran
  obtain ⟨deleted, delete, pointer, opened, opens, p, pointed, locked, down, _, changed, call, raised, up, shut, close, _,
    rfl⟩ := ran
  have cleared := diskInodeDelete_cleared intact.inv delete
  have usedDir := intact.consistent.dirs target entries found
  have apart : target ≠ entry.iNo := fun same => unused (same ▸ usedDir)
  have inside := intact.member target entries found
  cases pointer with
  | none => cases pointed
  | some q =>
    obtain rfl := deref_some.mp pointed
    obtain ⟨_, open'⟩ := inodeOpen_opened cleared.placed.cache opens
    obtain ⟨_, rfl⟩ := semaDown_ok.mp down
    obtain ⟨_, rfl⟩ := semaUp_ok.mp up
    have lockSame := SameCache.lock opened q 0
    have lockOpen := open'.isOpen.same lockSame
    have placed := (cleared.placed.opened (.inl inside) open').same lockSame fun i _ => current_lock opened q 0 i
    have entered : Agree (fun j => created j ∧ j ≠ entry.iNo) s
        (opened.setInode q fun inode => { inode with inodeLock := 0 }) :=
      (cleared.others.trans (open'.agree cleared.placed.cache _)).trans (.lock _ opened q 0)
    have lists := (intact.lists target entries found).agree entered ⟨inside, apart⟩
    obtain ⟨k, other, at', named, shorter, same, others, marks, settled⟩ := direntDelete_placed lists.rows placed lockOpen is.name
      (lists.name entry member).nonzero ⟨entry, member, rfl⟩ call
    obtain rfl : other = entry := intact.consistent.same_entry found (List.mem_of_getElem? at') member named
    have freeSame := SameCache.lock changed q 1
    have closed := inodeClose_closed ((placed.cache.same same).same freeSame) close
    have left : ∀ keep, Agree keep changed shut := by
      intro keep
      refine (Agree.lock keep changed q 1).trans (closed.agree ((placed.cache.same same).same freeSame)
        ((lockOpen.same same).same freeSame) ?_ keep)
      rw [Settled, current_lock, fileSize, current_lock]
      exact settled
    refine ⟨⟨k, at', (shorter.agree (left (· = target)) rfl).dirEntries_eq⟩, ?_, ?_⟩
    · intro j bound
      have first : inodeMark shut j = inodeMark changed j := by
        rw [inodeMark, inodeMark, closed.disk, closed.sb]
        rfl
      have second : inodeMark (opened.setInode q fun inode => { inode with inodeLock := 0 }) j = inodeMark deleted j := by
        rw [inodeMark, inodeMark, ← open'.disk, ← open'.sb]
        rfl
      rw [first, marks j bound, second, cleared.marks j bound]
      by_cases here : j = other.iNo
      · rw [if_pos here, here]
        by_contra marked
        exact unused ⟨cleared.bound, fun clear => marked clear.symm⟩
      · rw [if_neg here]
    · have kept : ∀ j, Used s j ∧ j ≠ target → created j ∧ j ≠ other.iNo := by
        rintro j ⟨used, _⟩
        refine ⟨intact.allocated j used, ?_⟩
        rintro rfl
        exact unused used
      have edited := others.mono fun j (keep : Used s j ∧ j ≠ target) =>
        (⟨.inl (kept j keep).1, keep.2⟩ : (created j ∨ j = other.iNo) ∧ j ≠ target)
      exact ((entered.mono kept).trans edited).trans (left _)

/-- The directory has lost the entry and nothing else, the inode of a file is free and empty, and every other inode
    in use is as it was. -/
structure RemovesOnly (s after : State) (target : Nat) (entry : Entry) : Prop where
  lost : (dirEntries s target).Perm (entry :: dirEntries after target)
  freed : entry.fType = .reg → inodeMark after entry.iNo = 0 ∧ fileSize after entry.iNo = 0
  marks : ∀ i < inodeCntMax, (entry.fType = .reg → i ≠ entry.iNo) → inodeMark after i = inodeMark s i
  files : Agree (fun i => Used s i ∧ i ≠ target ∧ (entry.fType = .reg → i ≠ entry.iNo)) s after

/-- Unless the entry is a device whose number is that of an inode in use. -/
theorem unlink_removes_only_iff (s : State) (consistent : ConsistentTree s) (parents : List (List UInt8))
    (last : List UInt8) (slashless : ∀ name ∈ parents, slash ∉ name) (nonempty : last ≠ []) (lastSlashless : slash ∉ last)
    (target : Nat) (resolved : resolveDir s 0 parents = some target) (entry : Entry) (member : entry ∈ dirEntries s target)
    (named : entry.name = last) (kind : entry.fType = .reg ∨ entry.fType = .chr) :
    (∀ after, sysUnlink s (pathOf (parents ++ [last])) = .ok (0, after) → RemovesOnly s after target entry) ↔
      entry.fType = .reg ∨ ¬ Used s entry.iNo := by
  obtain ⟨base, created, tree, sound⟩ := consistent
  obtain ⟨top, root⟩ := Option.isSome_iff_exists.mp sound.consistent.root
  have leads := sound.leads root resolved
  obtain ⟨entries, found⟩ := sound.leads_dir leads
  rw [sound.dirEntries found] at member
  have good : Component last :=
    ⟨named ▸ (sound.lists target entries found).name entry member, nonempty, lastSlashless⟩
  have notDir : entry.fType ≠ .dir := by
    rcases kind with isReg | isChr
    · rw [isReg]
      exact FileType.noConfusion
    · rw [isChr]
      exact FileType.noConfusion
  have plain : entry.Plain := by
    refine ⟨?_, ?_⟩
    · intro isDot
      apply notDir
      rw [sound.consistent.same_entry found member (sound.consistent.self target entries found) isDot]
    · intro isDdot
      obtain ⟨up, above, _⟩ := sound.consistent.parent target entries found
      apply notDir
      rw [sound.consistent.same_entry found member above isDdot]
  obtain ⟨de, middle, parsed, lastIs, undone, locks⟩ := pathPrase_spec sound.toIntact leads slashless good found
  have is : de.Is entry := by
    cases lastIs with
    | found other inside named' is =>
      rw [← sound.consistent.same_entry found inside member (named'.trans named.symm)]
      exact is
    | missing absent => exact absurd named (absent entry member)
  have resolvedIntact := sound.toIntact.undone undone locks
  have usedSame := used_congr fun i (_ : i < inodeCntMax) => undone.marks i
  have before : Agree (Used s) s middle := undone.files.mono sound.allocated
  have calls : ∀ after, sysUnlink s (pathOf (parents ++ [last])) = .ok (0, after) → removeNode middle target de = .ok (0, after) := by
    intro after ran
    by_cases absent : de.iNo = ulongMax
    · rw [sysUnlink_absent parsed absent] at ran
      cases ran
    · rwa [sysUnlink_node parsed absent (is.fType ▸ notDir)] at ran
  rcases kind with isReg | isChr
  · refine ⟨fun _ => .inl isReg, fun _ after ran => ?_⟩
    have isNode : entry.fType ≠ .chr := by
      rw [isReg]
      exact FileType.noConfusion
    have empty := (sound.consistent.empty_file ⟨⟨entries, found, member⟩, plain, isNode⟩ notDir).2
    obtain ⟨rest, after', ran', split, removed⟩ := removeNode_spec resolvedIntact found member is plain isNode empty
    rw [calls after ran] at ran'
    cases ran'
    have removed := removed.undone undone
    refine ⟨?_, ?_, ?_, ?_⟩
    · rw [sound.dirEntries found, (removed.intact.lists target rest Tree.remove_here).dirEntries_eq]
      exact split
    · intro _
      have bound := sound.inv.bounded _ (sound.allocated _ (sound.consistent.used_entry
        ⟨⟨entries, found, member⟩, plain, isNode⟩))
      exact ⟨by rw [removed.marks _ bound, if_pos rfl], removed.empty⟩
    · intro i bound other
      rw [removed.marks i bound, if_neg (other isReg)]
    · exact removed.others.mono fun i kept => ⟨sound.allocated i kept.1, kept.2.2 isReg, kept.2.1⟩
  · have notReg : entry.fType ≠ .reg := by
      rw [isChr]
      exact FileType.noConfusion
    constructor
    · intro exact'
      refine .inr fun used => ?_
      have present : de.iNo ≠ ulongMax := by
        rw [is.iNo]
        exact node_ne_ulongMax used.1
      obtain ⟨after, ran, marks, _⟩ := removeNode_used resolvedIntact found member is (usedSame ▸ used)
      rw [← sysUnlink_node parsed present (is.fType ▸ notDir)] at ran
      have kept := (exact' after ran).marks entry.iNo used.1 fun isReg => absurd isReg notReg
      rw [marks entry.iNo used.1, if_pos rfl] at kept
      exact used.2 kept.symm
    · rintro (isReg | unused) after ran
      · exact absurd isReg notReg
      obtain ⟨⟨k, at', left⟩, marks, files⟩ :=
        removeNode_unused resolvedIntact found member is (usedSame ▸ unused) (calls after ran)
      rw [usedSame] at files
      refine ⟨?_, fun isReg => absurd isReg notReg, ?_, ?_⟩
      · rw [sound.dirEntries found, left]
        exact Catalog.cons_removeAt at'
      · intro i bound _
        rw [marks i bound, undone.marks]
      · exact (before.mono fun i kept => kept.1).trans (files.mono fun i kept => ⟨kept.1, kept.2.1⟩)

def devPath : List UInt8 := [100, 101, 118]
def stdinPath : List UInt8 := [115, 116, 100, 105, 110]

/-- Removing `/dev/stdin`, device 0, frees inode 0, which is the root directory, and empties it. -/
theorem unlink_device_frees_root : ∃ start s made after, format (fun _ _ => 7) ⟨64, 800⟩ = .ok start ∧
    run treeStep start [⟨.mkdir, [], devPath⟩] = .ok s ∧ sysMknod s (pathOf [devPath, stdinPath]) .chr 0 = .ok (0, made) ∧
    ConsistentTree made ∧ sysUnlink made (pathOf [devPath, stdinPath]) = .ok (0, after) ∧ inodeMark made 0 = 1 ∧ inodeMark after 0 = 0 ∧
    fileSize after 0 = 0 ∧ ¬ RemovesOnly made after 1 ⟨stdinPath, 0, .chr⟩ := by
  have evaluated : endsIn (format (fun _ _ => 7) ⟨64, 800⟩) (fun start =>
      endsIn (run treeStep start [⟨.mkdir, [], devPath⟩]) fun s => decide (resolveDir s 0 [devPath] = some 1) &&
        endsIn (sysMknod s (pathOf [devPath, stdinPath]) .chr 0) fun made =>
          endsIn (sysUnlink made.2 (pathOf [devPath, stdinPath])) fun done => decide (made.1 = 0 ∧ done.1 = 0 ∧
            inodeMark made.2 0 = 1 ∧ inodeMark done.2 0 = 0 ∧ fileSize done.2 0 = 0)) = true := by
    decide +kernel
  obtain ⟨start, formatted, rest⟩ := exists_of_endsIn evaluated
  obtain ⟨s, ran, rest⟩ := exists_of_endsIn rest
  rw [Bool.and_eq_true, decide_eq_true_eq] at rest
  obtain ⟨resolved, rest⟩ := rest
  obtain ⟨⟨number, made⟩, mknod, rest⟩ := exists_of_endsIn rest
  obtain ⟨⟨result, after⟩, unlink, facts⟩ := exists_of_endsIn rest
  rw [decide_eq_true_eq] at facts
  obtain ⟨rfl, rfl, used, free, empty⟩ := facts
  obtain ⟨created, tree, sound, _⟩ := run_invariant (fun s call after inv _ ran => treeStep_inv s call after inv ran)
    (format_treeInv formatted) (meets_true treeStep start _) ran
  have whole : ConsistentTree made := by
    refine ConsistentTree.mknod ⟨_, created, tree, sound⟩ ?_ ⟨⟨by decide, by decide⟩, by decide, by decide⟩ resolved (.inl rfl)
      mknod
    intro name inside
    rw [List.mem_singleton.mp inside]
    decide
  refine ⟨start, s, made, after, formatted, ran, mknod, whole, unlink, used, free, empty, ?_⟩
  intro only
  have kept := only.marks 0 (by decide) FileType.noConfusion
  rw [used, free] at kept
  cases kept

theorem unlink_removes_only_file : ∃ start s, format (fun _ _ => 7) ⟨64, 800⟩ = .ok start ∧
    run treeStep start (deepCalls.take 2) = .ok s ∧
    ∀ after, sysUnlink s (pathOf [[97], [102]]) = .ok (0, after) → RemovesOnly s after 1 ⟨[102], 2, .reg⟩ := by
  have evaluated : endsIn (format (fun _ _ => 7) ⟨64, 800⟩) (fun start =>
      endsIn (run treeStep start (deepCalls.take 2)) fun s => decide (resolveDir s 0 [[97]] = some 1 ∧
        dirEntries s 1 = [⟨dot, 1, .dir⟩, ⟨ddot, 0, .dir⟩, ⟨[102], 2, .reg⟩])) = true := by
    decide +kernel
  obtain ⟨start, formatted, rest⟩ := exists_of_endsIn evaluated
  obtain ⟨s, ran, facts⟩ := exists_of_endsIn rest
  rw [decide_eq_true_eq] at facts
  obtain ⟨created, tree, sound, _⟩ := run_invariant (fun s call after inv _ ran => treeStep_inv s call after inv ran)
    (format_treeInv formatted) (meets_true treeStep start _) ran
  refine ⟨start, s, formatted, ran, ?_⟩
  refine (unlink_removes_only_iff s ⟨_, created, tree, sound⟩ [[97]] [102] ?_ (by decide) (by decide) 1 facts.1
    ⟨[102], 2, .reg⟩ ?_ rfl (.inl rfl)).mpr (.inl rfl)
  · intro name inside
    rw [List.mem_singleton.mp inside]
    decide
  · rw [facts.2]
    simp

end RecoverOs.Fs
