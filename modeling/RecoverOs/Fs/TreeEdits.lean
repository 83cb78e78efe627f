import RecoverOs.Fs.RootDir

namespace RecoverOs.Fs

open Bytes Transition

variable {base : Nat} {created : Nat → Prop} {tree : Tree} {s middle after : State} {p : Ptr} {d target : Nat}
  {entries : List Entry} {entry : Entry} {parents : List (List UInt8)} {last : List UInt8} {de : Dirent}

theorem Deleted.stored {i : Nat} (gone : Deleted base created s after i) (locks : Locks after [])
    (stored : Stored base created tree s) : Stored base created (Function.update tree i none) after where
  inv := gone.inv
  member := by
    intro e siblings listed
    by_cases here : e = i
    · rw [here, Function.update_self] at listed
      cases listed
    · rw [Function.update_of_ne here] at listed
      exact stored.member e siblings listed
  lists := by
    intro e siblings listed
    by_cases here : e = i
    · rw [here, Function.update_self] at listed
      cases listed
    · rw [Function.update_of_ne here] at listed
      exact (stored.lists e siblings listed).agree gone.others ⟨stored.member e siblings listed, here⟩
  locks := locks

theorem Deleted.used {i : Nat} (gone : Deleted base created s after i) : Used after = fun j => Used s j ∧ j ≠ i := by
  funext j
  apply propext
  constructor
  · rintro ⟨bound, marked⟩
    by_cases here : j = i
    · rw [gone.marks j bound, if_pos here] at marked
      exact absurd rfl marked
    · rw [gone.marks j bound, if_neg here] at marked
      exact ⟨⟨bound, marked⟩, here⟩
  · rintro ⟨⟨bound, marked⟩, other⟩
    exact ⟨bound, by rw [gone.marks j bound, if_neg other]; exact marked⟩

structure Removed (base : Nat) (created : Nat → Prop) (tree : Tree) (s after : State) (target : Nat) (entry : Entry)
    (rest : List Entry) : Prop where
  intact : Intact base created (tree.remove target rest entry.iNo) after
  idle : Idle created s → Idle created after
  marks : ∀ j < inodeCntMax, inodeMark after j = if j = entry.iNo then 0 else inodeMark s j
  empty : fileSize after entry.iNo = 0
  others : Agree (fun j => created j ∧ j ≠ entry.iNo ∧ j ≠ target) s after

theorem Removed.undone {rest : List Entry} (removed : Removed base created tree middle after target entry rest)
    (undone : Undone base created s middle) : Removed base created tree s after target entry rest where
  intact := removed.intact
  idle := fun idle => removed.idle (idle.undone undone)
  marks := fun j bound => by rw [removed.marks j bound, undone.marks]
  empty := removed.empty
  others := (undone.files.mono fun _ kept => kept.1).trans removed.others

/-- The end of `sys_unlink` and `sys_rmdir`: the inode goes first and then its name. -/
theorem removeNode_spec (intact : Intact base created tree s) (found : tree target = some entries) (member : entry ∈ entries)
    (is : de.Is entry) (plain : entry.Plain) (isNode : entry.fType ≠ .chr) (empty : tree.Empty entry.iNo) :
    ∃ rest after, removeNode s target de = .ok (0, after) ∧ entries.Perm (entry :: rest) ∧
      Removed base created tree s after target entry rest := by
  have names : Names tree target entry := ⟨⟨entries, found, member⟩, plain, isNode⟩
  have apart : entry.iNo ≠ target := by
    intro same
    exact empty entries (same ▸ found) entry member plain
  have inside := intact.allocated _ (intact.consistent.used_entry names)
  obtain ⟨deleted, delete, gone, locks⟩ := diskInodeDelete_spec intact.inv inside intact.locks fun q held => by cases held
  have stored := gone.stored locks intact.toStored
  have still : Function.update tree entry.iNo none target = some entries := by
    rw [Function.update_of_ne apart.symm, found]
  obtain ⟨p, opened, locked, opens, down, isOpen, lists, enter, lockedLocks⟩ := enterDir_spec stored still
  obtain ⟨k, other, changed, at', named, call, updated, shorter, _⟩ := direntDelete_spec lists.rows enter.inv.toOwnInv isOpen
    is.name (lists.name entry member).nonzero ⟨entry, member, rfl⟩
  obtain rfl : other = entry := intact.consistent.same_entry found (List.mem_of_getElem? at') member named
  obtain ⟨raised, after, up, close, leave, leaveLocks⟩ := leaveDir_spec (updated.inv enter.inv)
    (isOpen.same updated.steady.toSameCache) (lockedLocks.steady updated.steady)
  have edited := rewritten enter updated (lists.removed at' shorter) leave leaveLocks (intact.member target entries found)
  have marks : ∀ j < inodeCntMax, inodeMark after j = if j = other.iNo then 0 else inodeMark s j := by
    intro j bound
    rw [edited.marks j bound, gone.marks j bound]
  have used : Used after = fun j => Used s j ∧ j ≠ other.iNo := by
    rw [used_congr edited.marks, gone.used]
  have split := Catalog.cons_removeAt at'
  have emptied : fileSize after other.iNo = 0 := by
    rw [edited.others.size other.iNo ⟨inside, apart⟩, gone.empty]
  have others : Agree (fun j => created j ∧ j ≠ other.iNo ∧ j ≠ target) s after :=
    (gone.others.mono fun _ kept => ⟨kept.1, kept.2.1⟩).trans (edited.others.mono fun _ kept => ⟨kept.1, kept.2.2⟩)
  refine ⟨Catalog.removeAt entries k, after, ?_, split, ⟨⟨edited.stored stored still, ?_, ?_, ?_⟩, ?_, marks, emptied, others⟩⟩
  · simp only [removeNode, is.iNo, delete, Int.toNat_natCast, opens, deref, down, call, up, close, Bind.bind, Except.bind]
    rfl
  · rw [used]
    exact intact.consistent.remove found split plain isNode empty
  · intro j bound
    rw [marks j bound]
    split
    · exact .inl rfl
    · exact intact.bits j bound
  · rw [used]
    exact fun j kept => intact.allocated j kept.1
  · intro idle j inside clear
    have bound := intact.inv.bounded j inside
    by_cases here : j = other.iNo
    · rw [here, emptied]
    have notDir : j ≠ target := by
      rintro rfl
      rw [marks j bound, if_neg here] at clear
      exact (intact.consistent.dirs j entries found).2 clear
    rw [marks j bound, if_neg here] at clear
    rw [others.size j ⟨inside, here, notDir⟩]
    exact idle j inside clear

/-- What `sys_unlink` and `sys_rmdir` make of a consistent tree. -/
inductive RemoveOutcome (base : Nat) (created : Nat → Prop) (tree : Tree) (s : State) (target : Nat)
    (entries : List Entry) (last : List UInt8) (result : Int) (after : State) : Prop
  | failed (negative : result < 0) (undone : Undone base created s after) (locks : Locks after [])
  | removed (success : result = 0) (entry : Entry) (rest : List Entry) (named : entry.name = last)
      (split : entries.Perm (entry :: rest)) (removed : Removed base created tree s after target entry rest)

def Tree.NoDevice (tree : Tree) : Prop := ∀ d entries, tree d = some entries → ∀ entry ∈ entries, entry.fType ≠ .chr

section

variable {pathname : List UInt8} (parsed : pathPrase s pathname = .ok ((target : Int), de, middle))
include parsed

theorem sysUnlink_absent (absent : de.iNo = ulongMax) : sysUnlink s pathname = .ok (-fileIsntExist, middle) := by
  simp only [sysUnlink, parsed, Bind.bind, Except.bind, absent, if_true]
  rw [if_neg (natCast_ne_isntExist _)]
  rfl

theorem sysUnlink_dir (present : de.iNo ≠ ulongMax) (isDir : de.fType = .dir) :
    sysUnlink s pathname = .ok (-isntDir, middle) := by
  simp only [sysUnlink, parsed, Bind.bind, Except.bind, if_neg present, if_pos isDir]
  rw [if_neg (natCast_ne_isntExist _)]
  rfl

theorem sysUnlink_node (present : de.iNo ≠ ulongMax) (notDir : de.fType ≠ .dir) :
    sysUnlink s pathname = removeNode middle target de := by
  simp only [sysUnlink, parsed, Bind.bind, Except.bind, if_neg present, if_neg notDir]
  rw [if_neg (natCast_ne_isntExist _)]

theorem sysRmdir_absent (absent : de.iNo = ulongMax) : sysRmdir s pathname = .ok (-fileIsntExist, middle) := by
  simp only [sysRmdir, parsed, Bind.bind, Except.bind, absent, if_true]
  rw [if_neg (natCast_ne_isntExist _)]
  rfl

theorem sysRmdir_notDir (present : de.iNo ≠ ulongMax) (notDir : de.fType ≠ .dir) :
    sysRmdir s pathname = .ok (-isntDir, middle) := by
  simp only [sysRmdir, parsed, Bind.bind, Except.bind, if_neg present, ne_eq, notDir, not_false_eq_true, if_true]
  rw [if_neg (natCast_ne_isntExist _)]
  rfl

theorem sysRmdir_dir {sub : List Entry} (stored : Stored base created tree middle) (is : de.Is entry)
    (isDir : entry.fType = .dir) (below : tree entry.iNo = some sub) :
    ∃ shut, Undone base created middle shut ∧ Locks shut [] ∧ sysRmdir s pathname =
      if sub.length = 2 then removeNode shut target de else .ok (-dirIsntEmpty, shut) := by
  obtain ⟨p, opened, locked, opens, down, isOpen, lists, enter, lockedLocks⟩ := enterDir_spec stored below
  obtain ⟨raised, shut, up, close, leave, leaveLocks⟩ := leaveDir_spec enter.inv isOpen lockedLocks
  have size : (locked.inode p).diskInode.fileSize = sub.length * direntSize := by
    rw [← current_open isOpen enter.inv.cache]
    exact lists.size
  have present := node_ne_ulongMax (stored.inv.bounded entry.iNo (stored.member entry.iNo sub below))
  have calls : sysRmdir s pathname =
      if !(sub.length * direntSize == 2 * direntSize) then .ok (-dirIsntEmpty, shut) else removeNode shut target de := by
    simp only [sysRmdir, parsed, Bind.bind, Except.bind, is.iNo, if_neg present, is.fType, ne_eq, isDir, not_true_eq_false,
      if_false, opens, deref, down, up, close, size]
    rw [if_neg (natCast_ne_isntExist _)]
    rfl
  refine ⟨shut, enter.trans leave, leaveLocks, ?_⟩
  rw [calls]
  by_cases two : sub.length = 2
  · rw [if_pos two, two]
    rfl
  · have other : (sub.length * direntSize == 2 * direntSize) = false := by
      simp only [direntSize, beq_eq_false_iff_ne]
      omega
    rw [if_neg two, other]
    rfl

end

theorem Consistent.empty_of_two {used : Nat → Prop} (consistent : Consistent tree used) (found : tree d = some entries)
    (two : entries.length = 2) : tree.Empty d := by
  intro siblings listed other inside plain
  rw [found] at listed
  cases listed
  obtain ⟨up, above, _⟩ := consistent.parent d entries found
  have three : [other, ⟨dot, d, .dir⟩, ⟨ddot, up, .dir⟩].Nodup := by
    simp only [List.nodup_cons, List.mem_cons, List.not_mem_nil, or_false, not_or, not_false_eq_true, List.nodup_nil,
      and_true]
    refine ⟨⟨?_, ?_⟩, ?_⟩
    · rintro rfl
      exact plain.1 rfl
    · rintro rfl
      exact plain.2 rfl
    · intro same
      exact dot_ne_ddot (congrArg Entry.name same)
  have all : [other, ⟨dot, d, .dir⟩, ⟨ddot, up, .dir⟩] ⊆ entries := by
    simp only [List.cons_subset, List.nil_subset, and_true]
    exact ⟨inside, consistent.self d entries found, above⟩
  have long := (List.subperm_of_subset three all).length_le
  simp only [List.length_cons, List.length_nil] at long
  omega

theorem Consistent.empty_file {used : Nat → Prop} (consistent : Consistent tree used) (names : Names tree d entry)
    (notDir : entry.fType ≠ .dir) : tree entry.iNo = none ∧ tree.Empty entry.iNo := by
  have noDir : tree entry.iNo = none := by
    rcases (consistent.typed d entry names).2 with ⟨isDir, _⟩ | ⟨_, none⟩
    · exact absurd isDir notDir
    · exact none
  refine ⟨noDir, ?_⟩
  intro siblings listed
  rw [noDir] at listed
  cases listed

section

variable (intact : Intact base created tree s) (leads : Leads tree 0 parents target)
  (slashless : ∀ name ∈ parents, slash ∉ name) (good : Component last) (plain : last ≠ dot ∧ last ≠ ddot)
  (found : tree target = some entries)
include intact leads slashless good plain found

theorem pathPrase_plain : ∃ de resolved, pathPrase s (pathOf (parents ++ [last])) = .ok ((target : Int), de, resolved) ∧
    Undone base created s resolved ∧ Locks resolved [] ∧
    (de.iNo = ulongMax ∨ de.iNo ≠ ulongMax ∧ ∃ entry ∈ entries, entry.name = last ∧ de.Is entry ∧ entry.Plain) := by
  obtain ⟨de, resolved, parsed, lastIs, undone, locks⟩ := pathPrase_spec intact leads slashless good found
  refine ⟨de, resolved, parsed, undone, locks, ?_⟩
  by_cases there : de.iNo = ulongMax
  · exact .inl there
  cases lastIs with
  | found entry member named is =>
    refine .inr ⟨there, entry, member, named, is, ?_⟩
    rw [Entry.Plain, named]
    exact plain
  | missing absent iNo filename => exact absurd iNo there

theorem sysUnlink_spec (noDevice : ∀ entry ∈ entries, entry.name = last → entry.fType ≠ .chr) :
    ∃ result after, sysUnlink s (pathOf (parents ++ [last])) = .ok (result, after) ∧
      RemoveOutcome base created tree s target entries last result after := by
  obtain ⟨de, resolved, parsed, undone, locks, absent | ⟨present, entry, member, named, is, plainEntry⟩⟩ :=
    pathPrase_plain intact leads slashless good plain found
  · exact ⟨-fileIsntExist, resolved, sysUnlink_absent parsed absent, .failed (by decide) undone locks⟩
  by_cases isDir : entry.fType = .dir
  · exact ⟨-isntDir, resolved, sysUnlink_dir parsed present (is.fType.trans isDir), .failed (by decide) undone locks⟩
  have isNode := noDevice entry member named
  have empty := (intact.consistent.empty_file ⟨⟨entries, found, member⟩, plainEntry, isNode⟩ isDir).2
  obtain ⟨rest, after, ran, split, removed⟩ :=
    removeNode_spec (intact.undone undone locks) found member is plainEntry isNode empty
  exact ⟨0, after, (sysUnlink_node parsed present (is.fType ▸ isDir)).trans ran,
    .removed rfl entry rest named split (removed.undone undone)⟩

/-- `sys_rmdir` removes a directory only when it has two entries, which are '.' and '..'. -/
theorem sysRmdir_spec : ∃ result after, sysRmdir s (pathOf (parents ++ [last])) = .ok (result, after) ∧
    RemoveOutcome base created tree s target entries last result after := by
  obtain ⟨de, resolved, parsed, undone, locks, absent | ⟨present, entry, member, named, is, plainEntry⟩⟩ :=
    pathPrase_plain intact leads slashless good plain found
  · exact ⟨-fileIsntExist, resolved, sysRmdir_absent parsed absent, .failed (by decide) undone locks⟩
  by_cases isDir : entry.fType = .dir
  swap
  · exact ⟨-isntDir, resolved, sysRmdir_notDir parsed present (is.fType ▸ isDir), .failed (by decide) undone locks⟩
  have resolvedIntact := intact.undone undone locks
  obtain ⟨sub, below⟩ := Option.isSome_iff_exists.mp (intact.consistent.dir_entry found member isDir)
  obtain ⟨shut, undone', locks', calls⟩ := sysRmdir_dir parsed resolvedIntact.toStored is isDir below
  have all := undone.trans undone'
  rw [calls]
  by_cases two : sub.length = 2
  · obtain ⟨rest, after, ran, split, removed⟩ := removeNode_spec (resolvedIntact.undone undone' locks') found member is
      plainEntry (by rw [isDir]; exact FileType.noConfusion) (intact.consistent.empty_of_two below two)
    exact ⟨0, after, (if_pos two).trans ran, .removed rfl entry rest named split (removed.undone all)⟩
  · exact ⟨-dirIsntEmpty, shut, if_neg two, .failed (by decide) all locks'⟩

end

theorem direntAdd_either (lists : Lists s d entries) (inv : OwnInv base created s) (isOpen : IsOpen s p d)
    (is : de.Is entry) (good : FileName entry.name) (number : entry.iNo < 2 ^ 64) (isDir : entry.fType = .dir)
    (absent : ∀ other ∈ entries, other.name ≠ entry.name) (room : (entries.length + 1) * direntSize ≤ ndirect * blockSize) :
    ∃ result after, direntAdd s p de = .ok (result, after) ∧ Updated base created s after d ∧
      Lists after d (if Accepts s d then entries ++ [entry] else entries) ∧
      (¬ Accepts s d → after.ranOut = true ∧ freeBlocks after = freeBlocks s) := by
  have known : ∀ code, entry.fType ≠ .other code := by
    intro code same
    rw [isDir] at same
    cases same
  obtain ⟨result, after, call, updated, failed, _⟩ := direntAdd_spec lists inv isOpen is good number known absent room
  refine ⟨result, after, call, updated, ?_⟩
  rcases direntAdd_outcome lists inv isOpen is good number known absent with
    ⟨accepts, after', call', _, longer⟩ | ⟨refuses, result', after', call', negative, same⟩
  · rw [call] at call'
    cases call'
    rw [if_pos accepts]
    exact ⟨longer, fun refuses => absurd accepts refuses⟩
  · rw [call] at call'
    cases call'
    obtain ⟨out, kept⟩ := failed negative
    rw [if_neg refuses]
    refine ⟨kept, fun _ => ⟨out, ?_⟩⟩
    rcases same with rfl | rfl
    · rfl
    · rfl

theorem Undone.spare (undone : Undone base created s after) (member : created d) : spare after d = spare s d := by
  rw [Fs.spare, Fs.spare, undone.files.size d member, freeBlocks_congr (by rw [undone.sb]) fun i _ => undone.blocks i]

structure Edited (base : Nat) (created : Nat → Prop) (s after : State) (d : Nat) (entries : List Entry) : Prop where
  inv : FileInv base created after
  rows : Rows after d entries
  others : Agree (fun j => created j ∧ j ≠ d) s after
  marks : ∀ j < inodeCntMax, inodeMark after j = inodeMark s j
  spare : spare after d = spare s d
  ranOut : s.ranOut = true → after.ranOut = true
  locks : Locks after []

theorem edited {locked changed : State} (enter : Undone base created s locked)
    (updated : Updated base created locked changed d) (rows : Rows changed d entries)
    (same : spare changed d = spare locked d) (leave : Undone base created changed after) (locks : Locks after [])
    (member : created d) : Edited base created s after d entries where
  inv := leave.inv
  rows := rows.agree leave.files member
  others := ((enter.files.mono fun _ kept => kept.1).trans updated.others).trans (leave.files.mono fun _ kept => kept.1)
  marks := fun j bound => by rw [leave.marks, updated.marks j bound, enter.marks]
  spare := by rw [leave.spare member, same, enter.spare member]
  ranOut := fun out => leave.ranOut (updated.steady.ranOut (enter.ranOut out))
  locks := locks

theorem Edited.undone (edited : Edited base created middle after d entries) (undone : Undone base created s middle)
    (member : created d) : Edited base created s after d entries where
  inv := edited.inv
  rows := edited.rows
  others := (undone.files.mono fun _ kept => kept.1).trans edited.others
  marks := fun j bound => by rw [edited.marks j bound, undone.marks]
  spare := by rw [edited.spare, undone.spare member]
  ranOut := fun out => edited.ranOut (undone.ranOut out)
  locks := edited.locks

theorem Edited.rewritten (edited : Edited base created s after d entries) (names : ∀ other ∈ entries, FileName other.name) :
    Rewritten base created s after d entries where
  inv := edited.inv
  lists := edited.rows.lists names
  others := edited.others
  marks := edited.marks
  ranOut := edited.ranOut
  locks := edited.locks

theorem Shelved.rewrite (shelved : Shelved base created tree s) (edited : Edited base created s after d entries)
    (member : created d) : Shelved base created (Function.update tree d (some entries)) after where
  inv := edited.inv
  member := by
    intro e siblings listed
    by_cases here : e = d
    · rw [here]
      exact member
    · rw [Function.update_of_ne here] at listed
      exact shelved.member e siblings listed
  rows := by
    intro e siblings listed
    by_cases here : e = d
    · rw [here, Function.update_self] at listed
      cases listed
      rw [here]
      exact edited.rows
    · rw [Function.update_of_ne here] at listed
      exact (shelved.rows e siblings listed).agree edited.others ⟨shelved.member e siblings listed, here⟩
  locks := edited.locks

theorem retype_spec {i : Nat} {type : FileType} (shelved : Shelved base created tree s)
    (found : tree target = some (entries ++ [⟨last, i, type⟩])) (names : ∀ other ∈ entries, FileName other.name)
    (absent : ∀ other ∈ entries, other.name ≠ last) (is : de.Is ⟨last, i, type⟩) (number : i < 2 ^ 64) :
    ∃ p opened locked cut result added raised after, inodeOpen s target = .ok (some p, opened) ∧
      semaDown opened p = .ok locked ∧ direntDelete locked p de.filename = .ok (0, cut) ∧
      direntAdd cut p (de.setType .dir) = .ok (result, added) ∧ semaUp added p = .ok raised ∧
      inodeClose raised p = .ok after ∧
      Edited base created s after target (entries ++ [⟨last.take maxFileNameLen, i, .dir⟩]) := by
  have member := shelved.member target _ found
  obtain ⟨p, opened, locked, opens, down, isOpen, enter, locks⟩ := enter_spec shelved.inv member shelved.locks
  have rows := (shelved.rows target _ found).agree enter.files member
  have inside : (⟨last, i, type⟩ : Entry) ∈ entries ++ [⟨last, i, type⟩] := by simp
  have good : EntryName last := rows.name _ inside
  obtain ⟨k, other, cut, at', named, delete, updated, shorter, same⟩ := direntDelete_spec rows enter.inv.toOwnInv isOpen
    is.name good.nonzero ⟨_, inside, rfl⟩
  have atEnd : ¬ k < entries.length := by
    intro inside
    rw [List.getElem?_append_left inside] at at'
    exact absent other (List.mem_of_getElem? at') named
  rw [Catalog.removeAt_concat, if_neg atEnd] at shorter
  have cutIs := setType_is is number
  have cutAbsent : ∀ other ∈ entries, other.name ≠ last.take maxFileNameLen := by
    intro other inside same
    by_cases fits : last.length < maxFileNameLen
    · rw [List.take_of_length_le (Nat.le_of_lt fits)] at same
      exact absent other inside same
    · have short := (names other inside).short
      rw [same, List.length_take] at short
      omega
  have accepts : Accepts cut target := by
    have small : fileSize locked target ≤ ndirect * blockSize := enter.inv.size target member
    have size : fileSize locked target = fileSize cut target + direntSize := by
      rw [rows.size, shorter.size, List.length_append, List.length_singleton, Nat.succ_mul]
    rw [accepts_iff, same, spare, ← size]
    exact ⟨small, Nat.le_add_left _ _⟩
  have cutOpen := isOpen.same updated.steady.toSameCache
  have search := shorter.absent updated.own cutOpen cutIs.name good.cut.nonzero cutAbsent
  obtain ⟨added, call, updated', longer, same'⟩ := direntAdd_rows updated.own cutOpen search shorter accepts
    (load_is cutIs good.cut.short fun _ _ => store_load) good.cut
  have both := updated.trans updated'
  obtain ⟨raised, after, up, close, leave, leaveLocks⟩ := leaveDir_spec (both.inv enter.inv)
    (isOpen.same both.steady.toSameCache) (locks.steady both.steady)
  exact ⟨p, opened, locked, cut, _, added, raised, after, opens, down, delete, call, up, close,
    edited enter both longer (same'.trans same) leave leaveLocks member⟩

theorem addDots_spec {i : Nat} (inv : FileInv base created s) (member : created i) (locks : Locks s [])
    (empty : fileSize s i = 0) (number : i < 2 ^ 64) (above : d < 2 ^ 64) :
    ∃ p opened locked result first result' second raised after, inodeOpen s i = .ok (some p, opened) ∧
      semaDown opened p = .ok locked ∧
      direntAdd locked p { iNo := i, filename := dotName 1, fType := .dir } = .ok (result, first) ∧
      direntAdd first p { iNo := d, filename := dotName 2, fType := .dir } = .ok (result', second) ∧
      semaUp second p = .ok raised ∧ inodeClose raised p = .ok after ∧
      Rewritten base created s after i (if 0 < freeBlocks s then newDir d i else []) ∧
      (freeBlocks s = 0 → after.ranOut = true) := by
  obtain ⟨p, opened, locked, opens, down, isOpen, enter, lockedLocks⟩ := enter_spec inv member locks
  have vacant : fileSize locked i = 0 := (enter.files.size i member).trans empty
  have free : freeBlocks locked = freeBlocks s := freeBlocks_congr (by rw [enter.sb]) fun j _ => enter.blocks j
  have isDot : Dirent.Is { iNo := i, filename := dotName 1, fType := .dir } ⟨dot, i, .dir⟩ := ⟨rfl, spells_cstr dot, rfl⟩
  have isDdot : Dirent.Is { iNo := d, filename := dotName 2, fType := .dir } ⟨ddot, d, .dir⟩ :=
    ⟨rfl, spells_cstr ddot, rfl⟩
  obtain ⟨result, first, call, updated, lists₁, refused⟩ := direntAdd_either (lists_nil vacant) enter.inv.toOwnInv isOpen
    isDot dot_name number rfl (fun other inside => absurd inside List.not_mem_nil) (by decide)
  have accepts : Accepts locked i ↔ 0 < freeBlocks s := by
    rw [Accepts, vacant, free]
    exact ⟨fun both => both.2, fun one => ⟨by decide, one⟩⟩
  have firstOpen := isOpen.same updated.steady.toSameCache
  obtain ⟨result', second, call', updated', lists₂, out⟩ : ∃ result' second,
      direntAdd first p { iNo := d, filename := dotName 2, fType := .dir } = .ok (result', second) ∧
      Updated base created first second i ∧ Lists second i (if 0 < freeBlocks s then newDir d i else []) ∧
      (freeBlocks s = 0 → second.ranOut = true) := by
    by_cases one : 0 < freeBlocks s
    · rw [if_pos (accepts.mpr one)] at lists₁
      obtain ⟨result', second, call', updated', lists₂, _⟩ := direntAdd_either lists₁ updated.own firstOpen isDdot ddot_name
        above rfl (by simpa using dot_ne_ddot) (Nat.le_of_lt (by decide : 64 < ndirect * blockSize))
      have accepts' : Accepts first i := by
        have size : fileSize first i = direntSize := lists₁.size
        rw [Accepts, size]
        exact ⟨by decide, Nat.zero_le _⟩
      rw [if_pos accepts'] at lists₂
      refine ⟨result', second, call', updated', ?_, fun none => by omega⟩
      rw [if_pos one]
      exact lists₂
    · obtain ⟨flag, still⟩ := refused (fun yes => one (accepts.mp yes))
      rw [if_neg fun yes => one (accepts.mp yes)] at lists₁
      obtain ⟨result', second, call', updated', lists₂, _⟩ := direntAdd_either lists₁ updated.own firstOpen isDdot ddot_name
        above rfl (fun other inside => absurd inside List.not_mem_nil) (by decide)
      have refuses : ¬ Accepts first i := by
        intro yes
        have enough := yes.2
        rw [lists₁.size, still, free] at enough
        exact one enough
      rw [if_neg refuses] at lists₂
      refine ⟨result', second, call', updated', ?_, fun _ => updated'.steady.ranOut flag⟩
      rw [if_neg one]
      exact lists₂
  have both := updated.trans updated'
  obtain ⟨raised, after, up, close, leave, leaveLocks⟩ := leaveDir_spec (both.inv enter.inv)
    (isOpen.same both.steady.toSameCache) (lockedLocks.steady both.steady)
  exact ⟨p, opened, locked, result, first, result', second, raised, after, opens, down, call, call', up, close,
    rewritten enter both lists₂ leave leaveLocks member, fun none => leave.ranOut (out none)⟩

/-- What `sys_mkdir` makes of a consistent tree. -/
inductive MkdirOutcome (base : Nat) (created : Nat → Prop) (tree : Tree) (s : State) (target : Nat)
    (entries : List Entry) (last : List UInt8) (result : Int) (after : State) : Prop
  | failed (negative : result < 0) (created' : Nat → Prop) (sound : Sound base created' tree after)
      (marks : ∀ j < inodeCntMax, inodeMark after j = inodeMark s j)
  | made (success : result = 0) (i : Nat) (unused : ¬ Used s i) (absent : ∀ entry ∈ entries, entry.name ≠ last)
      (sound : after.ranOut = false → Sound base (fun j => created j ∨ j = i)
        (tree.add target entries ⟨last, i, .dir⟩ (some (newDir target i))) after)

theorem Stored.empty {i : Nat} (stored : Stored base created tree s) (member : created i) (empty : fileSize s i = 0) :
    Stored base created (Function.update tree i (some [])) s where
  inv := stored.inv
  member := by
    intro e siblings listed
    by_cases here : e = i
    · rw [here]
      exact member
    · rw [Function.update_of_ne here] at listed
      exact stored.member e siblings listed
  lists := by
    intro e siblings listed
    by_cases here : e = i
    · rw [here, Function.update_self] at listed
      cases listed
      rw [here]
      exact lists_nil empty
    · rw [Function.update_of_ne here] at listed
      exact stored.lists e siblings listed
  locks := stored.locks

theorem Leads.add {sub : Option (List Entry)} (leads : Leads tree d parents target) {e : Nat} (found : tree e = some entries)
    (new : tree entry.iNo = none) : Leads (tree.add e entries entry sub) d parents target := by
  refine leads.mono ?_
  intro e' siblings listed
  by_cases here : e' = e
  · rw [here, found] at listed
    cases listed
    exact ⟨_, by rw [here]; exact Tree.add_here, fun other inside => List.mem_append_left _ inside⟩
  · have old : e' ≠ entry.iNo := by
      rintro rfl
      rw [new] at listed
      cases listed
    exact ⟨siblings, by rw [Tree.add_other here old]; exact listed, fun other inside => inside⟩

theorem mkdirNode_spec {i : Nat} {type : FileType} {made : State}
    (mknod : sysMknod s (pathOf (parents ++ [last])) .reg 0 = .ok ((i : Int), made)) (shelved : Shelved base created tree made)
    (root : (tree 0).isSome) (distinct : ∀ d entries, tree d = some entries → (entries.map Entry.name).Nodup)
    (closed : ∀ d entries, tree d = some entries → ∀ entry ∈ entries, entry.fType = .dir → (tree entry.iNo).isSome)
    (leads : Leads tree 0 parents target) (slashless : ∀ name ∈ parents, slash ∉ name) (lastSlashless : slash ∉ last)
    (nonempty : last ≠ []) (found : tree target = some (entries ++ [⟨last, i, type⟩]))
    (names : ∀ other ∈ entries, FileName other.name) (absent : ∀ other ∈ entries, other.name ≠ last)
    (member : created i) (apart : i ≠ target) (empty : fileSize made i = 0) :
    ∃ shut after, sysMkdir s (pathOf (parents ++ [last])) = .ok (0, after) ∧
      Edited base created made shut target (entries ++ [⟨last.take maxFileNameLen, i, .dir⟩]) ∧
      Rewritten base created shut after i (if 0 < freeBlocks shut then newDir target i else []) ∧
      (freeBlocks shut = 0 → after.ranOut = true) := by
  have above := shelved.member target _ found
  have bound : i < 128 := shelved.inv.bounded i member
  have small : target < 128 := shelved.inv.bounded target above
  have inside : (⟨last, i, type⟩ : Entry) ∈ entries ++ [⟨last, i, type⟩] := by simp
  have good : EntryName last := (shelved.rows target _ found).name _ inside
  obtain ⟨q, middle, walked, middleOpen, undone, locks⟩ :=
    pathPrase_walks distinct closed shelved root leads slashless lastSlashless
  obtain ⟨de, resolved, ran, lastIs, undone', locks'⟩ :=
    lastEntry_spec (shelved.undone undone locks) found middleOpen nonempty good.nonzero good.short
  have both := undone.trans undone'
  have is : de.Is ⟨last, i, type⟩ := by
    cases lastIs with
    | found entry listed named is =>
      have same : entry = ⟨last, i, type⟩ := List.inj_on_of_nodup_map (distinct target _ found) listed inside named
      rw [← same]
      exact is
    | missing absent => exact absurd rfl (absent _ inside)
  obtain ⟨p, opened, locked, cut, result, added, raised, shut, opens, down, delete, add, up, close, edited⟩ :=
    retype_spec (shelved.undone both locks') found names absent is (by omega)
  have vacant : fileSize shut i = 0 := by
    rw [edited.others.size i ⟨member, apart⟩, both.files.size i member, empty]
  obtain ⟨p', opened', locked', result', first, result'', second, raised', after, opens', down', add', add'', up', close',
    rewritten, short⟩ := @addDots_spec base created shut target i edited.inv member edited.locks vacant (by omega) (by omega)
  refine ⟨shut, after, ?_, edited.undone both above, rewritten, short⟩
  have fine : ¬ (i : Int) < 0 := by omega
  have positive : decide (0 ≤ (target : Int)) = true := decide_eq_true (by omega)
  simp only [sysMkdir, mknod, if_neg fine, walked, ran, (assert_ok _ ()).mpr positive, Int.toNat_natCast, opens, deref, down,
    delete, add, up, close, opens', down', add', add'', up', close', Bind.bind, Except.bind]
  rfl

theorem mkdirFile_spec {i : Nat} {made : State} (sound : Sound base created tree s)
    (leads : Leads tree 0 parents target) (slashless : ∀ name ∈ parents, slash ∉ name) (good : Component last)
    (found : tree target = some entries)
    (mknod : sysMknod s (pathOf (parents ++ [last])) .reg 0 = .ok ((i : Int), made)) (unused : ¬ Used s i)
    (absent : ∀ entry ∈ entries, entry.name ≠ last)
    (whole : Sound base (fun j => created j ∨ j = i) (tree.add target entries ⟨last, i, .reg⟩ none) made)
    (empty : fileSize made i = 0) (marks : ∀ j < inodeCntMax, inodeMark made j = if j = i then 1 else inodeMark s j) :
    ∃ after, sysMkdir s (pathOf (parents ++ [last])) = .ok (0, after) ∧
      (after.ranOut = false → Sound base (fun j => created j ∨ j = i)
        (tree.add target entries ⟨last, i, .dir⟩ (some (newDir target i))) after) := by
  have vacant := sound.consistent.unused_dir unused
  have apart : i ≠ target := sound.consistent.unused_ne unused found
  have bound : i < inodeCntMax := whole.inv.bounded i (.inr rfl)
  have found₁ : tree.add target entries ⟨last, i, .reg⟩ none target = some (entries ++ [⟨last, i, .reg⟩]) := Tree.add_here
  have names := (sound.lists target entries found).name
  obtain ⟨shut, after, ran, edited, dots, out⟩ := mkdirNode_spec mknod whole.shelved whole.consistent.root
    whole.consistent.distinct (fun d entries found entry member isDir => whole.consistent.dir_entry found member isDir)
    (leads.add found vacant) slashless good.slashless good.nonempty found₁ names absent (.inr rfl) apart empty
  rw [List.take_of_length_le (Nat.le_of_lt good.short)] at edited
  refine ⟨after, ran, ?_⟩
  intro enough
  have one : 0 < freeBlocks shut := by
    by_contra none
    rw [out (Nat.eq_zero_of_not_pos none)] at enough
    cases enough
  rw [if_pos one] at dots
  have first := edited.rewritten (names_append names good.toFileName)
  have stored₁ := first.stored whole.toStored found₁
  have emptied : fileSize shut i = 0 := by rw [edited.others.size i ⟨.inr rfl, apart⟩, empty]
  have stored := dots.stored (stored₁.empty (.inr rfl) emptied) (Function.update_self ..)
  have same : Function.update (Function.update (Function.update (tree.add target entries ⟨last, i, .reg⟩ none) target
      (some (entries ++ [⟨last, i, .dir⟩]))) i (some [])) i (some (newDir target i)) =
      tree.add target entries ⟨last, i, .dir⟩ (some (newDir target i)) := by
    funext e
    by_cases new : e = i
    · rw [new, Function.update_self, Tree.add_new apart]
    · rw [Function.update_of_ne new, Function.update_of_ne new]
      by_cases here : e = target
      · rw [here, Function.update_self, Tree.add_here]
      · rw [Function.update_of_ne here, Tree.add_other here new, Tree.add_other here new]
  rw [same] at stored
  refine whole.keep stored ?_ ?_ ?_
  · rw [used_insert bound marks]
    exact sound.consistent.add found (sound.plain found absent) (.directory rfl) absent unused
  · intro j inside
    rw [dots.marks j inside, edited.marks j inside]
  · intro j member clear
    have inside := whole.inv.bounded j member
    have old : j ≠ i := by
      rintro rfl
      rw [marks j inside, if_pos rfl] at clear
      cases clear
    have other : j ≠ target := by
      rintro rfl
      rw [marks j inside, if_neg old] at clear
      exact (sound.consistent.dirs j entries found).2 clear
    rw [dots.others.size j ⟨member, old⟩, edited.others.size j ⟨member, other⟩]

theorem sysMkdir_spec (sound : Sound base created tree s) (leads : Leads tree 0 parents target)
    (slashless : ∀ name ∈ parents, slash ∉ name) (good : Component last) (found : tree target = some entries) :
    ∃ result after, sysMkdir s (pathOf (parents ++ [last])) = .ok (result, after) ∧
      MkdirOutcome base created tree s target entries last result after := by
  obtain ⟨result, made, mknod, outcome⟩ :=
    @sysMknod_spec base created tree s target entries parents last .reg 0 sound leads slashless good found (.inr rfl)
  cases outcome with
  | failed negative why created' whole idle marks sb blocks files' =>
    refine ⟨result, made, ?_, .failed negative created' ⟨whole, idle sound.idle⟩ marks⟩
    simp only [sysMkdir, mknod, Bind.bind, Except.bind, if_pos negative]
    rfl
  | device isChr => cases isChr
  | file i isReg number first unused absent whole idle empty marks ranOut =>
    obtain ⟨after, ran, complete⟩ := mkdirFile_spec sound leads slashless good found (number ▸ mknod) unused absent
      ⟨whole, idle sound.idle⟩ empty marks
    exact ⟨0, after, ran, .made rfl i unused absent complete⟩

end RecoverOs.Fs
