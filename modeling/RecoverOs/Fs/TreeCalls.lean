import RecoverOs.Fs.DirTree

namespace RecoverOs.Fs

open Bytes Transition

variable {base : Nat} {created : Nat → Prop} {tree : Tree} {s middle after : State} {p : Ptr} {d target : Nat}
  {entries : List Entry} {parents : List (List UInt8)} {last : List UInt8}

def Used (s : State) (i : Nat) : Prop := i < inodeCntMax ∧ inodeMark s i ≠ 0

/-- The disk holds a consistent directory tree. -/
structure Intact (base : Nat) (created : Nat → Prop) (tree : Tree) (s : State) : Prop extends
    Stored base created tree s where
  consistent : Consistent tree (Used s)
  bits : ∀ i < inodeCntMax, inodeMark s i = 0 ∨ inodeMark s i = 1
  allocated : ∀ i, Used s i → created i

def Idle (created : Nat → Prop) (s : State) : Prop := ∀ i, created i → inodeMark s i = 0 → fileSize s i = 0

/-- The disk holds a consistent directory tree, and an inode that is not in use is an empty file. -/
structure Sound (base : Nat) (created : Nat → Prop) (tree : Tree) (s : State) : Prop extends
    Intact base created tree s where
  idle : Idle created s

theorem used_congr (marks : ∀ i < inodeCntMax, inodeMark after i = inodeMark s i) : Used after = Used s := by
  funext i
  apply propext
  constructor
  · intro used
    exact ⟨used.1, by rw [← marks i used.1]; exact used.2⟩
  · intro used
    exact ⟨used.1, by rw [marks i used.1]; exact used.2⟩

theorem Intact.keep (intact : Intact base created tree s) {tree' : Tree} (stored : Stored base created tree' after)
    (consistent : Consistent tree' (Used s)) (marks : ∀ i < inodeCntMax, inodeMark after i = inodeMark s i) :
    Intact base created tree' after where
  toStored := stored
  consistent := by rw [used_congr marks]; exact consistent
  bits := fun i bound => by rw [marks i bound]; exact intact.bits i bound
  allocated := by rw [used_congr marks]; exact intact.allocated

theorem Idle.keep (idle : Idle created s) (bounded : ∀ i, created i → i < inodeCntMax)
    (marks : ∀ i < inodeCntMax, inodeMark after i = inodeMark s i)
    (sizes : ∀ i, created i → inodeMark s i = 0 → fileSize after i = fileSize s i) : Idle created after := by
  intro i member clear
  rw [marks i (bounded i member)] at clear
  rw [sizes i member clear]
  exact idle i member clear

theorem Sound.keep (sound : Sound base created tree s) {tree' : Tree} (stored : Stored base created tree' after)
    (consistent : Consistent tree' (Used s)) (marks : ∀ i < inodeCntMax, inodeMark after i = inodeMark s i)
    (sizes : ∀ i, created i → inodeMark s i = 0 → fileSize after i = fileSize s i) : Sound base created tree' after where
  toIntact := sound.toIntact.keep stored consistent marks
  idle := sound.idle.keep stored.inv.bounded marks sizes

theorem Intact.undone (intact : Intact base created tree s) (undone : Undone base created s after)
    (locks : Locks after []) : Intact base created tree after :=
  intact.keep (intact.toStored.undone undone locks) intact.consistent fun i _ => undone.marks i

theorem Idle.undone (idle : Idle created s) (undone : Undone base created s after) : Idle created after :=
  idle.keep undone.inv.bounded (fun i _ => undone.marks i) fun i member _ => undone.files.size i member

theorem Sound.undone (sound : Sound base created tree s) (undone : Undone base created s after) (locks : Locks after []) :
    Sound base created tree after :=
  ⟨sound.toIntact.undone undone locks, sound.idle.undone undone⟩

theorem Intact.leads_dir (intact : Intact base created tree s) (leads : Leads tree 0 parents target) :
    ∃ entries, tree target = some entries :=
  Option.isSome_iff_exists.mp (leads.isDir intact.consistent intact.consistent.root)

theorem pathPrase_leads (intact : Intact base created tree s) (leads : Leads tree 0 parents target)
    (slashless : ∀ name ∈ parents, slash ∉ name) (lastSlashless : slash ∉ last) :
    ∃ q middle, pathPrase s (pathOf (parents ++ [last])) = lastEntry middle q last ∧ IsOpen middle q target ∧
      Undone base created s middle ∧ Locks middle [] :=
  pathPrase_walks intact.consistent.distinct (fun _ _ found _ member isDir =>
    intact.consistent.dir_entry found member isDir) intact.shelved intact.consistent.root leads slashless lastSlashless

theorem pathPrase_fits (intact : Intact base created tree s) (leads : Leads tree 0 parents target)
    (slashless : ∀ name ∈ parents, slash ∉ name) (found : tree target = some entries) (nonempty : last ≠ [])
    (nonzero : 0 ∉ last) (lastSlashless : slash ∉ last) (fits : last.length < nameBytes) :
    ∃ de after, pathPrase s (pathOf (parents ++ [last])) = .ok ((target : Int), de, after) ∧ LastEntry entries last de ∧
      Undone base created s after ∧ Locks after [] := by
  obtain ⟨q, middle, walked, middleOpen, undone, locks⟩ := pathPrase_leads intact leads slashless lastSlashless
  obtain ⟨de, after, ran, lastIs, undone', locks'⟩ :=
    lastEntry_spec (intact.toStored.undone undone locks).shelved found middleOpen nonempty nonzero fits
  exact ⟨de, after, walked.trans ran, lastIs, undone.trans undone', locks'⟩

theorem pathPrase_spec (intact : Intact base created tree s) (leads : Leads tree 0 parents target)
    (slashless : ∀ name ∈ parents, slash ∉ name) (good : Component last) (found : tree target = some entries) :
    ∃ de after, pathPrase s (pathOf (parents ++ [last])) = .ok ((target : Int), de, after) ∧ LastEntry entries last de ∧
      Undone base created s after ∧ Locks after [] :=
  pathPrase_fits intact leads slashless found good.nonempty good.nonzero good.slashless good.fits

theorem enter_spec (inv : FileInv base created s) (member : created d) (locks : Locks s []) :
    ∃ p opened locked, inodeOpen s d = .ok (some p, opened) ∧ semaDown opened p = .ok locked ∧ IsOpen locked p d ∧
      Undone base created s locked ∧ Locks locked [p] := by
  obtain ⟨p, opened, opens, open', undone, openLocks, unheld⟩ :=
    inodeOpen_spec inv member locks fun q inside => by cases inside
  obtain ⟨locked, down, undone', same, locks', _⟩ := semaDown_spec undone.inv openLocks open'.isOpen unheld
  exact ⟨p, opened, locked, opens, down, open'.isOpen.same same, undone.trans undone', locks'⟩

theorem enterDir_spec (stored : Stored base created tree s) (found : tree d = some entries) :
    ∃ p opened locked, inodeOpen s d = .ok (some p, opened) ∧ semaDown opened p = .ok locked ∧ IsOpen locked p d ∧
      Lists locked d entries ∧ Undone base created s locked ∧ Locks locked [p] := by
  have member := stored.member d entries found
  obtain ⟨p, opened, locked, opens, down, isOpen, undone, locks⟩ := enter_spec stored.inv member stored.locks
  exact ⟨p, opened, locked, opens, down, isOpen, (stored.lists d entries found).agree undone.files member, undone, locks⟩

theorem leaveDir_spec (inv : FileInv base created s) (isOpen : IsOpen s p d) (locks : Locks s [p]) :
    ∃ raised after, semaUp s p = .ok raised ∧ inodeClose raised p = .ok after ∧ Undone base created s after ∧
      Locks after [] := by
  obtain ⟨raised, up, undone, same, upLocks⟩ := semaUp_spec inv locks List.not_mem_nil
  obtain ⟨after, close, _, undone', closeLocks⟩ :=
    inodeClose_spec undone.inv (isOpen.same same) upLocks List.not_mem_nil
  exact ⟨raised, after, up, close, undone.trans undone', closeLocks⟩

structure Rewritten (base : Nat) (created : Nat → Prop) (s after : State) (d : Nat) (entries : List Entry) : Prop where
  inv : FileInv base created after
  lists : Lists after d entries
  others : Agree (fun jNo => created jNo ∧ jNo ≠ d) s after
  marks : ∀ jNo < inodeCntMax, inodeMark after jNo = inodeMark s jNo
  ranOut : s.ranOut = true → after.ranOut = true
  locks : Locks after []

theorem rewritten {locked changed : State} (enter : Undone base created s locked)
    (updated : Updated base created locked changed d) (lists : Lists changed d entries)
    (leave : Undone base created changed after) (locks : Locks after []) (member : created d) :
    Rewritten base created s after d entries where
  inv := leave.inv
  lists := lists.agree leave.files member
  others := ((enter.files.mono fun _ kept => kept.1).trans updated.others).trans (leave.files.mono fun _ kept => kept.1)
  marks := fun jNo bound => by rw [leave.marks, updated.marks jNo bound, enter.marks]
  ranOut := fun out => leave.ranOut (updated.steady.ranOut (enter.ranOut out))
  locks := locks

theorem Rewritten.stored (rewritten : Rewritten base created s after d entries) (stored : Stored base created tree s)
    {old : List Entry} (found : tree d = some old) :
    Stored base created (Function.update tree d (some entries)) after where
  inv := rewritten.inv
  member := by
    intro e siblings listed
    by_cases here : e = d
    · rw [here]
      exact stored.member d old found
    · rw [Function.update_of_ne here] at listed
      exact stored.member e siblings listed
  lists := by
    intro e siblings listed
    by_cases here : e = d
    · rw [here, Function.update_self] at listed
      cases listed
      rw [here]
      exact rewritten.lists
    · rw [Function.update_of_ne here] at listed
      exact (stored.lists e siblings listed).agree rewritten.others ⟨stored.member e siblings listed, here⟩
  locks := rewritten.locks

theorem strcpy_byte {left off i : Nat} {dst src : Buffer} {name : List UInt8} (spells : Spells src name)
    (nonzero : 0 ∉ name) (fits : name.length < left) :
    strcpy left dst off src i = if off ≤ i ∧ i ≤ off + name.length then cstr name (i - off) else dst i := by
  induction name generalizing left dst off src with
  | nil =>
    cases left with
    | zero => cases fits
    | succ left =>
      simp only [strcpy, spells.nil, if_true, List.length_nil, Nat.add_zero]
      by_cases here : i = off
      · rw [here, Function.update_self, if_pos ⟨Nat.le_refl _, Nat.le_refl _⟩]
        rfl
      · rw [Function.update_of_ne here, if_neg (by omega)]
  | cons c name ih =>
    cases left with
    | zero => cases fits
    | succ left =>
      obtain ⟨char, rest⟩ := spells.tail
      have positive : c ≠ 0 := fun same => nonzero (same ▸ List.mem_cons_self ..)
      simp only [strcpy, char, positive, if_false, List.length_cons]
      rw [ih rest (fun inside => nonzero (List.mem_cons_of_mem _ inside)) (by simpa using fits)]
      by_cases later : off + 1 ≤ i ∧ i ≤ off + 1 + name.length
      · rw [if_pos later, if_pos (by omega)]
        have shift : i - off = (i - (off + 1)) + 1 := by omega
        rw [shift]
        simp [cstr]
      · rw [if_neg later]
        by_cases here : i = off
        · rw [here, Function.update_self, if_pos (by omega), Nat.sub_self]
          rfl
        · rw [Function.update_of_ne here, if_neg (by omega)]

theorem newDirent_is {buf : Buffer} {iNo : Nat} {type : FileType} (spells : Spells buf last) (good : FileName last)
    (number : iNo < 2 ^ 64) (known : ∀ code, type ≠ .other code) : (newDirent iNo buf type).Is ⟨last, iNo, type⟩ := by
  have short : last.length < 16 := good.short
  have is : Dirent.Is { iNo := iNo, filename := cstr last, fType := type } ⟨last, iNo, type⟩ := ⟨rfl, spells_cstr last, rfl⟩
  refine load_is (store_is is good.short number known) good.entryName.short ?_
  intro i bound
  have beyond : ∀ j, last.length ≤ j → cstr last j = 0 := by
    intro j past
    rw [cstr, List.getD_eq_getElem?_getD, List.getElem?_eq_none past, Option.getD_none]
  rw [strcpy_byte spells good.nonzero (by simp only [nameBytes, direntSize]; omega)]
  simp only [Dirent.store, maxFileNameLen]
  by_cases inside : 8 ≤ i ∧ i ≤ 8 + last.length
  · rw [if_pos inside, if_neg (by omega), if_pos (by omega)]
  · rw [if_neg inside]
    by_cases head : i < 8
    · rw [if_pos head, if_pos head]
    · rw [beyond (i - 8) (by omega)]

theorem Accepts.congr (size : fileSize after d = fileSize s d) (bitmap : after.sb = s.sb)
    (blocks : ∀ i < s.sb.blockBitmapSize, blockMark after i = blockMark s i) : Accepts after d ↔ Accepts s d := by
  rw [Accepts, Accepts, size, freeBlocks_congr (by rw [bitmap]) blocks]

theorem toSize_lt (value : Int) : toSize value < 2 ^ 64 := by
  simp only [toSize]
  omega

theorem toSize_natCast {n : Nat} (small : n < 2 ^ 64) : toSize n = n := by
  simp only [toSize]
  omega

theorem addNode_refused {buf : Buffer} {type : FileType} {dev result : Int} {opened locked refused : State}
    (opens : inodeOpen s d = .ok (some p, opened)) (down : semaDown opened p = .ok locked) (isOpen : IsOpen locked p d)
    (enter : Undone base created s locked) (locks : Locks locked [p])
    (call : direntAdd locked p (newDirent (toSize dev) buf type) = .ok (result, refused))
    (failed : result < 0) (unchanged : refused = locked ∨ refused = { locked with ranOut := true })
    (fresh : type = .reg → created (toSize dev) ∧ toSize dev ≠ d) :
    ∃ after, addNode s d buf type dev = .ok (result, after) ∧
      if type = .reg then ∃ before deleted, Undone base created s before ∧
        Deleted base created before deleted (toSize dev) ∧ Undone base created deleted after ∧ Locks after []
      else Undone base created s after ∧ Locks after [] := by
  have silent : Undone base created locked refused := by
    rcases unchanged with rfl | rfl
    · exact .refl enter.inv
    · exact .flag enter.inv
  have steady : Steady locked refused := by
    rcases unchanged with rfl | rfl
    · exact .refl _
    · exact ⟨⟨rfl, rfl, rfl, fun _ => rfl, fun _ => rfl⟩, fun _ => rfl, fun _ => rfl⟩
  have refusedOpen := isOpen.same steady.toSameCache
  have differs : result ≠ (direntSize : Int) := by
    simp only [direntSize]
    omega
  have number : (d : Int).toNat = d := Int.toNat_natCast d
  by_cases isReg : type = .reg
  · obtain ⟨inside, other⟩ := fresh isReg
    obtain ⟨deleted, delete, gone, deletedLocks⟩ := diskInodeDelete_spec silent.inv inside (locks.steady steady)
      (by
        intro q held
        rw [List.mem_singleton.mp held, refusedOpen.iNo]
        exact other.symm)
    obtain ⟨raised, after, up, close, leave, left⟩ :=
      leaveDir_spec gone.inv (gone.isOpen p d refusedOpen other.symm) deletedLocks
    refine ⟨after, ?_, ?_⟩
    · simp only [addNode, number, opens, deref, down, call, Bind.bind, Except.bind, ne_eq, differs, not_false_eq_true,
        if_true, if_pos isReg, delete, up, close]
      rfl
    · rw [if_pos isReg]
      exact ⟨refused, deleted, enter.trans silent, gone, leave, left⟩
  · obtain ⟨raised, after, up, close, leave, left⟩ := leaveDir_spec silent.inv refusedOpen (locks.steady steady)
    refine ⟨after, ?_, ?_⟩
    · simp only [addNode, number, opens, deref, down, call, Bind.bind, Except.bind, ne_eq, differs, not_false_eq_true,
        if_true, isReg, if_false, up, close]
      rfl
    · rw [if_neg isReg]
      exact ⟨(enter.trans silent).trans leave, left⟩

/-- The entry is appended exactly when its name is new and the directory accepts one more. -/
theorem addNode_spec {buf : Buffer} {type : FileType} {dev : Int} (stored : Stored base created tree s)
    (found : tree d = some entries) (spells : Spells buf last) (good : FileName last) (known : ∀ code, type ≠ .other code)
    (fresh : type = .reg → created (toSize dev) ∧ toSize dev ≠ d) :
    ((∀ other ∈ entries, other.name ≠ last) ∧ Accepts s d ∧ ∃ after, addNode s d buf type dev = .ok (dev, after) ∧
      Rewritten base created s after d (entries ++ [⟨last, toSize dev, type⟩])) ∨
    (((∃ other ∈ entries, other.name = last) ∨ ¬ Accepts s d) ∧ ∃ result after,
      addNode s d buf type dev = .ok (result, after) ∧ result < 0 ∧
      if type = .reg then ∃ before deleted, Undone base created s before ∧
        Deleted base created before deleted (toSize dev) ∧ Undone base created deleted after ∧ Locks after []
      else Undone base created s after ∧ Locks after []) := by
  have member := stored.member d entries found
  obtain ⟨p, opened, locked, opens, down, isOpen, lists, enter, locks⟩ := enterDir_spec stored found
  have is : (newDirent (toSize dev) buf type).Is ⟨last, toSize dev, type⟩ := newDirent_is spells good (toSize_lt dev) known
  have accepts : Accepts locked d ↔ Accepts s d :=
    Accepts.congr (enter.files.size d member) enter.sb fun i _ => enter.blocks i
  by_cases present : ∃ other ∈ entries, other.name = last
  · have call := direntAdd_present lists.rows enter.inv.toOwnInv isOpen is good.entryName present
    obtain ⟨after, ran, rest⟩ := addNode_refused opens down isOpen enter locks call (by decide) (.inl rfl) fresh
    exact .inr ⟨.inl present, _, after, ran, by decide, rest⟩
  have absent : ∀ other ∈ entries, other.name ≠ last := fun other inside named => present ⟨other, inside, named⟩
  rcases direntAdd_outcome lists enter.inv.toOwnInv isOpen is good (toSize_lt dev) known absent with
    ⟨yes, changed, added, updated, longer⟩ | ⟨no, result, refused, call, failed, unchanged⟩
  · left
    obtain ⟨raised, after, up, close, leave, left⟩ := leaveDir_spec (updated.inv enter.inv)
      (isOpen.same updated.steady.toSameCache) (locks.steady updated.steady)
    refine ⟨absent, accepts.mp yes, after, ?_, rewritten enter updated longer leave left member⟩
    simp only [addNode, Int.toNat_natCast, opens, deref, down, added, Bind.bind, Except.bind, ne_eq, not_true_eq_false,
      if_false, up, close]
    rfl
  · obtain ⟨after, ran, rest⟩ := addNode_refused opens down isOpen enter locks call failed unchanged fresh
    exact .inr ⟨.inr fun yes => no (accepts.mpr yes), result, after, ran, failed, rest⟩

/-- What `sys_mknod` makes of a consistent tree. -/
inductive MknodOutcome (base : Nat) (created : Nat → Prop) (tree : Tree) (s : State) (target : Nat) (entries : List Entry)
    (last : List UInt8) (type : FileType) (dev result : Int) (after : State) : Prop
  | failed (negative : result < 0) (why : type = .reg ∨ (∃ entry ∈ entries, entry.name = last) ∨ ¬ Accepts s target)
      (created' : Nat → Prop) (intact : Intact base created' tree after) (idle : Idle created s → Idle created' after)
      (marks : ∀ i < inodeCntMax, inodeMark after i = inodeMark s i) (sb : after.sb = s.sb)
      (blocks : ∀ i < s.sb.blockBitmapSize, blockMark after i = blockMark s i) (files : Agree (Used s) s after)
  | file (i : Nat) (isReg : type = .reg) (number : result = i) (first : FirstFree s i) (unused : ¬ Used s i)
      (absent : ∀ entry ∈ entries, entry.name ≠ last)
      (intact : Intact base (fun j => created j ∨ j = i) (tree.add target entries ⟨last, i, .reg⟩ none) after)
      (idle : Idle created s → Idle (fun j => created j ∨ j = i) after)
      (empty : fileSize after i = 0) (marks : ∀ j < inodeCntMax, inodeMark after j = if j = i then 1 else inodeMark s j)
      (ranOut : s.ranOut = true → after.ranOut = true)
  | device (isChr : type = .chr) (number : result = dev) (absent : ∀ entry ∈ entries, entry.name ≠ last)
      (accepts : Accepts s target)
      (intact : Intact base created (Function.update tree target (some (entries ++ [⟨last, toSize dev, .chr⟩]))) after)
      (idle : Idle created s → Idle created after)

theorem Created.stored {i : Nat} (made : Created base created s after i) (stored : Stored base created tree s) :
    Stored base (fun j => created j ∨ j = i) tree after where
  inv := made.inv
  member := fun e siblings listed => .inl (stored.member e siblings listed)
  lists := fun e siblings listed =>
    (stored.lists e siblings listed).agree made.files (stored.member e siblings listed)
  locks := stored.locks.steady made.steady

theorem used_insert {i : Nat} (bound : i < inodeCntMax)
    (marks : ∀ j < inodeCntMax, inodeMark after j = if j = i then 1 else inodeMark s j) :
    Used after = fun j => Used s j ∨ j = i := by
  funext j
  apply propext
  constructor
  · rintro ⟨inside, marked⟩
    by_cases here : j = i
    · exact .inr here
    · rw [marks j inside, if_neg here] at marked
      exact .inl ⟨inside, marked⟩
  · rintro (⟨inside, marked⟩ | rfl)
    · refine ⟨inside, ?_⟩
      rw [marks j inside]
      split
      · decide
      · exact marked
    · refine ⟨bound, ?_⟩
      rw [marks j bound, if_pos rfl]
      decide

section

variable {i : Nat} {made : State} (intact : Intact base created tree s) (create : Created base created s made i)
include intact create

theorem Intact.file (found : tree d = some entries) (plain : last ≠ dot ∧ last ≠ ddot)
    (absent : ∀ entry ∈ entries, entry.name ≠ last)
    (added : Rewritten base (fun j => created j ∨ j = i) made after d (entries ++ [⟨last, i, .reg⟩])) :
    Intact base (fun j => created j ∨ j = i) (tree.add d entries ⟨last, i, .reg⟩ none) after := by
  have unused : ¬ Used s i := fun used => used.2 create.free
  have vacant := intact.consistent.unused_dir unused
  have same : tree.add d entries ⟨last, i, .reg⟩ none = Function.update tree d (some (entries ++ [⟨last, i, .reg⟩])) := by
    rw [Tree.add, ← vacant, Function.update_eq_self]
  have usedAfter : Used after = fun j => Used s j ∨ j = i := by
    rw [used_congr added.marks, used_insert create.bound create.marks]
  constructor
  case toStored =>
    rw [same]
    exact added.stored (create.stored intact.toStored) found
  case consistent =>
    rw [usedAfter]
    exact intact.consistent.add found plain (.file rfl) absent unused
  case bits =>
    intro j bound
    rw [added.marks j bound, create.marks j bound]
    split
    · exact .inr rfl
    · exact intact.bits j bound
  case allocated =>
    rw [usedAfter]
    rintro j (used | here)
    · exact .inl (intact.allocated j used)
    · exact .inr here

theorem Intact.file_idle (found : tree d = some entries)
    (added : Rewritten base (fun j => created j ∨ j = i) made after d (entries ++ [⟨last, i, .reg⟩]))
    (idle : Idle created s) : Idle (fun j => created j ∨ j = i) after := by
  have usedDir := intact.consistent.dirs d entries found
  intro j member clear
  have bound := added.inv.bounded j member
  rw [added.marks j bound, create.marks j bound] at clear
  by_cases here : j = i
  · rw [if_pos here] at clear
    exact absurd clear (by decide)
  · rw [if_neg here] at clear
    have old : created j := member.resolve_right here
    have other : j ≠ d := by
      intro isDir
      exact usedDir.2 (isDir ▸ clear)
    rw [added.others.size j ⟨member, other⟩, create.files.size j old]
    exact idle j old clear

variable {before deleted : State} (undone : Undone base (fun j => created j ∨ j = i) made before)
  (delete : Deleted base (fun j => created j ∨ j = i) before deleted i)
  (undone' : Undone base (fun j => created j ∨ j = i) deleted after)
include undone delete undone'

omit intact in
theorem rollback : (∀ j < inodeCntMax, inodeMark after j = inodeMark s j) ∧ after.sb = s.sb ∧
    (∀ j < s.sb.blockBitmapSize, blockMark after j = blockMark s j) ∧ Agree (fun j => created j ∧ j ≠ i) s after ∧
    fileSize after i = 0 := by
  have sb : after.sb = s.sb := by
    rw [undone'.sb, delete.sb, undone.sb, create.steady.sb]
  have marks : ∀ j < inodeCntMax, inodeMark after j = inodeMark s j := by
    intro j bound
    rw [undone'.marks, delete.marks j bound, undone.marks, create.marks j bound]
    by_cases here : j = i
    · rw [if_pos here, here, create.free]
    · rw [if_neg here, if_neg here]
  have files : Agree (fun j => created j ∧ j ≠ i) s after :=
    (((create.files.mono fun j kept => kept.1).trans (undone.files.mono fun j kept => .inl kept.1)).trans
      (delete.others.mono fun j kept => ⟨.inl kept.1, kept.2⟩)).trans (undone'.files.mono fun j kept => .inl kept.1)
  refine ⟨marks, sb, ?_, files, ?_⟩
  · intro j inside
    have vacant : fileSize before i = 0 := by
      rw [undone.files.size i (.inr rfl), create.empty]
    rw [undone'.blocks, delete.blocks vacant j (by rw [undone.sb, create.steady.sb]; exact inside), undone.blocks,
      create.blocks j inside]
  · rw [undone'.files.size i (.inr rfl), delete.empty]

theorem Intact.rollback (locks : Locks after []) : Intact base (fun j => created j ∨ j = i) tree after ∧
    (Idle created s → Idle (fun j => created j ∨ j = i) after) ∧ Agree (Used s) s after := by
  obtain ⟨marks, _, _, files, empty⟩ := Fs.rollback create undone delete undone'
  have unused : ¬ Used s i := fun used => used.2 create.free
  have stored : Stored base (fun j => created j ∨ j = i) tree after := by
    refine ⟨undone'.inv, fun e siblings listed => .inl (intact.member e siblings listed), ?_, locks⟩
    intro e siblings listed
    have other : e ≠ i := (intact.consistent.unused_ne unused listed).symm
    exact (intact.lists e siblings listed).agree files ⟨intact.member e siblings listed, other⟩
  refine ⟨⟨stored, ?_, ?_, ?_⟩, ?_, ?_⟩
  · rw [used_congr marks]
    exact intact.consistent
  · intro j bound
    rw [marks j bound]
    exact intact.bits j bound
  · rw [used_congr marks]
    exact fun j used => .inl (intact.allocated j used)
  · intro idle j member clear
    by_cases here : j = i
    · rw [here]
      exact empty
    · have old : created j := member.resolve_right here
      rw [marks j (stored.inv.bounded j member)] at clear
      rw [files.size j ⟨old, here⟩]
      exact idle j old clear
  · refine files.mono ?_
    intro j used
    refine ⟨intact.allocated j used, ?_⟩
    rintro rfl
    exact unused used

end

theorem LastEntry.spells {de : Dirent} (lastIs : LastEntry entries last de) : Spells de.filename last := by
  cases lastIs with
  | found entry member named is => exact named ▸ is.name
  | missing absent iNo filename => exact filename ▸ spells_cstr last

theorem Intact.plain (intact : Intact base created tree s) (found : tree d = some entries)
    (absent : ∀ entry ∈ entries, entry.name ≠ last) : last ≠ dot ∧ last ≠ ddot := by
  obtain ⟨up, above, _⟩ := intact.consistent.parent d entries found
  exact ⟨(absent _ (intact.consistent.self d entries found)).symm, (absent _ above).symm⟩

section

variable {type : FileType} {dev : Int} {de : Dirent}

theorem sysMknod_absent (kind : type = .chr ∨ type = .reg)
    (parsed : pathPrase s (pathOf (parents ++ [last])) = .ok ((target : Int), de, middle)) (notThere : de.iNo = ulongMax) :
    sysMknod s (pathOf (parents ++ [last])) type dev =
      if type = .reg then
        match diskInodeCreate middle with
        | (dev, made) => if dev < 0 then .ok (dev, made) else addNode made target de.filename type dev
      else addNode middle target de.filename type dev := by
  have allowed : ¬ (type ≠ .chr ∧ type ≠ .reg) := by
    rintro ⟨notChr, notReg⟩
    exact kind.elim notChr notReg
  have inTree := natCast_ne_isntExist target
  simp only [sysMknod, if_neg allowed, parsed, Bind.bind, Except.bind, if_neg inTree, notThere, ne_eq, not_true_eq_false,
    if_false]
  rfl

theorem sysMknod_present (kind : type = .chr ∨ type = .reg)
    (parsed : pathPrase s (pathOf (parents ++ [last])) = .ok ((target : Int), de, middle)) (there : de.iNo ≠ ulongMax) :
    sysMknod s (pathOf (parents ++ [last])) type dev = .ok (-direntAlreadyExist, middle) := by
  have allowed : ¬ (type ≠ .chr ∧ type ≠ .reg) := by
    rintro ⟨notChr, notReg⟩
    exact kind.elim notChr notReg
  have inTree := natCast_ne_isntExist target
  simp only [sysMknod, if_neg allowed, parsed, Bind.bind, Except.bind, if_neg inTree, if_pos there]
  rfl

theorem firstFree_congr (disk : middle.disk = s.disk) (sb : middle.sb = s.sb) (i : Nat) :
    FirstFree middle i ↔ FirstFree s i := by
  rw [FirstFree, FirstFree, disk, sb]

theorem mknod_reg (intact : Intact base created tree s) (found : tree target = some entries)
    (vacant : ∀ i, FirstFree s i → created i → fileSize s i = 0)
    (spells : Spells de.filename last) (good : FileName last) (undone : Undone base created s middle)
    (locks : Locks middle []) :
    ∃ result after, (match diskInodeCreate middle with
        | (dev, made) => if dev < 0 then .ok (dev, made) else addNode made target de.filename .reg dev) =
        Except.ok (result, after) ∧
      MknodOutcome base created tree s target entries last .reg dev result after := by
  have resolved := intact.undone undone locks
  have firstSame := firstFree_congr undone.disk undone.sb
  have resolvedVacant : ∀ i, FirstFree middle i → created i → fileSize middle i = 0 := by
    intro i first member
    rw [undone.files.size i member]
    exact vacant i ((firstSame i).mp first) member
  rcases creates : diskInodeCreate middle with ⟨number, made⟩
  rcases diskInodeCreate_vacant resolved.inv resolvedVacant creates with ⟨rfl, rfl⟩ | ⟨i, rfl, create⟩
  · exact ⟨-1, made, rfl, .failed (by decide) (.inl rfl) created resolved (fun idle => idle.undone undone)
      (fun i _ => undone.marks i) undone.sb (fun i _ => undone.blocks i) (undone.files.mono intact.allocated)⟩
  have unused : ¬ Used middle i := fun used => used.2 create.free
  have first := (firstSame i).mp (diskInodeCreate_first creates)
  have number : toSize i = i := toSize_natCast (Nat.lt_trans create.bound (by decide))
  have fine : ¬ (i : Int) < 0 := Int.not_lt.mpr (Int.natCast_nonneg i)
  have fresh : toSize i ≠ target := number.symm ▸ resolved.consistent.unused_ne unused found
  rcases @addNode_spec base _ tree made target entries last de.filename .reg i (create.stored resolved.toStored) found
    spells good (fun code same => by cases same) (fun _ => ⟨.inr number, fresh⟩) with
    ⟨absent, _, after, ran, added⟩ | ⟨_, result, after, ran, failed, rest⟩
  · rw [number] at added
    have whole := resolved.file create found (resolved.plain found absent) absent added
    refine ⟨i, after, ?_, .file i rfl rfl first ?_ absent whole ?_ ?_ ?_ ?_⟩
    · exact (if_neg fine).trans ran
    · rw [← used_congr fun i _ => undone.marks i]
      exact unused
    · exact fun idle => resolved.file_idle create found added (idle.undone undone)
    · rw [added.others.size i ⟨.inr rfl, number ▸ fresh⟩, create.empty]
    · intro j bound
      rw [added.marks j bound, create.marks j bound, undone.marks]
    · exact fun out => added.ranOut (create.steady.ranOut (undone.ranOut out))
  · rw [if_pos rfl, number] at rest
    obtain ⟨before, deleted, undone', delete, undone'', locks'⟩ := rest
    obtain ⟨marks, sb, blocks, _⟩ := rollback create undone' delete undone''
    obtain ⟨whole, idle, files⟩ := resolved.rollback create undone' delete undone'' locks'
    refine ⟨result, after, ?_, .failed failed (.inl rfl) _ whole ?_ ?_ (sb.trans undone.sb) ?_ ?_⟩
    · exact (if_neg fine).trans ran
    · exact fun before => idle (before.undone undone)
    · exact fun j bound => (marks j bound).trans (undone.marks j)
    · exact fun j bound => (blocks j (by rw [undone.sb]; exact bound)).trans (undone.blocks j)
    · rw [used_congr fun i _ => undone.marks i] at files
      exact (undone.files.mono intact.allocated).trans files

theorem mknod_chr (intact : Intact base created tree s) (found : tree target = some entries)
    (spells : Spells de.filename last) (good : FileName last) (undone : Undone base created s middle)
    (locks : Locks middle []) :
    ∃ result after, addNode middle target de.filename .chr dev = .ok (result, after) ∧
      MknodOutcome base created tree s target entries last .chr dev result after := by
  have resolved := intact.undone undone locks
  have accepts : Accepts middle target ↔ Accepts s target :=
    Accepts.congr (undone.files.size target (intact.member target entries found)) undone.sb fun i _ => undone.blocks i
  rcases @addNode_spec base created tree middle target entries last de.filename .chr dev resolved.toStored found spells good
    (fun code same => by cases same) (fun same => by cases same) with
    ⟨absent, yes, after, ran, added⟩ | ⟨why, result, after, ran, failed, rest⟩
  · refine ⟨dev, after, ran, .device rfl rfl absent (accepts.mp yes) ?_ ?_⟩
    · exact resolved.keep (added.stored resolved.toStored found) (resolved.consistent.addDevice found rfl absent) added.marks
    · intro idle
      refine (idle.undone undone).keep added.inv.bounded added.marks ?_
      intro i member clear
      have other : i ≠ target := by
        rintro rfl
        exact (resolved.consistent.dirs i entries found).2 clear
      exact added.others.size i ⟨member, other⟩
  · rw [if_neg (by decide)] at rest
    have both := undone.trans rest.1
    refine ⟨result, after, ran, .failed failed (.inr (why.imp_right fun no yes => no (accepts.mpr yes))) created
      (intact.undone both rest.2) (fun idle => idle.undone both) (fun i _ => both.marks i) both.sb
      (fun i _ => both.blocks i) (both.files.mono intact.allocated)⟩

/-- An inode that is taken again has to be empty. -/
theorem sysMknod_vacant (intact : Intact base created tree s) (leads : Leads tree 0 parents target)
    (slashless : ∀ name ∈ parents, slash ∉ name) (good : Component last) (found : tree target = some entries)
    (kind : type = .chr ∨ type = .reg)
    (vacant : (∀ entry ∈ entries, entry.name = last → entry.iNo = ulongMax) →
      ∀ i, FirstFree s i → created i → fileSize s i = 0) :
    ∃ result after, sysMknod s (pathOf (parents ++ [last])) type dev = .ok (result, after) ∧
      MknodOutcome base created tree s target entries last type dev result after := by
  obtain ⟨de, resolved, parsed, lastIs, undone, locks⟩ := pathPrase_spec intact leads slashless good found
  by_cases there : de.iNo ≠ ulongMax
  · have present : ∃ entry ∈ entries, entry.name = last := by
      cases lastIs with
      | found entry inside named is => exact ⟨entry, inside, named⟩
      | missing absent iNo filename => exact absurd iNo there
    exact ⟨-direntAlreadyExist, resolved, sysMknod_present kind parsed there, .failed (by decide) (.inr (.inl present))
      created (intact.undone undone locks) (fun idle => idle.undone undone) (fun i _ => undone.marks i) undone.sb
      (fun i _ => undone.blocks i) (undone.files.mono intact.allocated)⟩
  rw [sysMknod_absent kind parsed (not_not.mp there)]
  rcases kind with rfl | rfl
  · rw [if_neg (by decide)]
    exact mknod_chr intact found lastIs.spells good.toFileName undone locks
  · rw [if_pos rfl]
    refine mknod_reg intact found (vacant ?_) lastIs.spells good.toFileName undone locks
    intro entry inside named
    cases lastIs with
    | found other inside' named' is =>
      rw [intact.consistent.same_entry found inside inside' (named.trans named'.symm), ← is.iNo]
      exact not_not.mp there
    | missing absent => exact absurd named (absent entry inside)

theorem sysMknod_spec (sound : Sound base created tree s) (leads : Leads tree 0 parents target)
    (slashless : ∀ name ∈ parents, slash ∉ name) (good : Component last) (found : tree target = some entries)
    (kind : type = .chr ∨ type = .reg) :
    ∃ result after, sysMknod s (pathOf (parents ++ [last])) type dev = .ok (result, after) ∧
      MknodOutcome base created tree s target entries last type dev result after :=
  sysMknod_vacant sound.toIntact leads slashless good found kind fun _ i first member =>
    sound.idle i member (bitmapFind_some first).2.2

end

end RecoverOs.Fs
