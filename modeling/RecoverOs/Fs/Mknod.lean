import RecoverOs.Fs.PathWalk

namespace RecoverOs.Fs

open Bytes Transition

variable {base : Nat} {created : Nat → Prop} {tree : Tree} {s after : State} {target : Nat} {entries : List Entry}
  {parents : List (List UInt8)} {last : List UInt8}

/-- A negative result has left the directories and the bitmaps as they were, and after any other `path_prase` finds
    the entry. -/
structure AllOrNothing (s after : State) (pathname : List UInt8) (result : Int) : Prop where
  nothing : result < 0 → Agree (IsDir s) s after ∧ (∀ i < inodeCntMax, inodeMark after i = inodeMark s i) ∧
    ∀ i < s.sb.blockBitmapSize, blockMark after i = blockMark s i
  all : 0 ≤ result → ∃ pINo de final, pathPrase after pathname = .ok (pINo, de, final) ∧ de.iNo ≠ ulongMax

theorem ConsistentTree.mknod {type : FileType} {dev result : Int} (consistent : ConsistentTree s)
    (slashless : ∀ name ∈ parents, slash ∉ name) (good : Component last) (resolved : resolveDir s 0 parents = some target)
    (kind : type = .chr ∨ type = .reg) (ran : sysMknod s (pathOf (parents ++ [last])) type dev = .ok (result, after)) :
    ConsistentTree after := by
  obtain ⟨base, created, tree, sound⟩ := consistent
  obtain ⟨top, root⟩ := Option.isSome_iff_exists.mp sound.consistent.root
  have leads := sound.leads root resolved
  obtain ⟨entries, found⟩ := sound.leads_dir leads
  obtain ⟨_, _, ran', outcome⟩ :=
    @sysMknod_spec base created tree s target entries parents last type dev sound leads slashless good found kind
  rw [ran] at ran'
  cases ran'
  cases outcome with
  | failed negative why created' whole idle => exact ⟨base, created', tree, whole, idle sound.idle⟩
  | file i isReg number first unused absent whole idle => exact ⟨base, _, _, whole, idle sound.idle⟩
  | device isChr number absent accepts whole idle => exact ⟨base, created, _, whole, idle sound.idle⟩

theorem pathPrase_new {e : Entry} {created' : Nat → Prop} {tree' : Tree} (sound : Sound base created' tree' after)
    (leads : Leads tree' 0 parents target) (slashless : ∀ name ∈ parents, slash ∉ name) (good : Component last)
    (found : tree' target = some (entries ++ [e])) (named : e.name = last) (number : e.iNo ≠ ulongMax) :
    ∃ pINo de final, pathPrase after (pathOf (parents ++ [last])) = .ok (pINo, de, final) ∧ de.iNo ≠ ulongMax := by
  have inside : e ∈ entries ++ [e] := by simp
  obtain ⟨de, final, ran, lastIs, _⟩ := pathPrase_spec sound.toIntact leads slashless good found
  refine ⟨target, de, final, ran, ?_⟩
  cases lastIs with
  | found entry member named' is =>
    rw [is.iNo, sound.consistent.same_entry found member inside (named'.trans named.symm)]
    exact number
  | missing absent => exact absurd named (absent e inside)

/-- The result of `sys_mknod` tells what it has done, except for a device with a negative number. -/
theorem mknod_all_or_nothing_iff (s : State) (consistent : ConsistentTree s) (parents : List (List UInt8))
    (last : List UInt8) (slashless : ∀ name ∈ parents, slash ∉ name) (good : Component last) (target : Nat)
    (resolved : resolveDir s 0 parents = some target) (type : FileType) (kind : type = .chr ∨ type = .reg) (dev : Int)
    (low : -2 ^ 63 ≤ dev) (high : dev < 2 ^ 63) :
    ∃ result after, sysMknod s (pathOf (parents ++ [last])) type dev = .ok (result, after) ∧
      (AllOrNothing s after (pathOf (parents ++ [last])) result ↔
        type = .reg ∨ 0 ≤ dev ∨ (∃ entry ∈ dirEntries s target, entry.name = last) ∨ ¬ Accepts s target) := by
  obtain ⟨base, created, tree, sound⟩ := consistent
  obtain ⟨top, root⟩ := Option.isSome_iff_exists.mp sound.consistent.root
  have leads := sound.leads root resolved
  obtain ⟨entries, found⟩ := sound.leads_dir leads
  obtain ⟨result, after, ran, outcome⟩ :=
    @sysMknod_spec base created tree s target entries parents last type dev sound leads slashless good found kind
  refine ⟨result, after, ran, ?_⟩
  rw [sound.dirEntries found]
  cases outcome with
  | failed negative why created' whole idle marks sb blocks files =>
    have dirs : Agree (IsDir s) s after := by
      refine files.mono ?_
      intro d isDir
      obtain ⟨siblings, listed⟩ := sound.isDir_some isDir
      exact sound.consistent.dirs d siblings listed
    exact ⟨fun _ => why.imp_right .inr, fun _ => ⟨fun _ => ⟨dirs, marks, blocks⟩, fun fine => by omega⟩⟩
  | file i isReg number first unused absent whole idle empty marks ranOut =>
    refine ⟨fun _ => .inl isReg, fun _ => ⟨fun negative => by omega, fun _ => ?_⟩⟩
    exact pathPrase_new ⟨whole, idle sound.idle⟩ (leads.add found (sound.consistent.unused_dir unused)) slashless good
      Tree.add_here rfl (node_ne_ulongMax (whole.inv.bounded i (.inr rfl)))
  | device isChr number absent accepts whole idle =>
    rw [number]
    by_cases nonneg : 0 ≤ dev
    · refine ⟨fun _ => .inr (.inl nonneg), fun _ => ⟨fun negative => by omega, fun _ => ?_⟩⟩
      refine pathPrase_new ⟨whole, idle sound.idle⟩ ?_ slashless good (Function.update_self ..) rfl ?_
      · refine leads.mono ?_
        intro e siblings listed
        by_cases here : e = target
        · rw [here, found] at listed
          cases listed
          exact ⟨_, by rw [here, Function.update_self], fun other inside => List.mem_append_left _ inside⟩
        · exact ⟨siblings, by rw [Function.update_of_ne here, listed], fun other inside => inside⟩
      · simp only [toSize, ulongMax]
        omega
    · constructor
      · rintro ⟨nothing, _⟩
        have same := (nothing (by omega)).1.size target ((sound.isDir_iff target).mpr ⟨entries, found⟩)
        have longer := (whole.lists target _ (Function.update_self ..)).size
        rw [(sound.lists target entries found).size, longer, List.length_append, List.length_singleton] at same
        simp only [direntSize] at same
        omega
      · rintro (isReg | fine | ⟨entry, member, named⟩ | refuses)
        · rw [isReg] at isChr
          cases isChr
        · exact absurd fine nonneg
        · exact absurd named (absent entry member)
        · exact absurd accepts refuses

theorem mknod_all_or_nothing_file : ∃ s result after, format (fun _ _ => 7) ⟨64, 800⟩ = .ok s ∧
    sysMknod s [47, 102] .reg 0 = .ok (result, after) ∧ AllOrNothing s after [47, 102] result := by
  have evaluated : endsIn (format (fun _ _ => 7) ⟨64, 800⟩) (fun _ => true) = true := by
    decide +kernel
  obtain ⟨s, formatted, _⟩ := exists_of_endsIn evaluated
  obtain ⟨result, after, ran, exactly⟩ := mknod_all_or_nothing_iff s ⟨_, _, _, (format_sound formatted).1⟩ [] [102]
    (fun name inside => absurd inside List.not_mem_nil) ⟨⟨by decide, by decide⟩, by decide, by decide⟩ 0 rfl .reg
    (.inr rfl) 0 (by decide) (by decide)
  exact ⟨s, result, after, formatted, ran, exactly.mpr (.inl rfl)⟩

/-- The device number -5 is returned as if the call had failed, and the entry is there. -/
theorem mknod_device_negative : ∃ s after, format (fun _ _ => 7) ⟨64, 800⟩ = .ok s ∧ ConsistentTree s ∧
    sysMknod s [47, 116] .chr (-5) = .ok (-5, after) ∧ ¬ AllOrNothing s after [47, 116] (-5) := by
  have evaluated : endsIn (format (fun _ _ => 7) ⟨64, 800⟩) (fun s =>
      endsIn (sysMknod s [47, 116] .chr (-5)) fun done =>
        decide (done.1 = -5 ∧ fileSize s 0 = 64 ∧ fileSize done.2 0 = 96)) = true := by
    decide +kernel
  obtain ⟨s, formatted, rest⟩ := exists_of_endsIn evaluated
  obtain ⟨⟨result, after⟩, ran, facts⟩ := exists_of_endsIn rest
  rw [decide_eq_true_eq] at facts
  obtain ⟨rfl, before, longer⟩ := facts
  refine ⟨s, after, formatted, ⟨_, _, _, (format_sound formatted).1⟩, ran, ?_⟩
  rintro ⟨nothing, _⟩
  have same := (nothing (by decide)).1.size 0 .root
  rw [before, longer] at same
  cases same

def Dirent.field (de : Dirent) : Entry where
  name := cname maxFileNameLen de.filename
  iNo := de.iNo
  fType := de.fType

def fieldEntries (s : State) (dNo : Nat) : List Entry :=
  (List.range (fileSize s dNo / direntSize)).map fun k =>
    (Dirent.load fun i => content s dNo (k * direntSize + i)).field

/-- The call fails, or the parent gets one entry with the name and the type that were asked for. -/
def StoresNode (s : State) (pathname : List UInt8) (last : List UInt8) (target : Nat) : Prop :=
  ∃ result after, sysMknod s pathname .reg 0 = .ok (result, after) ∧
    (result < 0 ∨ ∃ iNo, fieldEntries after target = fieldEntries s target ++ [⟨last, iNo, .reg⟩])

def FreeInode (s : State) : Prop := ∃ i < inodeCntMax, inodeMark s i = 0

theorem cname_length (left : Nat) (buf : Buffer) : (cname left buf).length ≤ left := by
  induction left generalizing buf with
  | zero => exact Nat.le_refl 0
  | succ left ih =>
    rw [cname]
    split
    · exact Nat.zero_le _
    · exact Nat.succ_le_succ (ih _)

theorem Lists.fieldEntries_eq {dNo : Nat} (lists : Lists s dNo entries) : fieldEntries s dNo = entries := by
  have count : fileSize s dNo / direntSize = entries.length := by
    rw [lists.size]
    exact Nat.mul_div_cancel _ (by decide)
  rw [fieldEntries, count]
  apply List.ext_getElem?
  intro k
  rw [List.getElem?_map]
  by_cases inside : k < entries.length
  · have at' := List.getElem?_eq_getElem inside
    have good := lists.name _ (List.getElem_mem inside)
    have is := lists.entry k _ at'
    rw [List.getElem?_range inside, at', Option.map_some]
    congr 1
    rw [Dirent.field, cname_spells is.name good.nonzero good.short, is.iNo, is.fType]
  · rw [List.getElem?_eq_none (by simpa using inside), List.getElem?_eq_none (Nat.not_lt.mp inside)]
    rfl

theorem fieldEntries_grown {dNo : Nat} (size : fileSize after dNo = entries.length * direntSize + direntSize) :
    ∃ front, fieldEntries after dNo =
      front ++ [(Dirent.load fun i => content after dNo (entries.length * direntSize + i)).field] := by
  have count : fileSize after dNo / direntSize = entries.length + 1 := by
    rw [size, ← Nat.succ_mul]
    exact Nat.mul_div_cancel _ (by decide)
  refine ⟨(List.range entries.length).map fun k =>
    (Dirent.load fun i => content after dNo (k * direntSize + i)).field, ?_⟩
  rw [fieldEntries, count, List.range_succ, List.map_append]
  rfl

theorem diskInodeCreate_none (ran : diskInodeCreate s = (-1, after)) : ¬ FreeInode s := by
  rintro ⟨i, bound, free⟩
  unfold diskInodeCreate fsBitmapAlloc at ran
  cases search : bitmapFind s.disk s.sb.inodeBitmapStart 0 inodeCntMax with
  | none => exact bitmapFind_none search i (Nat.zero_le i) (by omega) free
  | some j =>
    rw [search] at ran
    dsimp only at ran
    rw [if_neg (by omega)] at ran
    have number := congrArg Prod.fst ran
    dsimp only at number
    omega

theorem newDirent_dir {iNo : Nat} (nonzero : 0 ∉ last) (exactly : last.length = 16) :
    (newDirent iNo (cstr last) .reg).fType = .dir := by
  apply load_zeros
  intro i bound
  rw [strcpy_byte (spells_cstr last) nonzero (by rw [exactly]; decide), exactly]
  by_cases zero : i = 0
  · subst zero
    rw [if_pos (by omega), cstr, List.getD_eq_getElem?_getD, List.getElem?_eq_none (by omega), Option.getD_none]
  · rw [if_neg (by omega), store_type bound]
    have upper : i = 1 ∨ i = 2 ∨ i = 3 := by omega
    show byteOf 2 i = 0
    rcases upper with rfl | rfl | rfl
    · decide
    · decide
    · decide

theorem newDirent_spoils {iNo : Nat} (nonzero : 0 ∉ last) (long : maxFileNameLen ≤ last.length) (bytes : Buffer)
    (stored : ∀ i < direntSize, bytes i = (newDirent iNo (cstr last) .reg).store i) (number : Nat) :
    (Dirent.load bytes).field ≠ ⟨last, number, .reg⟩ := by
  intro same
  have name : cname maxFileNameLen (Dirent.load bytes).filename = last := congrArg Entry.name same
  have type : (Dirent.load bytes).fType = .reg := congrArg Entry.fType same
  have short := cname_length maxFileNameLen (Dirent.load bytes).filename
  rw [name] at short
  have isDir : (Dirent.load bytes).fType = .dir := by
    apply load_zeros
    intro i bound
    rw [stored (24 + i) (by simp only [direntSize]; omega), store_type bound,
      newDirent_dir nonzero (Nat.le_antisymm short long), FileType.code, byteOf, Nat.zero_div]
    rfl
  rw [isDir] at type
  cases type

theorem newDirent_spells {buf : Buffer} {iNo : Nat} {type : FileType} (spells : Spells buf last) (good : EntryName last) :
    Spells (newDirent iNo buf type).filename last := by
  intro i bound
  simp only [newDirent, Dirent.load]
  rw [strcpy_byte spells good.nonzero good.short, if_pos (by omega), Nat.add_sub_cancel_left]

section

variable (sound : Sound base created tree s) (leads : Leads tree 0 parents target)
  (slashless : ∀ name ∈ parents, slash ∉ name) (found : tree target = some entries) (nonempty : last ≠ [])
  (lastSlashless : slash ∉ last) (nonzero : 0 ∉ last)
include sound leads slashless found nonempty lastSlashless nonzero

theorem sysMknod_overrun (absent : ∀ entry ∈ entries, entry.name ≠ last) (long : nameBytes ≤ last.length) :
    sysMknod s (pathOf (parents ++ [last])) .reg 0 = .error .fault := by
  obtain ⟨q, middle, walked, middleOpen, undone, locks⟩ := pathPrase_leads sound.toIntact leads slashless lastSlashless
  have fault := lastEntry_long (sound.toStored.undone undone locks).shelved found middleOpen nonempty nonzero absent long
  simp only [sysMknod, walked, fault, Bind.bind, Except.bind]
  rfl

/-- A name that runs over its field but not over the entry is stored, and the entry is spoilt. -/
theorem sysMknod_long (absent : ∀ entry ∈ entries, entry.name ≠ last) (long : maxFileNameLen ≤ last.length)
    (fits : last.length < nameBytes) :
    ∃ result after, sysMknod s (pathOf (parents ++ [last])) .reg 0 = .ok (result, after) ∧
      ((FreeInode s ∧ Accepts s target) ∧ 0 ≤ result ∧
          (∀ iNo, fieldEntries after target ≠ fieldEntries s target ++ [⟨last, iNo, .reg⟩]) ∨
        ¬ (FreeInode s ∧ Accepts s target) ∧ result < 0) := by
  obtain ⟨de, resolved, parsed, lastIs, undone, locks⟩ :=
    pathPrase_fits sound.toIntact leads slashless found nonempty nonzero lastSlashless fits
  obtain ⟨notThere, filename⟩ : de.iNo = ulongMax ∧ de.filename = cstr last := by
    cases lastIs with
    | found entry member named => exact absurd named (absent entry member)
    | missing _ iNo filename => exact ⟨iNo, filename⟩
  have resolvedSound := sound.undone undone locks
  have freeSame : FreeInode resolved ↔ FreeInode s := by
    simp only [FreeInode, undone.marks]
  rw [sysMknod_absent (.inr rfl) parsed notThere, if_pos rfl, filename]
  rcases creates : diskInodeCreate resolved with ⟨number, made⟩
  rcases diskInodeCreate_spec resolvedSound.inv resolvedSound.idle creates with ⟨rfl, rfl⟩ | ⟨i, rfl, create⟩
  · exact ⟨-1, made, rfl, .inr ⟨fun both => diskInodeCreate_none creates (freeSame.mpr both.1), by decide⟩⟩
  have free : FreeInode s := freeSame.mp ⟨i, create.bound, create.free⟩
  have unused : ¬ Used resolved i := fun used => used.2 create.free
  have number : toSize i = i := toSize_natCast (Nat.lt_trans create.bound (by decide))
  have apart : i ≠ target := resolvedSound.consistent.unused_ne unused found
  have fine : ¬ (i : Int) < 0 := Int.not_lt.mpr (Int.natCast_nonneg i)
  have madeStored := create.stored resolvedSound.toStored
  have member := sound.member target entries found
  obtain ⟨p, opened, locked, opens, down, isOpen, lists, enter, lockedLocks⟩ := enterDir_spec madeStored found
  have accepts : Accepts locked target ↔ Accepts s target := by
    refine Accepts.congr ?_ ?_ ?_
    · rw [enter.files.size target (.inl member), create.files.size target member, undone.files.size target member]
    · rw [enter.sb, create.steady.sb, undone.sb]
    · intro j inside
      rw [enter.blocks, create.blocks j (by rw [undone.sb]; exact inside), undone.blocks]
  have spells : Spells (newDirent (toSize (i : Int)) (cstr last) .reg).filename last :=
    newDirent_spells (spells_cstr last) ⟨fits, nonzero⟩
  have search := lists.rows.absent enter.inv.toOwnInv isOpen spells nonzero absent
  dsimp only
  rw [if_neg fine]
  by_cases yes : Accepts locked target
  · obtain ⟨changed, added, updated, size, bytes, _⟩ := direntAdd_written enter.inv.toOwnInv isOpen search yes
    obtain ⟨raised, after, up, close, leave, _⟩ := leaveDir_spec (updated.inv enter.inv)
      (isOpen.same updated.steady.toSameCache) (lockedLocks.steady updated.steady)
    refine ⟨i, after, ?_, .inl ⟨⟨free, accepts.mp yes⟩, Int.natCast_nonneg i, ?_⟩⟩
    · simp only [addNode, Int.toNat_natCast, opens, deref, down, added, Bind.bind, Except.bind, ne_eq, not_true_eq_false,
        if_false, up, close]
      rfl
    · intro iNo same
      rw [lists.size] at size bytes
      have longer : fileSize after target = entries.length * direntSize + direntSize := by
        rw [leave.files.size target (.inl member), size]
      obtain ⟨front, grown⟩ := fieldEntries_grown longer
      rw [grown] at same
      refine @newDirent_spoils last i nonzero long (fun j => content after target (entries.length * direntSize + j)) ?_ iNo
        (List.singleton_inj.mp (List.append_inj_right' same rfl))
      intro j bound
      rw [leave.files.byte target (.inl member) _ (by omega), bytes j bound, number]
  · obtain ⟨result, refused, call, failed, unchanged⟩ := direntAdd_refused enter.inv.toOwnInv isOpen search yes
    obtain ⟨after, ran, _⟩ := addNode_refused opens down isOpen enter lockedLocks call failed unchanged
      (fun _ => ⟨.inr number, by rw [number]; exact apart⟩)
    exact ⟨result, after, ran, .inr ⟨fun both => yes (accepts.mpr both.2), failed⟩⟩

end

/-- `sys_mknod` stores the name and the type it was asked for, or fails, exactly when the name fits its field, or at
    least the entry and there is no inode or no room in the directory for it. -/
theorem mknod_stores_iff (s : State) (consistent : ConsistentTree s) (parents : List (List UInt8)) (last : List UInt8)
    (slashless : ∀ name ∈ parents, slash ∉ name) (nonempty : last ≠ []) (lastSlashless : slash ∉ last)
    (nonzero : 0 ∉ last) (target : Nat) (resolved : resolveDir s 0 parents = some target)
    (absent : ∀ entry ∈ dirEntries s target, entry.name ≠ last) :
    StoresNode s (pathOf (parents ++ [last])) last target ↔
      last.length ≤ 15 ∨ last.length ≤ 23 ∧ ¬ (FreeInode s ∧ Accepts s target) := by
  obtain ⟨base, created, tree, sound⟩ := consistent
  obtain ⟨top, root⟩ := Option.isSome_iff_exists.mp sound.consistent.root
  have leads := sound.leads root resolved
  obtain ⟨entries, found⟩ := sound.leads_dir leads
  rw [sound.dirEntries found] at absent
  by_cases short : last.length ≤ 15
  · refine ⟨fun _ => .inl short, fun _ => ?_⟩
    have good : Component last := ⟨⟨Nat.lt_succ_of_le short, nonzero⟩, nonempty, lastSlashless⟩
    obtain ⟨result, after, ran, outcome⟩ := @sysMknod_spec base created tree s target entries parents last .reg 0 sound leads
      slashless good found (.inr rfl)
    refine ⟨result, after, ran, ?_⟩
    cases outcome with
    | failed negative => exact .inl negative
    | device isChr => cases isChr
    | file i isReg number first unused absent' whole idle empty marks ranOut =>
      refine .inr ⟨i, ?_⟩
      rw [(whole.lists target _ Tree.add_here).fieldEntries_eq, (sound.lists target entries found).fieldEntries_eq]
  have long : maxFileNameLen ≤ last.length := Nat.not_le.mp short
  by_cases fits : last.length < nameBytes
  · obtain ⟨result, after, ran, outcome⟩ :=
      sysMknod_long sound leads slashless found nonempty lastSlashless nonzero absent long fits
    rcases outcome with ⟨both, fine, spoilt⟩ | ⟨lacks, failed⟩
    · constructor
      · rintro ⟨_, _, ran', negative | ⟨iNo, stored⟩⟩
        · rw [ran] at ran'
          cases ran'
          omega
        · rw [ran] at ran'
          cases ran'
          exact absurd stored (spoilt iNo)
      · rintro (fits' | ⟨_, lacks⟩)
        · exact absurd fits' short
        · exact absurd both lacks
    · refine ⟨fun _ => .inr ⟨Nat.le_of_lt_succ fits, lacks⟩, fun _ => ⟨result, after, ran, .inl failed⟩⟩
  · have fault := sysMknod_overrun sound leads slashless found nonempty lastSlashless nonzero absent (Nat.not_lt.mp fits)
    constructor
    · rintro ⟨_, _, ran, _⟩
      rw [fault] at ran
      cases ran
    · rintro (fits' | ⟨fits', _⟩)
      · exact absurd fits' short
      · exact absurd (Nat.lt_succ_of_le fits') fits

/-- The file with a name of 16 characters becomes a directory. -/
theorem mknod_sixteen : ∃ s after, format (fun _ _ => 7) ⟨64, 800⟩ = .ok s ∧ ConsistentTree s ∧
    sysMknod s (pathOf [List.replicate 16 97]) .reg 0 = .ok (1, after) ∧
    fieldEntries after 0 = dotEntries ++ [⟨List.replicate 16 97, 1, .dir⟩] ∧
    ¬ StoresNode s (pathOf [List.replicate 16 97]) (List.replicate 16 97) 0 := by
  have evaluated : endsIn (format (fun _ _ => 7) ⟨64, 800⟩) (fun s =>
      endsIn (sysMknod s (pathOf [List.replicate 16 97]) .reg 0) fun done =>
        decide (done.1 = 1 ∧ fieldEntries done.2 0 = dotEntries ++ [⟨List.replicate 16 97, 1, .dir⟩])) = true := by
    decide +kernel
  obtain ⟨s, formatted, rest⟩ := exists_of_endsIn evaluated
  obtain ⟨⟨result, after⟩, ran, facts⟩ := exists_of_endsIn rest
  rw [decide_eq_true_eq] at facts
  obtain ⟨rfl, entries⟩ := facts
  have sound := (format_sound formatted).1
  refine ⟨s, after, formatted, ⟨_, _, _, sound⟩, ran, entries, ?_⟩
  rintro ⟨result, after', ran', negative | ⟨iNo, stored⟩⟩
  · rw [ran] at ran'
    cases ran'
    cases negative
  · rw [ran] at ran'
    cases ran'
    rw [entries, (sound.lists 0 dotEntries rfl).fieldEntries_eq, List.append_cancel_left_eq] at stored
    simp at stored

theorem mknod_stores_fifteen : ∃ s, format (fun _ _ => 7) ⟨64, 800⟩ = .ok s ∧
    StoresNode s (pathOf [List.replicate 15 97]) (List.replicate 15 97) 0 := by
  have evaluated : endsIn (format (fun _ _ => 7) ⟨64, 800⟩) (fun s => decide (dirEntries s 0 = dotEntries)) = true := by
    decide +kernel
  obtain ⟨s, formatted, entries⟩ := exists_of_endsIn evaluated
  rw [decide_eq_true_eq] at entries
  refine ⟨s, formatted, ?_⟩
  refine (mknod_stores_iff s ⟨_, _, _, (format_sound formatted).1⟩ [] (List.replicate 15 97)
    (fun name inside => absurd inside List.not_mem_nil) (by decide) (by decide) (by decide) 0 rfl ?_).mpr
    (.inl (Nat.le_refl 15))
  rw [entries]
  decide

end RecoverOs.Fs
