import RecoverOs.Fs.Rmdir

namespace RecoverOs.Fs

open Bytes Transition

variable {base : Nat} {created : Nat → Prop} {tree : Tree} {s middle after : State} {d i target : Nat}
  {entries : List Entry} {parents : List (List UInt8)} {name last : List UInt8} {de : Dirent} {buf : Buffer}

theorem newDirent_named {type : FileType} (spells : Spells buf name) (good : EntryName name) (number : i < 2 ^ 64) :
    (newDirent i buf type).Is ⟨name, i, (newDirent i buf type).fType⟩ := by
  have iNo : (newDirent i buf type).iNo = i := by
    rw [newDirent, Dirent.load]
    apply wordAt_byteOf
    · intro k bound
      rw [Nat.zero_add, strcpy_byte spells good.nonzero good.short, if_neg (by omega), Dirent.store, if_pos bound]
    · exact number
  exact ⟨iNo, newDirent_spells spells good, rfl⟩

structure Untraced (s after : State) : Prop extends SameTree s after where
  blocks : ∀ b < s.sb.blockBitmapSize, blockMark after b = blockMark s b

theorem Sound.untraced (sound : Sound base created tree s) (undone : Undone base created s after)
    (locks : Locks after []) : Untraced s after :=
  ⟨sound.sameTree (sound.undone undone locks) fun j _ => undone.marks j, fun b _ => undone.blocks b⟩

theorem addNode_rows (stored : Stored base created tree s) (found : tree d = some entries) (spells : Spells buf name)
    (good : EntryName name) (member : created i) (apart : i ≠ d) :
    ((∀ other ∈ entries, other.name ≠ name) ∧ Accepts s d ∧ ∃ type after, addNode s d buf .reg i = .ok ((i : Int), after) ∧
      Edited base created s after d (entries ++ [⟨name, i, type⟩])) ∨
    (((∃ other ∈ entries, other.name = name) ∨ ¬ Accepts s d) ∧ ∃ result after,
      addNode s d buf .reg i = .ok (result, after) ∧ result < 0 ∧ ∃ before deleted, Undone base created s before ∧
        Deleted base created before deleted i ∧ Undone base created deleted after ∧ Locks after []) := by
  have inside := stored.member d entries found
  have bound : i < 128 := stored.inv.bounded i member
  have number : toSize i = i := toSize_natCast (by omega)
  obtain ⟨p, opened, locked, opens, down, isOpen, lists, enter, locks⟩ := enterDir_spec stored found
  have is : (newDirent i buf .reg).Is ⟨name, i, (newDirent i buf .reg).fType⟩ := newDirent_named spells good (by omega)
  have accepts : Accepts locked d ↔ Accepts s d :=
    Accepts.congr (enter.files.size d inside) enter.sb fun b _ => enter.blocks b
  have refused : ∀ result changed, direntAdd locked p (newDirent (toSize i) buf .reg) = .ok (result, changed) → result < 0 →
      (changed = locked ∨ changed = { locked with ranOut := true }) → ∃ result after,
      addNode s d buf .reg i = .ok (result, after) ∧ result < 0 ∧ ∃ before deleted, Undone base created s before ∧
        Deleted base created before deleted i ∧ Undone base created deleted after ∧ Locks after [] := by
    intro result changed call failed same
    obtain ⟨after, ran, rest⟩ := addNode_refused opens down isOpen enter locks call failed same
      fun _ => ⟨number.symm ▸ member, number.symm ▸ apart⟩
    rw [if_pos rfl, number] at rest
    exact ⟨result, after, ran, failed, rest⟩
  by_cases present : ∃ other ∈ entries, other.name = name
  · have call := direntAdd_present lists.rows enter.inv.toOwnInv isOpen is good present
    rw [← number] at call
    exact .inr ⟨.inl present, refused _ _ call (by decide) (.inl rfl)⟩
  have absent : ∀ other ∈ entries, other.name ≠ name := fun other inside named => present ⟨other, inside, named⟩
  have search := lists.rows.absent enter.inv.toOwnInv isOpen is.name good.nonzero absent
  by_cases yes : Accepts locked d
  · obtain ⟨changed, added, updated, longer, same⟩ := direntAdd_rows enter.inv.toOwnInv isOpen search lists.rows yes
      (load_is is good.short fun _ _ => store_load) good
    obtain ⟨raised, after, up, close, leave, left⟩ := leaveDir_spec (updated.inv enter.inv)
      (isOpen.same updated.steady.toSameCache) (locks.steady updated.steady)
    refine .inl ⟨absent, accepts.mp yes, _, after, ?_, edited enter updated longer same leave left inside⟩
    simp only [addNode, number, Int.toNat_natCast, opens, deref, down, added, Bind.bind, Except.bind, ne_eq,
      not_true_eq_false, if_false, up, close]
    rfl
  · obtain ⟨result, changed, call, failed, unchanged⟩ := direntAdd_refused enter.inv.toOwnInv isOpen search yes
    rw [← number] at call
    exact .inr ⟨.inr fun fine => yes (accepts.mpr fine), refused result changed call failed unchanged⟩

theorem mknod_rows (sound : Sound base created tree s) (found : tree target = some entries)
    (parsed : pathPrase s (pathOf (parents ++ [last])) = .ok ((target : Int), de, middle))
    (undone : Undone base created s middle) (locks : Locks middle []) (notThere : de.iNo = ulongMax)
    (spells : Spells de.filename name) (good : EntryName name) :
    (((∃ other ∈ entries, other.name = name) ∨ ¬ (FreeInode s ∧ Accepts s target)) ∧ ∃ result after,
      sysMknod s (pathOf (parents ++ [last])) .reg 0 = .ok (result, after) ∧ result < 0 ∧ Untraced s after) ∨
    ((∀ other ∈ entries, other.name ≠ name) ∧ FreeInode s ∧ Accepts s target ∧ ∃ (i : Nat) (type : FileType) (after : State),
      sysMknod s (pathOf (parents ++ [last])) .reg 0 = .ok ((i : Int), after) ∧ tree i = none ∧ i ≠ target ∧
      fileSize after i = 0 ∧ spare after target = spare s target ∧
      Shelved base (fun j => created j ∨ j = i) (tree.add target entries ⟨name, i, type⟩ (some [])) after) := by
  have resolved := sound.undone undone locks
  have member := sound.member target entries found
  have freeSame : FreeInode middle ↔ FreeInode s := by
    simp only [FreeInode, undone.marks]
  rw [sysMknod_absent (.inr rfl) parsed notThere, if_pos rfl]
  rcases creates : diskInodeCreate middle with ⟨number, made⟩
  dsimp only
  rcases diskInodeCreate_spec resolved.inv resolved.idle creates with ⟨rfl, rfl⟩ | ⟨i, rfl, create⟩
  · refine .inl ⟨.inr fun both => diskInodeCreate_none creates (freeSame.mpr both.1), -1, made, rfl, by decide, ?_⟩
    exact sound.untraced undone locks
  have free : FreeInode s := freeSame.mp ⟨i, create.bound, create.free⟩
  have unused : ¬ Used middle i := fun used => used.2 create.free
  have vacant := resolved.consistent.unused_dir unused
  have apart : i ≠ target := resolved.consistent.unused_ne unused found
  have fine : ¬ (i : Int) < 0 := Int.not_lt.mpr (Int.natCast_nonneg i)
  have size : fileSize made target = fileSize s target := by
    rw [create.files.size target member, undone.files.size target member]
  have sb : made.sb = s.sb := create.steady.sb.trans undone.sb
  have blocks : ∀ b < s.sb.blockBitmapSize, blockMark made b = blockMark s b := by
    intro b inside
    rw [create.blocks b (by rw [undone.sb]; exact inside), undone.blocks]
  rw [if_neg fine]
  rcases addNode_rows (create.stored resolved.toStored) found spells good (.inr rfl) apart with
    ⟨absent, accepts, type, after, ran, edited⟩ | ⟨why, result, after, ran, failed, before, deleted, undone', delete, undone'', locks'⟩
  · refine .inr ⟨absent, free, (Accepts.congr size sb blocks).mp accepts, i, type, after, ran, vacant, apart, ?_, ?_, ?_⟩
    · rw [edited.others.size i ⟨.inr rfl, apart⟩, create.empty]
    · rw [edited.spare, spare, spare, size, freeBlocks_congr (by rw [sb]) blocks]
    · have empty : fileSize made i = 0 := create.empty
      exact ((create.stored resolved.toStored).empty (.inr rfl) empty).shelved.rewrite edited (.inl member)
  · obtain ⟨whole, idle, _⟩ := resolved.rollback create undone' delete undone'' locks'
    obtain ⟨marks, _, same, _⟩ := rollback create undone' delete undone''
    refine .inl ⟨?_, result, after, ran, failed, ?_, ?_⟩
    · exact why.imp_right fun refuses both => refuses ((Accepts.congr size sb blocks).mpr both.2)
    · exact sound.sameTree ⟨whole, idle resolved.idle⟩ fun j bound => (marks j bound).trans (undone.marks j)
    · exact fun b bound => (same b (by rw [undone.sb]; exact bound)).trans (undone.blocks b)

theorem add_isSome {e : Nat} {entry : Entry} {sub : List Entry} (dir : (tree e).isSome) :
    (tree.add d entries entry (some sub) e).isSome := by
  by_cases here : e = d
  · rw [here, Tree.add_here]
    rfl
  by_cases new : e = entry.iNo
  · rw [new, Tree.add_new (new ▸ here)]
    rfl
  · rw [Tree.add_other here new]
    exact dir

/-- The directory that the whole call leaves: its name is cut to the length of the field, and it has its two entries only
    when a block was left for them. -/
theorem mkdir_rows {type : FileType} {made : State} (sound : Sound base created tree s) (leads : Leads tree 0 parents target)
    (slashless : ∀ name ∈ parents, slash ∉ name) (lastSlashless : slash ∉ last) (nonempty : last ≠ [])
    (found : tree target = some entries) (absent : ∀ other ∈ entries, other.name ≠ last) (accepts : Accepts s target)
    (mknod : sysMknod s (pathOf (parents ++ [last])) .reg 0 = .ok ((i : Int), made)) (vacant : tree i = none)
    (apart : i ≠ target) (empty : fileSize made i = 0) (same : spare made target = spare s target)
    (shelved : Shelved base (fun j => created j ∨ j = i) (tree.add target entries ⟨last, i, type⟩ (some [])) made) :
    ∃ after, sysMkdir s (pathOf (parents ++ [last])) = .ok (0, after) ∧
      dirEntries after target = entries ++ [⟨last.take maxFileNameLen, i, .dir⟩] ∧
      dirEntries after i = if blockCount (fileSize s target + direntSize) - blockCount (fileSize s target) < freeBlocks s then
        newDir target i else [] := by
  have lists := sound.lists target entries found
  have distinct : ∀ e siblings, tree.add target entries ⟨last, i, type⟩ (some []) e = some siblings →
      (siblings.map Entry.name).Nodup := by
    intro e siblings listed
    rcases add_cases apart listed with ⟨_, rfl⟩ | ⟨_, new⟩ | ⟨_, _, old⟩
    · exact Catalog.nodup_concat (sound.consistent.distinct target entries found) absent
    · cases new
      exact List.nodup_nil
    · exact sound.consistent.distinct e siblings old
  have closed : ∀ e siblings, tree.add target entries ⟨last, i, type⟩ (some []) e = some siblings →
      ∀ entry ∈ siblings, entry.fType = .dir → (tree.add target entries ⟨last, i, type⟩ (some []) entry.iNo).isSome := by
    intro e siblings listed entry inside isDir
    rcases add_cases apart listed with ⟨_, rfl⟩ | ⟨_, new⟩ | ⟨_, _, old⟩
    · rcases List.mem_append.mp inside with before | last
      · exact add_isSome (sound.consistent.dir_entry found before isDir)
      · rw [List.mem_singleton.mp last, Tree.add_new apart]
        rfl
    · cases new
      cases inside
    · exact add_isSome (sound.consistent.dir_entry old inside isDir)
  obtain ⟨shut, after, ran, edited, dots, _⟩ := mkdirNode_spec mknod shelved (add_isSome sound.consistent.root) distinct closed
    (leads.add found vacant) slashless lastSlashless nonempty Tree.add_here lists.name absent (.inr rfl) apart empty
  have member := sound.member target entries found
  have rows := edited.rows.agree dots.others ⟨.inl member, apart.symm⟩
  have left : 0 < freeBlocks shut ↔
      blockCount (fileSize s target + direntSize) - blockCount (fileSize s target) < freeBlocks s := by
    have longer : fileSize shut target = fileSize s target + direntSize := by
      rw [edited.rows.size, lists.size, List.length_append, List.length_singleton, Nat.succ_mul]
    have moved : freeBlocks shut + blockCount (fileSize s target + direntSize) =
        freeBlocks s + blockCount (fileSize s target) := by
      rw [← longer]
      exact edited.spare.trans same
    have enough : blockCount (fileSize s target + direntSize) ≤ freeBlocks s + blockCount (fileSize s target) :=
      (accepts_iff.mp accepts).2
    have grows : blockCount (fileSize s target) ≤ blockCount (fileSize s target + direntSize) := by
      simp only [blockCount, divRoundUp, blockSize]
      omega
    omega
  refine ⟨after, ran, rows.dirEntries_eq, ?_⟩
  rw [dots.lists.dirEntries_eq]
  by_cases one : 0 < freeBlocks shut
  · rw [if_pos one, if_pos (left.mp one)]
  · rw [if_neg one, if_neg fun more => one (left.mpr more)]

structure MkdirWhole (s : State) (chars : List UInt8) : Prop where
  defined : sysMkdir s (slash :: chars) ≠ .error .fault
  made : ∀ after, sysMkdir s (slash :: chars) = .ok (0, after) → ∃ up i, resolveDir s 0 (splitPath chars).1 = some up ∧
    ⟨(splitPath chars).2, i, .dir⟩ ∈ dirEntries after up ∧ dirEntries after i = [⟨dot, i, .dir⟩, ⟨ddot, up, .dir⟩]
  nothing : ∀ result after, sysMkdir s (slash :: chars) = .ok (result, after) → result < 0 → Untraced s after

/-- The name fits its field, and when the node can be made there is one more block for the two entries. -/
def MkdirRoom (s : State) (target : Nat) (last : List UInt8) : Prop :=
  last.length < nameBytes ∧ (FreeInode s ∧ Accepts s target → last.length ≤ maxFileNameLen ∧
    blockCount (fileSize s target + direntSize) - blockCount (fileSize s target) < freeBlocks s)

section

variable {chars : List UInt8}

theorem mkdir_refused {result : Int} (mknod : sysMknod s (slash :: chars) .reg 0 = .ok (result, after))
    (negative : result < 0) (untraced : Untraced s after) : MkdirWhole s chars := by
  have ran : sysMkdir s (slash :: chars) = .ok (result, after) := by
    simp only [sysMkdir, mknod, Bind.bind, Except.bind, if_pos negative]
    rfl
  constructor
  case defined =>
    rw [ran]
    intro same
    cases same
  case made =>
    intro final same
    rw [ran] at same
    cases same
    cases negative
  case nothing =>
    intro result' final same _
    rw [ran] at same
    cases same
    exact untraced

theorem mkdir_error {e : Halt} (mknod : sysMknod s (slash :: chars) .reg 0 = .error e) : MkdirWhole s chars ↔ e ≠ .fault := by
  have ran : sysMkdir s (slash :: chars) = .error e := by
    simp only [sysMkdir, mknod, Bind.bind, Except.bind]
  constructor
  · intro whole same
    exact whole.defined (same ▸ ran)
  · intro sane
    constructor
    case defined =>
      rw [ran]
      intro same
      cases same
      exact sane rfl
    case made =>
      intro final same
      rw [ran] at same
      cases same
    case nothing =>
      intro result final same
      rw [ran] at same
      cases same

variable (sound : Sound base created tree s) (path : slash :: chars = pathOf (parents ++ [last]))
  (slashless : ∀ name ∈ parents, slash ∉ name)
include sound path slashless

theorem mkdir_nowhere (nonzero : ∀ name ∈ parents, 0 ∉ name) (unresolved : resolveDir s 0 parents = none) :
    MkdirWhole s chars := by
  rcases @Sound.pathPrase_nowhere base created tree s last sound parents slashless nonzero unresolved with
    ⟨e, failed, sane⟩ | ⟨de, after, parsed, undone, locks⟩
  · rw [← path] at failed
    have mknod : sysMknod s (slash :: chars) .reg 0 = .error e := by
      simp only [sysMknod, failed, Bind.bind, Except.bind]
      rfl
    exact (mkdir_error mknod).mpr sane
  · rw [← path] at parsed
    have mknod : sysMknod s (slash :: chars) .reg 0 = .ok (-direntIsntExist, after) := by
      simp only [sysMknod, parsed, Bind.bind, Except.bind]
      rfl
    exact mkdir_refused mknod (by decide) (sound.untraced undone locks)

variable (lastSlashless : slash ∉ last) (found : tree target = some entries)
  (parsed : pathPrase s (pathOf (parents ++ [last])) = .ok ((target : Int), de, middle))
  (undone : Undone base created s middle) (locks : Locks middle [])

omit slashless in
include found parsed undone locks in
theorem mkdir_present {entry : Entry} (member : entry ∈ entries) (is : de.Is entry) : MkdirWhole s chars := by
  by_cases there : de.iNo = ulongMax
  · have good := ((sound.lists target entries found).name entry member).entryName
    rcases mknod_rows sound found parsed undone locks there is.name good with
      ⟨_, result, after, mknod, negative, untraced⟩ | ⟨absent, _⟩
    · exact mkdir_refused (path ▸ mknod) negative untraced
    · exact absurd rfl (absent entry member)
  · exact mkdir_refused (path ▸ sysMknod_present (.inr rfl) parsed there) (by decide) (sound.untraced undone locks)

include lastSlashless found parsed undone locks in
theorem mkdir_absent (split : splitPath chars = (parents, last)) (resolved : resolveDir s 0 parents = some target)
    (nonempty : last ≠ []) (good : EntryName last) (absent : ∀ entry ∈ entries, entry.name ≠ last)
    (notThere : de.iNo = ulongMax) (filename : de.filename = cstr last) :
    MkdirWhole s chars ↔ MkdirRoom s target last := by
  obtain ⟨top, root⟩ := Option.isSome_iff_exists.mp sound.consistent.root
  rcases mknod_rows sound found parsed undone locks notThere (filename ▸ spells_cstr last) good with
    ⟨why, result, after, mknod, negative, untraced⟩ | ⟨_, free, accepts, i, type, made, mknod, vacant, apart, empty, same, shelved⟩
  · refine ⟨fun _ => ⟨good.short, fun both => ?_⟩, fun _ => mkdir_refused (path ▸ mknod) negative untraced⟩
    rcases why with ⟨other, inside, named⟩ | lacks
    · exact absurd named (absent other inside)
    · exact absurd both lacks
  obtain ⟨after, ran, above, below⟩ := mkdir_rows sound (sound.leads root resolved) slashless lastSlashless nonempty found
    absent accepts mknod vacant apart empty same shelved
  rw [← path] at ran
  constructor
  · intro whole
    obtain ⟨up, j, reached, listed, dots⟩ := whole.made after ran
    rw [split] at reached listed
    rw [resolved] at reached
    cases reached
    rw [above] at listed
    rcases List.mem_append.mp listed with old | new
    · exact absurd rfl (absent _ old)
    have entry := List.mem_singleton.mp new
    have name : last = last.take maxFileNameLen := congrArg Entry.name entry
    obtain rfl : j = i := congrArg Entry.iNo entry
    refine ⟨good.short, fun _ => ⟨?_, ?_⟩⟩
    · rw [name]
      exact List.length_take_le _ _
    · by_contra none
      rw [below, if_neg none] at dots
      cases dots
  · intro room
    obtain ⟨fits, enough⟩ := room.2 ⟨free, accepts⟩
    rw [List.take_of_length_le fits] at above
    rw [if_pos enough] at below
    constructor
    case defined =>
      rw [ran]
      intro same
      cases same
    case made =>
      intro final same'
      rw [ran] at same'
      cases same'
      rw [split]
      exact ⟨target, i, resolved, by rw [above]; simp, below⟩
    case nothing =>
      intro result final same' negative
      rw [ran] at same'
      cases same'
      cases negative

end

/-- Unless the name runs over its field, or no block is left for the entries of the new directory. -/
theorem mkdir_whole_iff (s : State) (consistent : ConsistentTree s) (chars : List UInt8) (nonzero : 0 ∉ chars) :
    MkdirWhole s chars ↔ ∀ target, resolveDir s 0 (splitPath chars).1 = some target → (splitPath chars).2 ≠ [] →
      (∀ entry ∈ dirEntries s target, entry.name ≠ (splitPath chars).2) → MkdirRoom s target (splitPath chars).2 := by
  obtain ⟨base, created, tree, sound⟩ := consistent
  obtain ⟨top, root⟩ := Option.isSome_iff_exists.mp sound.consistent.root
  obtain ⟨slashless, lastSlashless⟩ := splitPath_slashless chars
  have nonzeros : ∀ name ∈ (splitPath chars).1 ++ [(splitPath chars).2], 0 ∉ name := by
    intro name inside zero
    apply nonzero
    rw [← joined_splitPath chars]
    exact mem_joined ⟨name, inside, zero⟩
  have path : slash :: chars = pathOf ((splitPath chars).1 ++ [(splitPath chars).2]) := by
    rw [pathOf_joined, joined_splitPath]
  rcases split : splitPath chars with ⟨parents, last⟩
  rw [split] at slashless lastSlashless nonzeros path
  dsimp only at slashless lastSlashless nonzeros path ⊢
  have lastNonzero := nonzeros last (List.mem_append_right _ (List.mem_singleton_self _))
  cases resolved : resolveDir s 0 parents with
  | none =>
    refine ⟨fun _ target found => (by cases found), fun _ => ?_⟩
    exact mkdir_nowhere sound path slashless (fun name inside => nonzeros name (List.mem_append_left _ inside)) resolved
  | some target =>
    have leads := sound.leads root resolved
    obtain ⟨entries, found⟩ := sound.leads_dir leads
    have single : (∀ up, some target = some up → last ≠ [] → (∀ entry ∈ dirEntries s up, entry.name ≠ last) →
        MkdirRoom s up last) ↔ (last ≠ [] → (∀ entry ∈ entries, entry.name ≠ last) → MkdirRoom s target last) := by
      rw [← sound.dirEntries found]
      constructor
      · exact fun all => all target rfl
      · intro one up same
        cases same
        exact one
    rw [single]
    by_cases fits : last.length < nameBytes
    swap
    · have nonempty : last ≠ [] := by
        rintro rfl
        exact fits (by decide)
      have absent : ∀ entry ∈ entries, entry.name ≠ last := by
        intro entry member named
        have short := ((sound.lists target entries found).name entry member).entryName.short
        rw [named] at short
        exact fits short
      have fault := sysMknod_overrun sound leads slashless found nonempty lastSlashless lastNonzero absent (Nat.not_lt.mp fits)
      rw [← path] at fault
      rw [mkdir_error fault]
      exact ⟨fun sane => absurd rfl sane, fun room => absurd (room nonempty absent).1 fits⟩
    obtain ⟨de, middle, parsed, undone, locks, ⟨entry, named, is⟩ | ⟨missing, notThere, filename⟩⟩ :=
      pathPrase_last sound.toIntact leads slashless lastSlashless lastNonzero fits found
    · have member := lastNamed_mem named
      refine ⟨fun _ nonempty absent => ?_, fun _ => mkdir_present sound path found parsed undone locks member is⟩
      rw [lastNamed, if_neg nonempty] at named
      have same := List.find?_some named
      exact absurd (beq_iff_eq.mp same) (absent entry member)
    · have nonempty : last ≠ [] := by
        intro empty
        rw [lastNamed, if_pos empty, List.head?_eq_none_iff] at missing
        have self := sound.consistent.self target entries found
        rw [missing] at self
        cases self
      rw [lastNamed, if_neg nonempty] at missing
      have absent : ∀ entry ∈ entries, entry.name ≠ last :=
        fun entry member named => List.find?_eq_none.mp missing entry member (beq_iff_eq.mpr named)
      rw [mkdir_absent sound path slashless lastSlashless found parsed undone locks split resolved nonempty
        ⟨fits, lastNonzero⟩ absent notThere filename]
      exact ⟨fun room _ _ => room, fun room => room nonempty absent⟩

/-- The root directory has taken the only block: `/a` is made without '.' and '..', and the result is 0. -/
theorem mkdir_without_dots : ∃ s after, format (fun _ _ => 0) ⟨64, 64⟩ = .ok s ∧ ConsistentTree s ∧
    sysMkdir s [47, 97] = .ok (0, after) ∧ dirEntries after 0 = dotEntries ++ [⟨[97], 1, .dir⟩] ∧ dirEntries after 1 = [] ∧
    ¬ MkdirWhole s [97] := by
  have evaluated : endsIn (format (fun _ _ => 0) ⟨64, 64⟩) (fun s =>
      endsIn (sysMkdir s [47, 97]) fun done => decide (done.1 = 0 ∧
        dirEntries done.2 0 = dotEntries ++ [⟨[97], 1, .dir⟩] ∧ dirEntries done.2 1 = [])) = true := by
    decide +kernel
  obtain ⟨s, formatted, rest⟩ := exists_of_endsIn evaluated
  obtain ⟨⟨result, after⟩, ran, facts⟩ := exists_of_endsIn rest
  rw [decide_eq_true_eq] at facts
  obtain ⟨rfl, above, below⟩ := facts
  refine ⟨s, after, formatted, ⟨_, _, _, (format_sound formatted).1⟩, ran, above, below, ?_⟩
  intro whole
  obtain ⟨up, i, resolved, listed, dots⟩ := whole.made after ran
  cases resolved
  rw [above] at listed
  have number : i = 1 := by
    simpa [dotEntries, splitPath, dot, ddot, slash] using listed
  rw [number, below] at dots
  cases dots

theorem mkdir_whole_roomy : ∃ s, format (fun _ _ => 7) ⟨64, 800⟩ = .ok s ∧ MkdirWhole s [97] := by
  have evaluated : endsIn (format (fun _ _ => 7) ⟨64, 800⟩) (fun s => decide (blockCount (fileSize s 0 + direntSize) -
      blockCount (fileSize s 0) < freeBlocks s)) = true := by
    decide +kernel
  obtain ⟨s, formatted, enough⟩ := exists_of_endsIn evaluated
  rw [decide_eq_true_eq] at enough
  refine ⟨s, formatted, (mkdir_whole_iff s ⟨_, _, _, (format_sound formatted).1⟩ [97] (by decide)).mpr ?_⟩
  intro target resolved _ _
  cases resolved
  exact ⟨by decide, fun _ => ⟨by decide, enough⟩⟩

end RecoverOs.Fs
