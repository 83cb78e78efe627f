import RecoverOs.Fs.Directory
import Mathlib.Data.List.Nodup

namespace RecoverOs.Fs

open Bytes Transition

variable {base : Nat} {created : Nat → Prop} {s middle after : State} {p : Ptr} {dNo : Nat}

abbrev Tree := Nat → Option (List Entry)

/-- The directories of the tree are on the disk, and nobody holds a lock. -/
structure Stored (base : Nat) (created : Nat → Prop) (tree : Tree) (s : State) : Prop where
  inv : FileInv base created s
  member : ∀ d entries, tree d = some entries → created d
  lists : ∀ d entries, tree d = some entries → Lists s d entries
  locks : Locks s []

/-- The same with names that may run over their fields. -/
structure Shelved (base : Nat) (created : Nat → Prop) (tree : Tree) (s : State) : Prop where
  inv : FileInv base created s
  member : ∀ d entries, tree d = some entries → created d
  rows : ∀ d entries, tree d = some entries → Rows s d entries
  locks : Locks s []

theorem Stored.shelved {tree : Tree} (stored : Stored base created tree s) : Shelved base created tree s where
  inv := stored.inv
  member := stored.member
  rows := fun d entries found => (stored.lists d entries found).rows
  locks := stored.locks

theorem Shelved.undone {tree : Tree} (shelved : Shelved base created tree s) (undone : Undone base created s after)
    (locks : Locks after []) : Shelved base created tree after where
  inv := undone.inv
  member := shelved.member
  rows := fun d entries found => (shelved.rows d entries found).agree undone.files (shelved.member d entries found)
  locks := locks

theorem Stored.undone {tree : Tree} (stored : Stored base created tree s) (undone : Undone base created s after)
    (locks : Locks after []) : Stored base created tree after where
  inv := undone.inv
  member := stored.member
  lists := fun d entries found => (stored.lists d entries found).agree undone.files (stored.member d entries found)
  locks := locks

structure Component (name : List UInt8) : Prop extends FileName name where
  nonempty : name ≠ []
  slashless : slash ∉ name

inductive Leads (tree : Tree) : Nat → List (List UInt8) → Nat → Prop
  | here (d : Nat) : Leads tree d [] d
  | down {d target : Nat} {entries : List Entry} {entry : Entry} {rest : List (List UInt8)}
      (found : tree d = some entries) (member : entry ∈ entries) (isDir : entry.fType = .dir)
      (later : Leads tree entry.iNo rest target) : Leads tree d (entry.name :: rest) target

inductive LastEntry (entries : List Entry) (name : List UInt8) (de : Dirent) : Prop
  | found (entry : Entry) (member : entry ∈ entries) (named : entry.name = name) (is : de.Is entry)
  | missing (absent : ∀ entry ∈ entries, entry.name ≠ name) (iNo : de.iNo = ulongMax) (filename : de.filename = cstr name)

def pathOf (components : List (List UInt8)) : List UInt8 := components.flatMap fun name => slash :: name

def joined : List (List UInt8) → List UInt8 → List UInt8
  | [], last => last
  | name :: rest, last => name ++ slash :: joined rest last

theorem pathOf_joined (parents : List (List UInt8)) (last : List UInt8) :
    pathOf (parents ++ [last]) = slash :: joined parents last := by
  induction parents with
  | nil => simp [pathOf, joined]
  | cons name rest ih =>
    have step : pathOf (name :: rest ++ [last]) = slash :: (name ++ pathOf (rest ++ [last])) := by
      simp [pathOf]
    rw [step, ih, joined]

theorem Component.fits {name : List UInt8} (good : Component name) : name.length < nameBytes := by
  have short := good.short
  simp only [maxFileNameLen] at short
  simp only [nameBytes, direntSize]
  omega

theorem walk_chars {name : List UInt8} (slashless : slash ∉ name) (start rest : List UInt8) :
    walk s p start (name ++ rest) = walk s p (start ++ name) rest := by
  induction name generalizing start with
  | nil => simp
  | cons c name ih =>
    have other : c ≠ slash := fun same => slashless (same ▸ List.mem_cons_self ..)
    rw [List.cons_append, walk, if_neg other, ih (fun inside => slashless (List.mem_cons_of_mem _ inside))]
    simp

theorem Rows.readDirent {entries : List Entry} {k : Nat} {entry : Entry} (rows : Rows s dNo entries)
    (inv : OwnInv base created s) (isOpen : IsOpen s p dNo) (found : entries[k]? = some entry) :
    ∃ de, readDirent s p (k : Int) = .ok de ∧ de.Is entry := by
  have member : created dNo := isOpen.iNo ▸ inv.members p isOpen.mem
  obtain ⟨buf, read, is, _⟩ := rows.read inv.cache isOpen (inv.size dNo member) found
  refine ⟨Dirent.load buf, ?_, is⟩
  simp only [Fs.readDirent, Int.toNat_natCast, read, Bind.bind, Except.bind, if_true]
  rfl

/-- The end of `path_prase`. The handle on the last directory is not closed. -/
theorem lastEntry_spec {tree : Tree} {entries : List Entry} {name : List UInt8} (shelved : Shelved base created tree s)
    (found : tree dNo = some entries) (isOpen : IsOpen s p dNo) (nonempty : name ≠ []) (nonzero : 0 ∉ name)
    (fits : name.length < nameBytes) :
    ∃ de after, lastEntry s p name = .ok ((dNo : Int), de, after) ∧ LastEntry entries name de ∧
      Undone base created s after ∧ Locks after [] := by
  obtain ⟨locked, down, lockUndone, lockSame, lockLocks, _⟩ :=
    semaDown_spec shelved.inv shelved.locks isOpen List.not_mem_nil
  have lockedOpen := isOpen.same lockSame
  have rows := (shelved.rows dNo entries found).agree lockUndone.files (shelved.member dNo entries found)
  obtain ⟨after, up, upUndone, upSame, upLocks⟩ := semaUp_spec lockUndone.inv lockLocks List.not_mem_nil
  have number : (locked.inode p).iNo = dNo := lockedOpen.iNo
  rcases direntSearch_spec rows lockUndone.inv.toOwnInv lockedOpen (spells_cstr name) nonzero with
    ⟨k, entry, at', named, ran⟩ | ⟨absent, ran⟩
  · obtain ⟨de, read, is⟩ := rows.readDirent lockUndone.inv.toOwnInv lockedOpen at'
    refine ⟨de, after, ?_, .found entry (List.mem_of_getElem? at') named is, lockUndone.trans upUndone, upLocks⟩
    simp only [lastEntry, down, nonempty, if_false, ran, Bind.bind, Except.bind]
    rw [if_neg (by omega)]
    simp only [read, up, number]
    rfl
  · refine ⟨{ iNo := ulongMax, filename := cstr name, fType := .other 0 }, after, ?_, .missing absent rfl rfl,
      lockUndone.trans upUndone, upLocks⟩
    simp only [lastEntry, down, nonempty, if_false, ran, Bind.bind, Except.bind]
    rw [if_pos (by decide), if_pos fits]
    simp only [up, number]
    rfl

theorem lastEntry_long {tree : Tree} {entries : List Entry} {name : List UInt8} (shelved : Shelved base created tree s)
    (found : tree dNo = some entries) (isOpen : IsOpen s p dNo) (nonempty : name ≠ []) (nonzero : 0 ∉ name)
    (absent : ∀ entry ∈ entries, entry.name ≠ name) (long : nameBytes ≤ name.length) :
    lastEntry s p name = .error .fault := by
  obtain ⟨locked, down, lockUndone, lockSame, _⟩ := semaDown_spec shelved.inv shelved.locks isOpen List.not_mem_nil
  have rows := (shelved.rows dNo entries found).agree lockUndone.files (shelved.member dNo entries found)
  rcases direntSearch_spec rows lockUndone.inv.toOwnInv (isOpen.same lockSame) (spells_cstr name) nonzero with
    ⟨k, entry, at', named, _⟩ | ⟨_, ran⟩
  · exact absurd named (absent entry (List.mem_of_getElem? at'))
  · simp only [lastEntry, down, nonempty, if_false, ran, Bind.bind, Except.bind]
    rw [if_pos (by decide), if_neg (Nat.not_lt.mpr long)]

theorem lookup_spec {tree : Tree} {entries : List Entry} {entry : Entry} (shelved : Shelved base created tree s)
    (found : tree dNo = some entries) (distinct : (entries.map Entry.name).Nodup) (isOpen : IsOpen s p dNo)
    (member : entry ∈ entries) :
    ∃ locked k de raised, semaDown s p = .ok locked ∧ direntSearch locked p (cstr entry.name) = .ok ((k : Nat) : Int) ∧
      readDirent locked p (k : Int) = .ok de ∧ de.Is entry ∧ semaUp locked p = .ok raised ∧ IsOpen raised p dNo ∧
      Undone base created s raised ∧ Locks raised [] ∧ decide (entry.name.length + 1 ≤ kallocMax) = true := by
  obtain ⟨locked, down, lockUndone, lockSame, lockLocks, _⟩ :=
    semaDown_spec shelved.inv shelved.locks isOpen List.not_mem_nil
  have lockedOpen := isOpen.same lockSame
  have rows := (shelved.rows dNo entries found).agree lockUndone.files (shelved.member dNo entries found)
  rcases direntSearch_spec rows lockUndone.inv.toOwnInv lockedOpen (spells_cstr entry.name)
      (rows.name entry member).nonzero with ⟨k, other, at', named, ran⟩ | ⟨absent, _⟩
  swap
  · exact absurd rfl (absent entry member)
  have same : other = entry := List.inj_on_of_nodup_map distinct (List.mem_of_getElem? at') member named
  subst same
  obtain ⟨de, read, is⟩ := rows.readDirent lockUndone.inv.toOwnInv lockedOpen at'
  obtain ⟨raised, up, upUndone, upSame, upLocks⟩ := semaUp_spec lockUndone.inv lockLocks List.not_mem_nil
  refine ⟨locked, k, de, raised, down, ran, read, is, up, lockedOpen.same upSame, lockUndone.trans upUndone, upLocks, ?_⟩
  have bound := (rows.name other member).short
  apply decide_eq_true
  simp only [nameBytes, direntSize] at bound
  simp only [kallocMax]
  omega

theorem descend_spec {tree : Tree} {child : List Entry} {e : Nat} (shelved : Shelved base created tree s)
    (isOpen : IsOpen s p dNo) (below : tree e = some child) :
    ∃ shut q opened, inodeClose s p = .ok shut ∧ inodeOpen shut e = .ok (some q, opened) ∧ IsOpen opened q e ∧
      Undone base created s opened ∧ Locks opened [] := by
  obtain ⟨shut, close, _, closeUndone, closeLocks⟩ := inodeClose_spec shelved.inv isOpen shelved.locks List.not_mem_nil
  obtain ⟨q, opened, opens, open', openUndone, openLocks, _⟩ :=
    inodeOpen_spec closeUndone.inv (shelved.member e child below) closeLocks fun q inside => by cases inside
  exact ⟨shut, q, opened, close, opens, open'.isOpen, closeUndone.trans openUndone, openLocks⟩

theorem walk_down {tree : Tree} {entries child : List Entry} {entry : Entry} (shelved : Shelved base created tree s)
    (found : tree dNo = some entries) (distinct : (entries.map Entry.name).Nodup) (isOpen : IsOpen s p dNo)
    (member : entry ∈ entries) (isDir : entry.fType = .dir) (below : tree entry.iNo = some child)
    (slashless : slash ∉ entry.name) (rest : List UInt8) :
    ∃ q after, walk s p [] (entry.name ++ slash :: rest) = walk after q [] rest ∧ IsOpen after q entry.iNo ∧
      Undone base created s after ∧ Locks after [] := by
  obtain ⟨locked, k, de, raised, down, ran, read, is, up, raisedOpen, undone, locks, short⟩ :=
    lookup_spec shelved found distinct isOpen member
  obtain ⟨shut, q, opened, close, opens, open', undone', locks'⟩ :=
    descend_spec (shelved.undone undone locks) raisedOpen below
  refine ⟨q, opened, ?_, open', undone.trans undone', locks'⟩
  have fType : de.fType = .dir := is.fType.trans isDir
  rw [walk_chars slashless, List.nil_append, walk, if_pos rfl]
  simp only [(assert_ok _ ()).mpr short, down, ran, Bind.bind, Except.bind]
  rw [if_neg (by omega)]
  simp only [read, up]
  rw [if_neg (by simp [fType])]
  simp only [close, is.iNo, opens, deref]

section

variable {tree : Tree} {parents : List (List UInt8)} {last : List UInt8} {target : Nat}
  (distinct : ∀ d entries, tree d = some entries → (entries.map Entry.name).Nodup)
  (closed : ∀ d entries, tree d = some entries → ∀ entry ∈ entries, entry.fType = .dir → (tree entry.iNo).isSome)

include distinct closed

theorem walk_leads (shelved : Shelved base created tree s) (isOpen : IsOpen s p dNo) (leads : Leads tree dNo parents target)
    (slashless : ∀ name ∈ parents, slash ∉ name) (lastSlashless : slash ∉ last) :
    ∃ q middle, walk s p [] (joined parents last) = lastEntry middle q last ∧ IsOpen middle q target ∧
      Undone base created s middle ∧ Locks middle [] := by
  induction leads generalizing s p with
  | here d =>
    refine ⟨p, s, ?_, isOpen, .refl shelved.inv, shelved.locks⟩
    rw [joined, ← List.append_nil last, walk_chars lastSlashless]
    simp only [List.nil_append, walk, List.append_nil]
  | @down d target entries entry rest listed member isDir later ih =>
    obtain ⟨child, below⟩ := Option.isSome_iff_exists.mp (closed d entries listed entry member isDir)
    obtain ⟨q, next, turn, nextOpen, undone, locks⟩ := walk_down shelved listed (distinct d entries listed) isOpen member
      isDir below (slashless entry.name (List.mem_cons_self ..)) (joined rest last)
    obtain ⟨q', middle, walked, middleOpen, undone', locks'⟩ := ih (shelved.undone undone locks) nextOpen
      (fun name inside => slashless name (List.mem_cons_of_mem _ inside))
    refine ⟨q', middle, ?_, middleOpen, undone.trans undone', locks'⟩
    rw [joined, turn, walked]

theorem pathPrase_walks (shelved : Shelved base created tree s) (root : (tree 0).isSome) (leads : Leads tree 0 parents target)
    (slashless : ∀ name ∈ parents, slash ∉ name) (lastSlashless : slash ∉ last) :
    ∃ q middle, pathPrase s (pathOf (parents ++ [last])) = lastEntry middle q last ∧ IsOpen middle q target ∧
      Undone base created s middle ∧ Locks middle [] := by
  obtain ⟨top, listed⟩ := Option.isSome_iff_exists.mp root
  obtain ⟨p, opened, opens, open', undone, locks, _⟩ :=
    inodeOpen_spec shelved.inv (shelved.member 0 top listed) shelved.locks fun q inside => by cases inside
  obtain ⟨q, middle, walked, middleOpen, undone', locks'⟩ := walk_leads distinct closed
    (shelved.undone undone locks) open'.isOpen leads slashless lastSlashless
  refine ⟨q, middle, ?_, middleOpen, undone.trans undone', locks'⟩
  rw [pathOf_joined]
  simp only [pathPrase, opens, deref, Bind.bind, Except.bind]
  exact walked

end

end RecoverOs.Fs
