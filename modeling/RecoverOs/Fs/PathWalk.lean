import RecoverOs.Fs.TreeRuns

namespace RecoverOs.Fs

open Bytes Transition

/-- The disk holds a consistent directory tree and no inode is locked. -/
def ConsistentTree (s : State) : Prop := ∃ base created tree, Sound base created tree s

/-- `path_prase` is the walk through the components, and its buffer is the entry of the last one. -/
theorem path_prase_walks (s : State) (consistent : ConsistentTree s) (parents : List (List UInt8)) (last : List UInt8)
    (components : ∀ name ∈ parents ++ [last], Component name) (target : Nat)
    (resolved : resolveDir s 0 parents = some target) :
    ∃ de after, pathPrase s (pathOf (parents ++ [last])) = .ok ((target : Int), de, after) ∧
      (∀ entry ∈ dirEntries s target, entry.name = last → de.Is entry) ∧
      ((∀ entry ∈ dirEntries s target, entry.name ≠ last) → de.iNo = ulongMax ∧ Spells de.filename last) := by
  obtain ⟨base, created, tree, sound⟩ := consistent
  obtain ⟨top, root⟩ := Option.isSome_iff_exists.mp sound.consistent.root
  have leads := sound.leads root resolved
  obtain ⟨entries, found⟩ := sound.leads_dir leads
  have slashless : ∀ name ∈ parents, slash ∉ name := fun name inside =>
    (components name (List.mem_append_left _ inside)).slashless
  obtain ⟨de, after, ran, lastIs, _⟩ := pathPrase_spec sound.toIntact leads slashless (components last (by simp)) found
  refine ⟨de, after, ran, ?_⟩
  rw [sound.dirEntries found]
  cases lastIs with
  | found entry member named is =>
    refine ⟨?_, fun absent => absurd named (absent entry member)⟩
    intro other inside named'
    rw [sound.consistent.same_entry found inside member (named'.trans named.symm)]
    exact is
  | missing absent iNo filename =>
    exact ⟨fun entry inside named => absurd named (absent entry inside), fun _ => ⟨iNo, filename ▸ spells_cstr last⟩⟩

theorem path_prase_walks_deep : ∃ start s de after, format (fun _ _ => 7) ⟨64, 800⟩ = .ok start ∧
    run treeStep start (deepCalls.take 2) = .ok s ∧ pathPrase s [47, 97, 47, 102] = .ok (1, de, after) ∧
    de.Is ⟨[102], 2, .reg⟩ := by
  have evaluated : endsIn (format (fun _ _ => 7) ⟨64, 800⟩) (fun start =>
      endsIn (run treeStep start (deepCalls.take 2)) fun s => decide (resolveDir s 0 [[97]] = some 1 ∧
        dirEntries s 1 = [⟨dot, 1, .dir⟩, ⟨ddot, 0, .dir⟩, ⟨[102], 2, .reg⟩])) = true := by
    decide +kernel
  obtain ⟨start, formatted, rest⟩ := exists_of_endsIn evaluated
  obtain ⟨s, ran, facts⟩ := exists_of_endsIn rest
  rw [decide_eq_true_eq] at facts
  obtain ⟨created, tree, sound, _⟩ := run_invariant (fun s call after inv _ ran => treeStep_inv s call after inv ran)
    (format_treeInv formatted) (meets_true treeStep start _) ran
  have components : ∀ name ∈ [[97]] ++ [[102]], Component name := by
    intro name inside
    simp only [List.cons_append, List.nil_append, List.mem_cons, List.not_mem_nil, or_false] at inside
    rcases inside with rfl | rfl
    · exact ⟨⟨by decide, by decide⟩, by decide, by decide⟩
    · exact ⟨⟨by decide, by decide⟩, by decide, by decide⟩
  obtain ⟨de, after, parsed, present, _⟩ :=
    path_prase_walks s ⟨_, created, tree, sound⟩ [[97]] [102] components 1 facts.1
  refine ⟨start, s, de, after, formatted, ran, parsed, present _ ?_ rfl⟩
  rw [facts.2]
  simp

/-- The blocks of kernel memory a call has taken and not yet freed. -/
structure Blocks where
  live : List Nat
  fresh : Nat

def kalloc (h : Blocks) (size : Nat) : Except Halt (Nat × Blocks) := do
  assert (decide (size ≤ kallocMax))
  return (h.fresh, { live := h.fresh :: h.live, fresh := h.fresh + 1 })

def kfree (h : Blocks) (block : Nat) : Blocks := { h with live := h.live.erase block }

/-- The loop of `path_prase` with the memory it takes: one block for the component and one for its entry. -/
def walkBlocks (s : State) (h : Blocks) (inode : Ptr) (name : List UInt8) :
    List UInt8 → Except Halt (Int × Dirent × State × Blocks)
  | [] => do
    let (pINo, deBuf, s) ← lastEntry s inode name
    return (pINo, deBuf, s, h)
  | c :: rest =>
    if c = slash then do
      let (nameBlock, h) ← kalloc h (name.length + 1)
      let s ← semaDown s inode
      let dirIdx ← direntSearch s inode (cstr name)
      let unset : Dirent := { iNo := 0, filename := fun _ => 0, fType := .other 0 }
      if dirIdx < 0 then
        let s ← inodeClose s inode
        return (-direntIsntExist, unset, s, h)
      else
        let (deBlock, h) ← kalloc h direntSize
        let de ← readDirent s inode dirIdx
        let s ← semaUp s inode
        if de.fType ≠ .dir then
          let s ← inodeClose s inode
          return (-direntIsntExist, unset, s, h)
        else
          let s ← inodeClose s inode
          let (opened, s) ← inodeOpen s de.iNo
          let h := kfree (kfree h deBlock) nameBlock
          let inode ← deref opened
          walkBlocks s h inode [] rest
    else walkBlocks s h inode (name ++ [c]) rest

def pathPraseBlocks (s : State) (h : Blocks) (pathname : List UInt8) : Except Halt (Int × Dirent × State × Blocks) :=
  match pathname with
  | [] => .error .fault
  | _ :: rest => do
    let (opened, s) ← inodeOpen s 0
    let inode ← deref opened
    walkBlocks s h inode [] rest

def withoutBlocks (result : Int × Dirent × State × Blocks) : Int × Dirent × State := (result.1, result.2.1, result.2.2.1)

theorem walkBlocks_erase (s : State) (h : Blocks) (inode : Ptr) (name rest : List UInt8) :
    (walkBlocks s h inode name rest).map withoutBlocks = walk s inode name rest := by
  induction rest generalizing s h inode name with
  | nil =>
    rw [walkBlocks, walk, map_bind]
    exact bind_pure _
  | cons c rest ih =>
    rw [walkBlocks, walk]
    by_cases here : c = slash
    · have entry : assert (decide (direntSize ≤ kallocMax)) = pure () := by decide
      rw [if_pos here, if_pos here]
      simp only [kalloc, bind_assoc, pure_bind, map_bind]
      refine bind_congr fun _ => bind_congr fun locked => bind_congr fun dirIdx => ?_
      rw [apply_ite (Except.map withoutBlocks)]
      by_cases missing : dirIdx < 0
      · rw [if_pos missing, if_pos missing, map_bind]
        rfl
      · rw [if_neg missing, if_neg missing, entry]
        simp only [pure_bind, map_bind]
        refine bind_congr fun de => bind_congr fun raised => ?_
        rw [apply_ite (Except.map withoutBlocks)]
        by_cases other : de.fType ≠ .dir
        · rw [if_pos other, if_pos other, map_bind]
          rfl
        · rw [if_neg other, if_neg other]
          simp only [map_bind, ih]
    · rw [if_neg here, if_neg here]
      exact ih s h inode (name ++ [c])

/-- Leaving out the memory gives back `path_prase`. -/
theorem pathPraseBlocks_erase (s : State) (h : Blocks) (pathname : List UInt8) :
    (pathPraseBlocks s h pathname).map withoutBlocks = pathPrase s pathname := by
  cases pathname with
  | nil => rfl
  | cons c rest => simp only [pathPraseBlocks, pathPrase, map_bind, walkBlocks_erase]

/-- `path_prase` returns, and of the locks and blocks it has taken it holds none. -/
def Releases (s : State) (pathname : List UInt8) : Prop :=
  ∃ result de after h, pathPraseBlocks s ⟨[], 0⟩ pathname = .ok (result, de, after, h) ∧ h.live = [] ∧ Locks after []

def splitPath : List UInt8 → List (List UInt8) × List UInt8
  | [] => ([], [])
  | c :: rest =>
    match splitPath rest with
    | (parents, last) =>
      if c = slash then ([] :: parents, last)
      else
        match parents with
        | [] => ([], c :: last)
        | name :: parents => ((c :: name) :: parents, last)

theorem joined_splitPath (chars : List UInt8) : joined (splitPath chars).1 (splitPath chars).2 = chars := by
  induction chars with
  | nil => rfl
  | cons c rest ih =>
    rcases split : splitPath rest with ⟨parents, last⟩
    rw [split] at ih
    simp only [splitPath, split]
    by_cases here : c = slash
    · rw [if_pos here, joined, ih, here]
      rfl
    · rw [if_neg here]
      cases parents with
      | nil =>
        simp only [joined] at ih ⊢
        rw [ih]
      | cons name parents =>
        simp only [joined, List.cons_append] at ih ⊢
        rw [ih]

theorem splitPath_slashless (chars : List UInt8) :
    (∀ name ∈ (splitPath chars).1, slash ∉ name) ∧ slash ∉ (splitPath chars).2 := by
  induction chars with
  | nil => exact ⟨fun name inside => absurd inside List.not_mem_nil, List.not_mem_nil⟩
  | cons c rest ih =>
    rcases split : splitPath rest with ⟨parents, last⟩
    rw [split] at ih
    obtain ⟨before, after⟩ := ih
    simp only [splitPath, split]
    by_cases here : c = slash
    · rw [if_pos here]
      refine ⟨?_, after⟩
      intro name inside
      rcases List.mem_cons.mp inside with rfl | inside
      · exact List.not_mem_nil
      · exact before name inside
    · rw [if_neg here]
      cases parents with
      | nil => exact ⟨before, by simp [Ne.symm here, after]⟩
      | cons first parents =>
        refine ⟨?_, after⟩
        intro name inside
        rcases List.mem_cons.mp inside with rfl | inside
        · have old := before first (List.mem_cons_self ..)
          simp [Ne.symm here, old]
        · exact before name (List.mem_cons_of_mem _ inside)

theorem mem_joined {parents : List (List UInt8)} {last : List UInt8} {c : UInt8} :
    (∃ name ∈ parents ++ [last], c ∈ name) → c ∈ joined parents last := by
  induction parents with
  | nil => simp [joined]
  | cons name parents ih =>
    rintro ⟨other, inside, here⟩
    rw [joined, List.mem_append, List.mem_cons]
    rw [List.cons_append, List.mem_cons] at inside
    rcases inside with rfl | inside
    · exact .inl here
    · exact .inr (.inr (ih ⟨other, inside, here⟩))

variable {base : Nat} {created : Nat → Prop} {tree : Tree} {s : State} {p : Ptr} {d target : Nat} {entries : List Entry}
  {entry : Entry} {h : Blocks} {name last : List UInt8}

theorem walkBlocks_chars (slashless : slash ∉ name) (start rest : List UInt8) :
    walkBlocks s h p start (name ++ rest) = walkBlocks s h p (start ++ name) rest := by
  induction name generalizing start with
  | nil => simp
  | cons c name ih =>
    have other : c ≠ slash := fun same => slashless (same ▸ List.mem_cons_self ..)
    rw [List.cons_append, walkBlocks, if_neg other, ih (fun inside => slashless (List.mem_cons_of_mem _ inside))]
    simp

def Frees (h : Blocks) (x : Except Halt (Int × Dirent × State × Blocks)) : Prop :=
  ∃ result de after h', x = .ok (result, de, after, h') ∧ h'.live = h.live ∧ Locks after []

def Answered (entries : List Entry) (last : List UInt8) : Prop :=
  last = [] ∨ (∃ entry ∈ entries, entry.name = last) ∨ last.length < nameBytes

section

variable (stored : Stored base created tree s) (found : tree d = some entries) (isOpen : IsOpen s p d)
include stored found isOpen

theorem lastEntry_empty (filled : entries ≠ []) :
    ∃ de after, lastEntry s p [] = .ok ((d : Int), de, after) ∧ de.Is (entries.head filled) ∧ Undone base created s after ∧
      Locks after [] := by
  obtain ⟨locked, down, undone, same, locks, _⟩ := semaDown_spec stored.inv stored.locks isOpen List.not_mem_nil
  have lockedOpen := isOpen.same same
  have lists := (stored.lists d entries found).agree undone.files (stored.member d entries found)
  have first : entries[0]? = some (entries.head filled) := by
    rw [← List.head?_eq_getElem?, List.head?_eq_some_head]
  obtain ⟨de, read, is⟩ := lists.rows.readDirent undone.inv.toOwnInv lockedOpen first
  obtain ⟨after, up, undone', _, upLocks⟩ := semaUp_spec undone.inv locks List.not_mem_nil
  refine ⟨de, after, ?_, is, undone.trans undone', upLocks⟩
  simp only [lastEntry, down, if_true, Bind.bind, Except.bind]
  rw [if_neg (by decide)]
  have zero : ((0 : Nat) : Int) = 0 := rfl
  rw [zero] at read
  simp only [read, up, lockedOpen.iNo]
  rfl

theorem last_frees (filled : entries ≠ []) (slashless : slash ∉ last) (nonzero : 0 ∉ last) :
    Frees h (walkBlocks s h p [] last) ↔ Answered entries last := by
  have turn : walkBlocks s h p [] last = (do
      let (pINo, deBuf, s) ← lastEntry s p last
      return (pINo, deBuf, s, h)) := by
    have chars := @walkBlocks_chars s p h last slashless [] []
    rw [List.append_nil, List.nil_append] at chars
    rw [chars]
    rfl
  rw [turn]
  have answers : ∀ de after, lastEntry s p last = .ok ((d : Int), de, after) → Locks after [] →
      Frees h (do
        let (pINo, deBuf, s) ← lastEntry s p last
        return (pINo, deBuf, s, h)) := by
    intro de after ran locks
    rw [ran]
    exact ⟨d, de, after, h, rfl, rfl, locks⟩
  by_cases nonempty : last = []
  · subst nonempty
    obtain ⟨de, after, ran, _, _, locks⟩ := lastEntry_empty stored found isOpen filled
    exact ⟨fun _ => .inl rfl, fun _ => answers de after ran locks⟩
  by_cases present : ∃ entry ∈ entries, entry.name = last
  · have fits : last.length < nameBytes := by
      obtain ⟨entry, member, rfl⟩ := present
      have short := ((stored.lists d entries found).name entry member).short
      simp only [maxFileNameLen] at short
      simp only [nameBytes, direntSize]
      omega
    obtain ⟨de, after, ran, _, _, locks⟩ := lastEntry_spec stored.shelved found isOpen nonempty nonzero fits
    exact ⟨fun _ => .inr (.inl present), fun _ => answers de after ran locks⟩
  by_cases fits : last.length < nameBytes
  · obtain ⟨de, after, ran, _, _, locks⟩ := lastEntry_spec stored.shelved found isOpen nonempty nonzero fits
    exact ⟨fun _ => .inr (.inr fits), fun _ => answers de after ran locks⟩
  · have overrun := lastEntry_long stored.shelved found isOpen nonempty nonzero
      (fun entry member named => present ⟨entry, member, named⟩) (Nat.not_lt.mp fits)
    constructor
    · rintro ⟨_, _, _, _, ran, _⟩
      rw [overrun] at ran
      cases ran
    · rintro (empty | there | short)
      · exact absurd empty nonempty
      · exact absurd there present
      · exact absurd short fits

theorem walkBlocks_missing (slashless : slash ∉ name) (nonzero : 0 ∉ name)
    (absent : ∀ entry ∈ entries, entry.name ≠ name) (rest : List UInt8) :
    ∃ e, walkBlocks s h p [] (name ++ slash :: rest) = .error e ∧ e ≠ .fault := by
  obtain ⟨locked, down, undone, same, locks, _⟩ := semaDown_spec stored.inv stored.locks isOpen List.not_mem_nil
  have lists := (stored.lists d entries found).agree undone.files (stored.member d entries found)
  have held := (locks.taken p (List.mem_cons_self ..)).2
  have stuck : inodeClose locked p = .error .stuck := by
    simp only [inodeClose, semaDown, if_pos held]
    rfl
  rw [walkBlocks_chars slashless, List.nil_append, walkBlocks, if_pos rfl]
  by_cases short : name.length + 1 ≤ kallocMax
  · rcases direntSearch_spec lists.rows undone.inv.toOwnInv (isOpen.same same) (spells_cstr name) nonzero with
      ⟨k, entry, at', named, _⟩ | ⟨_, ran⟩
    · exact absurd named (absent entry (List.mem_of_getElem? at'))
    · refine ⟨.stuck, ?_, Halt.noConfusion⟩
      simp only [kalloc, (assert_ok _ ()).mpr (decide_eq_true short), down, ran, Bind.bind, Except.bind, Pure.pure,
        Except.pure]
      rw [if_pos (by decide)]
      simp only [stuck]
  · refine ⟨.panic, ?_, Halt.noConfusion⟩
    simp only [kalloc, assert, decide_eq_false short, Bind.bind, Except.bind]
    rfl

section

variable (distinct : (entries.map Entry.name).Nodup) (member : entry ∈ entries) (slashless : slash ∉ entry.name)
include distinct member slashless

theorem walkBlocks_leak (other : entry.fType ≠ .dir) (rest : List UInt8) :
    ∃ de after h', walkBlocks s h p [] (entry.name ++ slash :: rest) = .ok (-direntIsntExist, de, after, h') ∧
      h'.live.length = h.live.length + 2 ∧ Undone base created s after ∧ Locks after [] := by
  obtain ⟨locked, k, de, raised, down, ran, read, is, up, raisedOpen, undone, locks, short⟩ :=
    lookup_spec stored.shelved found distinct isOpen member
  obtain ⟨shut, close, _, undone', locks'⟩ := inodeClose_spec undone.inv raisedOpen locks List.not_mem_nil
  have entrySize : decide (direntSize ≤ kallocMax) = true := by decide
  have fType : de.fType ≠ .dir := is.fType ▸ other
  refine ⟨⟨0, fun _ => 0, .other 0⟩, shut, { live := (h.fresh + 1) :: h.fresh :: h.live, fresh := h.fresh + 1 + 1 }, ?_,
    rfl, undone.trans undone', locks'⟩
  rw [walkBlocks_chars slashless, List.nil_append, walkBlocks, if_pos rfl]
  simp only [kalloc, (assert_ok _ ()).mpr short, (assert_ok _ ()).mpr entrySize, down, ran, Bind.bind, Except.bind,
    Pure.pure, Except.pure]
  rw [if_neg (by omega)]
  simp only [read, up]
  rw [if_pos fType]
  simp only [close]

theorem walkBlocks_down {child : List Entry} (isDir : entry.fType = .dir) (below : tree entry.iNo = some child)
    (rest : List UInt8) :
    ∃ q after h', walkBlocks s h p [] (entry.name ++ slash :: rest) = walkBlocks after h' q [] rest ∧
      h'.live = h.live ∧ IsOpen after q entry.iNo ∧ Undone base created s after ∧ Locks after [] := by
  obtain ⟨locked, k, de, raised, down, ran, read, is, up, raisedOpen, undone, locks, short⟩ :=
    lookup_spec stored.shelved found distinct isOpen member
  obtain ⟨shut, q, opened, close, opens, open', undone', locks'⟩ :=
    descend_spec (stored.undone undone locks).shelved raisedOpen below
  have entrySize : decide (direntSize ≤ kallocMax) = true := by decide
  have fType : de.fType = .dir := is.fType.trans isDir
  refine ⟨q, opened, kfree (kfree { live := (h.fresh + 1) :: h.fresh :: h.live, fresh := h.fresh + 1 + 1 } (h.fresh + 1))
    h.fresh, ?_, ?_, open', undone.trans undone', locks'⟩
  · rw [walkBlocks_chars slashless, List.nil_append, walkBlocks, if_pos rfl]
    simp only [kalloc, (assert_ok _ ()).mpr short, (assert_ok _ ()).mpr entrySize, down, ran, Bind.bind, Except.bind,
      Pure.pure, Except.pure]
    rw [if_neg (by omega)]
    simp only [read, up]
    rw [if_neg (by simp [fType])]
    simp only [close, is.iNo, opens, deref]
  · simp [kfree]

end

end

theorem leads_nil : Leads tree d [] target ↔ target = d := by
  constructor
  · intro leads
    cases leads
    rfl
  · rintro rfl
    exact .here _

theorem leads_cons {parents : List (List UInt8)} (found : tree d = some entries) :
    Leads tree d (name :: parents) target ↔
      ∃ entry ∈ entries, entry.name = name ∧ entry.fType = .dir ∧ Leads tree entry.iNo parents target := by
  constructor
  · intro leads
    cases leads with
    | down listed member isDir later =>
      rw [found] at listed
      cases listed
      exact ⟨_, member, rfl, isDir, later⟩
  · rintro ⟨entry, member, rfl, isDir, later⟩
    exact .down found member isDir later

theorem walk_nowhere {used : Nat → Prop} (consistent : Consistent tree used) {parents : List (List UInt8)}
    (stored : Stored base created tree s) (found : tree d = some entries) (isOpen : IsOpen s p d)
    (slashless : ∀ name ∈ parents, slash ∉ name) (nonzero : ∀ name ∈ parents, 0 ∉ name)
    (nowhere : ∀ target, ¬ Leads tree d parents target) :
    (∃ e, walk s p [] (joined parents last) = .error e ∧ e ≠ .fault) ∨
      ∃ de after, walk s p [] (joined parents last) = .ok (-direntIsntExist, de, after) ∧ Undone base created s after ∧
        Locks after [] := by
  induction parents generalizing s p d entries with
  | nil => exact absurd (.here d) (nowhere d)
  | cons name parents ih =>
    have nameSlashless := slashless name (List.mem_cons_self ..)
    rw [joined]
    by_cases present : ∃ entry ∈ entries, entry.name = name
    swap
    · obtain ⟨e, failed, sane⟩ := @walkBlocks_missing base created tree s p d entries ⟨[], 0⟩ name stored found isOpen
        nameSlashless (nonzero name (List.mem_cons_self ..)) (fun entry member named => present ⟨entry, member, named⟩)
        (joined parents last)
      rw [← walkBlocks_erase s ⟨[], 0⟩, failed]
      exact .inl ⟨e, rfl, sane⟩
    obtain ⟨entry, member, rfl⟩ := present
    have distinct := consistent.distinct d entries found
    by_cases isDir : entry.fType = .dir
    swap
    · obtain ⟨de, after, h', ran, _, undone, locks⟩ := @walkBlocks_leak base created tree s p d entries entry ⟨[], 0⟩ stored
        found isOpen distinct member nameSlashless isDir (joined parents last)
      rw [← walkBlocks_erase s ⟨[], 0⟩, ran]
      exact .inr ⟨de, after, rfl, undone, locks⟩
    obtain ⟨child, below⟩ := Option.isSome_iff_exists.mp (consistent.dir_entry found member isDir)
    obtain ⟨q, middle, turn, open', undone, locks⟩ := walk_down stored.shelved found distinct isOpen member isDir below
      nameSlashless (joined parents last)
    rw [turn]
    rcases ih (stored.undone undone locks) below open' (fun name inside => slashless name (.tail _ inside))
        (fun name inside => nonzero name (.tail _ inside))
        (fun target leads => nowhere target (.down found member isDir leads)) with failed | ⟨de, after, ran, undone', locks'⟩
    · exact .inl failed
    · exact .inr ⟨de, after, ran, undone.trans undone', locks'⟩

/-- The walk gives back what it has taken exactly when every component on the way is a directory. -/
theorem walk_frees {used : Nat → Prop} (consistent : Consistent tree used) {parents : List (List UInt8)}
    (stored : Stored base created tree s) (found : tree d = some entries) (isOpen : IsOpen s p d)
    (slashless : ∀ name ∈ parents, slash ∉ name) (lastSlashless : slash ∉ last) (nonzero : ∀ name ∈ parents, 0 ∉ name)
    (lastNonzero : 0 ∉ last) :
    Frees h (walkBlocks s h p [] (joined parents last)) ↔
      ∃ target entries, Leads tree d parents target ∧ tree target = some entries ∧ Answered entries last := by
  induction parents generalizing s p d entries h with
  | nil =>
    have filled : entries ≠ [] := List.ne_nil_of_mem (consistent.self d entries found)
    rw [joined, last_frees stored found isOpen filled lastSlashless lastNonzero]
    constructor
    · intro answered
      exact ⟨d, entries, .here d, found, answered⟩
    · rintro ⟨target, siblings, leads, listed, answered⟩
      rw [leads_nil.mp leads, found] at listed
      cases listed
      exact answered
  | cons name parents ih =>
    have nameSlashless := slashless name (List.mem_cons_self ..)
    rw [joined]
    by_cases present : ∃ entry ∈ entries, entry.name = name
    swap
    · obtain ⟨e, failed, _⟩ := @walkBlocks_missing base created tree s p d entries h name stored found isOpen nameSlashless
        (nonzero name (List.mem_cons_self ..)) (fun entry member named => present ⟨entry, member, named⟩)
        (joined parents last)
      constructor
      · rintro ⟨_, _, _, _, ran, _⟩
        rw [failed] at ran
        cases ran
      · rintro ⟨_, _, leads, _⟩
        obtain ⟨entry, member, named, _⟩ := (leads_cons found).mp leads
        exact absurd ⟨entry, member, named⟩ present
    obtain ⟨entry, member, rfl⟩ := present
    have distinct := consistent.distinct d entries found
    by_cases isDir : entry.fType = .dir
    swap
    · obtain ⟨_, _, h', ran, more, _⟩ := @walkBlocks_leak base created tree s p d entries entry h stored found isOpen distinct
        member nameSlashless isDir (joined parents last)
      constructor
      · rintro ⟨_, _, _, _, ran', same, _⟩
        rw [ran] at ran'
        cases ran'
        rw [same] at more
        omega
      · rintro ⟨_, _, leads, _⟩
        obtain ⟨other, inside, named, isDir', _⟩ := (leads_cons found).mp leads
        rw [consistent.same_entry found inside member named] at isDir'
        exact absurd isDir' isDir
    obtain ⟨child, below⟩ := Option.isSome_iff_exists.mp (consistent.dir_entry found member isDir)
    obtain ⟨q, after, h', turn, live, open', undone, locks⟩ := @walkBlocks_down base created tree s p d entries entry h stored
      found isOpen distinct member nameSlashless child isDir below (joined parents last)
    have frees : Frees h (walkBlocks after h' q [] (joined parents last)) ↔
        Frees h' (walkBlocks after h' q [] (joined parents last)) := by
      rw [Frees, Frees, live]
    rw [turn, frees, ih (stored.undone undone locks) below open' (fun name inside => slashless name (.tail _ inside))
      (fun name inside => nonzero name (.tail _ inside))]
    constructor
    · rintro ⟨target, siblings, leads, rest⟩
      exact ⟨target, siblings, .down found member isDir leads, rest⟩
    · rintro ⟨target, siblings, leads, rest⟩
      obtain ⟨other, inside, named, _, later⟩ := (leads_cons found).mp leads
      rw [consistent.same_entry found inside member named] at later
      exact ⟨target, siblings, later, rest⟩

theorem Sound.resolveDir_iff (sound : Sound base created tree s) {parents : List (List UInt8)}
    (found : tree d = some entries) : resolveDir s d parents = some target ↔ Leads tree d parents target := by
  constructor
  · exact sound.leads found
  · intro leads
    induction parents generalizing d entries with
    | nil => rw [leads_nil.mp leads, resolveDir]
    | cons name parents ih =>
      obtain ⟨entry, member, rfl, isDir, later⟩ := (leads_cons found).mp leads
      obtain ⟨child, below⟩ := Option.isSome_iff_exists.mp (sound.consistent.dir_entry found member isDir)
      rw [resolveDir, sound.dirEntries found]
      cases search : entries.find? fun other => other.name == entry.name && other.fType == .dir with
      | none =>
        have differs := List.find?_eq_none.mp search entry member
        simp [isDir] at differs
      | some other =>
        have facts := List.find?_some search
        rw [Bool.and_eq_true, beq_iff_eq] at facts
        rw [sound.consistent.same_entry found (List.mem_of_find?_eq_some search) member facts.1]
        exact ih below later

theorem Sound.pathPrase_nowhere (sound : Sound base created tree s) {parents : List (List UInt8)}
    (slashless : ∀ name ∈ parents, slash ∉ name) (nonzero : ∀ name ∈ parents, 0 ∉ name)
    (unresolved : resolveDir s 0 parents = none) :
    (∃ e, pathPrase s (pathOf (parents ++ [last])) = .error e ∧ e ≠ .fault) ∨
      ∃ de after, pathPrase s (pathOf (parents ++ [last])) = .ok (-direntIsntExist, de, after) ∧
        Undone base created s after ∧ Locks after [] := by
  obtain ⟨top, root⟩ := Option.isSome_iff_exists.mp sound.consistent.root
  obtain ⟨p, opened, opens, open', undone, locks, _⟩ :=
    inodeOpen_spec sound.inv (sound.member 0 top root) sound.locks fun q inside => by cases inside
  have starts : pathPrase s (pathOf (parents ++ [last])) = walk opened p [] (joined parents last) := by
    rw [pathOf_joined]
    simp only [pathPrase, opens, deref, Bind.bind, Except.bind]
  rw [starts]
  rcases walk_nowhere sound.consistent (sound.toStored.undone undone locks) root open'.isOpen slashless nonzero (by
      intro target leads
      rw [(sound.resolveDir_iff root).mpr leads] at unresolved
      cases unresolved) with failed | ⟨de, after, ran, undone', locks'⟩
  · exact .inl failed
  · exact .inr ⟨de, after, ran, undone.trans undone', locks'⟩

/-- `path_prase` returns with every lock free and every block freed exactly when the components before the last name
    directories one after the other and the entry of the last fits the buffer of the caller. -/
theorem path_prase_releases_iff (s : State) (consistent : ConsistentTree s) (chars : List UInt8) (nonzero : 0 ∉ chars) :
    Releases s (slash :: chars) ↔
      ∃ target, resolveDir s 0 (splitPath chars).1 = some target ∧ Answered (dirEntries s target) (splitPath chars).2 := by
  obtain ⟨base, created, tree, sound⟩ := consistent
  obtain ⟨top, root⟩ := Option.isSome_iff_exists.mp sound.consistent.root
  obtain ⟨p, opened, opens, open', undone, locks, _⟩ :=
    inodeOpen_spec sound.inv (sound.member 0 top root) sound.locks fun q inside => by cases inside
  obtain ⟨slashless, lastSlashless⟩ := splitPath_slashless chars
  have nonzeros : ∀ name ∈ (splitPath chars).1 ++ [(splitPath chars).2], 0 ∉ name := by
    intro name inside zero
    apply nonzero
    rw [← joined_splitPath chars]
    exact mem_joined ⟨name, inside, zero⟩
  have starts : pathPraseBlocks s ⟨[], 0⟩ (slash :: chars) =
      walkBlocks opened ⟨[], 0⟩ p [] (joined (splitPath chars).1 (splitPath chars).2) := by
    rw [joined_splitPath]
    simp only [pathPraseBlocks, opens, deref, Bind.bind, Except.bind]
  have walked := @walk_frees base created tree opened p 0 top ⟨[], 0⟩ (splitPath chars).2 _ sound.consistent
    (splitPath chars).1 (sound.toStored.undone undone locks) root open'.isOpen slashless lastSlashless
    (fun name inside => nonzeros name (List.mem_append_left _ inside)) (nonzeros _ (by simp))
  rw [← starts] at walked
  rw [Releases]
  refine walked.trans ?_
  constructor
  · rintro ⟨target, entries, leads, found, answered⟩
    refine ⟨target, (sound.resolveDir_iff root).mpr leads, ?_⟩
    rw [sound.dirEntries found]
    exact answered
  · rintro ⟨target, resolved, answered⟩
    have leads := (sound.resolveDir_iff root).mp resolved
    obtain ⟨entries, found⟩ := sound.leads_dir leads
    rw [sound.dirEntries found] at answered
    exact ⟨target, entries, leads, found, answered⟩

/-- `/x/y` without `/x`: the task waits for the lock of the root directory, which it holds. -/
theorem path_prase_waits : ∃ s, format (fun _ _ => 7) ⟨64, 800⟩ = .ok s ∧ ConsistentTree s ∧
    pathPraseBlocks s ⟨[], 0⟩ [47, 120, 47, 121] = .error .stuck ∧ ¬ Releases s [47, 120, 47, 121] := by
  have evaluated : endsIn (format (fun _ _ => 7) ⟨64, 800⟩) (fun s =>
      match pathPraseBlocks s ⟨[], 0⟩ [47, 120, 47, 121] with
      | .error e => decide (e = .stuck)
      | .ok _ => false) = true := by
    decide +kernel
  obtain ⟨s, formatted, facts⟩ := exists_of_endsIn evaluated
  have stuck : pathPraseBlocks s ⟨[], 0⟩ [47, 120, 47, 121] = .error .stuck := by
    split at facts
    · rename_i e ran
      rw [ran, of_decide_eq_true facts]
    · cases facts
  refine ⟨s, formatted, ⟨_, _, _, (format_sound formatted).1⟩, stuck, ?_⟩
  rintro ⟨_, _, _, _, ran, _⟩
  rw [stuck] at ran
  cases ran

theorem path_prase_releases_fresh : ∃ s, format (fun _ _ => 7) ⟨64, 800⟩ = .ok s ∧ Releases s [47, 46, 46, 47, 120] := by
  have evaluated : endsIn (format (fun _ _ => 7) ⟨64, 800⟩) (fun s => decide (resolveDir s 0 [ddot] = some 0)) = true := by
    decide +kernel
  obtain ⟨s, formatted, resolved⟩ := exists_of_endsIn evaluated
  rw [decide_eq_true_eq] at resolved
  refine ⟨s, formatted, ?_⟩
  rw [show [47, 46, 46, 47, 120] = slash :: [46, 46, 47, 120] from rfl,
    path_prase_releases_iff s ⟨_, _, _, (format_sound formatted).1⟩ [46, 46, 47, 120] (by decide)]
  exact ⟨0, resolved, .inr (.inr (by decide))⟩

end RecoverOs.Fs
