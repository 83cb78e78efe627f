import RecoverOs.Fs.Unlink

namespace RecoverOs.Fs

open Bytes Transition

variable {base : Nat} {created : Nat → Prop} {tree : Tree} {s middle after : State} {target : Nat} {entries : List Entry}
  {entry : Entry} {parents : List (List UInt8)} {last : List UInt8} {de : Dirent}

def lastNamed (entries : List Entry) (last : List UInt8) : Option Entry :=
  if last = [] then entries.head? else entries.find? fun entry => entry.name == last

theorem lastNamed_mem (named : lastNamed entries last = some entry) : entry ∈ entries := by
  rw [lastNamed] at named
  split at named
  · exact List.mem_of_mem_head? named
  · exact List.mem_of_find?_eq_some named

theorem pathPrase_last (intact : Intact base created tree s) (leads : Leads tree 0 parents target)
    (slashless : ∀ name ∈ parents, slash ∉ name) (lastSlashless : slash ∉ last) (lastNonzero : 0 ∉ last)
    (fits : last.length < nameBytes) (found : tree target = some entries) :
    ∃ de middle, pathPrase s (pathOf (parents ++ [last])) = .ok ((target : Int), de, middle) ∧
      Undone base created s middle ∧ Locks middle [] ∧
      ((∃ entry, lastNamed entries last = some entry ∧ de.Is entry) ∨
        lastNamed entries last = none ∧ de.iNo = ulongMax ∧ de.filename = cstr last) := by
  by_cases empty : last = []
  · subst empty
    obtain ⟨q, middle, walked, middleOpen, undone, locks⟩ := pathPrase_leads intact leads slashless lastSlashless
    have filled : entries ≠ [] := List.ne_nil_of_mem (intact.consistent.self target entries found)
    obtain ⟨de, after, ran, is, undone', locks'⟩ :=
      lastEntry_empty (intact.toStored.undone undone locks) found middleOpen filled
    refine ⟨de, after, walked.trans ran, undone.trans undone', locks', .inl ⟨entries.head filled, ?_, is⟩⟩
    rw [lastNamed, if_pos rfl, List.head?_eq_some_head]
  · obtain ⟨de, after, parsed, lastIs, undone, locks⟩ :=
      pathPrase_fits intact leads slashless found empty lastNonzero lastSlashless fits
    refine ⟨de, after, parsed, undone, locks, ?_⟩
    rw [lastNamed, if_neg empty]
    cases lastIs with
    | found entry member named is =>
      refine .inl ⟨entry, ?_, is⟩
      cases search : entries.find? fun other => other.name == last with
      | none => exact absurd (beq_iff_eq.mpr named) (List.find?_eq_none.mp search entry member)
      | some other =>
        have same := List.find?_some search
        rw [intact.consistent.same_entry found (List.mem_of_find?_eq_some search) member
          ((beq_iff_eq.mp same).trans named.symm)]
    | missing absent iNo filename =>
      refine .inr ⟨List.find?_eq_none.mpr ?_, iNo, filename⟩
      intro entry member named
      exact absent entry member (beq_iff_eq.mp named)

/-- Directory `d`, which was empty and not the root, is freed, and its name is gone from its parent. -/
structure DirGone (s after : State) (d up : Nat) (entry : Entry) : Prop where
  notRoot : d ≠ 0
  isDir : entry.fType = .dir
  named : NamedBy s d up entry
  empty : ∀ other ∈ dirEntries s d, ¬ other.Plain
  used : inodeMark s d ≠ 0
  marks : ∀ i < inodeCntMax, inodeMark after i = if i = d then 0 else inodeMark s i
  lost : (dirEntries s up).Perm (entry :: dirEntries after up)
  dirs : ∀ e, IsDir after e ↔ IsDir s e ∧ e ≠ d
  others : ∀ e, IsDir after e → e ≠ up → dirEntries after e = dirEntries s e

/-- `sys_rmdir` returns 0 after it has removed one directory, and otherwise leaves the tree as it was. -/
def RemovesWhole (s : State) (pathname : List UInt8) : Prop :=
  ∃ result after, sysRmdir s pathname = .ok (result, after) ∧
    (result = 0 → (∃ d up entry, DirGone s after d up entry) ∧
      ∀ e, IsDir after e → ∀ entry ∈ dirEntries after e, entry.fType ≠ .chr → inodeMark after entry.iNo ≠ 0) ∧
    (result ≠ 0 → SameTree s after)

theorem Removed.gone {rest : List Entry} (sound : Sound base created tree s) (found : tree target = some entries)
    (member : entry ∈ entries) (plain : entry.Plain) (isDir : entry.fType = .dir) (empty : tree.Empty entry.iNo)
    (split : entries.Perm (entry :: rest)) (removed : Removed base created tree s after target entry rest) :
    DirGone s after entry.iNo target entry ∧
      ∀ e, IsDir after e → ∀ other ∈ dirEntries after e, other.fType ≠ .chr → inodeMark after other.iNo ≠ 0 := by
  have isNode : entry.fType ≠ .chr := by
    rw [isDir]
    exact FileType.noConfusion
  have names : Names tree target entry := ⟨⟨entries, found, member⟩, plain, isNode⟩
  have sound' : Sound base created (tree.remove target rest entry.iNo) after := ⟨removed.intact, removed.idle sound.idle⟩
  have apart : entry.iNo ≠ target := by
    intro same
    exact empty entries (same ▸ found) entry member plain
  obtain ⟨sub, below⟩ := Option.isSome_iff_exists.mp (sound.consistent.dir_entry found member isDir)
  refine ⟨⟨(sound.consistent.typed target entry names).1, isDir, ⟨(sound.isDir_iff target).mpr ⟨entries, found⟩, ?_, plain, rfl⟩,
    ?_, (sound.consistent.used_entry names).2, removed.marks, ?_, ?_, ?_⟩, ?_⟩
  · rw [sound.dirEntries found]
    exact member
  · rw [sound.dirEntries below]
    exact empty sub below
  · rw [sound.dirEntries found, sound'.dirEntries Tree.remove_here]
    exact split
  · intro e
    rw [sound'.isDir_iff, sound.isDir_iff]
    constructor
    · rintro ⟨siblings, listed⟩
      obtain ⟨other, ⟨rfl, _⟩ | ⟨_, old⟩⟩ := remove_cases apart listed
      · exact ⟨⟨entries, found⟩, other⟩
      · exact ⟨⟨siblings, old⟩, other⟩
    · rintro ⟨⟨siblings, listed⟩, other⟩
      by_cases here : e = target
      · exact ⟨rest, by rw [here, Tree.remove_here]⟩
      · exact ⟨siblings, by rw [Tree.remove_other here other, listed]⟩
  · intro e isDir' other
    obtain ⟨siblings, listed⟩ := (sound'.isDir_iff e).mp isDir'
    obtain ⟨_, ⟨here, _⟩ | ⟨_, old⟩⟩ := remove_cases apart listed
    · exact absurd here other
    · rw [sound'.dirEntries listed, sound.dirEntries old]
  · intro e isDir' other inside isNode'
    obtain ⟨siblings, listed⟩ := (sound'.isDir_iff e).mp isDir'
    rw [sound'.dirEntries listed] at inside
    exact (sound'.consistent.node_used listed inside isNode').2

theorem not_gone (sound : Sound base created tree s) (found : tree target = some entries) (member : entry ∈ entries)
    (special : ¬ entry.Plain) (empty : tree.Empty entry.iNo)
    (marks : ∀ j < inodeCntMax, inodeMark after j = if j = entry.iNo then 0 else inodeMark s j)
    (others : Agree (fun j => created j ∧ j ≠ entry.iNo ∧ j ≠ target) s after) {d up : Nat} {name : Entry} :
    ¬ DirGone s after d up name := by
  intro gone
  have isDir : IsDir s d := gone.named.number ▸ .child gone.named.isDir gone.named.member gone.isDir
  obtain ⟨siblings, listed⟩ := (sound.isDir_iff up).mp gone.named.isDir
  obtain ⟨sub, below⟩ := (sound.isDir_iff d).mp isDir
  have bound := sound.inv.bounded d (sound.member d sub below)
  have freed : d = entry.iNo := by
    by_contra other
    have same := gone.marks d bound
    rw [marks d bound, if_neg other, if_pos rfl] at same
    exact gone.used same
  -- Only the entries '.' and '..' of the root lead to the root.
  have here : entry.iNo = target := by
    rw [Entry.Plain, not_and_or, not_not, not_not] at special
    rcases special with isDot | isDdot
    · rw [sound.consistent.same_entry found member (sound.consistent.self target entries found) isDot]
    · obtain ⟨above, inside, isParent⟩ := sound.consistent.parent target entries found
      have number : entry.iNo = above := by
        rw [sound.consistent.same_entry found member inside isDdot]
      split at isParent
      · exact absurd (freed.trans (number.trans isParent)) gone.notRoot
      · obtain ⟨child, ⟨⟨uncles, listed', inside'⟩, plain, _⟩, _⟩ := isParent
        exact absurd plain (empty uncles (number ▸ listed') child inside')
  have apart : up ≠ entry.iNo := by
    intro same
    have inside := gone.named.member
    rw [same, ← freed] at inside
    exact gone.empty name inside gone.named.plain
  have kept := (sound.lists up siblings listed).agree others ⟨sound.member up siblings listed, apart, here ▸ apart⟩
  have lost := gone.lost.length_eq
  rw [sound.dirEntries listed, kept.dirEntries_eq, List.length_cons] at lost
  omega

/-- Unless the last component stands for the '.' or '..' of an empty directory, or overruns the buffer for its name. -/
theorem rmdir_whole_iff (s : State) (consistent : ConsistentTree s) (chars : List UInt8) (nonzero : 0 ∉ chars)
    (target : Nat) (resolved : resolveDir s 0 (splitPath chars).1 = some target) :
    RemovesWhole s (slash :: chars) ↔ (splitPath chars).2.length < nameBytes ∧
      ∀ entry ∈ lastNamed (dirEntries s target) (splitPath chars).2,
        entry.Plain ∨ (dirEntries s entry.iNo).length ≠ 2 := by
  obtain ⟨base, created, tree, sound⟩ := consistent
  obtain ⟨top, root⟩ := Option.isSome_iff_exists.mp sound.consistent.root
  have leads := sound.leads root resolved
  obtain ⟨entries, found⟩ := sound.leads_dir leads
  obtain ⟨slashless, lastSlashless⟩ := splitPath_slashless chars
  have lastNonzero : 0 ∉ (splitPath chars).2 := by
    intro zero
    apply nonzero
    rw [← joined_splitPath chars]
    exact mem_joined ⟨_, by simp, zero⟩
  have path : slash :: chars = pathOf ((splitPath chars).1 ++ [(splitPath chars).2]) := by
    rw [pathOf_joined, joined_splitPath]
  rw [path, sound.dirEntries found]
  generalize (splitPath chars).1 = parents at *
  generalize (splitPath chars).2 = last at *
  by_cases fits : last.length < nameBytes
  swap
  · have nonempty : last ≠ [] := by
      rintro rfl
      exact fits (by decide)
    have absent : ∀ entry ∈ entries, entry.name ≠ last := by
      intro entry member named
      have short := ((sound.lists target entries found).name entry member).short
      rw [named] at short
      simp only [maxFileNameLen] at short
      simp only [nameBytes, direntSize] at fits
      omega
    obtain ⟨q, middle, walked, middleOpen, undone, locks⟩ := pathPrase_leads sound.toIntact leads slashless lastSlashless
    have fault := lastEntry_long (sound.toStored.undone undone locks).shelved found middleOpen nonempty lastNonzero absent
      (Nat.not_lt.mp fits)
    refine ⟨?_, fun both => absurd both.1 fits⟩
    rintro ⟨_, _, ran, _⟩
    simp only [sysRmdir, walked, fault, Bind.bind, Except.bind] at ran
    cases ran
  obtain ⟨de, middle, parsed, undone, locks, named⟩ :=
    pathPrase_last sound.toIntact leads slashless lastSlashless lastNonzero fits found
  have nothing : ∀ result after, sysRmdir s (pathOf (parents ++ [last])) = .ok (result, after) → result ≠ 0 →
      Undone base created s after → Locks after [] → RemovesWhole s (pathOf (parents ++ [last])) := by
    intro result after ran failed undone' locks'
    exact ⟨result, after, ran, fun zero => absurd zero failed,
      fun _ => sound.sameTree (sound.undone undone' locks') fun i _ => undone'.marks i⟩
  rcases named with ⟨entry, named, is⟩ | ⟨absent, iNo, _⟩
  swap
  · rw [absent]
    exact ⟨fun _ => ⟨fits, fun entry member => by cases member⟩,
      fun _ => nothing _ _ (sysRmdir_absent parsed iNo) (by decide) undone locks⟩
  rw [named]
  have member := lastNamed_mem named
  by_cases isDir : entry.fType = .dir
  swap
  · have plain : entry.Plain := by
      refine ⟨?_, ?_⟩
      · intro isDot
        apply isDir
        rw [sound.consistent.same_entry found member (sound.consistent.self target entries found) isDot]
      · intro isDdot
        obtain ⟨up, above, _⟩ := sound.consistent.parent target entries found
        apply isDir
        rw [sound.consistent.same_entry found member above isDdot]
    refine ⟨fun _ => ⟨fits, fun other same => ?_⟩, fun _ => ?_⟩
    · cases same
      exact .inl plain
    · by_cases there : de.iNo = ulongMax
      · exact nothing _ _ (sysRmdir_absent parsed there) (by decide) undone locks
      · exact nothing _ _ (sysRmdir_notDir parsed there (is.fType ▸ isDir)) (by decide) undone locks
  obtain ⟨sub, below⟩ := Option.isSome_iff_exists.mp (sound.consistent.dir_entry found member isDir)
  have middleSound := sound.undone undone locks
  obtain ⟨shut, undone', locks', calls⟩ := sysRmdir_dir parsed middleSound.toStored is isDir below
  have all := undone.trans undone'
  have shutSound := middleSound.undone undone' locks'
  by_cases two : sub.length = 2
  swap
  · refine ⟨fun _ => ⟨fits, fun other same => ?_⟩, fun _ => ?_⟩
    · cases same
      rw [sound.dirEntries below]
      exact .inr two
    · exact nothing _ _ (calls.trans (if_neg two)) (by decide) all locks'
  rw [if_pos two] at calls
  have empty := sound.consistent.empty_of_two below two
  by_cases plain : entry.Plain
  · refine ⟨fun _ => ⟨fits, fun other same => ?_⟩, fun _ => ?_⟩
    · cases same
      exact .inl plain
    · obtain ⟨rest, after, ran, split, removed⟩ := removeNode_spec shutSound.toIntact found member is plain
        (by rw [isDir]; exact FileType.noConfusion) empty
      obtain ⟨gone, referred⟩ := (removed.undone all).gone sound found member plain isDir empty split
      exact ⟨0, after, calls.trans ran, fun _ => ⟨⟨_, _, _, gone⟩, referred⟩, fun failed => absurd rfl failed⟩
  · obtain ⟨after, ran, marks, others⟩ :=
      removeNode_used shutSound.toIntact found member is (shutSound.consistent.dirs _ sub below)
    constructor
    · rintro ⟨result, after', ran', whole, _⟩
      rw [calls, ran] at ran'
      cases ran'
      obtain ⟨⟨d, up, name, gone⟩, _⟩ := whole rfl
      refine absurd gone (not_gone sound found member plain empty ?_ ?_)
      · intro j bound
        rw [marks j bound, all.marks]
      · exact (all.files.mono fun j kept => kept.1).trans others
    · rintro ⟨_, fine⟩
      rcases fine entry rfl with isPlain | more
      · exact absurd isPlain plain
      · rw [sound.dirEntries below] at more
        exact absurd two more

/-- `/a/` is removed and `/a` still names the inode. -/
theorem rmdir_slash_keeps_name : ∃ start s after, format (fun _ _ => 7) ⟨64, 800⟩ = .ok start ∧
    run treeStep start [⟨.mkdir, [], [97]⟩] = .ok s ∧ ConsistentTree s ∧ resolveDir s 0 [[97]] = some 1 ∧
    sysRmdir s [47, 97, 47] = .ok (0, after) ∧ inodeMark after 1 = 0 ∧ ⟨[97], 1, .dir⟩ ∈ dirEntries after 0 ∧
    ¬ RemovesWhole s [47, 97, 47] := by
  have evaluated : endsIn (format (fun _ _ => 7) ⟨64, 800⟩) (fun start =>
      endsIn (run treeStep start [⟨.mkdir, [], [97]⟩]) fun s => decide (resolveDir s 0 [[97]] = some 1) &&
        endsIn (sysRmdir s [47, 97, 47]) fun done =>
          decide (done.1 = 0 ∧ inodeMark done.2 1 = 0 ∧ ⟨[97], 1, .dir⟩ ∈ dirEntries done.2 0)) = true := by
    decide +kernel
  obtain ⟨start, formatted, rest⟩ := exists_of_endsIn evaluated
  obtain ⟨s, ran, rest⟩ := exists_of_endsIn rest
  rw [Bool.and_eq_true, decide_eq_true_eq] at rest
  obtain ⟨resolved, rest⟩ := rest
  obtain ⟨⟨result, after⟩, removed, facts⟩ := exists_of_endsIn rest
  rw [decide_eq_true_eq] at facts
  obtain ⟨rfl, free, member⟩ := facts
  obtain ⟨created, tree, sound, _⟩ := run_invariant (fun s call after inv _ ran => treeStep_inv s call after inv ran)
    (format_treeInv formatted) (meets_true treeStep start _) ran
  refine ⟨start, s, after, formatted, ran, ⟨_, created, tree, sound⟩, resolved, removed, free, member, ?_⟩
  rintro ⟨_, _, removed', whole, _⟩
  rw [removed] at removed'
  cases removed'
  exact (whole rfl).2 0 .root _ member FileType.noConfusion free

theorem rmdir_whole_plain : ∃ start s, format (fun _ _ => 7) ⟨64, 800⟩ = .ok start ∧
    run treeStep start [⟨.mkdir, [], [97]⟩] = .ok s ∧ RemovesWhole s [47, 97] := by
  have evaluated : endsIn (format (fun _ _ => 7) ⟨64, 800⟩) (fun start =>
      endsIn (run treeStep start [⟨.mkdir, [], [97]⟩]) fun s =>
        decide (lastNamed (dirEntries s 0) [97] = some ⟨[97], 1, .dir⟩)) = true := by
    decide +kernel
  obtain ⟨start, formatted, rest⟩ := exists_of_endsIn evaluated
  obtain ⟨s, ran, facts⟩ := exists_of_endsIn rest
  rw [decide_eq_true_eq] at facts
  obtain ⟨created, tree, sound, _⟩ := run_invariant (fun s call after inv _ ran => treeStep_inv s call after inv ran)
    (format_treeInv formatted) (meets_true treeStep start _) ran
  refine ⟨start, s, formatted, ran, ?_⟩
  refine (rmdir_whole_iff s ⟨_, created, tree, sound⟩ [97] (by decide) 0 rfl).mpr ⟨by decide, ?_⟩
  intro entry named
  rw [show (splitPath [97]).2 = [97] from rfl, facts] at named
  cases named
  exact .inl (by decide)

end RecoverOs.Fs
