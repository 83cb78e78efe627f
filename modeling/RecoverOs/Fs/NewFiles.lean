import RecoverOs.Fs.NodeTree
import RecoverOs.Fs.OpenBalance

namespace RecoverOs.Fs

open Bytes Transition

/-- The calls of the file interface on regular files, by the components of their paths. -/
inductive FileAct where
  | mknod (parents : List (List UInt8)) (last : List UInt8)
  | open (parents : List (List UInt8)) (last : List UInt8)
  | write (fd : Int) (buf : Buffer) (count : Nat)
  | lseek (fd offset : Int) (whence : Whence)
  | close (fd : Int)
  | unlink (parents : List (List UInt8)) (last : List UInt8)

def ShortPath (s : State) (parents : List (List UInt8)) (last : List UInt8) : Prop :=
  (∀ name ∈ parents, slash ∉ name) ∧ (last ≠ [] ∧ last.length ≤ 15 ∧ 0 ∉ last ∧ slash ∉ last) ∧
    (resolveDir s 0 parents).isSome

instance (s : State) (parents : List (List UInt8)) (last : List UInt8) : Decidable (ShortPath s parents last) :=
  inferInstanceAs (Decidable (_ ∧ _))

def FileAct.admissible (s : State) : FileAct → Bool
  | .mknod parents last | .open parents last | .unlink parents last => decide (ShortPath s parents last)
  | .write .. | .lseek .. | .close _ => true

def FileAct.run (s : Files) (t : Tid) : FileAct → Except Halt (Int × Files)
  | .mknod parents last => do
    let (dev, fs) ← sysMknod s.fs (pathOf (parents ++ [last])) .reg 0
    return (dev, { s with fs := fs })
  | .open parents last => sysOpen s t (pathOf (parents ++ [last]))
  | .write fd buf count => sysWrite s t fd buf count
  | .lseek fd offset whence => sysLseek s t fd offset whence
  | .close fd => sysClose s t fd
  | .unlink parents last => do
    let (result, fs) ← sysUnlink s.fs (pathOf (parents ++ [last]))
    return (result, { s with fs := fs })

def fileStep (t : Tid) (s : Files) (act : FileAct) : Except Halt Files := do
  offer (s.live t && act.admissible s.fs)
  let (_, s) ← act.run s t
  return s

/-- An open inode whose number `disk_inode_create` takes next is an empty file, and no descriptor refers to it. -/
def Vacant (s : Files) : Prop := ∀ p ∈ s.fs.openInodes, FirstFree s.fs (s.fs.inode p).iNo →
  inodeRefs s p = 0 ∧ (s.fs.inode p).diskInode.fileSize = 0

instance (s : Files) : Decidable (Vacant s) := inferInstanceAs (Decidable (∀ p ∈ s.fs.openInodes, _ → _))

/-- A new file is only made when the next number is vacant. -/
def TakesVacant (s : Files) : FileAct → Prop
  | .mknod parents last => ∀ target ∈ resolveDir s.fs 0 parents,
    (∀ entry ∈ dirEntries s.fs target, entry.name ≠ last) → Vacant s
  | _ => True

instance (s : Files) (act : FileAct) : Decidable (TakesVacant s act) :=
  match act with
  | .mknod parents _ => inferInstanceAs (Decidable (∀ target ∈ resolveDir s.fs 0 parents, _ → _))
  | .open .. | .write .. | .lseek .. | .close _ | .unlink .. => .isTrue True.intro

/-- The descriptor has the given type and stands for the inode with the number `i`. -/
def Refers (s : Files) (t : Tid) (fd : Nat) (type : FileType) (i : Nat) : Prop :=
  ∃ (slot : Nat) (p : Ptr), s.fdTable t fd = (slot : Int) ∧ (s.fileTable slot).fType = type ∧
    (s.fileTable slot).fInode = some (.inode p) ∧ (s.fs.inode p).iNo = i

/-- A consistent tree is on the disk, and what is open as a regular file is no directory of it. -/
structure NodeInv (base : Nat) (s : Files) : Prop where
  solo : SoloInv s
  tree : TreeWith base (fun i => ∃ t fd, Refers s t fd .reg i) s.fs

section

variable {base : Nat} {s after : Files} {t u : Tid} {fd gd : Nat} {type : FileType} {i : Nat} {fs : State}

theorem SoloInv.refers_open (inv : SoloInv s) {slot : Nat} {p : Ptr} (entry : s.fdTable t fd = (slot : Int))
    (has : (s.fileTable slot).fInode = some (.inode p)) : p ∈ s.fs.openInodes :=
  inv.fds.inode_open (by omega) entry has

theorem SoloInv.refers_fs (inv : SoloInv s) (numbered : Numbered s.fs fs) (refers : Refers { s with fs := fs } t fd type i) :
    Refers s t fd type i := by
  obtain ⟨slot, p, entry, kind, has, number⟩ := refers
  have member := inv.refers_open entry has
  refine ⟨slot, p, entry, kind, has, ?_⟩
  rw [← numbered.iNo p (inv.fds.healthy.cache.below p member)]
  exact number

theorem Refers.position {slot : Nat} {pos : File → Int}
    (refers : Refers (s.setFile slot fun file => { file with fPos := pos file }) t fd type i) : Refers s t fd type i := by
  obtain ⟨slot', p, entry, kind, has, number⟩ := refers
  rw [Files.setFile_fileTable] at kind has
  by_cases here : slot' = slot
  · rw [if_pos here] at kind has
    exact ⟨slot', p, entry, here ▸ kind, here ▸ has, number⟩
  · rw [if_neg here] at kind has
    exact ⟨slot', p, entry, kind, has, number⟩

theorem accepted_entry {fd : Int} (accepted : ¬ fdRejected s t fd = true) :
    ∃ gd slot : Nat, fd = (gd : Int) ∧ s.fdTable t gd = (slot : Int) ∧ (fdEntry s t fd).toNat = slot := by
  simp only [fdRejected, Bool.or_eq_true, decide_eq_true_eq, not_or, not_lt, not_le] at accepted
  obtain ⟨⟨⟨low, high⟩, valid⟩, _⟩ := accepted
  unfold fdEntry at valid ⊢
  by_cases inside : 0 ≤ fd ∧ fd < maxFilesOpenPerProc
  · rw [if_pos inside] at valid ⊢
    exact ⟨fd.toNat, (s.fdTable t fd.toNat).toNat, by omega, by omega, rfl⟩
  · rw [if_neg inside] at valid
    exact absurd valid (by decide)

theorem sysWrite_cases {fd result : Int} {buf : Buffer} {count : Nat}
    (ran : sysWrite s t fd buf count = .ok (result, after)) :
    (after = { s with ioqueue := after.ioqueue }) ∨
    ∃ (gd slot : Nat) (p : Ptr) (locked : State) (nbyte : Int) (written unlocked : State), fd = (gd : Int) ∧
      s.fdTable t gd = (slot : Int) ∧ (s.fileTable slot).fType = .reg ∧ (s.fileTable slot).fInode = some (.inode p) ∧
      semaDown s.fs p = .ok locked ∧
      inodeWrite locked p buf count (s.fileTable slot).fPos.toNat = .ok (nbyte, written) ∧
      semaUp written p = .ok unlocked ∧ after = (if 0 < nbyte then
        { s with fs := unlocked }.setFile slot fun file => { file with fPos := file.fPos + nbyte }
        else { s with fs := unlocked }) := by
  unfold sysWrite at ran
  split at ran
  · cases ran
    exact .inl rfl
  · rename_i accepted
    obtain ⟨gd, slot, named, entry, index⟩ := accepted_entry accepted
    rw [index] at ran
    dsimp only at ran
    split at ran
    · rename_i _ p kind has
      simp only [bind_ok, pure_ok, Prod.exists, Prod.mk.injEq] at ran
      obtain ⟨locked, down, nbyte, written, write, unlocked, up, rfl, rfl⟩ := ran
      exact .inr ⟨gd, slot, p, locked, _, written, unlocked, named, entry, kind, has, down, write, up, rfl⟩
    · cases ran
    · cases ran
      exact .inl rfl
    · simp only [bind_ok, pure_ok, Prod.mk.injEq] at ran
      obtain ⟨ioq, write, _, rfl⟩ := ran
      exact .inl rfl
    · cases ran
    · cases ran
      exact .inl rfl
    · cases ran
      exact .inl rfl

/-- What a call of task `t` leaves. A descriptor that was in use stands for what it stood for, and it goes only when it is
    closed. -/
structure Acted (base : Nat) (s : Files) (t : Tid) (act : FileAct) (after : Files) : Prop where
  inv : NodeInv base after
  back : ∀ u fd type i, s.fdTable u fd ≠ -1 → Refers after u fd type i → Refers s u fd type i
  keeps : ∀ fd : Nat, s.fdTable t fd ≠ -1 → act ≠ .close fd → after.fdTable t fd ≠ -1

theorem NodeInv.acted {act : FileAct} (solo : SoloInv after)
    (tree : TreeWith base (fun i => ∃ t fd, Refers s t fd .reg i) after.fs)
    (back : ∀ u fd type i, Refers after u fd type i → Refers s u fd type i)
    (keeps : ∀ fd : Nat, s.fdTable t fd ≠ -1 → act ≠ .close fd → after.fdTable t fd ≠ -1) : Acted base s t act after where
  inv := by
    refine ⟨solo, tree.mono ?_⟩
    intro i ⟨u, fd, refers⟩
    exact ⟨u, fd, back u fd .reg i refers⟩
  back := fun u fd type i _ => back u fd type i
  keeps := keeps

theorem ShortPath.component {s : State} {parents : List (List UInt8)} {last : List UInt8} (path : ShortPath s parents last) :
    Component last :=
  ⟨⟨Nat.lt_succ_of_le path.2.1.2.1, path.2.1.2.2.1⟩, path.2.1.1, path.2.1.2.2.2⟩

theorem Vacant.unreferred (vacant : Vacant s) (inv : SoloInv s) (first : FirstFree s.fs i) : ¬ Refers s u fd type i := by
  rintro ⟨slot, p, entry, _, has, rfl⟩
  have none := (vacant p (inv.refers_open entry has) first).1
  have used : s.fdTable u fd ≠ -1 := by omega
  obtain ⟨task, _, inside, _⟩ := inv.fds.entry used
  have drop := @inodeRefs_drop s u fd slot task inside entry p
  rw [if_pos has] at drop
  omega

theorem NodeInv.sys_mknod {parents : List (List UInt8)} {last : List UInt8} {result : Int} (inv : NodeInv base s)
    (path : ShortPath s.fs parents last) (vacant : TakesVacant s (.mknod parents last))
    (ran : sysMknod s.fs (pathOf (parents ++ [last])) .reg 0 = .ok (result, fs)) :
    Acted base s t (.mknod parents last) { s with fs := fs } ∧ (0 ≤ result → ∃ i : Nat, result = i ∧
      NewNode s.fs fs (pathOf (parents ++ [last])) i ∧ ∀ u fd type, ¬ Refers { s with fs := fs } u fd type i) := by
  obtain ⟨target, resolved⟩ := Option.isSome_iff_exists.mp path.2.2
  have vacant' := vacant target resolved
  have back : ∀ u fd type i, Refers { s with fs := fs } u fd type i → Refers s u fd type i :=
    fun u fd type i refers => inv.solo.refers_fs (sysMknod_numbered ran) refers
  have gains : Gains s.fs fs := by
    rcases sysMknod_cases ran with ⟨_, wrong, _⟩ | ⟨_, resolves⟩
    · exact absurd rfl wrong
    · exact resolves.gains inv.solo.fds.healthy
  obtain ⟨tree, made⟩ := inv.tree.sys_mknod path.1 path.component resolved
    (fun absent p member first => (vacant' absent p member first).2) ran
  refine ⟨NodeInv.acted (inv.solo.withFs gains) tree back fun _ used _ => used, ?_⟩
  intro success
  obtain ⟨i, number, absent, new⟩ := made success
  refine ⟨i, number, new, ?_⟩
  intro u fd type refers
  exact (vacant' absent).unreferred inv.solo new.first (back u fd type i refers)

theorem NodeInv.sys_unlink {parents : List (List UInt8)} {last : List UInt8} {result : Int} (inv : NodeInv base s)
    (path : ShortPath s.fs parents last) (ran : sysUnlink s.fs (pathOf (parents ++ [last])) = .ok (result, fs)) :
    Acted base s t (.unlink parents last) { s with fs := fs } := by
  obtain ⟨target, resolved⟩ := Option.isSome_iff_exists.mp path.2.2
  have solo := inv.solo.withFs ((sysUnlink_resolves ran).gains inv.solo.fds.healthy)
  exact NodeInv.acted solo (inv.tree.sys_unlink path.1 path.component resolved ran)
    (fun u fd type i refers => inv.solo.refers_fs (sysUnlink_numbered ran) refers) fun _ used _ => used

theorem NodeInv.sys_write {fd result : Int} {buf : Buffer} {count : Nat} (inv : NodeInv base s)
    (ran : sysWrite s t fd buf count = .ok (result, after)) :
    Acted base s t (.write fd buf count) after ∧
      ∀ i, Used s.fs i → (∀ gd : Nat, fd = (gd : Int) → ¬ Refers s t gd .reg i) → Agree (· = i) s.fs after.fs := by
  have solo := (sysWrite_works ran).inv inv.solo
  rcases sysWrite_cases ran with same | ⟨gd, slot, p, locked, nbyte, written, unlocked, named, entry, kind, has, down, write,
      up, same⟩
  · rw [same] at solo ⊢
    exact ⟨NodeInv.acted solo inv.tree (fun _ _ _ _ refers => refers) fun _ used _ => used, fun i _ _ => .refl _ _⟩
  · have member := inv.solo.refers_open entry has
    have refers : Refers s t gd .reg (s.fs.inode p).iNo := ⟨slot, p, entry, kind, has, rfl⟩
    obtain ⟨created, tree, planted⟩ := inv.tree
    obtain ⟨planted', others⟩ := planted.write ⟨member, rfl⟩ ⟨t, gd, refers⟩ down write up
    have numbered : Numbered s.fs unlocked := by
      obtain ⟨_, rfl⟩ := semaDown_ok.mp down
      obtain ⟨_, rfl⟩ := semaUp_ok.mp up
      exact (((SameCache.lock s.fs p 0).trans (inodeWrite_same write)).trans (.lock written p 1)).numbered
    have fs : after.fs = unlocked := by
      rw [same]
      split
      · rfl
      · rfl
    have fds : after.fdTable = s.fdTable := by
      rw [same]
      split
      · rfl
      · rfl
    refine ⟨NodeInv.acted solo ?_ ?_ fun fd used _ => by rw [fds]; exact used, ?_⟩
    · rw [fs]
      exact ⟨created, tree, planted'⟩
    · intro u fd type i refers'
      rw [same] at refers'
      split at refers'
      · exact inv.solo.refers_fs numbered refers'.position
      · exact inv.solo.refers_fs numbered refers'
    · intro i used other
      rw [fs]
      refine others.mono ?_
      rintro _ rfl
      refine ⟨planted.allocated _ used, ?_⟩
      rintro rfl
      exact other gd named refers

theorem sysLseek_cases {fd offset result : Int} {whence : Whence}
    (ran : sysLseek s t fd offset whence = .ok (result, after)) :
    after = s ∨ ∃ (slot : Nat) (pos : Int), (s.fileTable slot).fType.counted = false ∧
      after = s.setFile slot fun file => { file with fPos := pos } := by
  have placed : ∀ (slot : Nat) (size pos : Int), (s.fileTable slot).fType.counted = false →
      (if pos < 0 ∨ size < pos then (.ok (-1, s) : Except Halt (Int × Files))
        else .ok (pos, s.setFile slot fun file => { file with fPos := pos })) = .ok (result, after) →
      after = s ∨ ∃ (slot : Nat) (pos : Int), (s.fileTable slot).fType.counted = false ∧
        after = s.setFile slot fun file => { file with fPos := pos } := by
    intro slot size pos plain ran
    split at ran
    · cases ran
      exact .inl rfl
    · cases ran
      exact .inr ⟨slot, _, plain, rfl⟩
  unfold sysLseek at ran
  split at ran
  · cases ran
    exact .inl rfl
  · dsimp only at ran
    split at ran
    · rename_i _ p kind has
      exact placed _ _ _ (by rw [kind]; rfl) ran
    · rename_i _ p kind has
      exact placed _ _ _ (by rw [kind]; rfl) ran
    · cases ran
    · cases ran
    · cases ran
      exact .inl rfl

theorem NodeInv.sys_lseek {fd offset result : Int} {whence : Whence} (inv : NodeInv base s)
    (ran : sysLseek s t fd offset whence = .ok (result, after)) : Acted base s t (.lseek fd offset whence) after := by
  rcases sysLseek_cases ran with rfl | ⟨slot, pos, plain, rfl⟩
  · exact NodeInv.acted inv.solo inv.tree (fun _ _ _ _ refers => refers) fun _ used _ => used
  · exact NodeInv.acted ((works_position (fun _ => pos) plain).inv inv.solo) inv.tree
      (fun _ _ _ _ refers => refers.position) fun _ used _ => used

theorem dropSlot_fs {slot : Nat} {dropped : Files} (ran : dropSlot s slot = .ok dropped) : dropped.fs = s.fs ∨
    ∃ p, (s.fileTable slot).fInode = some (.inode p) ∧ inodeClose s.fs p = .ok dropped.fs := by
  unfold dropSlot at ran
  dsimp only at ran
  split at ran
  · cases ran
  · cases ran
    left
    split
    · rfl
    · rfl
  · cases ran
    left
    split
    · rfl
    · rfl
  · rename_i _ p kind has
    simp only [bind_ok, pure_ok] at ran
    obtain ⟨closed, close, rfl⟩ := ran
    exact .inr ⟨p, has, close⟩
  · rename_i _ p kind has
    simp only [bind_ok, pure_ok] at ran
    obtain ⟨closed, close, rfl⟩ := ran
    exact .inr ⟨p, has, close⟩
  · rename_i _ code p kind has
    simp only [bind_ok, pure_ok] at ran
    obtain ⟨closed, close, rfl⟩ := ran
    exact .inr ⟨p, has, close⟩
  · cases ran

theorem Dropped.refers {slot : Nat} (dropped : Dropped s after t fd slot) (inv : SoloInv s)
    (entry : s.fdTable t fd = (slot : Int)) (refers : Refers after u gd type i) :
    Refers { s with fs := after.fs } u gd type i := by
  obtain ⟨slot', p, entry', kind, has, number⟩ := refers
  have apart : ¬ (u = t ∧ gd = fd) := by
    rintro ⟨rfl, rfl⟩
    rw [dropped.fdTable] at entry'
    simp only [Files.setFd, Function.update_self] at entry'
    omega
  have sameEntry : s.fdTable u gd = (slot' : Int) := by
    rw [← entry', dropped.fdTable]
    simp only [Files.setFd]
    by_cases task : u = t
    · subst task
      rw [Function.update_self, Function.update_of_ne fun same => apart ⟨rfl, same⟩]
    · rw [Function.update_of_ne task]
  have other : slot' ≠ slot := by
    rintro rfl
    have used : s.fdTable t fd ≠ -1 := by omega
    obtain ⟨task, _, inside, _⟩ := inv.fds.entry used
    have one : Fs.refs s slot' = 1 := by
      have positive := refs_pos.mpr ⟨t, fd, task, inside, entry⟩
      have most := inv.single slot'
      omega
    rw [dropped.slot, if_pos one] at has
    cases has
  rw [dropped.others slot' other] at kind has
  exact ⟨slot', p, sameEntry, kind, has, number⟩

theorem NodeInv.sys_close {fd result : Int} (inv : NodeInv base s) (ran : sysClose s t fd = .ok (result, after)) :
    Acted base s t (.close fd) after := by
  have solo := (inv.solo.sys_close ran).1
  rcases sysClose_cases ran with ⟨_, rfl⟩ | ⟨gd, dropped, rfl, inside, valid, drop, rfl⟩
  · exact NodeInv.acted inv.solo inv.tree (fun _ _ _ _ refers => refers) fun _ used _ => used
  have entry : s.fdTable t gd = ((s.fdTable t gd).toNat : Int) := (Int.toNat_of_nonneg valid).symm
  have gone := dropSlot_dropped inv.solo.fds (by omega) entry (inv.solo.may_close t gd valid) drop
  have work : Numbered s.fs dropped.fs ∧ TreeWith base (fun i => ∃ t fd, Refers s t fd .reg i) dropped.fs := by
    rcases dropSlot_fs drop with same | ⟨p, has, close⟩
    · rw [same]
      exact ⟨.refl _, inv.tree⟩
    · obtain ⟨created, tree, planted⟩ := inv.tree
      exact ⟨inodeClose_numbered close, created, tree, planted.close (inv.solo.refers_open entry has) close⟩
  refine NodeInv.acted solo work.2 ?_ ?_
  · intro u fd type i refers
    exact inv.solo.refers_fs work.1 (gone.refers inv.solo entry refers)
  · intro fd used kept
    have other : fd ≠ gd := by
      rintro rfl
      exact kept rfl
    rw [gone.fdTable]
    simp only [Files.setFd, Function.update_self, Function.update_of_ne other]
    exact used

theorem SoloInv.refers_install {slot : Nat} {file : File} {object : Option Object} (inv : SoloInv s)
    (free : (s.fileTable slot).fInode = none)
    (refers : Refers (({ s with fs := fs }.setFile slot fun _ => file).setFd t fd slot object) u gd type i) :
    Refers { s with fs := fs } u gd type i ∨
      (u = t ∧ gd = fd) ∧ file.fType = type ∧ ∃ p, file.fInode = some (.inode p) ∧ (fs.inode p).iNo = i := by
  obtain ⟨slot', p, entry, kind, has, number⟩ := refers
  simp only [Files.setFd, Files.setFile_fileTable] at kind has
  by_cases here : u = t ∧ gd = fd
  · obtain ⟨rfl, rfl⟩ := here
    simp only [Files.setFd, Function.update_self] at entry
    rw [if_pos (Int.ofNat_inj.mp entry).symm] at kind has
    exact .inr ⟨⟨rfl, rfl⟩, kind, p, has, number⟩
  · have old : s.fdTable u gd = (slot' : Int) := by
      rw [← entry]
      simp only [Files.setFd]
      by_cases task : u = t
      · subst task
        rw [Function.update_self, Function.update_of_ne fun same => here ⟨rfl, same⟩]
        rfl
      · rw [Function.update_of_ne task]
        rfl
    have other : slot' ≠ slot := by
      rintro rfl
      obtain ⟨j, _, same, some, _⟩ := inv.fds.names u gd (by omega)
      rw [old] at same
      exact some (Int.ofNat_inj.mp same ▸ free)
    rw [if_neg other] at kind has
    exact .inl ⟨slot', p, old, kind, has, number⟩

theorem NodeInv.sys_open {parents : List (List UInt8)} {last : List UInt8} {result : Int} (inv : NodeInv base s)
    (path : ShortPath s.fs parents last) (task : t < s.tasks) (alive : s.exited t = false)
    (ran : sysOpen s t (pathOf (parents ++ [last])) = .ok (result, after)) : Acted base s t (.open parents last) after := by
  obtain ⟨target, reached⟩ := Option.isSome_iff_exists.mp path.2.2
  obtain ⟨pINo, de, resolved, resolve, missing, last'⟩ := sysOpen_cases ran
  obtain ⟨created, tree, planted⟩ := inv.tree
  obtain ⟨planted', rfl, node⟩ := planted.path_prase path.1 path.component reached resolve
  have numbered := pathPrase_numbered resolve
  have exist : PathExists s.fs (pathOf (parents ++ [last])) := by
    rw [PathExists, resolve]
    exact natCast_ne_isntExist target
  have sane : SaneEntry s.fs (pathOf (parents ++ [last])) := by
    rw [SaneEntry, resolve]
    by_cases there : de.iNo = ulongMax
    · exact .inr (.inl there)
    · obtain ⟨member, kind⟩ := node there
      refine .inr (.inr (.inr ⟨?_, planted'.inv.bounded _ member⟩))
      rcases kind with isDir | ⟨isReg, _⟩
      · simp [isDir]
      · simp [isReg]
  have solo := (inv.solo.sys_open task alive sane exist ran).1
  have unopened : after = { s with fs := resolved } → Acted base s t (.open parents last) after := by
    rintro rfl
    exact NodeInv.acted solo ⟨created, tree, planted'⟩ (fun u fd type i refers => inv.solo.refers_fs numbered refers)
      fun _ used _ => used
  by_cases there : de.iNo = ulongMax
  · exact unopened (missing (.inr there))
  obtain ⟨member, kind⟩ := node there
  have notChr : de.fType ≠ .chr := by
    rcases kind with isDir | ⟨isReg, _⟩
    · simp [isDir]
    · simp [isReg]
  cases last' with
  | none same => exact unopened same
  | full object opened opens same =>
    obtain ⟨tree', _⟩ := planted'.open_object member kind opens
    have more : Numbered s.fs opened := numbered.trans (openObject_numbered opens)
    rcases same with rfl | ⟨chr, _⟩
    · exact NodeInv.acted solo (tree'.mono fun _ => .inl)
        (fun u fd type i refers => inv.solo.refers_fs more refers) fun _ used _ => used
    · exact absurd chr notChr
  | done object opened opens fd slot free empty same =>
    obtain ⟨tree', p, rfl, isOpen⟩ := planted'.open_object member kind opens
    have more : Numbered s.fs opened := numbered.trans (openObject_numbered opens)
    have split : ∀ u gd type i, Refers after u gd type i → Refers s u gd type i ∨ s.fdTable u gd = -1 ∧ type = de.fType ∧
        i = de.iNo := by
      intro u gd type i refers
      rw [same] at refers
      rcases inv.solo.refers_install empty.2 refers with old | ⟨⟨rfl, rfl⟩, type, q, has, number⟩
      · exact .inl (inv.solo.refers_fs more old)
      · cases has
        exact .inr ⟨free.2, type.symm, number.symm.trans isOpen.iNo⟩
    have worked : after.fs = opened := by
      rw [same]
      rfl
    rw [← worked] at tree'
    refine ⟨⟨solo, tree'.mono ?_⟩, ?_, ?_⟩
    · intro i ⟨u, gd, refers⟩
      rcases split u gd .reg i refers with old | ⟨_, type, number⟩
      · exact .inl ⟨u, gd, old⟩
      · exact .inr ⟨type.symm, number⟩
    · intro u gd type i used refers
      rcases split u gd type i refers with old | ⟨unused, _⟩
      · exact old
      · exact absurd unused used
    · intro gd used _
      have other : gd ≠ fd := by
        rintro rfl
        exact used free.2
      rw [same]
      simp only [Files.setFd, Function.update_self, Function.update_of_ne other]
      exact used

theorem fileStep_cases {act : FileAct} (ran : fileStep t s act = .ok after) :
    t < s.tasks ∧ s.exited t = false ∧ act.admissible s.fs = true ∧ ∃ result, act.run s t = .ok (result, after) := by
  simp only [fileStep, bind_ok, offer_ok, pure_ok, Bool.and_eq_true, Files.live, decide_eq_true_eq, Bool.not_eq_true',
    Prod.exists] at ran
  obtain ⟨_, ⟨⟨task, alive⟩, fine⟩, result, _, ran, rfl⟩ := ran
  exact ⟨task, alive, fine, result, ran⟩

theorem fileStep_acted {act : FileAct} (inv : NodeInv base s) (vacant : TakesVacant s act)
    (ran : fileStep t s act = .ok after) : Acted base s t act after := by
  obtain ⟨task, alive, fine, result, ran⟩ := fileStep_cases ran
  cases act with
  | mknod parents last =>
    simp only [FileAct.run, bind_ok, pure_ok, Prod.exists, Prod.mk.injEq] at ran
    obtain ⟨_, fs, makes, _, rfl⟩ := ran
    exact (inv.sys_mknod (of_decide_eq_true fine) vacant makes).1
  | «open» parents last => exact inv.sys_open (of_decide_eq_true fine) task alive ran
  | write fd buf count => exact (inv.sys_write ran).1
  | lseek fd offset whence => exact inv.sys_lseek ran
  | close fd => exact inv.sys_close ran
  | unlink parents last =>
    simp only [FileAct.run, bind_ok, pure_ok, Prod.exists, Prod.mk.injEq] at ran
    obtain ⟨_, fs, unlinks, _, rfl⟩ := ran
    exact inv.sys_unlink (of_decide_eq_true fine) unlinks

theorem fileRun_apart {acts : List FileAct} (inv : NodeInv base s) (calls : Meets (fileStep t) TakesVacant s acts)
    (ran : run (fileStep t) s acts = .ok after) (used : s.fdTable t fd ≠ -1) (kept : ∀ act ∈ acts, act ≠ .close fd)
    (apart : ∀ type, ¬ Refers s t fd type i) : NodeInv base after ∧ ∀ type, ¬ Refers after t fd type i := by
  induction acts generalizing s with
  | nil =>
    cases ran
    exact ⟨inv, apart⟩
  | cons act acts ih =>
    obtain ⟨next, taken, rest⟩ := run_cons.mp ran
    have acted := fileStep_acted inv calls.1 taken
    refine ih acted.inv (calls.2 next taken) rest (acted.keeps fd used (kept act (List.mem_cons_self ..)))
      (fun act member => kept act (List.mem_cons_of_mem _ member)) ?_
    intro type refers
    exact apart type (acted.back t fd type i used refers)

end

theorem TreeCall.gains {call : TreeCall} {s after : State} {result : Int} (healthy : Healthy s)
    (ran : call.run s = .ok (result, after)) : Gains s after := by
  unfold TreeCall.run at ran
  split at ran
  · rcases sysMknod_cases ran with ⟨_, wrong, _⟩ | ⟨_, resolves⟩
    · exact absurd rfl wrong
    · exact resolves.gains healthy
  · exact (sysMkdir_resolves ran).gains healthy
  · exact (sysUnlink_resolves ran).gains healthy
  · exact (sysRmdir_resolves ran).gains healthy

theorem format_healthy {disk : Disk} {part : Partition} {s : State} (formatted : format disk part = .ok s) :
    Healthy s := by
  simp only [format, createRootDir] at formatted
  have create := (diskInodeCreate_same (mounted (partitionFormat disk part) part.superBlock)).gains (mounted_healthy _ _)
  rcases creates : diskInodeCreate (mounted (partitionFormat disk part) part.superBlock) with ⟨result, made⟩
  rw [creates] at formatted create
  simp only [bind_ok, Prod.exists] at formatted
  obtain ⟨_, _, opened, loaded, opens, p, pointer, _, first, addFirst, _, _, _, second, addSecond, _, _, close⟩ := formatted
  have open' := inodeOpen_deref create.healthy.cache opens pointer
  have loadedHealthy := (open'.adds create.healthy).healthy
  have work := ((direntAdd_same addFirst).trans (direntAdd_same addSecond)).gains loadedHealthy
  exact (bracket_gains create.healthy open' work (inodeClose_closed work.healthy.cache close)).healthy

theorem treeRun_nodeInv {disk : Disk} {part : Partition} {start fs : State} {calls : List TreeCall}
    (formatted : format disk part = .ok start) (ran : run treeStep start calls = .ok fs) (tasks : Nat) :
    NodeInv part.superBlockBid (Files.start fs tasks) := by
  have preserved : ∀ s call after, TreeInv part.superBlockBid s ∧ Healthy s → True → treeStep s call = .ok after →
      TreeInv part.superBlockBid after ∧ Healthy after := by
    intro s call after inv _ taken
    refine ⟨treeStep_inv s call after inv.1 taken, ?_⟩
    simp only [treeStep, bind_ok, pure_ok, Prod.exists] at taken
    obtain ⟨_, _, result, final, ran, _, _, rfl⟩ := taken
    exact (TreeCall.gains inv.2 ran).healthy
  obtain ⟨⟨created, tree, sound, files⟩, healthy⟩ := run_invariant preserved
    ⟨format_treeInv formatted, format_healthy formatted⟩ (meets_true treeStep start calls) ran
  refine ⟨.start healthy tasks, created, tree, sound.toIntact, files, ?_⟩
  rintro i ⟨t, fd, slot, p, entry, _⟩
  have free : (-1 : Int) = (slot : Int) := entry
  omega

/-- A file that `sys_mknod` has made with the number `i` is empty, and as long as it exists a descriptor that was open
    before changes neither its size nor its content. -/
structure FreshFile (s : Files) (t : Tid) (after : Files) (pathname : List UInt8) (i : Nat) : Prop where
  empty : ∃ stat final, sysStat after.fs pathname = .ok (0, some stat, final) ∧ stat.ino = i ∧ stat.size = 0
  apart : ∀ (acts : List FileAct) (later : Files), Meets (fileStep t) TakesVacant after acts →
    run (fileStep t) after acts = .ok later → Used later.fs i → ∀ fd : Nat, s.fdTable t fd ≠ -1 →
    (∀ act ∈ acts, act ≠ .close fd) → ∀ (buf : Buffer) (count : Nat) (result : Int) (final : Files),
    sysWrite later t fd buf count = .ok (result, final) → Agree (· = i) later.fs final.fs

/-- In every run in which new files only get vacant numbers, each new file is empty and stays apart from the descriptors
    that were open before. -/
theorem new_files_fresh (disk : Disk) (part : Partition) (start : State) (formatted : format disk part = .ok start)
    (calls : List TreeCall) (fs : State) (ready : run treeStep start calls = .ok fs) (tasks : Nat) (t : Tid)
    (acts : List FileAct) (s : Files) (vacant : Meets (fileStep t) TakesVacant (Files.start fs tasks) acts)
    (ran : run (fileStep t) (Files.start fs tasks) acts = .ok s) (parents : List (List UInt8)) (last : List UInt8)
    (path : ShortPath s.fs parents last) (takes : TakesVacant s (.mknod parents last)) (result : Int) (after : Files)
    (makes : (FileAct.mknod parents last).run s t = .ok (result, after)) (success : 0 ≤ result) :
    FreshFile s t after (pathOf (parents ++ [last])) result.toNat := by
  have inv := run_invariant (fun s act after inv vacant ran => (fileStep_acted inv vacant ran).inv)
    (treeRun_nodeInv formatted ready tasks) vacant ran
  simp only [FileAct.run, bind_ok, pure_ok, Prod.exists, Prod.mk.injEq] at makes
  obtain ⟨_, made, makes, rfl, rfl⟩ := makes
  obtain ⟨acted, fresh⟩ := inv.sys_mknod (t := t) path takes makes
  obtain ⟨i, rfl, new, unreferred⟩ := fresh success
  refine ⟨new.stat, ?_⟩
  intro acts' later vacant' ran' used fd open' kept buf count result final writes
  obtain ⟨laterInv, apart⟩ := fileRun_apart acted.inv vacant' ran' open' kept fun type => unreferred t fd type
  refine (laterInv.sys_write writes).2 _ used ?_
  intro gd same
  rw [← Int.ofNat_inj.mp same]
  exact apart .reg

def closedActs : List FileAct :=
  [.mknod [] [102], .open [] [102], .write 0 (fun _ => 9) 8, .unlink [] [102], .close 0]

theorem new_files_fresh_closed : ∃ start s after, format (fun _ _ => 7) ⟨64, 800⟩ = .ok start ∧
    run (fileStep 0) (Files.start start 1) closedActs = .ok s ∧
    (FileAct.mknod [] [103]).run s 0 = .ok (1, after) ∧ FreshFile s 0 after [47, 103] 1 := by
  have evaluated : endsIn (format (fun _ _ => 7) ⟨64, 800⟩) (fun start =>
      meetsCheck (fileStep 0) TakesVacant (Files.start start 1) closedActs &&
      endsIn (run (fileStep 0) (Files.start start 1) closedActs) fun s =>
        decide (ShortPath s.fs [] [103] ∧ TakesVacant s (.mknod [] [103])) &&
        endsIn ((FileAct.mknod [] [103]).run s 0) fun made => decide (made.1 = 1)) = true := by
    decide +kernel
  obtain ⟨start, formatted, rest⟩ := exists_of_endsIn evaluated
  rw [Bool.and_eq_true] at rest
  obtain ⟨s, ran, rest'⟩ := exists_of_endsIn rest.2
  rw [Bool.and_eq_true, decide_eq_true_eq] at rest'
  obtain ⟨⟨_, after⟩, makes, number⟩ := exists_of_endsIn rest'.2
  obtain rfl := of_decide_eq_true number
  refine ⟨start, s, after, formatted, ran, makes, ?_⟩
  exact new_files_fresh _ _ start formatted [] start rfl 1 0 closedActs s (meets_of_check rest.1) ran [] [103]
    rest'.1.1 rest'.1.2 1 after makes (by decide)

/-- `/f` is open when it is removed and written afterwards. -/
def openActs : List FileAct := [.mknod [] [102], .open [] [102], .unlink [] [102], .write 0 (fun _ => 9) 8]

/-- `/g` gets the number of `/f`, and what descriptor 0 wrote. -/
theorem mknod_reuses_open_inode : ∃ start s after, format (fun _ _ => 7) ⟨64, 800⟩ = .ok start ∧
    run (fileStep 0) (Files.start start 1) openActs = .ok s ∧ ShortPath s.fs [] [103] ∧
    (FileAct.mknod [] [103]).run s 0 = .ok (1, after) ∧ ¬ FreshFile s 0 after [47, 103] 1 := by
  have evaluated : endsIn (format (fun _ _ => 7) ⟨64, 800⟩) (fun start =>
      endsIn (run (fileStep 0) (Files.start start 1) openActs) fun s => decide (ShortPath s.fs [] [103]) &&
        endsIn ((FileAct.mknod [] [103]).run s 0) fun made => decide (made.1 = 1) &&
          endsIn (sysStat made.2.fs [47, 103]) fun found => decide ((found.2.1.map Stat.size) = some 8)) = true := by
    decide +kernel
  obtain ⟨start, formatted, rest⟩ := exists_of_endsIn evaluated
  obtain ⟨s, ran, rest⟩ := exists_of_endsIn rest
  rw [Bool.and_eq_true, decide_eq_true_eq] at rest
  obtain ⟨⟨_, after⟩, makes, rest'⟩ := exists_of_endsIn rest.2
  rw [Bool.and_eq_true, decide_eq_true_eq] at rest'
  obtain ⟨rfl, rest'⟩ := rest'
  obtain ⟨⟨_, found, _⟩, stats, size⟩ := exists_of_endsIn rest'
  refine ⟨start, s, after, formatted, ran, rest.1, makes, ?_⟩
  intro fresh
  obtain ⟨stat, final, ran', _, zero⟩ := fresh.empty
  rw [stats] at ran'
  cases ran'
  rw [decide_eq_true_eq, Option.map_some, zero] at size
  cases size

end RecoverOs.Fs
