import RecoverOs.Fs.DescriptorRuns

namespace RecoverOs.Fs

open Transition

variable {s after : Files} {t : Tid} {fd i : Nat} {p : Ptr} {leaky : Prop}

/-- The inodes in the cache are those that descriptors refer to, and each is open as often as they do. -/
def Balanced (s : Files) : Prop := ∀ p ∈ s.fs.openInodes, (s.fs.inode p).openCnts = inodeRefs s p ∧ 0 < inodeRefs s p

def Lagging (s : Files) : Prop := ∃ p, (inodeRefs s p : Int) < opens s.fs p

structure SoloInv (s : Files) : Prop where
  fds : FdInv False s
  single : ∀ i, refs s i ≤ 1

theorem Lagging.not_balanced (lagging : Lagging s) (healthy : Healthy s.fs) : ¬ Balanced s := by
  intro balanced
  obtain ⟨p, less⟩ := lagging
  have member : p ∈ s.fs.openInodes := by
    apply (opens_pos healthy).mpr
    omega
  have same := (balanced p member).1
  rw [opens, if_pos member] at less
  omega

theorem FdInv.balanced (inv : FdInv leaky s) (level : ¬ Lagging s) : Balanced s := by
  have same : ∀ p, (inodeRefs s p : Int) = opens s.fs p := by
    intro p
    by_contra differ
    exact level ⟨p, lt_of_le_of_ne (inv.inodes p) differ⟩
  intro p member
  have positive := (opens_pos inv.healthy).mp member
  rw [← same] at positive
  refine ⟨?_, by omega⟩
  rw [same, opens, if_pos member]

theorem Lagging.gains {fs : State} (lagging : Lagging s) (gains : Gains s.fs fs) : Lagging { s with fs := fs } := by
  obtain ⟨p, less⟩ := lagging
  exact ⟨p, lt_of_lt_of_le less (gains.opens p)⟩

theorem FdInv.lagging {fs : State} (inv : FdInv leaky s) (pins : Pins s.fs fs) : Lagging { s with fs := fs } := by
  obtain ⟨p, more⟩ := pins.more
  exact ⟨p, lt_of_le_of_lt (inv.inodes p) more⟩

theorem SoloInv.may_close (inv : SoloInv s) (t : Tid) (fd : Nat) : MayClose s t fd := fun _ _ => inv.single _

theorem SoloInv.withFs {fs : State} (inv : SoloInv s) (gains : Gains s.fs fs) : SoloInv { s with fs := fs } :=
  ⟨inv.fds.withFs gains, inv.single⟩

theorem SoloInv.sys_close {fd result : Int} (inv : SoloInv s) (ran : sysClose s t fd = .ok (result, after)) :
    SoloInv after ∧ (Lagging after ↔ Lagging s) := by
  have closed := inv.fds.sys_close (inv.may_close t fd.toNat) ran
  rcases sysClose_dropped inv.fds (inv.may_close t fd.toNat) ran with ⟨_, rfl⟩ | ⟨i, entry, used, dropped⟩
  · exact ⟨inv, Iff.rfl⟩
  · obtain ⟨task, _, inside, _⟩ := inv.fds.entry used
    refine ⟨⟨closed, ?_⟩, ?_⟩
    · intro j
      have count := dropped.refs task inside entry j
      have before := inv.single j
      omega
    · apply exists_congr
      intro p
      have moved := dropped.inodeRefs task inside entry p
      rw [dropped.opens]
      by_cases has : (s.fileTable i).fInode = some (.inode p)
      · rw [if_pos has] at moved ⊢
        omega
      · rw [if_neg has] at moved ⊢
        omega

theorem Lagging.install {resolved opened : State} {de : Dirent} {object : Option Object} {file : File}
    (lagging : Lagging { s with fs := resolved }) (inv : FdInv leaky { s with fs := resolved }) (task : t < s.tasks)
    (alive : s.exited t = false) (opens : openObject resolved de = .ok (object, opened))
    (free : fd < maxFilesOpenPerProc ∧ s.fdTable t fd = -1) (slot : (s.fileTable i).fInode = none)
    (has : file.fInode = object) :
    Lagging (({ s with fs := opened }.setFile i fun _ => file).setFd t fd i file.fInode) := by
  have filled := @filled_one { s with fs := opened } t fd i file task alive free.1 free.2
  have refs := filled.inodeRefs (inv.withFs (openObject_gains inv.healthy opens)) slot
  obtain ⟨q, less⟩ := lagging
  have before : (inodeRefs { s with fs := opened } q : Int) < Fs.opens resolved q := less
  refine ⟨q, ?_⟩
  rw [refs q, filled.fs, has]
  show ((inodeRefs { s with fs := opened } q + if object = some (.inode q) then 1 else 0 : Nat) : Int) < Fs.opens opened q
  rcases openObject_cases inv.healthy opens with ⟨_, rfl, rfl⟩ | ⟨_, ⟨_, rfl, rfl⟩ | ⟨p, rfl, adds⟩⟩
  · exact before
  · exact before
  · have more := adds.opens q
    by_cases here : q = p
    · subst here
      rw [single, if_pos rfl] at more
      rw [if_pos rfl, more, Int.natCast_add]
      exact Int.add_lt_add_right before 1
    · have other : ¬ (some (Object.inode p) = some (Object.inode q)) := by
        intro same
        cases same
        exact here rfl
      rw [single, if_neg here, Int.add_zero] at more
      rw [if_neg other, more]
      exact before

theorem SoloInv.sys_open {pathname : List UInt8} {result : Int} (inv : SoloInv s) (task : t < s.tasks)
    (alive : s.exited t = false) (sane : SaneEntry s.fs pathname) (exist : PathExists s.fs pathname)
    (ran : sysOpen s t pathname = .ok (result, after)) : SoloInv after ∧ Lagging after := by
  have opened := inv.fds.sys_open task alive sane ran
  obtain ⟨pINo, de, resolved, resolve, _, last⟩ := sysOpen_cases ran
  have pins := pathPrase_pins inv.fds.healthy exist resolve
  have resolvedInv := inv.withFs pins.toGains
  have lagging := inv.fds.lagging pins
  cases last with
  | none same =>
    subst same
    exact ⟨resolvedInv, lagging⟩
  | full object opened' opens same =>
    have gains := openObject_gains resolvedInv.fds.healthy opens
    have later : Lagging { s with fs := opened' } := lagging.gains gains
    rcases same with rfl | ⟨_, rfl⟩
    · exact ⟨⟨opened, inv.single⟩, later⟩
    · refine ⟨⟨opened, inv.single⟩, ?_⟩
      obtain ⟨p, less⟩ := later
      refine ⟨p, ?_⟩
      have tasks : ({ s with fs := opened' }.setFile fileTableSize fun file => { file with fPos := 1 }).tasks =
          ({ s with fs := opened' } : Files).tasks := rfl
      rw [inodeRefs_congr tasks rfl]
      · exact less
      · intro j _
        rw [Files.setFile_fileTable]
        split
        · rename_i here
          rw [here]
        · rfl
  | done object opened' opens fd i free slot same =>
    subst same
    refine ⟨⟨opened, ?_⟩, lagging.install resolvedInv.fds task alive opens free slot.2 rfl⟩
    intro j
    have filled := @filled_one { s with fs := opened' } t fd i
      { fPos := if de.fType = FileType.chr then 1 else 0, fInode := object, fType := de.fType } task alive free.1 free.2
    rw [filled.refs j]
    have before : refs { s with fs := opened' } j ≤ 1 := inv.single j
    by_cases here : j = i
    · subst here
      have none : refs { s with fs := opened' } j = 0 := inv.fds.refs_free slot.2
      rw [if_pos rfl, none]
    · rw [if_neg here]
      exact before

structure Works (s after : Files) : Prop where
  inv : SoloInv s → SoloInv after
  lagging : SoloInv s → (Lagging after ↔ Lagging s)

theorem Works.refl (s : Files) : Works s s := ⟨id, fun _ => Iff.rfl⟩

theorem Works.trans {middle : Files} (first : Works s middle) (second : Works middle after) : Works s after :=
  ⟨fun inv => second.inv (first.inv inv), fun inv => (second.lagging (first.inv inv)).trans (first.lagging inv)⟩

theorem works_fs {fs : State} (same : SameCache s.fs fs) : Works s { s with fs := fs } := by
  refine ⟨fun inv => inv.withFs (same.gains inv.fds.healthy), ?_⟩
  intro inv
  apply exists_congr
  intro p
  have count := (same.adds inv.fds.healthy).opens p
  rw [Int.add_zero] at count
  rw [count]
  exact Iff.rfl

theorem works_ioqueue (s : Files) (ioqueue : Nat → Ioqueue) : Works s { s with ioqueue := ioqueue } :=
  ⟨fun inv => ⟨{ inv.fds with }, inv.single⟩, fun _ => Iff.rfl⟩

theorem works_position (pos : File → Int) (plain : (s.fileTable i).fType.counted = false) :
    Works s (s.setFile i fun file => { file with fPos := pos file }) := by
  have tasks : (s.setFile i fun file => { file with fPos := pos file }).tasks = s.tasks := rfl
  refine ⟨fun inv => ⟨inv.fds.position pos fun _ _ => plain, inv.single⟩, ?_⟩
  intro _
  apply exists_congr
  intro p
  rw [inodeRefs_congr tasks rfl]
  · exact Iff.rfl
  · intro j _
    rw [Files.setFile_fileTable]
    split
    · rename_i here
      rw [here]
    · rfl

theorem works_locked {locked worked unlocked : State} {progress : Prop} [Decidable progress] {more : Int}
    (down : semaDown s.fs p = .ok locked) (work : SameCache locked worked) (up : semaUp worked p = .ok unlocked)
    (plain : (s.fileTable i).fType.counted = false) :
    Works s (if progress then { s with fs := unlocked }.setFile i fun file => { file with fPos := file.fPos + more }
      else { s with fs := unlocked }) := by
  obtain ⟨_, rfl⟩ := semaDown_ok.mp down
  obtain ⟨_, rfl⟩ := semaUp_ok.mp up
  have first : Works s { s with fs := worked.setInode p fun inode => { inode with inodeLock := 1 } } :=
    works_fs (((SameCache.lock s.fs p 0).trans work).trans (SameCache.lock worked p 1))
  split
  · exact first.trans (works_position (fun file => file.fPos + more) plain)
  · exact first

theorem sysRead_works {fd result : Int} {count : Nat} {data : List UInt8}
    (ran : sysRead s t fd count = .ok (result, data, after)) : Works s after := by
  unfold sysRead at ran
  split at ran
  · cases ran
    exact .refl s
  · dsimp only at ran
    split at ran
    · rename_i _ p kind has
      simp only [bind_ok, pure_ok, Prod.exists, Prod.mk.injEq] at ran
      obtain ⟨locked, down, nbyte, bytes, read, unlocked, up, _, _, rfl⟩ := ran
      exact works_locked down (.refl locked) up (by rw [kind]; rfl)
    · rename_i _ p kind has
      simp only [bind_ok, pure_ok, Prod.exists, Prod.mk.injEq] at ran
      obtain ⟨locked, down, nbyte, bytes, read, unlocked, up, _, _, rfl⟩ := ran
      exact works_locked down (.refl locked) up (by rw [kind]; rfl)
    · cases ran
    · cases ran
    · cases ran
      exact .refl s
    · simp only [bind_ok, pure_ok, Prod.exists, Prod.mk.injEq] at ran
      obtain ⟨bytes, ioq, read, _, _, rfl⟩ := ran
      exact works_ioqueue s _
    · cases ran
    · cases ran
      exact .refl s

theorem sysWrite_works {fd result : Int} {buf : Bytes.Buffer} {count : Nat}
    (ran : sysWrite s t fd buf count = .ok (result, after)) : Works s after := by
  unfold sysWrite at ran
  split at ran
  · cases ran
    exact .refl s
  · dsimp only at ran
    split at ran
    · rename_i _ p kind has
      simp only [bind_ok, pure_ok, Prod.exists, Prod.mk.injEq] at ran
      obtain ⟨locked, down, nbyte, written, write, unlocked, up, _, rfl⟩ := ran
      exact works_locked down (inodeWrite_same write) up (by rw [kind]; rfl)
    · cases ran
    · cases ran
      exact .refl s
    · simp only [bind_ok, pure_ok, Prod.mk.injEq] at ran
      obtain ⟨ioq, write, _, rfl⟩ := ran
      exact works_ioqueue s _
    · cases ran
    · cases ran
      exact .refl s
    · cases ran
      exact .refl s

def FileOp.path : FileOp → Option (List UInt8)
  | .open pathname | .unlink pathname | .mkdir pathname | .rmdir pathname | .stat pathname => some pathname
  | .mknod pathname type _ => if type = .chr ∨ type = .reg then some pathname else none
  | _ => none

/-- The calls of one task on files and directories: the intermediate directories of every path exist, and what
    `sys_open` finds is an entry that `sys_mknod` or `sys_mkdir` has made. -/
def FileCall (s : Files) (op : Tid × FileOp) : Prop :=
  (∀ pathname, op.2.path = some pathname → PathExists s.fs pathname) ∧
  match op.2 with
  | .open pathname => SaneEntry s.fs pathname
  | .pipe | .dup2 .. | .clone | .exit => False
  | _ => True

instance (s : Files) (op : Tid × FileOp) : Decidable (FileCall s op) :=
  let paths : Decidable (∀ pathname, op.2.path = some pathname → PathExists s.fs pathname) :=
    match resolved : op.2.path with
    | none => .isTrue fun _ wrong => by cases wrong
    | some pathname => decidable_of_iff (PathExists s.fs pathname) (by simp)
  let entry : Decidable (match op.2 with
      | .open pathname => SaneEntry s.fs pathname
      | .pipe | .dup2 .. | .clone | .exit => False
      | _ => True) :=
    match op.2 with
    | .open pathname => inferInstanceAs (Decidable (SaneEntry s.fs pathname))
    | .pipe | .dup2 .. | .clone | .exit => .isFalse id
    | .close _ | .read .. | .write .. | .mknod .. | .unlink _ | .mkdir _ | .rmdir _ | .stat _ => .isTrue True.intro
  @instDecidableAnd _ _ paths entry

theorem SoloInv.resolves {fs : State} {pathname : List UInt8} (inv : SoloInv s) (resolves : Resolves s.fs pathname fs)
    (exist : PathExists s.fs pathname) : SoloInv { s with fs := fs } ∧ Lagging { s with fs := fs } :=
  ⟨inv.withFs (resolves.gains inv.fds.healthy), inv.fds.lagging (resolves.pins inv.fds.healthy exist)⟩

/-- A call that resolves a path leaves an inode open, and no other call changes the balance. -/
theorem solo_step {op : Tid × FileOp} (inv : SoloInv s) (call : FileCall s op) (ran : s.step op = .ok after) :
    SoloInv after ∧ (Lagging after ↔ op.2.path ≠ none ∨ Lagging s) := by
  obtain ⟨t, op⟩ := op
  obtain ⟨task, alive, ran⟩ := step_cases ran
  obtain ⟨exist, call⟩ := call
  cases op with
  | «open» pathname =>
    simp only [Files.call, bind_ok, pure_ok, Prod.exists] at ran
    obtain ⟨result, _, opens, rfl⟩ := ran
    obtain ⟨openedInv, lagging⟩ := inv.sys_open task alive call (exist pathname rfl) opens
    exact ⟨openedInv, iff_of_true lagging (.inl (Option.some_ne_none pathname))⟩
  | close fd =>
    simp only [Files.call, bind_ok, pure_ok, Prod.exists] at ran
    obtain ⟨result, _, closes, rfl⟩ := ran
    obtain ⟨closedInv, lagging⟩ := inv.sys_close closes
    exact ⟨closedInv, lagging.trans (or_iff_right fun some => some rfl).symm⟩
  | read fd count =>
    simp only [Files.call, bind_ok, pure_ok, Prod.exists] at ran
    obtain ⟨result, data, _, reads, rfl⟩ := ran
    have works := sysRead_works reads
    exact ⟨works.inv inv, (works.lagging inv).trans (or_iff_right fun some => some rfl).symm⟩
  | write fd buf count =>
    simp only [Files.call, bind_ok, pure_ok, Prod.exists] at ran
    obtain ⟨result, _, writes, rfl⟩ := ran
    have works := sysWrite_works writes
    exact ⟨works.inv inv, (works.lagging inv).trans (or_iff_right fun some => some rfl).symm⟩
  | mknod pathname type dev =>
    simp only [Files.call, bind_ok, pure_ok, Prod.exists] at ran
    obtain ⟨result, fs, makes, rfl⟩ := ran
    rcases sysMknod_cases makes with ⟨notChr, notReg, rfl⟩ | ⟨known, resolves⟩
    · have none : (FileOp.mknod pathname type dev).path = none := by
        rw [FileOp.path, if_neg (not_or.mpr ⟨notChr, notReg⟩)]
      exact ⟨inv, (or_iff_right fun some => some none).symm⟩
    · obtain ⟨madeInv, lagging⟩ := inv.resolves resolves (exist pathname (if_pos known))
      have some : (FileOp.mknod pathname type dev).path ≠ none := by
        rw [FileOp.path, if_pos known]
        exact Option.some_ne_none pathname
      exact ⟨madeInv, iff_of_true lagging (.inl some)⟩
  | unlink pathname =>
    simp only [Files.call, bind_ok, pure_ok, Prod.exists] at ran
    obtain ⟨result, fs, unlinks, rfl⟩ := ran
    obtain ⟨madeInv, lagging⟩ := inv.resolves (sysUnlink_resolves unlinks) (exist pathname rfl)
    exact ⟨madeInv, iff_of_true lagging (.inl (Option.some_ne_none pathname))⟩
  | mkdir pathname =>
    simp only [Files.call, bind_ok, pure_ok, Prod.exists] at ran
    obtain ⟨result, fs, makes, rfl⟩ := ran
    obtain ⟨madeInv, lagging⟩ := inv.resolves (sysMkdir_resolves makes) (exist pathname rfl)
    exact ⟨madeInv, iff_of_true lagging (.inl (Option.some_ne_none pathname))⟩
  | rmdir pathname =>
    simp only [Files.call, bind_ok, pure_ok, Prod.exists] at ran
    obtain ⟨result, fs, removes, rfl⟩ := ran
    obtain ⟨madeInv, lagging⟩ := inv.resolves (sysRmdir_resolves removes) (exist pathname rfl)
    exact ⟨madeInv, iff_of_true lagging (.inl (Option.some_ne_none pathname))⟩
  | stat pathname =>
    simp only [Files.call, bind_ok, pure_ok, Prod.exists] at ran
    obtain ⟨result, stat, fs, stats, rfl⟩ := ran
    obtain ⟨madeInv, lagging⟩ := inv.resolves (sysStat_resolves stats) (exist pathname rfl)
    exact ⟨madeInv, iff_of_true lagging (.inl (Option.some_ne_none pathname))⟩
  | pipe => exact call.elim
  | dup2 oldfd newfd => exact call.elim
  | clone => exact call.elim
  | exit => exact call.elim

theorem solo_run {ops : List FileOp} (inv : SoloInv s) (calls : Meets Files.step FileCall s (ops.map fun op => (t, op)))
    (ran : run Files.step s (ops.map fun op => (t, op)) = .ok after) :
    SoloInv after ∧ (Lagging after ↔ (∃ op ∈ ops, op.path ≠ none) ∨ Lagging s) := by
  induction ops generalizing s with
  | nil =>
    cases ran
    exact ⟨inv, by simp⟩
  | cons op ops ih =>
    obtain ⟨next, taken, rest⟩ := run_cons.mp ran
    obtain ⟨nextInv, first⟩ := solo_step inv calls.1 taken
    obtain ⟨afterInv, later⟩ := ih nextInv (calls.2 next taken) rest
    refine ⟨afterInv, ?_⟩
    rw [later, first, List.exists_mem_cons_iff, or_assoc, or_left_comm]

theorem SoloInv.start {fs : State} (healthy : Healthy fs) (tasks : Nat) : SoloInv (Files.start fs tasks) := by
  refine ⟨files_start_inv healthy tasks, ?_⟩
  intro i
  have free : refs (Files.start fs tasks) i = 0 := (@files_start_inv False fs healthy tasks).refs_free rfl
  rw [free]
  exact Nat.zero_le 1

/-- After the calls of one task the open counts balance exactly if none of them has resolved a path. -/
theorem balanced_iff_no_path (fs : State) (empty : fs.openInodes = []) (tasks : Nat) (t : Tid) (ops : List FileOp)
    (s : Files) (calls : Meets Files.step FileCall (Files.start fs tasks) (ops.map fun op => (t, op)))
    (ran : run Files.step (Files.start fs tasks) (ops.map fun op => (t, op)) = .ok s) :
    Balanced s ↔ ∀ op ∈ ops, op.path = none := by
  have none : ∀ p, p ∉ fs.openInodes := by
    intro p
    rw [empty]
    exact List.not_mem_nil
  have healthy : Healthy fs := by
    refine ⟨⟨?_, fun p member => absurd member (none p), fun p member => absurd member (none p),
      fun p member => absurd member (none p)⟩, fun p member => absurd member (none p)⟩
    rw [empty]
    exact List.nodup_nil
  have start : SoloInv (Files.start fs tasks) := .start healthy tasks
  have level : ¬ Lagging (Files.start fs tasks) := by
    intro ⟨p, less⟩
    have zero : opens (Files.start fs tasks).fs p = 0 := if_neg (none p)
    omega
  obtain ⟨inv, lagging⟩ := solo_run start calls ran
  rw [or_iff_left level] at lagging
  constructor
  · intro balanced op member
    by_contra some
    exact (lagging.mpr ⟨op, member, some⟩).not_balanced inv.fds.healthy balanced
  · intro silent
    apply inv.fds.balanced
    intro more
    obtain ⟨op, member, some⟩ := lagging.mp more
    exact some (silent op member)

/-- A file is opened, read and closed. -/
def readRun : List FileOp := [.open [47, 102], .read 0 8, .close 0]

theorem balanced_iff_no_path_read : ∃ s, run Files.step (Files.start deviceFs 3) (readRun.map fun op => (2, op)) = .ok s ∧
    s.fdTable 2 0 = -1 ∧ ¬ Balanced s := by
  have evaluated : endsIn (run Files.step (Files.start deviceFs 3) (readRun.map fun op => (2, op))) (fun s =>
      decide (s.fdTable 2 0 = -1)) = true := by
    decide +kernel
  have calls : meetsCheck Files.step FileCall (Files.start deviceFs 3) (readRun.map fun op => (2, op)) = true := by
    decide +kernel
  obtain ⟨s, ran, check⟩ := exists_of_endsIn evaluated
  refine ⟨s, ran, of_decide_eq_true check, ?_⟩
  rw [balanced_iff_no_path deviceFs rfl 3 2 readRun s (meets_of_check calls) ran]
  intro silent
  exact absurd (silent (.open [47, 102]) (List.mem_cons_self ..)) (Option.some_ne_none _)

/-- `sys_stat("/")` leaves the root directory open. -/
theorem stat_pins_root : ∃ s, run Files.step (Files.start deviceFs 3) [(2, .stat [47])] = .ok s ∧
    s.fs.openInodes = [0] ∧ (s.fs.inode 0).openCnts = 1 ∧ ¬ Balanced s := by
  have evaluated : endsIn (run Files.step (Files.start deviceFs 3) [(2, .stat [47])]) (fun s =>
      decide (s.fs.openInodes = [0] ∧ (s.fs.inode 0).openCnts = 1 ∧ inodeRefs s 0 = 0)) = true := by
    decide +kernel
  obtain ⟨s, ran, check⟩ := exists_of_endsIn evaluated
  obtain ⟨cached, count, none⟩ := of_decide_eq_true check
  refine ⟨s, ran, cached, count, ?_⟩
  intro balanced
  have member : 0 ∈ s.fs.openInodes := by
    rw [cached]
    exact List.mem_singleton.mpr rfl
  have positive := (balanced 0 member).2
  rw [none] at positive
  exact absurd positive (Nat.lt_irrefl 0)

end RecoverOs.Fs
