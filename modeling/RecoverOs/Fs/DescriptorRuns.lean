import RecoverOs.Fs.DescriptorCalls
import RecoverOs.Fs.Format

namespace RecoverOs.Fs

open Transition

variable {s after : Files} {t : Tid} {fd i : Nat} {p : Ptr} {leaky : Prop}

def Files.alive (s : Files) : Object → Prop
  | .console => True
  | .inode p => p ∈ s.fs.openInodes
  | .ioqueue page => page ∈ s.livePages

/-- Every descriptor of a live task still names the object it was given, and nobody has freed that object. -/
def NoDangling (s : Files) : Prop :=
  ∀ t fd, s.live t = true → 0 ≤ s.fdTable t fd → ∃ object,
    (s.fileTable (s.fdTable t fd).toNat).fInode = some object ∧ s.installed t fd = some object ∧ s.alive object

theorem FdInv.no_dangling (inv : FdInv leaky s) : NoDangling s := by
  intro t fd _ valid
  have used : s.fdTable t fd ≠ -1 := by omega
  obtain ⟨i, bound, entry, has, installed⟩ := inv.names t fd used
  obtain ⟨task, _, inside, _⟩ := inv.entry used
  rw [entry, Int.toNat_natCast]
  obtain ⟨object, same⟩ := Option.ne_none_iff_exists'.mp has
  refine ⟨object, same, installed.trans same, ?_⟩
  cases object with
  | console => exact True.intro
  | inode p => exact inv.inode_open used entry same
  | ioqueue page => exact (inv.pages i bound page same).2 (refs_pos.mpr ⟨t, fd, task, inside, entry⟩)

/-- The `ASSERT` of `sys_close` holds for every descriptor that the call accepts. -/
def CloseAsserts (s : Files) : Prop :=
  ∀ t fd, s.live t = true → fdRejected s t fd = false → (s.fileTable (fdEntry s t fd).toNat).fInode ≠ none

theorem NoDangling.asserts (valid : NoDangling s) : CloseAsserts s := by
  intro t fd live accepted
  simp only [fdRejected, Bool.or_eq_false_iff, decide_eq_false_iff_not] at accepted
  obtain ⟨⟨_, named⟩, _⟩ := accepted
  unfold fdEntry at named ⊢
  split at named
  · rename_i inside
    rw [if_pos inside]
    obtain ⟨object, has, _⟩ := valid t fd.toNat live (Int.not_lt.mp named)
    rw [has]
    exact Option.some_ne_none object
  · exact absurd (by decide : (-1 : Int) < 0) named

theorem files_start_inv {fs : State} (healthy : Healthy fs) (tasks : Nat) : FdInv leaky (Files.start fs tasks) := by
  have none : ∀ p, inodeRefs (Files.start fs tasks) p = 0 := by
    intro p
    by_contra some
    obtain ⟨t, fd, _, _, positive⟩ := weigh_pos.mp (Nat.pos_of_ne_zero some)
    exact absurd positive (by simp [Files.start])
  constructor
  case healthy => exact healthy
  case idle => exact fun _ _ _ => rfl
  case names => exact fun _ _ used => absurd rfl used
  case fits => exact fun _ _ _ has => by cases has
  case counts => exact fun _ _ used => absurd rfl used
  case inodes =>
    intro p
    rw [none]
    exact opens_nonneg healthy p
  case pages => exact fun _ _ _ has => by cases has
  case onePage => exact fun _ _ _ _ _ has => by cases has
  case pageNodup => exact List.nodup_nil
  case pageBelow => exact fun _ member => by rcases member with member | member <;> cases member
  case held => exact fun _ member => by cases member

theorem step_cases {op : Tid × FileOp} (ran : s.step op = .ok after) :
    op.1 < s.tasks ∧ s.exited op.1 = false ∧ s.call op.1 op.2 = .ok after := by
  simp only [Files.step, bind_ok, offer_ok, Files.live, Bool.and_eq_true, decide_eq_true_eq, Bool.not_eq_true'] at ran
  obtain ⟨_, ⟨task, alive⟩, call⟩ := ran
  exact ⟨task, alive, call⟩

theorem FdInv.close_call {fd result : Int} (inv : FdInv leaky s) (may : 0 ≤ fd → MayClose s t fd.toNat)
    (ran : sysClose s t fd = .ok (result, after)) : FdInv leaky after := by
  by_cases negative : fd < 0
  · have rejected : fdRejected s t fd = true := by simp [fdRejected, negative]
    rw [sysClose, if_pos rejected] at ran
    cases ran
    exact inv
  · exact inv.sys_close (may (Int.not_lt.mp negative)) ran

/-- Descriptors of inodes are closed only where no other descriptor names their slot. -/
def ClosesAlone (s : Files) : Tid × FileOp → Prop
  | (_, .open pathname) => SaneEntry s.fs pathname
  | (t, .close fd) => 0 ≤ fd → MayClose s t fd.toNat
  | (_, .pipe) | (_, .clone) => True
  | (t, .exit) => ∀ fd < maxFilesOpenPerProc, MayClose s t fd
  | _ => False

instance (s : Files) (op : Tid × FileOp) : Decidable (ClosesAlone s op) :=
  match op with
  | (_, .open pathname) => inferInstanceAs (Decidable (SaneEntry s.fs pathname))
  | (t, .close fd) => inferInstanceAs (Decidable (0 ≤ fd → MayClose s t fd.toNat))
  | (_, .pipe) | (_, .clone) => .isTrue True.intro
  | (t, .exit) => inferInstanceAs (Decidable (∀ fd < maxFilesOpenPerProc, MayClose s t fd))
  | (_, .read ..) | (_, .write ..) | (_, .mknod ..) | (_, .unlink ..) | (_, .mkdir ..) | (_, .rmdir ..) |
    (_, .stat ..) | (_, .dup2 ..) => .isFalse id

theorem FdInv.step (s : Files) (op : Tid × FileOp) (after : Files) (inv : FdInv True s) (alone : ClosesAlone s op)
    (ran : s.step op = .ok after) : FdInv True after := by
  obtain ⟨t, call⟩ := op
  obtain ⟨task, alive, ran⟩ := step_cases ran
  cases call with
  | «open» pathname =>
    simp only [Files.call, bind_ok, pure_ok, Prod.exists] at ran
    obtain ⟨result, _, opens, rfl⟩ := ran
    exact inv.sys_open task alive alone opens
  | close fd =>
    simp only [Files.call, bind_ok, pure_ok, Prod.exists] at ran
    obtain ⟨result, _, closes, rfl⟩ := ran
    exact inv.close_call alone closes
  | pipe =>
    simp only [Files.call, Except.ok.injEq] at ran
    exact inv.sys_pipe task alive (.inl True.intro) ran
  | clone =>
    simp only [Files.call, bind_ok, pure_ok, Prod.exists] at ran
    obtain ⟨result, _, clones, rfl⟩ := ran
    exact inv.sys_clone task clones
  | exit => exact inv.sys_exit alone ran
  | read fd count => exact alone.elim
  | write fd buf count => exact alone.elim
  | mknod pathname type dev => exact alone.elim
  | unlink pathname => exact alone.elim
  | mkdir pathname => exact alone.elim
  | rmdir pathname => exact alone.elim
  | stat pathname => exact alone.elim
  | dup2 oldfd newfd => exact alone.elim

/-- No descriptor dangles in any state the calls reach, nor while a task that exits closes its descriptors. -/
theorem descriptors_valid (fs : State) (healthy : Healthy fs) (tasks : Nat) (ops : List (Tid × FileOp)) (s : Files)
    (alone : Meets Files.step ClosesAlone (Files.start fs tasks) ops)
    (ran : run Files.step (Files.start fs tasks) ops = .ok s) :
    NoDangling s ∧ CloseAsserts s ∧ ∀ t cnt closing, ClosesAlone s (t, .exit) → cnt ≤ maxFilesOpenPerProc →
      releaseFds s t cnt = .ok closing → NoDangling closing ∧ CloseAsserts closing := by
  have inv := run_invariant FdInv.step (files_start_inv healthy tasks) alone ran
  refine ⟨inv.no_dangling, inv.no_dangling.asserts, ?_⟩
  intro t cnt closing may bound release
  have closingInv := (inv.release bound may release).1
  exact ⟨closingInv.no_dangling, closingInv.no_dangling.asserts⟩

theorem mounted_healthy (disk : Disk) (sb : SuperBlock) : Healthy (mounted disk sb) := by
  have none : ∀ p, p ∉ (mounted disk sb).openInodes := fun p member => by cases member
  constructor
  · exact ⟨List.nodup_nil, fun p member => absurd member (none p), fun p member => absurd member (none p),
      fun p member => absurd member (none p)⟩
  · exact fun p member => absurd member (none p)

def rootEntries : List Dirent :=
  [{ iNo := 0, filename := dotName 2, fType := .dir }, { iNo := 0, filename := dotName 1, fType := .dir },
    { iNo := 1, filename := cstr [102], fType := .reg }, { iNo := 0, filename := cstr [116], fType := .chr }]

/-- The inode table of a partition of 100 blocks is at block 11, and the entries are in the first data block. -/
def deviceDisk : Disk := fun bid i =>
  if bid = 11 ∧ i < diskInodeSize then DiskInode.store { fileSize := 128, direct := fun idx => if idx = 0 then 15 else 0 } i
  else if bid = 15 then (rootEntries.getD (i / direntSize) { iNo := 0, filename := cstr [], fType := .dir }).store
    (i % direntSize)
  else 0

def deviceFs : State := mounted deviceDisk (Partition.superBlock ⟨64, 800⟩)

/-- A file, a device and a pipe are shared by a parent and its child; only the child closes the file. -/
def sharedRun : List (Tid × FileOp) :=
  [(2, .open [47, 116]), (2, .pipe), (2, .clone), (3, .open [47, 102]), (2, .close 0), (3, .close 2), (3, .exit),
    (2, .open [47, 102])]

theorem descriptors_valid_shared : ∃ s, run Files.step (Files.start deviceFs 3) sharedRun = .ok s ∧
    s.fdTable 2 0 = 0 ∧ s.exited 3 = true ∧ NoDangling s := by
  have evaluated : endsIn (run Files.step (Files.start deviceFs 3) sharedRun) (fun s =>
      decide (s.fdTable 2 0 = 0 ∧ s.exited 3 = true)) = true := by
    decide +kernel
  have alone : meetsCheck Files.step ClosesAlone (Files.start deviceFs 3) sharedRun = true := by
    decide +kernel
  obtain ⟨s, ran, check⟩ := exists_of_endsIn evaluated
  obtain ⟨entry, exited⟩ := of_decide_eq_true check
  exact ⟨s, ran, entry, exited,
    (descriptors_valid deviceFs (mounted_healthy _ _) 3 sharedRun s (meets_of_check alone) ran).1⟩

/-- The parent closes a file that its child has inherited. -/
def parentCloses : List (Tid × FileOp) := [(2, .open [47, 102]), (2, .clone), (2, .close 0)]

theorem child_descriptor_dangles : ∃ s, run Files.step (Files.start deviceFs 3) parentCloses = .ok s ∧
    ¬ NoDangling s ∧ sysClose s 3 0 = .error .panic := by
  have evaluated : endsIn (run Files.step (Files.start deviceFs 3) parentCloses) (fun s =>
      decide (s.live 3 = true ∧ s.fdTable 3 0 = 0 ∧ (s.fileTable 0).fInode = none)) = true := by
    decide +kernel
  obtain ⟨s, ran, check⟩ := exists_of_endsIn evaluated
  obtain ⟨live, entry, free⟩ := of_decide_eq_true check
  refine ⟨s, ran, ?_, ?_⟩
  · intro valid
    obtain ⟨object, has, _⟩ := valid 3 0 live (by rw [entry])
    rw [entry] at has
    exact absurd (free.symm.trans has) (Option.some_ne_none object).symm
  · have named : fdEntry s 3 0 = 0 := entry
    have accepted : fdRejected s 3 0 = false := by
      rw [fdRejected, named]
      decide
    have slot : (fdEntry s 3 0).toNat = 0 := by rw [named]; rfl
    have drop : dropSlot s 0 = .error .panic := by
      unfold dropSlot
      dsimp only
      rw [free]
    rw [sysClose, if_neg (by rw [accepted]; decide), slot, drop]
    rfl

def descriptors (s : Files) (i : Nat) : Finset (Tid × Nat) :=
  (Finset.range s.tasks ×ˢ Finset.range maxFilesOpenPerProc).filter fun x =>
    s.live x.1 = true ∧ s.fdTable x.1 x.2 = (i : Int)

theorem FdInv.descriptors_card (inv : FdInv leaky s) (i : Nat) : (descriptors s i).card = refs s i := by
  rw [descriptors, Finset.card_filter, refs, weigh]
  apply Finset.sum_congr rfl
  intro x inside
  rw [Finset.mem_product, Finset.mem_range] at inside
  by_cases named : s.fdTable x.1 x.2 = (i : Int)
  · have used : s.fdTable x.1 x.2 ≠ -1 := by omega
    obtain ⟨task, alive, _⟩ := inv.entry used
    have live : s.live x.1 = true := by simp [Files.live, task, alive]
    rw [if_pos ⟨live, named⟩, if_pos named]
  · rw [if_neg (fun both => named both.2), if_neg named]

/-- Positions count descriptors, and a pipe's page is taken as long as a live task has a descriptor of it. -/
def ExactCounts (s : Files) : Prop :=
  (∀ i < fileTableSize, (s.fileTable i).fInode ≠ none → (s.fileTable i).fType.counted = true →
    (s.fileTable i).fPos = (descriptors s i).card) ∧
  ∀ page ∈ s.pipes, page ∈ s.livePages ↔ ∃ t fd, s.live t = true ∧ 0 ≤ s.fdTable t fd ∧
    (s.fileTable (s.fdTable t fd).toNat).fInode = some (.ioqueue page)

/-- Every slot in use is a device or a pipe. -/
def OnlyCounted (s : Files) : Prop :=
  ∀ i < fileTableSize, (s.fileTable i).fInode ≠ none → (s.fileTable i).fType.counted = true

theorem FdInv.exact_counts (inv : FdInv False s) (only : OnlyCounted s) : ExactCounts s := by
  refine ⟨?_, ?_⟩
  · intro i bound used counted
    rw [inv.descriptors_card]
    rcases inv.counts i bound used counted with ⟨exact, _⟩ | ⟨wrong, _⟩
    · exact exact
    · exact wrong.elim
  · intro page member
    constructor
    · intro live
      obtain ⟨i, bound, holds⟩ := inv.held page member live
      have used : (s.fileTable i).fInode ≠ none := by
        rw [holds]
        exact Option.some_ne_none _
      have positive : 0 < refs s i := by
        rcases inv.counts i bound used (only i bound used) with ⟨_, positive⟩ | ⟨wrong, _⟩
        · exact positive
        · exact wrong.elim
      obtain ⟨t, fd, task, inside, entry⟩ := refs_pos.mp positive
      have named : s.fdTable t fd ≠ -1 := by omega
      obtain ⟨_, alive, _⟩ := inv.entry named
      exact ⟨t, fd, by simp [Files.live, task, alive], by omega, by rw [entry]; exact holds⟩
    · intro ⟨t, fd, live, valid, holds⟩
      obtain ⟨object, has, _, alive⟩ := inv.no_dangling t fd live valid
      rw [has] at holds
      cases holds
      exact alive

theorem FdInv.may_close (inv : FdInv leaky s) (only : OnlyCounted s) (t : Tid) (fd : Nat) : MayClose s t fd := by
  intro valid plain
  have used : s.fdTable t fd ≠ -1 := by omega
  obtain ⟨_, _, _, i, bound, entry, _, object⟩ := inv.entry used
  rw [entry, Int.toNat_natCast, only i bound object] at plain
  cases plain

def OpensDevice (fs : State) (pathname : List UInt8) : Prop :=
  match pathPrase fs pathname with
  | .ok (result, de, _) => result < 0 ∨ de.iNo = ulongMax ∨ de.fType = .chr
  | .error _ => True

instance (fs : State) (pathname : List UInt8) : Decidable (OpensDevice fs pathname) :=
  match resolved : pathPrase fs pathname with
  | .ok (result, de, _) =>
    decidable_of_iff (result < 0 ∨ de.iNo = ulongMax ∨ de.fType = .chr) (by rw [OpensDevice, resolved])
  | .error _ => .isTrue (by rw [OpensDevice, resolved]; exact True.intro)

instance (s : Files) (t : Tid) : Decidable (PipeFits s t) :=
  inferInstanceAs (Decidable ((∀ i < fileTableSize, (s.fileTable i).fInode ≠ none) ∨
    ∃ fd0 < maxFilesOpenPerProc, ∃ fd1 < maxFilesOpenPerProc,
      fd0 ≠ fd1 ∧ s.fdTable t fd0 = -1 ∧ s.fdTable t fd1 = -1))

/-- `sys_dup2` is called on descriptors that name the same slot (or none), and `sys_pipe` does not run out of
    descriptors after it has taken a slot. -/
def CountsKept (s : Files) : Tid × FileOp → Prop
  | (_, .open pathname) => OpensDevice s.fs pathname
  | (t, .pipe) => PipeFits s t
  | (t, .dup2 oldfd newfd) => s.fdTable t oldfd = s.fdTable t newfd
  | (_, .clone) | (_, .close _) | (_, .exit) => True
  | _ => False

instance (s : Files) (op : Tid × FileOp) : Decidable (CountsKept s op) :=
  match op with
  | (_, .open pathname) => inferInstanceAs (Decidable (OpensDevice s.fs pathname))
  | (t, .pipe) => inferInstanceAs (Decidable (PipeFits s t))
  | (t, .dup2 oldfd newfd) => inferInstanceAs (Decidable (s.fdTable t oldfd = s.fdTable t newfd))
  | (_, .clone) | (_, .close _) | (_, .exit) => .isTrue True.intro
  | (_, .read ..) | (_, .write ..) | (_, .mknod ..) | (_, .unlink ..) | (_, .mkdir ..) | (_, .rmdir ..) |
    (_, .stat ..) => .isFalse id

theorem OnlyCounted.keep (only : OnlyCounted s) (slots : ∀ i < fileTableSize, (after.fileTable i).fInode ≠ none →
    ((s.fileTable i).fInode ≠ none ∧ (after.fileTable i).fType = (s.fileTable i).fType) ∨
    (after.fileTable i).fType.counted = true) : OnlyCounted after := by
  intro i bound used
  rcases slots i bound used with ⟨before, same⟩ | counted
  · rw [same]
    exact only i bound before
  · exact counted

theorem OnlyCounted.sys_open {pathname : List UInt8} {result : Int} (only : OnlyCounted s)
    (device : OpensDevice s.fs pathname) (ran : sysOpen s t pathname = .ok (result, after)) : OnlyCounted after := by
  obtain ⟨pINo, de, resolved, resolve, missing, last⟩ := sysOpen_cases ran
  by_cases found : pINo < 0 ∨ de.iNo = ulongMax
  · rw [missing found]
    exact only
  have chr : de.fType = .chr := by
    rw [OpensDevice, resolve] at device
    rcases device with negative | absent | chr
    · exact absurd (.inl negative) found
    · exact absurd (.inr absent) found
    · exact chr
  apply only.keep
  intro i bound used
  cases last with
  | none same =>
    subst same
    exact .inl ⟨used, rfl⟩
  | full object opened opens same =>
    rcases same with rfl | ⟨_, rfl⟩
    · exact .inl ⟨used, rfl⟩
    · rw [Files.setFile_fileTable, if_neg (Nat.ne_of_lt bound)] at used ⊢
      exact .inl ⟨used, rfl⟩
  | done object opened opens fd j free slot same =>
    have slots : after.fileTable i = if i = j then
        { fPos := if de.fType = FileType.chr then 1 else 0, fInode := object, fType := de.fType }
        else s.fileTable i := by
      rw [same]
      exact Files.setFile_fileTable { s with fs := opened } j i fun _ =>
        { fPos := if de.fType = FileType.chr then 1 else 0, fInode := object, fType := de.fType }
    rw [slots] at used ⊢
    split at used
    · rename_i here
      rw [if_pos here, chr]
      exact .inr rfl
    · rename_i other
      rw [if_neg other]
      exact .inl ⟨used, rfl⟩

theorem OnlyCounted.sys_pipe (only : OnlyCounted s) (ran : (sysPipe s t).2.2 = after) : OnlyCounted after := by
  apply only.keep
  intro i bound used
  have filled : ∀ j, after.fileTable i = (pipeSlot s j).fileTable i →
      ((s.fileTable i).fInode ≠ none ∧ (after.fileTable i).fType = (s.fileTable i).fType) ∨
      (after.fileTable i).fType.counted = true := by
    intro j same
    rw [same, pipeSlot, Files.setFile_fileTable] at used ⊢
    split at used
    · rename_i here
      rw [if_pos here]
      exact .inr rfl
    · rename_i other
      rw [if_neg other]
      exact .inl ⟨used, rfl⟩
  cases sysPipe_cases ran with
  | full same =>
    subst same
    exact .inl ⟨used, rfl⟩
  | noFd j slot same none =>
    apply filled j
    rw [same.2.2]
    rfl
  | done j fd0 fd1 slot first second differ same =>
    apply filled j
    rw [same]
    rfl

theorem OnlyCounted.sys_close {fd result : Int} (only : OnlyCounted s) (inv : FdInv leaky s)
    (ran : sysClose s t fd = .ok (result, after)) : OnlyCounted after := by
  rcases sysClose_dropped inv (inv.may_close only t fd.toNat) ran with ⟨_, rfl⟩ | ⟨i, _, _, dropped⟩
  · exact only
  · apply only.keep
    intro j _ used
    obtain ⟨object, has⟩ := Option.ne_none_iff_exists'.mp used
    rw [dropped.objects j object has]
    exact .inl ⟨Option.some_ne_none object, dropped.types j⟩

theorem OnlyCounted.sys_exit (only : OnlyCounted s) (inv : FdInv leaky s) (ran : sysExit s t = .ok after) :
    OnlyCounted after := by
  simp only [sysExit, bind_ok, pure_ok] at ran
  obtain ⟨_, _, released, release, rfl⟩ := ran
  obtain ⟨_, _, _, objects⟩ := inv.release (Nat.le_refl _) (fun fd _ => inv.may_close only t fd) release
  apply only.keep
  intro i _ used
  obtain ⟨object, has⟩ := Option.ne_none_iff_exists'.mp used
  obtain ⟨before, type⟩ := objects i object has
  rw [before]
  exact .inl ⟨Option.some_ne_none object, type⟩

theorem OnlyCounted.sys_clone {result : Int} (only : OnlyCounted s) (inv : FdInv leaky s)
    (ran : sysClone s t = .ok (result, after)) : OnlyCounted after := by
  have inherited := sysClone_inherited inv ran
  apply only.keep
  intro i _ used
  rw [inherited.fInode] at used
  exact .inl ⟨used, inherited.fType i⟩

theorem OpensDevice.sane {fs : State} {pathname : List UInt8} (device : OpensDevice fs pathname) :
    SaneEntry fs pathname := by
  rw [OpensDevice] at device
  rw [SaneEntry]
  cases resolved : pathPrase fs pathname with
  | error halt => exact True.intro
  | ok found =>
    rw [resolved] at device
    rcases device with negative | absent | chr
    · exact .inl negative
    · exact .inr (.inl absent)
    · exact .inr (.inr (.inl chr))

theorem counts_step (s : Files) (op : Tid × FileOp) (after : Files) (inv : FdInv False s ∧ OnlyCounted s)
    (kept : CountsKept s op) (ran : s.step op = .ok after) : FdInv False after ∧ OnlyCounted after := by
  obtain ⟨inv, only⟩ := inv
  obtain ⟨t, call⟩ := op
  obtain ⟨task, alive, ran⟩ := step_cases ran
  cases call with
  | «open» pathname =>
    simp only [Files.call, bind_ok, pure_ok, Prod.exists] at ran
    obtain ⟨result, _, opens, rfl⟩ := ran
    exact ⟨inv.sys_open task alive (OpensDevice.sane kept) opens, only.sys_open kept opens⟩
  | close fd =>
    simp only [Files.call, bind_ok, pure_ok, Prod.exists] at ran
    obtain ⟨result, _, closes, rfl⟩ := ran
    exact ⟨inv.sys_close (inv.may_close only t fd.toNat) closes, only.sys_close inv closes⟩
  | pipe =>
    simp only [Files.call, Except.ok.injEq] at ran
    exact ⟨inv.sys_pipe task alive (.inr kept) ran, only.sys_pipe ran⟩
  | dup2 oldfd newfd =>
    simp only [Files.call, bind_ok, pure_ok, Prod.exists] at ran
    obtain ⟨result, _, dups, rfl⟩ := ran
    obtain ⟨afterInv, table⟩ := inv.sys_dup2 kept dups
    refine ⟨afterInv, ?_⟩
    rw [OnlyCounted, table]
    exact only
  | clone =>
    simp only [Files.call, bind_ok, pure_ok, Prod.exists] at ran
    obtain ⟨result, _, clones, rfl⟩ := ran
    exact ⟨inv.sys_clone task clones, only.sys_clone inv clones⟩
  | exit => exact ⟨inv.sys_exit (fun fd _ => inv.may_close only t fd) ran, only.sys_exit inv ran⟩
  | read fd count => exact kept.elim
  | write fd buf count => exact kept.elim
  | mknod pathname type dev => exact kept.elim
  | unlink pathname => exact kept.elim
  | mkdir pathname => exact kept.elim
  | rmdir pathname => exact kept.elim
  | stat pathname => exact kept.elim

/-- Devices and pipes count their descriptors in every state the calls reach. -/
theorem counts_exact (fs : State) (healthy : Healthy fs) (tasks : Nat) (ops : List (Tid × FileOp)) (s : Files)
    (kept : Meets Files.step CountsKept (Files.start fs tasks) ops)
    (ran : run Files.step (Files.start fs tasks) ops = .ok s) : ExactCounts s := by
  have start : FdInv False (Files.start fs tasks) ∧ OnlyCounted (Files.start fs tasks) :=
    ⟨files_start_inv healthy tasks, fun _ _ used => absurd rfl used⟩
  obtain ⟨inv, only⟩ := run_invariant counts_step start kept ran
  exact inv.exact_counts only

/-- A device and a pipe are inherited, a descriptor is duplicated onto its own slot, and the last end is closed. -/
def countedRun : List (Tid × FileOp) :=
  [(2, .open [47, 116]), (2, .pipe), (2, .clone), (2, .dup2 1 2), (3, .close 1), (3, .exit), (2, .close 1), (2, .close 2),
    (2, .pipe), (2, .clone)]

theorem counts_exact_inherited : ∃ s, run Files.step (Files.start deviceFs 3) countedRun = .ok s ∧
    s.pipes = [1, 0] ∧ s.livePages = [1] ∧ (s.fileTable 0).fPos = 2 ∧ ExactCounts s := by
  have evaluated : endsIn (run Files.step (Files.start deviceFs 3) countedRun) (fun s =>
      decide (s.pipes = [1, 0] ∧ s.livePages = [1] ∧ (s.fileTable 0).fPos = 2)) = true := by
    decide +kernel
  have kept : meetsCheck Files.step CountsKept (Files.start deviceFs 3) countedRun = true := by
    decide +kernel
  obtain ⟨s, ran, check⟩ := exists_of_endsIn evaluated
  obtain ⟨pipes, live, position⟩ := of_decide_eq_true check
  exact ⟨s, ran, pipes, live, position,
    counts_exact deviceFs (mounted_healthy _ _) 3 countedRun s (meets_of_check kept) ran⟩

def movedRun : List (Tid × FileOp) := [(2, .pipe), (2, .pipe), (2, .dup2 0 2)]

theorem dup2_breaks_counts : ∃ s, run Files.step (Files.start deviceFs 3) movedRun = .ok s ∧ ¬ ExactCounts s := by
  have evaluated : endsIn (run Files.step (Files.start deviceFs 3) movedRun) (fun s =>
      decide ((s.fileTable 0).fInode ≠ none ∧ (s.fileTable 0).fType.counted = true ∧ (s.fileTable 0).fPos = 2 ∧
        (descriptors s 0).card = 1)) = true := by
    decide +kernel
  obtain ⟨s, ran, check⟩ := exists_of_endsIn evaluated
  obtain ⟨used, counted, position, named⟩ := of_decide_eq_true check
  refine ⟨s, ran, ?_⟩
  intro exact
  have same := exact.1 0 (by decide) used counted
  rw [position, named] at same
  exact absurd same (by decide)

end RecoverOs.Fs
