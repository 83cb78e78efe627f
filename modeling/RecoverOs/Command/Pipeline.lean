import RecoverOs.Command.Shell
import RecoverOs.Fs.DescriptorCalls
import RecoverOs.Fs.Format

namespace RecoverOs.Command

open RecoverOs.Fs Transition

variable {s middle after : Files} {t u : Tid}

structure Apart (t : Tid) (s after : Files) : Prop where
  fds : after.fdTable t = s.fdTable t
  tasks : s.tasks ≤ after.tasks

theorem Apart.refl (t : Tid) (s : Files) : Apart t s s := ⟨rfl, Nat.le_refl _⟩

theorem Apart.trans (first : Apart t s middle) (second : Apart t middle after) : Apart t s after :=
  ⟨second.fds.trans first.fds, Nat.le_trans first.tasks second.tasks⟩

theorem Apart.same (fds : after.fdTable = s.fdTable) (tasks : after.tasks = s.tasks) : Apart t s after :=
  ⟨congrFun fds t, Nat.le_of_eq tasks.symm⟩

theorem setFd_apart (other : t ≠ u) (s : Files) (fd : Nat) (v : Int) (object : Option Object) :
    Apart t s (s.setFd u fd v object) := by
  refine ⟨?_, Nat.le_refl _⟩
  show Function.update s.fdTable u _ t = _
  exact Function.update_of_ne other _ _

theorem dropSlot_fds {i : Nat} (ran : dropSlot s i = .ok after) :
    after.fdTable = s.fdTable ∧ after.tasks = s.tasks := by
  unfold dropSlot at ran
  dsimp only at ran
  split at ran
  · cases ran
  · split at ran
    · cases ran
      exact ⟨rfl, rfl⟩
    · cases ran
      exact ⟨rfl, rfl⟩
  · split at ran
    · cases ran
      exact ⟨rfl, rfl⟩
    · cases ran
      exact ⟨rfl, rfl⟩
  · simp only [bind_ok, pure_ok] at ran
    obtain ⟨_, _, rfl⟩ := ran
    exact ⟨rfl, rfl⟩
  · simp only [bind_ok, pure_ok] at ran
    obtain ⟨_, _, rfl⟩ := ran
    exact ⟨rfl, rfl⟩
  · simp only [bind_ok, pure_ok] at ran
    obtain ⟨_, _, rfl⟩ := ran
    exact ⟨rfl, rfl⟩
  · cases ran

theorem sysClose_apart {fd result : Int} (other : t ≠ u) (ran : sysClose s u fd = .ok (result, after)) :
    Apart t s after := by
  rcases sysClose_cases ran with ⟨_, rfl⟩ | ⟨gd, dropped, _, _, _, drop, rfl⟩
  · exact .refl t _
  · obtain ⟨fds, tasks⟩ := dropSlot_fds drop
    exact (Apart.same fds tasks).trans (setFd_apart other dropped gd (-1) none)

theorem releaseFds_apart {cnt : Nat} (other : t ≠ u) (ran : releaseFds s u cnt = .ok after) : Apart t s after := by
  induction cnt generalizing after with
  | zero =>
    cases ran
    exact .refl t _
  | succ cnt ih =>
    simp only [releaseFds, bind_ok] at ran
    obtain ⟨released, release, ran⟩ := ran
    split at ran
    · simp only [bind_ok, pure_ok, Prod.exists] at ran
      obtain ⟨result, closed, close, rfl⟩ := ran
      exact (ih release).trans (sysClose_apart other close)
    · cases ran
      exact ih release

theorem inheritSlot_fds {v : Int} (ran : inheritSlot s v = .ok after) :
    after.fdTable = s.fdTable ∧ after.tasks = s.tasks := by
  unfold inheritSlot at ran
  split at ran
  · cases ran
    exact ⟨rfl, rfl⟩
  · dsimp only at ran
    split at ran
    · cases ran
      exact ⟨rfl, rfl⟩
    · cases ran
      exact ⟨rfl, rfl⟩
    · cases ran
      exact ⟨rfl, rfl⟩
    · cases ran
      exact ⟨rfl, rfl⟩
    · cases ran
      exact ⟨rfl, rfl⟩
    · cases ran

theorem inheritSlots_fds {table : Nat → Int} {cnt : Nat} (ran : inheritSlots s table cnt = .ok after) :
    after.fdTable = s.fdTable ∧ after.tasks = s.tasks := by
  induction cnt generalizing after with
  | zero =>
    cases ran
    exact ⟨rfl, rfl⟩
  | succ cnt ih =>
    simp only [inheritSlots, bind_ok] at ran
    obtain ⟨inherited, inherit, ran⟩ := ran
    obtain ⟨fds, tasks⟩ := ih inherit
    obtain ⟨fds', tasks'⟩ := inheritSlot_fds ran
    exact ⟨fds'.trans fds, tasks'.trans tasks⟩

theorem sysClone_apart {result : Int} (task : t < s.tasks) (ran : sysClone s u = .ok (result, after)) :
    Apart t s after := by
  simp only [sysClone, bind_ok, pure_ok, Prod.mk.injEq] at ran
  obtain ⟨inherited, inherit, _, rfl⟩ := ran
  obtain ⟨fds, tasks⟩ := inheritSlots_fds inherit
  constructor
  · rw [fds]
    exact Function.update_of_ne (Nat.ne_of_lt task) _ _
  · rw [tasks]
    exact Nat.le_succ _

theorem sysRead_fds {fd result : Int} {count : Nat} {data : List UInt8}
    (ran : sysRead s u fd count = .ok (result, data, after)) : after.fdTable = s.fdTable ∧ after.tasks = s.tasks := by
  have file : ∀ {p : Ptr} {i : Nat}, (do
      let fs ← semaDown s.fs p
      let read ← inodeRead fs p count (s.fileTable i).fPos.toNat
      let fs ← semaUp fs p
      return ((read.1 : Int), (List.range read.1).map read.2,
        if 0 < read.1 then { s with fs := fs }.setFile i fun file => { file with fPos := file.fPos + read.1 }
        else { s with fs := fs })) = Except.ok (result, data, after) →
      after.fdTable = s.fdTable ∧ after.tasks = s.tasks := by
    intro p i read
    simp only [bind_ok, pure_ok, Prod.exists, Prod.mk.injEq] at read
    obtain ⟨_, _, _, _, _, _, _, _, _, rfl⟩ := read
    split
    · exact ⟨rfl, rfl⟩
    · exact ⟨rfl, rfl⟩
  unfold sysRead at ran
  split at ran
  · cases ran
    exact ⟨rfl, rfl⟩
  · dsimp only at ran
    split at ran
    · exact file ran
    · exact file ran
    · cases ran
    · cases ran
    · cases ran
      exact ⟨rfl, rfl⟩
    · simp only [bind_ok, pure_ok, Prod.exists, Prod.mk.injEq] at ran
      obtain ⟨_, _, _, _, _, rfl⟩ := ran
      exact ⟨rfl, rfl⟩
    · cases ran
    · cases ran
      exact ⟨rfl, rfl⟩

theorem sysWrite_fds {fd result : Int} {buf : Bytes.Buffer} {count : Nat}
    (ran : sysWrite s u fd buf count = .ok (result, after)) : after.fdTable = s.fdTable ∧ after.tasks = s.tasks := by
  unfold sysWrite at ran
  split at ran
  · cases ran
    exact ⟨rfl, rfl⟩
  · dsimp only at ran
    split at ran
    · simp only [bind_ok, pure_ok, Prod.exists, Prod.mk.injEq] at ran
      obtain ⟨_, _, _, _, _, _, _, _, rfl⟩ := ran
      split
      · exact ⟨rfl, rfl⟩
      · exact ⟨rfl, rfl⟩
    · cases ran
    · cases ran
      exact ⟨rfl, rfl⟩
    · simp only [bind_ok, pure_ok, Prod.mk.injEq] at ran
      obtain ⟨_, _, _, rfl⟩ := ran
      exact ⟨rfl, rfl⟩
    · cases ran
    · cases ran
      exact ⟨rfl, rfl⟩
    · cases ran
      exact ⟨rfl, rfl⟩

theorem sysOpen_apart {pathname : List UInt8} {result : Int} (other : t ≠ u)
    (ran : sysOpen s u pathname = .ok (result, after)) : Apart t s after := by
  obtain ⟨pINo, de, resolved, _, _, ends⟩ := sysOpen_cases ran
  cases ends with
  | none same =>
    rw [same]
    exact .same rfl rfl
  | full object opened _ same =>
    rcases same with same | ⟨_, same⟩
    · rw [same]
      exact .same rfl rfl
    · rw [same]
      exact .same rfl rfl
  | done object opened _ fd i _ _ same =>
    rw [same]
    have filled : Apart t s ({ s with fs := opened }.setFile i fun _ =>
        { fPos := if de.fType = FileType.chr then 1 else 0, fInode := object, fType := de.fType }) := .same rfl rfl
    exact filled.trans (setFd_apart other _ fd i object)

theorem sysPipe_apart (other : t ≠ u) (ran : (sysPipe s u).2.2 = after) : Apart t s after := by
  cases sysPipe_cases ran with
  | full same =>
    rw [same]
    exact .same rfl rfl
  | noFd i _ same _ =>
    rw [same.2.2]
    exact .same rfl rfl
  | done i fd0 fd1 _ _ _ _ same =>
    rw [same]
    have slot : Apart t s (pipeSlot s i) := .same rfl rfl
    exact slot.trans ((setFd_apart other _ fd0 i _).trans (setFd_apart other _ fd1 i _))

theorem sysDup2_apart {oldfd newfd : Nat} {result : Int} (other : t ≠ u)
    (ran : sysDup2 s u oldfd newfd = .ok (result, after)) : Apart t s after := by
  unfold sysDup2 at ran
  split at ran
  · cases ran
    exact setFd_apart other _ oldfd _ _
  · cases ran

theorem sysExit_apart (other : t ≠ u) (ran : sysExit s u = .ok after) : Apart t s after := by
  simp only [sysExit, bind_ok, pure_ok] at ran
  obtain ⟨_, _, released, release, rfl⟩ := ran
  have released := releaseFds_apart other release
  exact ⟨released.fds, released.tasks⟩

def FileOp.ofShell : FileOp → Bool
  | .clone | .write .. => true
  | _ => false

theorem step_apart {op : FileOp} (task : t < s.tasks) (foreign : t ≠ u ∨ FileOp.ofShell op = true)
    (ran : s.step (u, op) = .ok after) : Apart t s after := by
  simp only [Files.step, bind_ok] at ran
  obtain ⟨_, _, ran⟩ := ran
  cases op with
  | clone =>
    simp only [Files.call, bind_ok, pure_ok, Prod.exists] at ran
    obtain ⟨_, _, clone, rfl⟩ := ran
    exact sysClone_apart task clone
  | write fd buf count =>
    simp only [Files.call, bind_ok, pure_ok, Prod.exists] at ran
    obtain ⟨_, _, write, rfl⟩ := ran
    exact .same (sysWrite_fds write).1 (sysWrite_fds write).2
  | «open» pathname =>
    simp only [Files.call, bind_ok, pure_ok, Prod.exists] at ran
    obtain ⟨_, _, opened, rfl⟩ := ran
    exact sysOpen_apart (foreign.resolve_right Bool.false_ne_true) opened
  | close fd =>
    simp only [Files.call, bind_ok, pure_ok, Prod.exists] at ran
    obtain ⟨_, _, close, rfl⟩ := ran
    exact sysClose_apart (foreign.resolve_right Bool.false_ne_true) close
  | read fd count =>
    simp only [Files.call, bind_ok, pure_ok, Prod.exists] at ran
    obtain ⟨_, _, _, read, rfl⟩ := ran
    exact .same (sysRead_fds read).1 (sysRead_fds read).2
  | mknod pathname type dev =>
    simp only [Files.call, bind_ok, pure_ok, Prod.exists] at ran
    obtain ⟨_, _, _, rfl⟩ := ran
    exact .same rfl rfl
  | unlink pathname =>
    simp only [Files.call, bind_ok, pure_ok, Prod.exists] at ran
    obtain ⟨_, _, _, rfl⟩ := ran
    exact .same rfl rfl
  | mkdir pathname =>
    simp only [Files.call, bind_ok, pure_ok, Prod.exists] at ran
    obtain ⟨_, _, _, rfl⟩ := ran
    exact .same rfl rfl
  | rmdir pathname =>
    simp only [Files.call, bind_ok, pure_ok, Prod.exists] at ran
    obtain ⟨_, _, _, rfl⟩ := ran
    exact .same rfl rfl
  | stat pathname =>
    simp only [Files.call, bind_ok, pure_ok, Prod.exists] at ran
    obtain ⟨_, _, _, _, rfl⟩ := ran
    exact .same rfl rfl
  | pipe =>
    simp only [Files.call] at ran
    exact sysPipe_apart (foreign.resolve_right Bool.false_ne_true) (Except.ok.inj ran)
  | dup2 oldfd newfd =>
    simp only [Files.call, bind_ok, pure_ok, Prod.exists] at ran
    obtain ⟨_, _, dup, rfl⟩ := ran
    exact sysDup2_apart (foreign.resolve_right Bool.false_ne_true) dup
  | exit => exact sysExit_apart (foreign.resolve_right Bool.false_ne_true) ran

structure PipeFd where
  readEnd : Int
  writeEnd : Int
  deriving DecidableEq, Repr

def Fd.value (fd : PipeFd) : Fd → Int
  | .const n => n
  | .readEnd => fd.readEnd
  | .writeEnd => fd.writeEnd

def toSize (n : Int) : Nat := (n % 2 ^ 64).toNat

/-- One call of the shell, which looks at no result. What happens in `cmd_execute` is in the calls that follow. -/
def shellCall (t : Tid) (s : Files) (fd : PipeFd) : Act → Except Halt (Files × PipeFd)
  | .pipe =>
    let (_, stored, s) := sysPipe s t
    .ok (s, ⟨(stored[0]?).elim fd.readEnd (↑), (stored[1]?).elim fd.writeEnd (↑)⟩)
  | .dup2 oldfd newfd => do
    let (_, s) ← sysDup2 s t (toSize (oldfd.value fd)) (toSize (newfd.value fd))
    return (s, fd)
  | .execute .. => .ok (s, fd)
  | .close closed => do
    let (_, s) ← sysClose s t (closed.value fd)
    return (s, fd)

def mayFollow (t : Tid) (act : Act) (op : Tid × FileOp) : Bool :=
  op.1 != t || match act with
    | .execute .. => FileOp.ofShell op.2
    | _ => false

def background (t : Tid) (act : Act) (s : Files) : List (Tid × FileOp) → Except Halt Files
  | [] => .ok s
  | op :: ops => do
    offer (mayFollow t act op)
    let s ← s.step op
    background t act s ops

/-- The calls of the shell from the one with number `k` on, each followed by the calls `during` gives for it. -/
def shellRun (t : Tid) (during : Nat → List (Tid × FileOp)) : Nat → Files → PipeFd → List Act →
    Except Halt (Files × PipeFd)
  | _, s, fd, [] => .ok (s, fd)
  | k, s, fd, act :: acts => do
    let (s, fd) ← shellCall t s fd act
    let s ← background t act s (during k)
    shellRun t during (k + 1) s fd acts

structure Restored (t : Tid) (a b : Nat) (after : Files) (fd : PipeFd) : Prop where
  stdin : after.fdTable t 0 = a
  stdout : after.fdTable t 1 = b
  used : (after.fileTable a).fInode ≠ none ∧ (after.fileTable b).fInode ≠ none
  closed : fdEntry after t fd.readEnd = -1 ∧ fdEntry after t fd.writeEnd = -1

theorem background_apart {act : Act} {ops : List (Tid × FileOp)} (task : t < s.tasks)
    (ran : background t act s ops = .ok after) : Apart t s after := by
  induction ops generalizing s with
  | nil =>
    cases ran
    exact .refl t _
  | cons op ops ih =>
    simp only [background, bind_ok, offer_ok] at ran
    obtain ⟨_, allowed, stepped, step, ran⟩ := ran
    have foreign : t ≠ op.1 ∨ FileOp.ofShell op.2 = true := by
      unfold mayFollow at allowed
      rw [Bool.or_eq_true] at allowed
      rcases allowed with other | own
      · exact .inl (Ne.symm (bne_iff_ne.mp other))
      · split at own
        · exact .inr own
        · cases own
    have first := step_apart task foreign step
    exact first.trans (ih (Nat.lt_of_lt_of_le task first.tasks) ran)

def Spares (fd : PipeFd) (n : Nat) : Act → Prop
  | .pipe => False
  | .dup2 oldfd newfd => toSize (oldfd.value fd) ≠ n ∨ toSize (newfd.value fd) = n
  | .execute .. => True
  | .close closed => closed.value fd ≠ n

theorem shellCall_spares {fd fd' : PipeFd} {act : Act} {n : Nat} (spares : Spares fd n act)
    (ran : shellCall t s fd act = .ok (after, fd')) :
    fd' = fd ∧ after.fdTable t n = s.fdTable t n ∧ after.tasks = s.tasks := by
  cases act with
  | pipe => exact spares.elim
  | dup2 oldfd newfd =>
    simp only [shellCall, bind_ok, pure_ok, Prod.exists, Prod.mk.injEq] at ran
    obtain ⟨_, _, dup, rfl, rfl⟩ := ran
    unfold sysDup2 at dup
    split at dup
    · cases dup
      refine ⟨rfl, ?_, rfl⟩
      rw [Files.setFd_fdTable]
      split
      · rename_i here
        rw [spares.resolve_left (fun other => other here.2.symm)]
      · rfl
    · cases dup
  | execute argc argv =>
    cases ran
    exact ⟨rfl, rfl, rfl⟩
  | close closed =>
    simp only [shellCall, bind_ok, pure_ok, Prod.exists, Prod.mk.injEq] at ran
    obtain ⟨_, _, close, rfl, rfl⟩ := ran
    rcases sysClose_cases close with ⟨_, rfl⟩ | ⟨gd, dropped, named, _, _, drop, rfl⟩
    · exact ⟨rfl, rfl, rfl⟩
    · obtain ⟨fds, tasks⟩ := dropSlot_fds drop
      refine ⟨rfl, ?_, tasks⟩
      have other : n ≠ gd := by
        intro same
        apply spares
        rw [named, same]
      rw [Files.setFd_fdTable, if_neg (fun both => other both.2), fds]

theorem shellRun_cons {during : Nat → List (Tid × FileOp)} {k : Nat} {fd fd' : PipeFd} {act : Act} {acts : List Act}
    (ran : shellRun t during k s fd (act :: acts) = .ok (after, fd')) :
    ∃ called fd'' others, shellCall t s fd act = .ok (called, fd'') ∧
      background t act called (during k) = .ok others ∧
      shellRun t during (k + 1) others fd'' acts = .ok (after, fd') := by
  simp only [shellRun, bind_ok, Prod.exists] at ran
  obtain ⟨called, fd'', call, others, follow, ran⟩ := ran
  exact ⟨called, fd'', others, call, follow, ran⟩

theorem shellRun_spares {during : Nat → List (Tid × FileOp)} {fd fd' : PipeFd} {acts : List Act} {n k : Nat}
    (task : t < s.tasks) (spares : ∀ act ∈ acts, Spares fd n act)
    (ran : shellRun t during k s fd acts = .ok (after, fd')) :
    fd' = fd ∧ after.fdTable t n = s.fdTable t n ∧ t < after.tasks := by
  induction acts generalizing k s fd with
  | nil =>
    cases ran
    exact ⟨rfl, rfl, task⟩
  | cons act acts ih =>
    obtain ⟨called, fd'', others, call, follow, rest⟩ := shellRun_cons ran
    obtain ⟨rfl, kept, tasks⟩ := shellCall_spares (spares act List.mem_cons_self) call
    have alive : t < called.tasks := by
      rw [tasks]
      exact task
    have foreign := background_apart alive follow
    obtain ⟨same, later, last⟩ := ih (Nat.lt_of_lt_of_le alive foreign.tasks)
      (fun other member => spares other (List.mem_cons_of_mem act member)) rest
    refine ⟨same, ?_, last⟩
    rw [later, congrFun foreign.fds n, kept]

theorem shellRun_append {during : Nat → List (Tid × FileOp)} {k : Nat} {fd fd' : PipeFd} {acts acts' : List Act}
    (ran : shellRun t during k s fd (acts ++ acts') = .ok (after, fd')) :
    ∃ middle fd'', shellRun t during k s fd acts = .ok (middle, fd'') ∧
      shellRun t during (k + acts.length) middle fd'' acts' = .ok (after, fd') := by
  induction acts generalizing k s fd with
  | nil => exact ⟨s, fd, rfl, ran⟩
  | cons act acts ih =>
    obtain ⟨called, fd1, others, call, follow, ran⟩ := shellRun_cons ran
    obtain ⟨middle, fd2, first, second⟩ := ih ran
    refine ⟨middle, fd2, ?_, ?_⟩
    · simp only [shellRun, bind_ok, Prod.exists]
      exact ⟨called, fd1, call, others, follow, first⟩
    · rw [List.length_cons, Nat.add_comm acts.length 1, ← Nat.add_assoc]
      exact second

theorem sysPipe_success (worked : (sysPipe s t).1 = 0) :
    ∃ i fd0 fd1 piped, (s.fileTable i).fInode = none ∧ fd0 < maxFilesOpenPerProc ∧ s.fdTable t fd0 = -1 ∧
      s.fdTable t fd1 = -1 ∧ sysPipe s t = (0, [fd0, fd1], piped) ∧ piped.fdTable t fd0 = (i : Int) ∧
      piped.tasks = s.tasks := by
  have no_slot : (-(fileTableSize : Int)) ≠ 0 := by decide
  have no_fd : (-(maxFilesOpenPerProc : Int)) ≠ 0 := by decide
  rcases sysPipe_eq s t with ⟨_, full⟩ | ⟨i, slot, same⟩
  · rw [full] at worked
    exact absurd worked no_slot
  · rw [same, pipeFds] at worked ⊢
    dsimp only at worked ⊢
    by_cases none_first : freeFdAlloc (pipeSlot s i) t = maxFilesOpenPerProc
    · rw [if_pos none_first] at worked
      exact absurd worked no_fd
    · rw [if_neg none_first] at worked ⊢
      obtain ⟨bound0, free0⟩ := freeFdAlloc_spec (pipeSlot s i) t none_first
      generalize freeFdAlloc (pipeSlot s i) t = fd0 at worked bound0 free0 ⊢
      by_cases none_second : freeFdAlloc ((pipeSlot s i).setFd t fd0 i (some (.ioqueue s.freshPage))) t =
          maxFilesOpenPerProc
      · rw [if_pos none_second] at worked
        exact absurd worked no_fd
      · obtain ⟨_, free1⟩ := freeFdAlloc_spec _ t none_second
        rw [if_neg none_second]
        generalize freeFdAlloc ((pipeSlot s i).setFd t fd0 i (some (.ioqueue s.freshPage))) t = fd1 at free1 ⊢
        rw [Files.setFd_fdTable] at free1
        have differ : ¬ (t = t ∧ fd1 = fd0) := by
          intro both
          rw [if_pos both] at free1
          omega
        rw [if_neg differ] at free1
        refine ⟨i, fd0, fd1, _, slot.2, bound0, free0, free1, rfl, ?_, rfl⟩
        rw [Files.setFd_fdTable, if_neg (fun both => differ ⟨rfl, both.2.symm⟩), Files.setFd_fdTable, if_pos ⟨rfl, rfl⟩]

theorem branchActs_finished {first others : List UInt8} (finished : (branchActs first others).1 = .ok ()) :
    (branchActs first others).2 = [.pipe, .dup2 (.const 1) .writeEnd, executeWords first] ++
      .dup2 (.const 0) .readEnd :: [.dup2 (.const 1) (.const 1), executeWords others, .dup2 (.const 0) (.const 0),
        .close .readEnd, .close .writeEnd] := by
  unfold branchActs lastActs at finished ⊢
  split at finished
  · cases finished
  · split at finished
    · cases finished
    · split at finished
      · cases finished
      · split at finished
        · cases finished
        · rename_i few named few_last named_last
          rw [if_neg few, if_neg named, if_neg few_last, if_neg named_last]
          rfl

/-- A pipeline never restores the standard streams: `dup2(0, 0)` leaves descriptor 0 at the slot of the pipe. -/
theorem pipeline_never_restores (s final : Files) (t : Tid) (a b : Nat) (line rest : List UInt8)
    (during : Nat → List (Tid × FileOp)) (fd : PipeFd) (task : t < s.tasks) (stdin : s.fdTable t 0 = a)
    (stdout : s.fdTable t 1 = b) (usedIn : (s.fileTable a).fInode ≠ none)
    (nonzero : 0 ∉ line) (piped : pipeSign ∈ line) (worked : (sysPipe s t).1 = 0)
    (finished : (Shell.turn (line ++ 0 :: rest)).1 = .ok ())
    (ran : shellRun t during 0 s ⟨-1, -1⟩ (Shell.turn (line ++ 0 :: rest)).2 = .ok (final, fd)) :
    ¬ Restored t a b final fd := by
  intro restored
  obtain ⟨first, others, parts, cut_first⟩ := List.eq_append_cons_of_mem piped
  subst parts
  simp only [List.mem_append, List.mem_cons, not_or] at nonzero
  have turned : Shell.turn (first ++ pipeSign :: others ++ 0 :: rest) = branchActs first others := by
    rw [List.append_assoc, List.cons_append, turn_pipe rest nonzero.1 nonzero.2.2 cut_first]
  rw [turned] at finished ran
  rw [branchActs_finished finished] at ran
  obtain ⟨i, fd0, fd1, made, free, bound0, free0, free1, pipe, names, tasks⟩ := sysPipe_success worked
  have other0 : fd0 ≠ 0 ∧ fd0 ≠ 1 := by
    constructor
    · intro zero
      rw [zero] at free0
      omega
    · intro one
      rw [one] at free0
      omega
  have other1 : fd1 ≠ 0 := by
    intro zero
    rw [zero] at free1
    omega
  have small : toSize fd0 = fd0 := by
    simp only [toSize, maxFilesOpenPerProc] at bound0 ⊢
    omega
  -- The pipe's slot stays in descriptor `fd0` up to `dup2(0, fd[0])` and in descriptor 0 from there on.
  obtain ⟨called, fds, opened, call, follow, afterPipe⟩ := shellRun_cons ran
  simp only [shellCall, pipe, Except.ok.injEq, Prod.mk.injEq] at call
  obtain ⟨rfl, rfl⟩ := call
  have alive : t < made.tasks := by
    rw [tasks]
    exact task
  have piped_apart := background_apart alive follow
  obtain ⟨before, fds, first_run, afterFirst⟩ := @shellRun_append opened final t during 1 _ fd
    [.dup2 (.const 1) .writeEnd, executeWords first] _ afterPipe
  have spares_first : ∀ act ∈ [Act.dup2 (.const 1) .writeEnd, executeWords first],
      Spares ⟨fd0, fd1⟩ fd0 act := by
    intro act member
    simp only [List.mem_cons, List.not_mem_nil, or_false] at member
    rcases member with rfl | rfl
    · exact .inl (Ne.symm other0.2)
    · exact True.intro
  obtain ⟨rfl, kept, alive⟩ := @shellRun_spares opened before t during _ fds _ fd0 _
    (Nat.lt_of_lt_of_le alive piped_apart.tasks) spares_first first_run
  have at_pipe : before.fdTable t fd0 = (i : Int) := by
    rw [kept, congrFun piped_apart.fds fd0, names]
  obtain ⟨redirected, fds, others', call, follow, afterDup⟩ := shellRun_cons afterFirst
  simp only [shellCall, bind_ok, pure_ok, Prod.exists, Prod.mk.injEq] at call
  obtain ⟨_, _, dup, rfl, rfl⟩ := call
  have source : toSize ((Fd.readEnd).value ⟨fd0, fd1⟩) = fd0 := small
  have target : toSize ((Fd.const 0).value ⟨fd0, fd1⟩) = 0 := rfl
  rw [source, target, sysDup2, if_pos ⟨by decide, bound0⟩] at dup
  cases dup
  have redirected : (before.setFd t 0 (before.fdTable t fd0) (before.installed t fd0)).fdTable t 0 = (i : Int) := by
    rw [Files.setFd_fdTable, if_pos ⟨rfl, rfl⟩, at_pipe]
  have alive : t < (before.setFd t 0 (before.fdTable t fd0) (before.installed t fd0)).tasks := alive
  have dup_apart := background_apart alive follow
  have one : toSize 1 ≠ 0 := by decide
  have spares_later : ∀ act ∈ [Act.dup2 (.const 1) (.const 1), executeWords others, .dup2 (.const 0) (.const 0),
      .close .readEnd, .close .writeEnd], Spares ⟨fd0, fd1⟩ 0 act := by
    intro act member
    simp only [List.mem_cons, List.not_mem_nil, or_false] at member
    rcases member with rfl | rfl | rfl | rfl | rfl
    · exact .inl one
    · exact True.intro
    · exact .inr rfl
    · exact fun zero => other0.1 (Int.natCast_eq_zero.mp zero)
    · exact fun zero => other1 (Int.natCast_eq_zero.mp zero)
  obtain ⟨_, stays, _⟩ := shellRun_spares (Nat.lt_of_lt_of_le alive dup_apart.tasks) spares_later afterDup
  have slot : (a : Int) = (i : Int) := by
    rw [← restored.stdin, stays, congrFun dup_apart.fds 0, redirected]
  apply usedIn
  rw [Int.natCast_inj.mp slot]
  exact free

def shellFiles : Files :=
  let console : File := { fPos := 1, fInode := some .console, fType := .chr }
  (((Files.start (mounted (fun _ _ => 0) (⟨0, 0⟩ : Partition).superBlock) 3).setFile 0 fun _ => console).setFile 1
    fun _ => console).setFd 2 0 0 (some .console) |>.setFd 2 1 1 (some .console)

def exitAtOnce : Nat → List (Tid × FileOp)
  | 2 => [(2, .clone), (3, .exit)]
  | 5 => [(2, .clone), (4, .exit)]
  | _ => []

theorem exitAtOnce_ends :
    (shellRun 2 exitAtOnce 0 shellFiles ⟨-1, -1⟩ (Shell.turn ([0x61, 0x7c, 0x62] ++ 0 :: [])).2).map
      (fun ended => (ended.1.fdTable 2 0, ended.1.fdTable 2 1, (ended.1.fileTable 2).fInode)) =
    .ok (2, 2, none) := by
  decide +kernel

theorem exitAtOnce_run : ∃ final fd, shellRun 2 exitAtOnce 0 shellFiles ⟨-1, -1⟩
      (Shell.turn ([0x61, 0x7c, 0x62] ++ 0 :: [])).2 = .ok (final, fd) ∧
    final.fdTable 2 0 = 2 ∧ final.fdTable 2 1 = 2 ∧ (final.fileTable 2).fInode = none := by
  have ended := exitAtOnce_ends
  cases run : shellRun 2 exitAtOnce 0 shellFiles ⟨-1, -1⟩ (Shell.turn ([0x61, 0x7c, 0x62] ++ 0 :: [])).2 with
  | error halt =>
    rw [run] at ended
    cases ended
  | ok result =>
    rw [run] at ended
    simp only [Except.map, Except.ok.injEq, Prod.mk.injEq] at ended
    exact ⟨result.1, result.2, rfl, ended.1, ended.2.1, ended.2.2⟩

/-- The line `a|b` with two commands that exit at once. -/
theorem pipeline_never_restores_closed : ∃ final fd, shellRun 2 exitAtOnce 0 shellFiles ⟨-1, -1⟩
    (Shell.turn ([0x61, 0x7c, 0x62] ++ 0 :: [])).2 = .ok (final, fd) ∧ ¬ Restored 2 0 1 final fd := by
  obtain ⟨final, fd, run, _⟩ := exitAtOnce_run
  exact ⟨final, fd, run, pipeline_never_restores shellFiles final 2 0 1 [0x61, 0x7c, 0x62] [] exitAtOnce fd (by decide)
    (by decide) (by decide) (by decide) (by decide) (by decide) (by decide) (by decide) run⟩

/-- Both descriptors of the shell end at the slot of the pipe, which is free again. -/
theorem pipeline_streams_lost : shellFiles.fdTable 2 0 = 0 ∧ shellFiles.fdTable 2 1 = 1 ∧
    (shellFiles.fileTable 0).fInode = some .console ∧ (shellFiles.fileTable 1).fInode = some .console ∧
    (sysPipe shellFiles 2).1 = 0 ∧ (Shell.turn ([0x61, 0x7c, 0x62] ++ 0 :: [])).1 = .ok () ∧
    ∃ final fd, shellRun 2 exitAtOnce 0 shellFiles ⟨-1, -1⟩ (Shell.turn ([0x61, 0x7c, 0x62] ++ 0 :: [])).2 =
        .ok (final, fd) ∧
      final.fdTable 2 0 = 2 ∧ final.fdTable 2 1 = 2 ∧ (final.fileTable 2).fInode = none ∧
      ¬ Restored 2 0 1 final fd := by
  refine ⟨by decide, by decide, by decide, by decide, by decide, by decide, ?_⟩
  obtain ⟨final, fd, run, stdin, stdout, free⟩ := exitAtOnce_run
  refine ⟨final, fd, run, stdin, stdout, free, ?_⟩
  intro restored
  have again := restored.stdin
  rw [stdin] at again
  exact absurd again (by decide)

end RecoverOs.Command
