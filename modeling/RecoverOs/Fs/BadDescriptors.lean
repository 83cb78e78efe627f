import RecoverOs.Fs.DescriptorRuns

namespace RecoverOs.Fs

/-- The files, and the memory around the `fd_table` of the running task: `word k` lies `k` words behind the start of
    the table, modulo the size of the address space. -/
structure TaskMemory where
  files : Files
  word : Nat → Int

/-- `fd_table[fd]` is this many words behind the start of the table. -/
def wordIndex (fd : Int) : Nat := (fd % 2 ^ 61).toNat

def TaskMemory.loadFd (m : TaskMemory) (t : Tid) (fd : Int) : Int :=
  if wordIndex fd < maxFilesOpenPerProc then m.files.fdTable t (wordIndex fd) else m.word (wordIndex fd)

def TaskMemory.storeFd (m : TaskMemory) (t : Tid) (fd value : Int) (object : Option Object) : TaskMemory :=
  if wordIndex fd < maxFilesOpenPerProc then { m with files := m.files.setFd t (wordIndex fd) value object }
  else { m with word := Function.update m.word (wordIndex fd) value }

inductive FdCall where
  | read (fd : Int) (count : Nat)
  | write (fd : Int) (buf : Bytes.Buffer) (count : Nat)
  | lseek (fd offset : Int) (whence : Whence)
  | close (fd : Int)
  | dup2 (oldfd newfd : Nat)

def rejects (fd ftIdx : Int) : Bool :=
  decide (fd < 0) || decide ((maxFilesOpenPerProc : Int) < fd) || decide (ftIdx < 0) ||
    decide ((fileTableSize : Int) ≤ ftIdx)

def pipeIndices (m : TaskMemory) (t : Tid) (fd : Int) : List Int :=
  if (m.files.fileTable (m.loadFd t fd).toNat).fType = .fifo then [fd] else []

def TaskMemory.withFiles (m : TaskMemory) (result : Int × Files) : Int × TaskMemory :=
  (result.1, { m with files := result.2 })

/-- A call, with the indices of `fd_table` that it uses. A descriptor that passes the test is below 32, since the
    address of the interrupt stack follows the table. -/
def TaskMemory.call (m : TaskMemory) (t : Tid) : FdCall → List Int × Except Halt (Int × TaskMemory)
  | .read fd count =>
    if rejects fd (m.loadFd t fd) then ([fd], .ok (-fdInvalid, m))
    else (fd :: pipeIndices m t fd, (sysRead m.files t fd count).map fun (n, _, files) => m.withFiles (n, files))
  | .write fd buf count =>
    if rejects fd (m.loadFd t fd) then ([fd], .ok (-fdInvalid, m))
    else (fd :: pipeIndices m t fd, (sysWrite m.files t fd buf count).map m.withFiles)
  | .lseek fd offset whence =>
    if rejects fd (m.loadFd t fd) then ([fd], .ok (-fdInvalid, m))
    else ([fd], (sysLseek m.files t fd offset whence).map m.withFiles)
  | .close fd =>
    if rejects fd (m.loadFd t fd) then ([fd], .ok (-fdInvalid, m))
    else ([fd, fd], (sysClose m.files t fd).map m.withFiles)
  | .dup2 oldfd newfd =>
    let object := if wordIndex newfd < maxFilesOpenPerProc then m.files.installed t (wordIndex newfd) else none
    ([newfd, oldfd], .ok (Int.bmod newfd (2 ^ 64), m.storeFd t oldfd (m.loadFd t newfd) object))

def FdCall.tested : FdCall → Option Int
  | .read fd _ | .write fd _ _ | .lseek fd _ _ | .close fd => some fd
  | .dup2 _ _ => none

def InTable (fd : Int) : Prop := 0 ≤ fd ∧ fd < maxFilesOpenPerProc

/-- A descriptor of the call lies outside the table or is not in use; for `sys_dup2` the old one may be unused. -/
def FdCall.Bad (m : TaskMemory) (t : Tid) : FdCall → Prop
  | .read fd _ | .write fd _ _ | .lseek fd _ _ | .close fd => ¬ InTable fd ∨ m.files.fdTable t fd.toNat = -1
  | .dup2 oldfd newfd => ¬ InTable oldfd ∨ ¬ InTable newfd ∨ m.files.fdTable t newfd = -1

def FdCall.Error (result : Int) : FdCall → Prop
  | .dup2 _ _ => result < 0
  | _ => result = -fdInvalid

/-- The call returns an error, has used no index outside the table, and everything is as before. -/
def RejectsCleanly (m : TaskMemory) (t : Tid) (call : FdCall) : Prop :=
  ∃ result, (m.call t call).2 = .ok (result, m) ∧ call.Error result ∧ ∀ index ∈ (m.call t call).1, InTable index

variable {m : TaskMemory} {t : Tid} {fd : Int} {call : FdCall}

theorem wordIndex_inside (inside : InTable fd) : wordIndex fd = fd.toNat := by
  obtain ⟨low, high⟩ := inside
  simp only [maxFilesOpenPerProc] at high
  rw [wordIndex, Int.emod_eq_of_lt low (by omega)]

theorem loadFd_inside (inside : InTable fd) : m.loadFd t fd = m.files.fdTable t fd.toNat := by
  have bound : fd.toNat < maxFilesOpenPerProc := by
    have both := inside
    rw [InTable] at both
    omega
  rw [TaskMemory.loadFd, wordIndex_inside inside, if_pos bound]

theorem fdEntry_inside {s : Files} (inside : InTable fd) : fdEntry s t fd = s.fdTable t fd.toNat := if_pos inside

theorem fdEntry_outside {s : Files} (outside : ¬ InTable fd) : fdEntry s t fd = -1 := if_neg outside

theorem rejects_eq (stack : m.word maxFilesOpenPerProc < 0) : rejects fd (m.loadFd t fd) = fdRejected m.files t fd := by
  rw [rejects, fdRejected]
  by_cases inside : InTable fd
  · rw [loadFd_inside inside, fdEntry_inside inside]
  · rw [fdEntry_outside inside]
    by_cases last : fd = maxFilesOpenPerProc
    · have index : wordIndex fd = maxFilesOpenPerProc := by
        rw [last]
        decide
      have negative : m.loadFd t fd < 0 := by
        rw [TaskMemory.loadFd, index, if_neg (Nat.lt_irrefl _)]
        exact stack
      simp [negative]
    · have outside : fd < 0 ∨ (maxFilesOpenPerProc : Int) < fd := by
        rw [InTable] at inside
        omega
      rcases outside with low | high
      · simp [low]
      · simp [high]

/-- Without the words around the table the calls are those on the files. -/
theorem call_erase (stack : m.word maxFilesOpenPerProc < 0) :
    (∀ count, (m.call t (.read fd count)).2 =
      (sysRead m.files t fd count).map fun (n, _, files) => m.withFiles (n, files)) ∧
    (∀ buf count, (m.call t (.write fd buf count)).2 = (sysWrite m.files t fd buf count).map m.withFiles) ∧
    (∀ offset whence, (m.call t (.lseek fd offset whence)).2 =
      (sysLseek m.files t fd offset whence).map m.withFiles) ∧
    (m.call t (.close fd)).2 = (sysClose m.files t fd).map m.withFiles := by
  simp only [TaskMemory.call, rejects_eq stack]
  by_cases rejected : fdRejected m.files t fd = true
  · simp only [rejected, if_true, sysRead, sysWrite, sysLseek, sysClose]
    exact ⟨fun _ => rfl, fun _ _ => rfl, fun _ _ => rfl, rfl⟩
  · simp only [rejected]
    exact ⟨fun _ => rfl, fun _ _ => rfl, fun _ _ => rfl, rfl⟩

theorem tested_rejected (tested : call.tested = some fd) (rejected : rejects fd (m.loadFd t fd) = true) :
    m.call t call = ([fd], .ok (-fdInvalid, m)) := by
  cases call with
  | read => cases tested; exact if_pos rejected
  | write => cases tested; exact if_pos rejected
  | lseek => cases tested; exact if_pos rejected
  | close => cases tested; exact if_pos rejected
  | dup2 => cases tested

theorem tested_used (tested : call.tested = some fd) : fd ∈ (m.call t call).1 := by
  by_cases rejected : rejects fd (m.loadFd t fd) = true
  · rw [tested_rejected tested rejected]
    exact List.mem_singleton_self fd
  · cases call with
    | dup2 => cases tested
    | read =>
      cases tested
      rw [TaskMemory.call, if_neg rejected]
      exact List.mem_cons_self ..
    | write =>
      cases tested
      rw [TaskMemory.call, if_neg rejected]
      exact List.mem_cons_self ..
    | lseek =>
      cases tested
      rw [TaskMemory.call, if_neg rejected]
      exact List.mem_cons_self ..
    | close =>
      cases tested
      rw [TaskMemory.call, if_neg rejected]
      exact List.mem_cons_self ..

theorem FdCall.Bad.of_tested (bad : call.Bad m t) (tested : call.tested = some fd) :
    ¬ InTable fd ∨ m.files.fdTable t fd.toNat = -1 := by
  cases call with
  | read => cases tested; exact bad
  | write => cases tested; exact bad
  | lseek => cases tested; exact bad
  | close => cases tested; exact bad
  | dup2 => cases tested

theorem error_of_tested (tested : call.tested = some fd) : call.Error (-fdInvalid) := by
  cases call with
  | read => exact rfl
  | write => exact rfl
  | lseek => exact rfl
  | close => exact rfl
  | dup2 => cases tested

theorem bad_descriptor_result (stack : m.word maxFilesOpenPerProc < 0) (bad : call.Bad m t)
    (tested : call.tested = some fd) : m.call t call = ([fd], .ok (-fdInvalid, m)) := by
  apply tested_rejected tested
  rw [rejects_eq stack, fdRejected]
  by_cases inside : InTable fd
  · rw [fdEntry_inside inside, (bad.of_tested tested).resolve_left (not_not_intro inside)]
    simp
  · rw [fdEntry_outside inside]
    simp

theorem dup2_never_rejects {oldfd newfd : Nat} : ¬ RejectsCleanly m t (.dup2 oldfd newfd) := by
  intro ⟨result, ran, error, used⟩
  have old : InTable oldfd := used oldfd (by simp [TaskMemory.call])
  have new : InTable newfd := used newfd (by simp [TaskMemory.call])
  have value : Int.bmod newfd (2 ^ 64) = newfd := by
    have bound := new.2
    simp only [maxFilesOpenPerProc] at bound
    rw [Int.bmod_def]
    omega
  simp only [TaskMemory.call, Except.ok.injEq, Prod.mk.injEq] at ran
  have negative : result < 0 := error
  rw [← ran.1, value] at negative
  exact absurd negative (Int.not_lt.mpr new.1)

/-- The table is read before the descriptor is tested, and `sys_dup2` does not test at all. -/
theorem bad_descriptor_rejected_iff (m : TaskMemory) (t : Tid) (call : FdCall) (bad : call.Bad m t) :
    RejectsCleanly m t call ↔ ∃ fd, call.tested = some fd ∧ InTable fd := by
  constructor
  · intro clean
    cases tested : call.tested with
    | some fd =>
      obtain ⟨_, _, _, used⟩ := clean
      exact ⟨fd, rfl, used fd (tested_used tested)⟩
    | none =>
      cases call with
      | dup2 oldfd newfd => exact absurd clean dup2_never_rejects
      | read => cases tested
      | write => cases tested
      | lseek => cases tested
      | close => cases tested
  · intro ⟨fd, tested, inside⟩
    have unused := (bad.of_tested tested).resolve_left (not_not_intro inside)
    have rejected : rejects fd (m.loadFd t fd) = true := by
      rw [loadFd_inside inside, unused, rejects]
      simp
    have ran := tested_rejected tested rejected
    refine ⟨-fdInvalid, ?_, error_of_tested tested, ?_⟩
    · rw [ran]
    · intro index member
      rw [ran] at member
      rw [List.mem_singleton.mp member]
      exact inside

def noDescriptors : TaskMemory :=
  { files := Files.start deviceFs 3
    word := fun k => if k = maxFilesOpenPerProc then -0x7ffffff00000 else 0 }

theorem bad_descriptor_rejected_close : RejectsCleanly noDescriptors 2 (.close 5) :=
  (bad_descriptor_rejected_iff noDescriptors 2 (.close 5) (.inr rfl)).mpr ⟨5, rfl, by decide, by decide⟩

/-- Closing descriptor 32 reads the word behind the table; duplicating onto an unused descriptor succeeds. -/
theorem bad_descriptor_read_first :
    noDescriptors.call 2 (.close 32) = ([32], .ok (-fdInvalid, noDescriptors)) ∧
    ¬ RejectsCleanly noDescriptors 2 (.close 32) ∧
    (FdCall.dup2 0 5).Bad noDescriptors 2 ∧ ¬ RejectsCleanly noDescriptors 2 (.dup2 0 5) := by
  have ran : noDescriptors.call 2 (.close 32) = ([32], .ok (-fdInvalid, noDescriptors)) :=
    tested_rejected rfl (by decide +kernel)
  have bad : (FdCall.dup2 0 5).Bad noDescriptors 2 := .inr (.inr rfl)
  refine ⟨ran, ?_, bad, dup2_never_rejects⟩
  intro ⟨_, _, _, used⟩
  have inside := used 32 (by rw [ran]; exact List.mem_singleton_self _)
  exact absurd inside.2 (by decide)

end RecoverOs.Fs
