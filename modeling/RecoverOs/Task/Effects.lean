import RecoverOs.Task.Schedule

namespace RecoverOs.Task

open Transition

def HangingChild (s : Tasks) (parent child : Page) : Prop :=
  child ∈ s.allTasksList ∧ (s.task child).parentTask = parent ∧ (s.task child).status = .hanging

theorem allocPage_cases {s after : Tasks} {page : Page} (ran : allocPage s page = .ok after) :
    kernelPoolStart ≤ page ∧ page < kernelPoolStart + kernelPoolPages ∧ s.pool page = false ∧
      after = { s with pool := Function.update s.pool page true } := by
  simp only [allocPage, bind_ok, offer_ok, pure_ok] at ran
  obtain ⟨_, free, rfl⟩ := ran
  simp only [Bool.and_eq_true, decide_eq_true_eq, Bool.not_eq_true'] at free
  exact ⟨free.1.1, free.1.2, free.2, rfl⟩

theorem freePage_cases {s after : Tasks} {page : Page} (ran : freePage s page = .ok after) :
    s.pool page = true ∧ after = { s with pool := Function.update s.pool page false } := by
  simp only [freePage, bind_ok, assert_ok, pure_ok] at ran
  obtain ⟨_, held, rfl⟩ := ran
  exact ⟨held, rfl⟩

theorem allocPid_state (s : Tasks) : (allocPid s).2 = { s with pidBitmap := (allocPid s).2.pidBitmap } := by
  unfold allocPid
  cases Lib.bitmapAlloc s.pidBitmap 1 <;> rfl

theorem allocPid_pool (s : Tasks) (pool : Page → Bool) :
    allocPid { s with pool := pool } = ((allocPid s).1, { (allocPid s).2 with pool := pool }) := by
  unfold allocPid
  dsimp only
  cases Lib.bitmapAlloc s.pidBitmap 1 <;> rfl

theorem createTask_cases {s after : Tasks} {task : Page} {prio : Nat} (ran : createTask s task prio = .ok after) :
    ∃ pid parent btmp, (allocPid s).1 = pid ∧ (allocPid s).2 = { s with pidBitmap := btmp } ∧
      parent = (if pid > 1 then s.current else task) ∧
      kernelPoolStart ≤ task ∧ task < kernelPoolStart + kernelPoolPages ∧ s.pool task = false ∧
      task ∉ s.allTasksList ∧ task ∉ s.readyTasksList ∧
      after.task = Function.update s.task task { s.task task with
        pid := pid, parentTask := parent, pml4 := (s.task parent).pml4, prio := prio, ticks := prio,
        place := .user, status := .ready } ∧
      after.allTasksList = s.allTasksList ++ [task] ∧ after.readyTasksList = s.readyTasksList ++ [task] ∧
      after.current = s.current ∧ after.idleTask = s.idleTask ∧ after.initProc = s.initProc ∧
      after.pidBitmap = btmp ∧ after.pool = Function.update s.pool task true ∧ after.pml4Log = s.pml4Log := by
  simp only [createTask, bind_ok, pure_ok] at ran
  obtain ⟨held, taken, entered, made, _, fresh, rfl⟩ := ran
  obtain ⟨low, high, free, rfl⟩ := allocPage_cases taken
  simp only [initTask, bind_ok, assert_ok, pure_ok] at made
  obtain ⟨_, absent, rfl⟩ := made
  have samePid : allocPid { s with pool := Function.update s.pool task true } =
      ((allocPid s).1, { s with
        pidBitmap := (allocPid s).2.pidBitmap, pool := Function.update s.pool task true }) := by
    rw [allocPid_pool, allocPid_state]
  rw [samePid] at fresh absent
  simp only [samePid]
  refine ⟨(allocPid s).1, _, (allocPid s).2.pidBitmap, rfl, allocPid_state s, rfl, low, high, free, ?_, ?_, ?_, ?_⟩
  · simpa using absent
  · simpa using fresh
  · funext u
    by_cases same : u = task
    · subst same
      simp [Tasks.setStatus]
    · simp [Tasks.setStatus, same]
  · refine ⟨rfl, rfl, rfl, rfl, rfl, rfl, rfl, rfl⟩

theorem sysClone_cases {s after : Tasks} {cloneVm : Bool} {task pml4 : Page}
    (ran : sysClone s cloneVm task pml4 = .ok after) :
    ∃ created, createTask s task 30 = .ok created ∧
      ((cloneVm = true ∧ after = created) ∨
        (cloneVm = false ∧ kernelPoolStart ≤ pml4 ∧ pml4 < kernelPoolStart + kernelPoolPages ∧
          created.pool pml4 = false ∧
          after = { (created.modify task fun ts => { ts with pml4 := pml4 }).clear pml4 with
            pool := Function.update created.pool pml4 true, pml4Log := .alloc pml4 :: created.pml4Log })) := by
  simp only [sysClone, bind_ok] at ran
  obtain ⟨created, made, rest⟩ := ran
  refine ⟨created, made, ?_⟩
  cases cloneVm with
  | true =>
    simp only [if_true, pure_ok] at rest
    exact .inl ⟨rfl, rest.symm⟩
  | false =>
    simp only [Bool.false_eq_true, if_false, bind_ok, pure_ok] at rest
    obtain ⟨held, taken, rfl⟩ := rest
    obtain ⟨low, high, free, rfl⟩ := allocPage_cases taken
    exact .inr ⟨rfl, low, high, free, rfl⟩

theorem reap_cases {s after : Tasks} {child : Page} (ran : reap s child = .ok after) :
    after.task = (s.setStatus child .died).task ∧ after.allTasksList = s.allTasksList.erase child ∧
      after.readyTasksList = (if s.readyTasksList.contains child then s.readyTasksList.erase child
        else s.readyTasksList) ∧
      after.current = s.current ∧ after.idleTask = s.idleTask ∧ after.initProc = s.initProc ∧
      after.pidBitmap = Lib.bitmapSet s.pidBitmap (s.task child).pid.toNat false ∧
      (((s.task s.current).pml4 = (s.task child).pml4 ∧ s.pool child = true ∧ after.pml4Log = s.pml4Log ∧
          after.pool = Function.update s.pool child false) ∨
        ((s.task s.current).pml4 ≠ (s.task child).pml4 ∧ s.pool (s.task child).pml4 = true ∧
          Function.update s.pool (s.task child).pml4 false child = true ∧
          after.pml4Log = .free (s.task child).pml4 :: s.pml4Log ∧
          after.pool = Function.update (Function.update s.pool (s.task child).pml4 false) child false)) := by
  have samePml4 : ((s.setStatus child .died).task (s.setStatus child .died).current).pml4 =
      (s.task s.current).pml4 := by
    simp only [Tasks.setStatus, Tasks.modify_task, Tasks.modify_current]
    split <;> simp_all
  simp only [reap, bind_ok, samePml4] at ran
  obtain ⟨freed, released, taken⟩ := ran
  obtain ⟨held, rfl⟩ := freePage_cases taken
  by_cases same : (s.task s.current).pml4 = (s.task child).pml4
  · simp only [same, ne_eq, not_true, if_false, Except.ok.injEq] at released
    subst released
    refine ⟨?_, ?_, ?_, ?_, ?_, ?_, ?_, .inl ⟨same, ?_, ?_, ?_⟩⟩
    all_goals simp only [releasePid] at held ⊢
    all_goals split at held <;> simp_all [Tasks.setStatus]
  · simp only [same, ne_eq, not_false_eq_true, if_true, freePml4, bind_ok, pure_ok] at released
    obtain ⟨middle, first, rfl⟩ := released
    obtain ⟨live, rfl⟩ := freePage_cases first
    refine ⟨?_, ?_, ?_, ?_, ?_, ?_, ?_, .inr ⟨same, live, ?_, ?_, ?_⟩⟩
    all_goals simp only [releasePid] at held ⊢
    all_goals split at held <;> simp_all [Tasks.setStatus]

/-- One turn of `sys_wait`: it reaps a hanging child, finds no child at all, or sleeps with none of them hanging. -/
theorem sysWait_cases {s after : Tasks} (ran : sysWait s = .ok after) :
    (∃ child, HangingChild s s.current child ∧ reap (s.setPlace s.current .user) child = .ok after) ∨
      ((∀ c ∈ s.allTasksList, (s.task c).parentTask ≠ s.current) ∧ after = s.setPlace s.current .user) ∨
      ((∀ c, ¬ HangingChild s s.current c) ∧ taskBlock (s.setPlace s.current .inWait) .waiting = .ok after) := by
  unfold sysWait at ran
  split at ran
  · rename_i child found
    have holds := List.find?_some found
    simp only [findHangingChild, decide_eq_true_eq] at holds
    exact .inl ⟨child, ⟨List.mem_of_find?_eq_some found, holds.1, holds.2⟩, ran⟩
  · rename_i missing
    split at ran
    · rename_i none
      cases ran
      refine .inr (.inl ⟨?_, rfl⟩)
      intro c inside
      have := List.find?_eq_none.mp none c inside
      simpa [findChild] using this
    · refine .inr (.inr ⟨?_, ran⟩)
      rintro c ⟨inside, related, hangs⟩
      have := List.find?_eq_none.mp missing c inside
      simp [findHangingChild, related, hangs] at this

theorem exitStart_cases {s after : Tasks} {status : Int} (ran : exitStart s status = .ok after) :
    1 < (s.task s.current).pid ∧
      after = initAdopt (s.modify s.current fun ts => { ts with exitStatus := status, place := .inExit }) s.current := by
  simp only [exitStart, bind_ok, assert_ok, pure_ok] at ran
  obtain ⟨_, user, rfl⟩ := ran
  simp only [Tasks.modify_current, Tasks.modify_task, if_true, gt_iff_lt, decide_eq_true_eq] at user
  exact ⟨user, rfl⟩

theorem initAdopt_task (s : Tasks) (task t : Page) :
    (initAdopt s task).task t =
      if t ∈ s.allTasksList ∧ (s.task t).parentTask = task then { s.task t with parentTask := s.initProc }
      else s.task t := rfl

def poolPage (k : Nat) : Page := kernelPoolStart + k

end RecoverOs.Task
