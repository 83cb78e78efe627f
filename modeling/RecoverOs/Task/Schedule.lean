import RecoverOs.Task.Process

namespace RecoverOs.Task

open Transition

@[simp] theorem Tasks.modify_task (s : Tasks) (t u : Page) (f : TaskStruct → TaskStruct) :
    (s.modify t f).task u = if u = t then f (s.task t) else s.task u := by
  simp [Tasks.modify, Function.update_apply]

@[simp] theorem Tasks.modify_allTasksList (s : Tasks) (t : Page) (f : TaskStruct → TaskStruct) :
    (s.modify t f).allTasksList = s.allTasksList := rfl

@[simp] theorem Tasks.modify_readyTasksList (s : Tasks) (t : Page) (f : TaskStruct → TaskStruct) :
    (s.modify t f).readyTasksList = s.readyTasksList := rfl

@[simp] theorem Tasks.modify_current (s : Tasks) (t : Page) (f : TaskStruct → TaskStruct) :
    (s.modify t f).current = s.current := rfl

@[simp] theorem Tasks.modify_initProc (s : Tasks) (t : Page) (f : TaskStruct → TaskStruct) :
    (s.modify t f).initProc = s.initProc := rfl

@[simp] theorem Tasks.modify_idleTask (s : Tasks) (t : Page) (f : TaskStruct → TaskStruct) :
    (s.modify t f).idleTask = s.idleTask := rfl

@[simp] theorem Tasks.modify_pidBitmap (s : Tasks) (t : Page) (f : TaskStruct → TaskStruct) :
    (s.modify t f).pidBitmap = s.pidBitmap := rfl

@[simp] theorem Tasks.modify_pool (s : Tasks) (t : Page) (f : TaskStruct → TaskStruct) :
    (s.modify t f).pool = s.pool := rfl

@[simp] theorem Tasks.modify_pml4Log (s : Tasks) (t : Page) (f : TaskStruct → TaskStruct) :
    (s.modify t f).pml4Log = s.pml4Log := rfl

def Sleeping (s : Tasks) (t : Page) : Prop :=
  (s.task t).status = .waiting ∧ t ∉ s.readyTasksList

instance (s : Tasks) (t : Page) : Decidable (Sleeping s t) :=
  inferInstanceAs (Decidable (_ ∧ _))

structure Shuffle (before after : Tasks) : Prop where
  allTasksList : after.allTasksList = before.allTasksList
  idleTask : after.idleTask = before.idleTask
  initProc : after.initProc = before.initProc
  pidBitmap : after.pidBitmap = before.pidBitmap
  pool : after.pool = before.pool
  pml4Log : after.pml4Log = before.pml4Log
  pml4 : ∀ t, (after.task t).pml4 = (before.task t).pml4
  pid : ∀ t, (after.task t).pid = (before.task t).pid
  parentTask : ∀ t, (after.task t).parentTask = (before.task t).parentTask
  place : ∀ t, (after.task t).place = (before.task t).place
  hanging : ∀ t, (after.task t).status = .hanging → (before.task t).status = .hanging
  sleeping : ∀ t, Sleeping after t → Sleeping before t

theorem Shuffle.refl (s : Tasks) : Shuffle s s :=
  ⟨rfl, rfl, rfl, rfl, rfl, rfl, fun _ => rfl, fun _ => rfl, fun _ => rfl, fun _ => rfl, fun _ h => h, fun _ h => h⟩

theorem Shuffle.trans {first second third : Tasks} (left : Shuffle first second) (right : Shuffle second third) :
    Shuffle first third where
  allTasksList := right.allTasksList.trans left.allTasksList
  idleTask := right.idleTask.trans left.idleTask
  initProc := right.initProc.trans left.initProc
  pidBitmap := right.pidBitmap.trans left.pidBitmap
  pool := right.pool.trans left.pool
  pml4Log := right.pml4Log.trans left.pml4Log
  pml4 := fun t => (right.pml4 t).trans (left.pml4 t)
  pid := fun t => (right.pid t).trans (left.pid t)
  parentTask := fun t => (right.parentTask t).trans (left.parentTask t)
  place := fun t => (right.place t).trans (left.place t)
  hanging := fun t h => left.hanging t (right.hanging t h)
  sleeping := fun t h => left.sleeping t (right.sleeping t h)

theorem taskUnblock_cases {s after : Tasks} {t : Page} (ran : taskUnblock s t = .ok after) :
    t ∉ s.readyTasksList ∧ after = { s with readyTasksList := t :: s.readyTasksList } := by
  simp only [taskUnblock, bind_ok, assert_ok, pure_ok] at ran
  obtain ⟨_, _, _, fresh, rfl⟩ := ran
  exact ⟨by simpa using fresh, rfl⟩

theorem taskUnblock_shuffle {s after : Tasks} {t : Page} (ran : taskUnblock s t = .ok after) : Shuffle s after := by
  obtain ⟨_, rfl⟩ := taskUnblock_cases ran
  refine ⟨rfl, rfl, rfl, rfl, rfl, rfl, fun _ => rfl, fun _ => rfl, fun _ => rfl, fun _ => rfl, fun _ h => h, ?_⟩
  rintro u ⟨waits, queued⟩
  exact ⟨waits, fun member => queued (List.mem_cons_of_mem _ member)⟩

theorem requeue_cases {s after : Tasks} (ran : requeue s = .ok after) :
    after = s ∨ ((s.task s.current).status = .running ∧ s.current ∉ s.readyTasksList ∧
      after = { s.modify s.current (fun ts => { ts with status := .ready, ticks := ts.prio }) with
        readyTasksList := s.readyTasksList ++ [s.current] }) := by
  unfold requeue at ran
  by_cases running : (s.task s.current).status = .running
  · simp only [running, if_true, bind_ok, assert_ok, pure_ok] at ran
    obtain ⟨_, _, _, fresh, rfl⟩ := ran
    exact .inr ⟨running, by simpa using fresh, rfl⟩
  · simp only [running, if_false, pure_ok] at ran
    exact .inl ran.symm

theorem requeue_shuffle {s after : Tasks} (ran : requeue s = .ok after) : Shuffle s after := by
  rcases requeue_cases ran with rfl | ⟨_, _, rfl⟩
  · exact .refl _
  · refine ⟨rfl, rfl, rfl, rfl, rfl, rfl, ?_, ?_, ?_, ?_, ?_, ?_⟩
    all_goals intro t
    · simp only [Tasks.modify_task]; split <;> simp_all
    · simp only [Tasks.modify_task]; split <;> simp_all
    · simp only [Tasks.modify_task]; split <;> simp_all
    · simp only [Tasks.modify_task]; split <;> simp_all
    · simp only [Tasks.modify_task]
      split <;> simp
    · rintro ⟨waits, queued⟩
      simp only [Tasks.modify_task] at waits
      split at waits
      · simp at waits
      · exact ⟨waits, fun member => queued (List.mem_append_left _ member)⟩

theorem switchNext_cases {s after : Tasks} (ran : switchNext s = .ok after) :
    ∃ next rest, s.readyTasksList = next :: rest ∧
      after = { s.setStatus next .running with readyTasksList := rest, current := next } := by
  unfold switchNext at ran
  split at ran
  · cases ran
  · rename_i next rest same
    cases ran
    exact ⟨next, rest, same, rfl⟩

theorem switchNext_shuffle {s after : Tasks} (ran : switchNext s = .ok after) : Shuffle s after := by
  obtain ⟨next, rest, same, rfl⟩ := switchNext_cases ran
  refine ⟨rfl, rfl, rfl, rfl, rfl, rfl, ?_, ?_, ?_, ?_, ?_, ?_⟩
  all_goals intro t
  · simp only [Tasks.setStatus, Tasks.modify_task]; split <;> simp_all
  · simp only [Tasks.setStatus, Tasks.modify_task]; split <;> simp_all
  · simp only [Tasks.setStatus, Tasks.modify_task]; split <;> simp_all
  · simp only [Tasks.setStatus, Tasks.modify_task]; split <;> simp_all
  · simp only [Tasks.setStatus, Tasks.modify_task]
    split <;> simp
  · rintro ⟨waits, queued⟩
    simp only [Tasks.setStatus, Tasks.modify_task] at waits
    split at waits
    · simp at waits
    · rename_i other
      refine ⟨waits, ?_⟩
      rw [same]
      exact fun member => queued ((List.mem_cons.mp member).resolve_left other)

theorem schedule_cases {s after : Tasks} (ran : schedule s = .ok after) :
    ∃ first second, requeue s = .ok first ∧
      (second = first ∨ taskUnblock first first.idleTask = .ok second) ∧ switchNext second = .ok after := by
  simp only [schedule, bind_ok] at ran
  obtain ⟨first, queued, second, chosen, switched⟩ := ran
  refine ⟨first, second, queued, ?_, switched⟩
  split at chosen
  · exact .inr chosen
  · cases chosen
    exact .inl rfl

theorem schedule_shuffle {s after : Tasks} (ran : schedule s = .ok after) : Shuffle s after := by
  obtain ⟨first, second, queued, chosen, switched⟩ := schedule_cases ran
  have left := requeue_shuffle queued
  have right := switchNext_shuffle switched
  rcases chosen with rfl | woken
  · exact left.trans right
  · exact (left.trans (taskUnblock_shuffle woken)).trans right

theorem taskBlock_cases {s after : Tasks} {status : TaskStatus} (ran : taskBlock s status = .ok after) :
    schedule (s.setStatus s.current status) = .ok after := by
  simp only [taskBlock, bind_ok, assert_ok] at ran
  obtain ⟨_, _, scheduled⟩ := ran
  exact scheduled

theorem taskYield_cases {s after : Tasks} (ran : taskYield s = .ok after) :
    s.current ∉ s.readyTasksList ∧ schedule { s.setStatus s.current .ready with readyTasksList := s.readyTasksList ++ [s.current] } = .ok after := by
  simp only [taskYield, bind_ok, assert_ok] at ran
  obtain ⟨_, fresh, scheduled⟩ := ran
  exact ⟨by simpa using fresh, scheduled⟩

end RecoverOs.Task
