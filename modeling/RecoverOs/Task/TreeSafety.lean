import RecoverOs.Task.Kernel
import RecoverOs.Task.Pml4

namespace RecoverOs.Task

open Transition

variable {s mid after : Tasks} {t : Page}

/-- Every parent is in the list and can still wait for its child. -/
structure TreeWellFormed (s : Tasks) : Prop where
  nodup : s.allTasksList.Nodup
  parent : ∀ t ∈ s.allTasksList, (s.task t).parentTask ∈ s.allTasksList ∧
    (s.task (s.task t).parentTask).status ≠ .hanging ∧ (s.task (s.task t).parentTask).status ≠ .died

structure PidsUnique (s : Tasks) : Prop where
  distinct : (s.allTasksList.map fun t => (s.task t).pid).Nodup
  range : ∀ t ∈ s.allTasksList, 0 ≤ (s.task t).pid ∧ (s.task t).pid < 1024
  marked : ∀ i, i < 1024 → (s.pidBitmap.bits i = true ↔ ∃ t ∈ s.allTasksList, (s.task t).pid = i)
  available : (allocPid s).1 ≠ -1

/-- A task leaves the list only hanging, in the `sys_wait` of its parent, which gets its pid and exit status; until
    then it hangs with the same pid and exit status. -/
def KeptOrReaped (s : Tasks) (op : TreeOp) (after : Tasks) (t : Page) : Prop :=
  (t ∈ after.allTasksList ∧ ((s.task t).status = .hanging → (after.task t).status = .hanging ∧
      (after.task t).pid = (s.task t).pid ∧ (after.task t).exitStatus = (s.task t).exitStatus)) ∨
    (after.allTasksList = s.allTasksList.erase t ∧ t ∉ after.allTasksList ∧ (s.task t).status = .hanging ∧
      (op = .call .wait ∨ op = .call .waitResume) ∧ s.current = (s.task t).parentTask ∧
      sysWaitTurn s = .ok (.reaped (s.task t).pid (s.task t).exitStatus, after))

def TreeOp.ThreadsReaped (s : Tasks) : TreeOp → Prop
  | .call op => Task.ThreadsReaped s op
  | .create _ _ => True

instance (s : Tasks) : (op : TreeOp) → Decidable (TreeOp.ThreadsReaped s op)
  | .call op => inferInstanceAs (Decidable (Task.ThreadsReaped s op))
  | .create _ _ => isTrue True.intro

theorem schedule_record (ran : schedule s = .ok after) (t : Page) :
    after.task t = s.task t ∨ ((t = s.current ∧ (s.task t).status = .running ∨ t ∈ s.readyTasksList ∨ t = s.idleTask) ∧
      ((after.task t).status = .running ∨ (after.task t).status = .ready) ∧
      (after.task t).exitStatus = (s.task t).exitStatus) := by
  obtain ⟨first, second, queued, chosen, switched⟩ := schedule_cases ran
  have firstIs : (first.task t = s.task t ∨ (t = s.current ∧ (s.task t).status = .running ∧
      (first.task t).status = .ready ∧ (first.task t).exitStatus = (s.task t).exitStatus)) ∧
      first.idleTask = s.idleTask ∧
      (t ∈ first.readyTasksList → t ∈ s.readyTasksList ∨ t = s.current ∧ (s.task t).status = .running) := by
    rcases requeue_cases queued with rfl | ⟨running, _, rfl⟩
    · exact ⟨.inl rfl, rfl, .inl⟩
    · refine ⟨?_, rfl, ?_⟩
      · by_cases same : t = s.current
        · subst same
          exact .inr ⟨rfl, running, by simp, by simp⟩
        · exact .inl (by simp [same])
      · intro member
        rcases List.mem_append.mp member with old | last
        · exact .inl old
        · have same := List.mem_singleton.mp last
          exact .inr ⟨same, same ▸ running⟩
  have secondIs : second.task = first.task ∧
      (t ∈ second.readyTasksList → t ∈ first.readyTasksList ∨ t = first.idleTask) := by
    rcases chosen with rfl | woken
    · exact ⟨rfl, .inl⟩
    · obtain ⟨_, rfl⟩ := taskUnblock_cases woken
      exact ⟨rfl, fun member => (List.mem_cons.mp member).symm⟩
  obtain ⟨next, rest, head, rfl⟩ := switchNext_cases switched
  have exits : (first.task t).exitStatus = (s.task t).exitStatus := by
    rcases firstIs.1 with same | ⟨_, _, _, same⟩
    · rw [same]
    · exact same
  by_cases chosenNow : t = next
  · right
    subst chosenNow
    have origin := secondIs.2 (by rw [head]; exact List.mem_cons_self ..)
    refine ⟨?_, .inl (by simp [Tasks.setStatus]), ?_⟩
    · rcases origin with listed | idle
      · rcases firstIs.2.2 listed with ready | now
        · exact .inr (.inl ready)
        · exact .inl now
      · exact .inr (.inr (idle.trans firstIs.2.1))
    · simp only [Tasks.setStatus, Tasks.modify_task, if_true, secondIs.1]
      exact exits
  · have same : (second.setStatus next .running).task t = first.task t := by
      simp [Tasks.setStatus, chosenNow, secondIs.1]
    show (second.setStatus next .running).task t = s.task t ∨ _ ∧
      (((second.setStatus next .running).task t).status = .running ∨ _) ∧ _ = _
    rw [same]
    rcases firstIs.1 with kept | ⟨now, running, ready, status⟩
    · exact .inl kept
    · exact .inr ⟨.inl ⟨now, running⟩, .inr ready, status⟩

structure Quiet (s after : Tasks) : Prop where
  listed : ∀ t ∈ s.allTasksList, t ∈ after.allTasksList
  hanging : ∀ t ∈ s.allTasksList, (s.task t).status = .hanging → (after.task t).status = .hanging ∧
    (after.task t).pid = (s.task t).pid ∧ (after.task t).exitStatus = (s.task t).exitStatus
  alive : (∀ t ∈ s.allTasksList, (s.task t).status ≠ .died) → ∀ t ∈ after.allTasksList, (after.task t).status ≠ .died
  idleTask : after.idleTask = s.idleTask
  idlePlace : (s.task s.idleTask).place = .user → (after.task s.idleTask).place = .user

theorem Quiet.trans (left : Quiet s mid) (right : Quiet mid after) : Quiet s after where
  listed := fun t member => right.listed t (left.listed t member)
  hanging := by
    intro t member hangs
    obtain ⟨still, pid, status⟩ := left.hanging t member hangs
    obtain ⟨still', pid', status'⟩ := right.hanging t (left.listed t member) still
    exact ⟨still', pid'.trans pid, status'.trans status⟩
  alive := fun before => right.alive (left.alive before)
  idleTask := right.idleTask.trans left.idleTask
  idlePlace := by
    intro place
    have middle := right.idlePlace
    rw [left.idleTask] at middle
    exact middle (left.idlePlace place)

structure SafeInv (s : Tasks) : Prop where
  task : TaskInv s
  sched : Scheduled s
  alive : ∀ t ∈ s.allTasksList, (s.task t).status ≠ .died
  idlePlace : (s.task s.idleTask).place = .user

theorem SafeInv.hanging_away (inv : SafeInv s) (member : t ∈ s.allTasksList) (hangs : (s.task t).status = .hanging) :
    t ≠ s.current ∧ t ≠ s.idleTask ∧ t ∉ s.readyTasksList := by
  obtain ⟨notCurrent, notIdle, -, -⟩ := inv.task.tree.hanging_leaf inv.task.sched member hangs
  refine ⟨notCurrent, notIdle, ?_⟩
  intro queued
  rcases inv.sched.statuses t queued with status | status
  · rw [hangs] at status
    cases status
  · rw [hangs] at status
    cases status

theorem SafeInv.quiet_schedule (inv : SafeInv s) (record : ∀ t, t ≠ s.current → mid.task t = s.task t)
    (all : mid.allTasksList = s.allTasksList) (idle : mid.idleTask = s.idleTask) (current : mid.current = s.current)
    (ready : ∀ t ∈ mid.readyTasksList, t ∈ s.readyTasksList ∨ (s.task t).status ≠ .hanging)
    (lives : (mid.task s.current).status ≠ .died)
    (place : s.current = s.idleTask → (mid.task s.current).place = (s.task s.current).place)
    (ran : schedule mid = .ok after) : Quiet s after := by
  have moved := schedule_shuffle ran
  constructor
  case listed => rw [moved.allTasksList, all]; exact fun t member => member
  case hanging =>
    intro t member hangs
    obtain ⟨notCurrent, notIdle, away⟩ := inv.hanging_away member hangs
    rcases schedule_record ran t with same | ⟨touched, _⟩
    · rw [same, record t notCurrent]
      exact ⟨hangs, rfl, rfl⟩
    · exfalso
      rcases touched with ⟨now, _⟩ | queued | chosen
      · exact notCurrent (now.trans current)
      · rcases ready t queued with earlier | awake
        · exact away earlier
        · exact awake hangs
      · exact notIdle (chosen.trans idle)
  case alive =>
    intro before t member
    rw [moved.allTasksList, all] at member
    rcases schedule_record ran t with same | ⟨_, awake, _⟩
    · rw [same]
      by_cases now : t = s.current
      · rw [now]; exact lives
      · rw [record t now]; exact before t member
    · rcases awake with running | queued
      · rw [running]; exact TaskStatus.noConfusion
      · rw [queued]; exact TaskStatus.noConfusion
  case idleTask => rw [moved.idleTask, idle]
  case idlePlace =>
    intro user
    rw [moved.place]
    by_cases now : s.current = s.idleTask
    · rw [← now, place now, now]; exact user
    · rw [record _ (Ne.symm now)]; exact user

theorem SafeInv.quiet_block {status : TaskStatus} (inv : SafeInv s) (lives : status ≠ .died)
    (ran : taskBlock s status = .ok after) : Quiet s after := by
  refine @SafeInv.quiet_schedule s (s.setStatus s.current status) after inv ?_ rfl rfl rfl
    (fun t queued => .inl queued) ?_ ?_ (taskBlock_cases ran)
  · intro t other
    simp [Tasks.setStatus, other]
  · simpa [Tasks.setStatus] using lives
  · intro _
    simp [Tasks.setStatus]

theorem SafeInv.quiet_modify (inv : SafeInv s) (f : TaskStruct → TaskStruct)
    (status : (f (s.task s.current)).status = (s.task s.current).status)
    (place : s.current = s.idleTask → (f (s.task s.current)).place = (s.task s.current).place) :
    Quiet s (s.modify s.current f) := by
  constructor
  case listed => exact fun t member => member
  case hanging =>
    intro t member hangs
    have other := (inv.hanging_away member hangs).1
    simpa [other] using hangs
  case alive =>
    intro before t member
    by_cases now : t = s.current
    · subst now
      simpa [status] using before s.current member
    · simpa [now] using before t member
  case idleTask => rfl
  case idlePlace =>
    intro user
    by_cases now : s.idleTask = s.current
    · simp only [Tasks.modify_task, now, if_true, place now.symm]
      rw [← now]
      exact user
    · simpa [now] using user

theorem SafeInv.of_quiet (inv : SafeInv s) (task : TaskInv after) (sched : Scheduled after) (quiet : Quiet s after) :
    SafeInv after := by
  refine ⟨task, sched, quiet.alive inv.alive, ?_⟩
  rw [quiet.idleTask]
  exact quiet.idlePlace inv.idlePlace

theorem SafeInv.tick (inv : SafeInv s) (ran : intrTimeHandle s = .ok after) : Scheduled after ∧ Quiet s after := by
  obtain ⟨next, same, sched, -⟩ := inv.sched.tick inv.task.tree.idle
  rw [ran] at same
  cases same
  refine ⟨sched, ?_⟩
  unfold intrTimeHandle at ran
  split at ran
  · refine inv.quiet_schedule (fun t _ => rfl) rfl rfl rfl (fun t queued => .inl queued) ?_ (fun _ => rfl) ran
    exact inv.alive _ inv.task.sched.current
  · cases ran
    exact inv.quiet_modify _ rfl fun _ => rfl

theorem SafeInv.yield (inv : SafeInv s) (ran : taskYield s = .ok after) : Scheduled after ∧ Quiet s after := by
  obtain ⟨next, same, sched, -⟩ := inv.sched.yield inv.task.tree.idle
  rw [ran] at same
  cases same
  refine ⟨sched, ?_⟩
  refine @SafeInv.quiet_schedule s { s.setStatus s.current .ready with readyTasksList := s.readyTasksList ++ [s.current] }
    after inv ?_ rfl rfl rfl ?_ ?_ ?_ (taskYield_cases ran).2
  · intro t other
    simp [Tasks.setStatus, other]
  · intro t queued
    rcases List.mem_append.mp queued with earlier | last
    · exact .inl earlier
    · right
      rw [List.mem_singleton.mp last, inv.task.sched.running]
      exact TaskStatus.noConfusion
  · simp [Tasks.setStatus]
  · intro _
    simp [Tasks.setStatus]

theorem SafeInv.block {status : TaskStatus} (inv : SafeInv s)
    (allowed : status = .blocked ∨ status = .hanging ∨ status = .waiting)
    (idle : s.current = s.idleTask → status = .blocked) (ran : taskBlock s status = .ok after) :
    Scheduled after ∧ Quiet s after := by
  obtain ⟨next, same, sched, -⟩ := inv.sched.block inv.task.tree.idle allowed idle
  rw [ran] at same
  cases same
  refine ⟨sched, inv.quiet_block ?_ ran⟩
  rcases allowed with rfl | rfl | rfl
  · exact TaskStatus.noConfusion
  · exact TaskStatus.noConfusion
  · exact TaskStatus.noConfusion

theorem SafeInv.unblock (inv : SafeInv s) (dormant : Dormant s t) (ran : taskUnblock s t = .ok after) :
    Scheduled after ∧ Quiet s after := by
  obtain ⟨next, same, sched, -⟩ := inv.sched.unblock dormant
  rw [ran] at same
  cases same
  refine ⟨sched, ?_⟩
  obtain ⟨_, rfl⟩ := taskUnblock_cases ran
  exact ⟨fun t member => member, fun t _ hangs => ⟨hangs, rfl, rfl⟩, id, rfl, id⟩

theorem SafeInv.create {task : Page} {prio : Nat} (inv : SafeInv s) (user : (s.task s.current).place ≠ .inExit)
    (ran : createTask s task prio = .ok after) : SafeInv after ∧ Quiet s after := by
  have sched := (inv.sched.create inv.task.tree user ran).1
  obtain ⟨_, _, _, _, _, _, _, _, _, absent, _, records, all, _, _, idle, _⟩ := createTask_cases ran
  have old : ∀ t ∈ s.allTasksList, after.task t = s.task t := by
    intro t member
    rw [records]
    exact Function.update_of_ne (by rintro rfl; exact absent member) _ _
  have quiet : Quiet s after := by
    constructor
    case listed => rw [all]; exact fun t member => List.mem_append_left _ member
    case hanging =>
      intro t member hangs
      rw [old t member]
      exact ⟨hangs, rfl, rfl⟩
    case alive =>
      intro before t member
      rw [all] at member
      rcases List.mem_append.mp member with earlier | last
      · rw [old t earlier]; exact before t earlier
      · rw [List.mem_singleton.mp last, records, Function.update_self]
        exact TaskStatus.noConfusion
    case idleTask => exact idle
    case idlePlace => rw [old _ inv.task.tree.idle]; exact id
  exact ⟨inv.of_quiet (inv.task.create user ran) sched quiet, quiet⟩

theorem SafeInv.clone {cloneVm : Bool} {task pml4 : Page} (inv : SafeInv s) (user : (s.task s.current).place ≠ .inExit)
    (ran : sysClone s cloneVm task pml4 = .ok after) : SafeInv after ∧ Quiet s after := by
  have next := inv.task.clone user ran
  obtain ⟨created, made, rest⟩ := sysClone_cases ran
  obtain ⟨middle, quiet⟩ := inv.create user made
  rcases rest with ⟨_, rfl⟩ | ⟨_, _, _, free, moved⟩
  · exact ⟨middle, quiet⟩
  · have outside := middle.task.tree.ne_of_free free
    have record : ∀ t ∈ created.allTasksList, (after.task t).status = (created.task t).status ∧
        (after.task t).pid = (created.task t).pid ∧ (after.task t).exitStatus = (created.task t).exitStatus ∧
        (after.task t).place = (created.task t).place := by
      intro t member
      rw [newTable_record (outside t member) moved]
      split
      · exact ⟨rfl, rfl, rfl, rfl⟩
      · exact ⟨rfl, rfl, rfl, rfl⟩
    have all : after.allTasksList = created.allTasksList := by rw [moved]; rfl
    have idle : after.idleTask = created.idleTask := by rw [moved]; rfl
    have sched := (middle.sched.same middle.task.tree.idle all (by rw [moved]; rfl) (by rw [moved]; rfl) idle
      fun t member => (record t member).1).1
    have tabled : Quiet created after := by
      constructor
      case listed => rw [all]; exact fun t member => member
      case hanging =>
        intro t member hangs
        exact ⟨(record t member).1.trans hangs, (record t member).2.1, (record t member).2.2.1⟩
      case alive =>
        intro before t member
        rw [all] at member
        rw [(record t member).1]
        exact before t member
      case idleTask => exact idle
      case idlePlace => rw [(record _ middle.task.tree.idle).2.2.2]; exact id
    exact ⟨middle.of_quiet next sched tabled, quiet.trans tabled⟩

theorem exitStart_exitStatus {status : Int} (ran : exitStart s status = .ok after) (other : t ≠ s.current) :
    (after.task t).exitStatus = (s.task t).exitStatus := by
  obtain ⟨_, rfl⟩ := exitStart_cases ran
  rw [initAdopt_task]
  split
  · simp [other]
  · simp [other]

theorem SafeInv.exitStart {status : Int} (inv : SafeInv s)
    (reaped : ∀ c ∈ s.allTasksList, (s.task c).parentTask = s.current →
      (s.task c).pml4 = (s.task s.current).pml4 → (s.task s.current).pml4 = kernelPml4)
    (ran : Task.exitStart s status = .ok after) :
    SafeInv after ∧ Quiet s after ∧ after.current ≠ after.idleTask ∧ (after.task after.current).place = .inExit := by
  obtain ⟨all, ready, current, idle, _⟩ := exitStart_lists ran
  have record := exitStart_task ran
  have pid := (exitStart_cases ran).1
  have different : s.current ≠ s.idleTask := by
    intro same
    rw [same, inv.task.tree.idlePid] at pid
    omega
  have adopted : TaskInv after :=
    ⟨inv.task.tree.exitStart ran, inv.task.sched.exitStart ran, inv.task.pml4.exitStart reaped ran⟩
  have sched := (inv.sched.same inv.task.tree.idle all ready current idle fun t _ => (record t).2.2.1).1
  have quiet : Quiet s after := by
    constructor
    case listed => rw [all]; exact fun t member => member
    case hanging =>
      intro t member hangs
      have other := (inv.hanging_away member hangs).1
      exact ⟨(record t).2.2.1.trans hangs, (record t).2.1, exitStart_exitStatus ran other⟩
    case alive =>
      intro before t member
      rw [all] at member
      rw [(record t).2.2.1]
      exact before t member
    case idleTask => exact idle
    case idlePlace => rw [(record _).2.2.2.1, if_neg different.symm]; exact id
  refine ⟨inv.of_quiet adopted sched quiet, quiet, by rw [current, idle]; exact different, ?_⟩
  rw [current, (record _).2.2.2.1, if_pos rfl]

theorem SafeInv.finish (inv : SafeInv s) (other : s.current ≠ s.idleTask) (exits : (s.task s.current).place = .inExit)
    (ran : exitFinish s = .ok after) : SafeInv after ∧ Quiet s after := by
  have next := inv.task.finish exits ran
  obtain ⟨last, same, sched, -⟩ :=
    inv.sched.finish inv.task.tree.idle other (inv.task.tree.parent _ inv.task.sched.current)
  rw [ran] at same
  cases same
  have quiet : Quiet s after := by
    simp only [exitFinish, bind_ok] at ran
    obtain ⟨woken, wake, blocked⟩ := ran
    have lists : woken.task = s.task ∧ woken.allTasksList = s.allTasksList ∧ woken.idleTask = s.idleTask ∧
        woken.current = s.current ∧
        ∀ t ∈ woken.readyTasksList, t ∈ s.readyTasksList ∨ (s.task t).status ≠ .hanging := by
      split at wake
      · rename_i waits
        obtain ⟨_, rfl⟩ := taskUnblock_cases wake
        refine ⟨rfl, rfl, rfl, rfl, ?_⟩
        intro t queued
        rcases List.mem_cons.mp queued with rfl | earlier
        · right
          rw [waits]
          exact TaskStatus.noConfusion
        · exact .inl earlier
      · cases wake
        exact ⟨rfl, rfl, rfl, rfl, fun t queued => .inl queued⟩
    obtain ⟨task, all, idle, current, ready⟩ := lists
    refine @SafeInv.quiet_schedule s (woken.setStatus woken.current .hanging) after inv ?_ all idle current ready ?_ ?_
      (taskBlock_cases blocked)
    · intro t different
      simp [Tasks.setStatus, current, task, different]
    · simp [Tasks.setStatus, current]
    · exact fun now => absurd now other
  exact ⟨inv.of_quiet next sched quiet, quiet⟩

theorem sysWait_turn (ran : sysWait s = .ok after) :
    (∃ child, HangingChild s s.current child ∧ reap (s.setPlace s.current .user) child = .ok after ∧
        sysWaitTurn s = .ok (.reaped (s.task child).pid (s.task child).exitStatus, after)) ∨
      (after = s.setPlace s.current .user ∧ sysWaitTurn s = .ok (.noChild, after)) ∨
      (taskBlock (s.setPlace s.current .inWait) .waiting = .ok after ∧ sysWaitTurn s = .ok (.asleep, after)) := by
  unfold sysWait at ran
  unfold sysWaitTurn
  split at ran
  · rename_i child found
    have holds := List.find?_some found
    simp only [findHangingChild, decide_eq_true_eq] at holds
    exact .inl ⟨child, ⟨List.mem_of_find?_eq_some found, holds.1, holds.2⟩, ran, by simp only [ran]; rfl⟩
  · split at ran
    · cases ran
      exact .inr (.inl ⟨rfl, rfl⟩)
    · exact .inr (.inr ⟨ran, by simp only [ran]; rfl⟩)

theorem SafeInv.setPlace {place : Place} (inv : SafeInv s) (other : s.current ≠ s.idleTask) (user : place ≠ .inExit) :
    SafeInv (s.setPlace s.current place) ∧ Quiet s (s.setPlace s.current place) := by
  have quiet : Quiet s (s.setPlace s.current place) := inv.quiet_modify _ rfl fun now => absurd now other
  have status : ∀ t ∈ s.allTasksList, ((s.setPlace s.current place).task t).status = (s.task t).status := by
    intro t _
    by_cases same : t = s.current
    · simp [Tasks.setPlace, same]
    · simp [Tasks.setPlace, same]
  have sched := (@Scheduled.same s (s.setPlace s.current place) inv.sched inv.task.tree.idle rfl rfl rfl rfl status).1
  exact ⟨inv.of_quiet (inv.task.setPlace user) sched quiet, quiet⟩

theorem SafeInv.reap {child : Page} (inv : SafeInv s) (found : HangingChild s s.current child)
    (ran : Task.reap s child = .ok after) : SafeInv after ∧ after.allTasksList = s.allTasksList.erase child ∧
      ∀ t, t ≠ child → after.task t = s.task t := by
  obtain ⟨member, related, hangs⟩ := found
  have next := inv.task.reap member related hangs ran
  have sched := (inv.sched.reap inv.task.tree next.sched member hangs ran).1
  have notIdle := (inv.hanging_away member hangs).2.1
  obtain ⟨records, all, _, _, idle, _⟩ := reap_cases ran
  have old : ∀ t, t ≠ child → after.task t = s.task t := by
    intro t other
    rw [records]
    simp [Tasks.setStatus, other]
  refine ⟨⟨next, sched, ?_, by rw [idle, old _ notIdle.symm]; exact inv.idlePlace⟩, all, old⟩
  intro t inside
  rw [all] at inside
  obtain ⟨other, earlier⟩ := inv.task.tree.nodup.mem_erase_iff.mp inside
  rw [old t other]
  exact inv.alive t earlier

theorem SafeInv.wait {op : TreeOp} (inv : SafeInv s) (other : s.current ≠ s.idleTask)
    (waits : op = .call .wait ∨ op = .call .waitResume) (ran : sysWait s = .ok after) :
    SafeInv after ∧ ∀ t ∈ s.allTasksList, KeptOrReaped s op after t := by
  rcases sysWait_turn ran with ⟨child, found, reaped, turn⟩ | ⟨rfl, _⟩ | ⟨blocked, _⟩
  · have placed := (@SafeInv.setPlace s .user inv other Place.noConfusion).1
    have found' := @HangingChild.setPlace s child .user inv.task.sched found
    obtain ⟨next, all, old⟩ := placed.reap found' reaped
    refine ⟨next, ?_⟩
    intro t member
    have nodup : s.allTasksList.Nodup := inv.task.tree.nodup
    by_cases same : t = child
    · subst same
      obtain ⟨_, related, hangs⟩ := found
      refine .inr ⟨all, ?_, hangs, waits, related.symm, turn⟩
      rw [all]
      exact fun inside => (nodup.mem_erase_iff.mp inside).1 rfl
    · refine .inl ⟨by rw [all]; exact nodup.mem_erase_iff.mpr ⟨same, member⟩, ?_⟩
      intro hangs
      have away := (inv.hanging_away member hangs).1
      rw [old t same]
      simpa [Tasks.setPlace, away] using hangs
  · obtain ⟨next, quiet⟩ := @SafeInv.setPlace s .user inv other Place.noConfusion
    exact ⟨next, fun t member => .inl ⟨quiet.listed t member, quiet.hanging t member⟩⟩
  · obtain ⟨placed, quiet⟩ := @SafeInv.setPlace s .inWait inv other Place.noConfusion
    obtain ⟨sched, rest⟩ := placed.block (.inr (.inr rfl)) (fun now => absurd now other) blocked
    have slept := quiet.trans rest
    exact ⟨inv.of_quiet (inv.task.wait ran) sched slept,
      fun t member => .inl ⟨slept.listed t member, slept.hanging t member⟩⟩

theorem Quiet.kept {op : TreeOp} (quiet : Quiet s after) : ∀ t ∈ s.allTasksList, KeptOrReaped s op after t :=
  fun t member => .inl ⟨quiet.listed t member, quiet.hanging t member⟩

theorem inCall_place (call : s.inCall = true) : s.current ≠ s.idleTask ∧ (s.task s.current).place ≠ .inExit := by
  simp only [Tasks.inCall, Bool.and_eq_true, bne_iff_ne, beq_iff_eq] at call
  refine ⟨call.1, ?_⟩
  rw [call.2]
  exact Place.noConfusion

theorem SafeInv.step_op (s : Tasks) (op : Op) (after : Tasks) (inv : SafeInv s) (cond : ThreadsReaped s op)
    (ran : step s op = .ok after) : SafeInv after ∧ ∀ t ∈ s.allTasksList, KeptOrReaped s (.call op) after t := by
  have next := taskInv_step s op after inv.task cond ran
  have settle : Scheduled after ∧ Quiet s after →
      SafeInv after ∧ ∀ t ∈ s.allTasksList, KeptOrReaped s (.call op) after t :=
    fun ⟨sched, quiet⟩ => ⟨inv.of_quiet next sched quiet, quiet.kept⟩
  cases op with
  | tick =>
    simp only [step, bind_ok] at ran
    obtain ⟨_, _, handled⟩ := ran
    exact settle (inv.tick handled)
  | idle =>
    simp only [step, bind_ok] at ran
    obtain ⟨_, _, blocked⟩ := ran
    exact settle (inv.block (.inl rfl) (fun _ => rfl) blocked)
  | yield =>
    simp only [step, bind_ok] at ran
    obtain ⟨_, _, yielded⟩ := ran
    exact settle (inv.yield yielded)
  | block =>
    simp only [step, bind_ok] at ran
    obtain ⟨_, _, blocked⟩ := ran
    exact settle (inv.block (.inl rfl) (fun _ => rfl) blocked)
  | unblock t =>
    simp only [step, bind_ok, offer_ok] at ran
    obtain ⟨_, guard, woken⟩ := ran
    simp only [Bool.and_eq_true, bne_iff_ne, beq_iff_eq, List.contains_iff_mem, Bool.not_eq_true'] at guard
    have away : t ∉ s.readyTasksList := by
      have outside := guard.2
      simpa using outside
    exact settle (inv.unblock ⟨guard.1.1.2, guard.1.2, away, guard.1.1.1⟩ woken)
  | clone cloneVm task pml4 =>
    simp only [step, bind_ok, offer_ok] at ran
    obtain ⟨_, call, cloned⟩ := ran
    obtain ⟨kept, quiet⟩ := inv.clone (inCall_place call).2 cloned
    exact ⟨kept, quiet.kept⟩
  | wait =>
    simp only [step, bind_ok, offer_ok] at ran
    obtain ⟨_, call, waited⟩ := ran
    exact inv.wait (inCall_place call).1 (.inl rfl) waited
  | waitResume =>
    simp only [step, bind_ok, offer_ok, beq_iff_eq] at ran
    obtain ⟨_, place, waited⟩ := ran
    have other : s.current ≠ s.idleTask := by
      intro same
      have user := inv.idlePlace
      rw [← same, place] at user
      cases user
    exact inv.wait other (.inr rfl) waited
  | exit status =>
    simp only [step, bind_ok] at ran
    obtain ⟨_, _, started, start, finished⟩ := ran
    obtain ⟨middle, quiet, other, exits⟩ := inv.exitStart cond start
    obtain ⟨kept, rest⟩ := middle.finish other exits finished
    exact ⟨kept, (quiet.trans rest).kept⟩
  | exitBlock status =>
    simp only [step, bind_ok] at ran
    obtain ⟨_, _, started, start, blocked⟩ := ran
    obtain ⟨middle, quiet, _⟩ := inv.exitStart cond start
    obtain ⟨sched, rest⟩ := middle.block (.inl rfl) (fun _ => rfl) blocked
    exact settle ⟨sched, quiet.trans rest⟩
  | exitAgain =>
    simp only [step, bind_ok] at ran
    obtain ⟨_, _, blocked⟩ := ran
    exact settle (inv.block (.inl rfl) (fun _ => rfl) blocked)
  | exitResume =>
    simp only [step, bind_ok, offer_ok, beq_iff_eq] at ran
    obtain ⟨_, place, finished⟩ := ran
    have other : s.current ≠ s.idleTask := by
      intro same
      have user := inv.idlePlace
      rw [← same, place] at user
      cases user
    obtain ⟨kept, quiet⟩ := inv.finish other place finished
    exact ⟨kept, quiet.kept⟩

theorem safeInv_step (s : Tasks) (op : TreeOp) (after : Tasks) (inv : SafeInv s) (cond : op.ThreadsReaped s)
    (ran : treeStep s op = .ok after) : SafeInv after ∧ ∀ t ∈ s.allTasksList, KeptOrReaped s op after t := by
  cases op with
  | call op => exact SafeInv.step_op s op after inv cond ran
  | create task prio =>
    simp only [treeStep, bind_ok, offer_ok] at ran
    obtain ⟨_, call, made⟩ := ran
    obtain ⟨kept, quiet⟩ := inv.create (inCall_place call).2 made
    exact ⟨kept, quiet.kept⟩

theorem safeInv_init {idle main : Page} {held : Page → Bool} (idlePage : InPool idle) (mainPage : InPool main)
    (distinct : idle ≠ main) : SafeInv (taskInit idle main held) := by
  have task := @taskInv_init idle main held idlePage mainPage distinct
  refine ⟨task, ⟨task.sched, ?_, ?_, ?_, ?_⟩, ?_, rfl⟩
  · simpa [taskInit] using distinct.symm
  · intro t queued
    have same : t = idle := by simpa [taskInit] using queued
    exact .inl (by simp [taskInit, same, distinct])
  · intro t member ready
    have cases : t = idle ∨ t = main := by simpa [taskInit] using member
    rcases cases with rfl | rfl
    · simp [taskInit]
    · simp [taskInit] at ready
  · exact .inr (.inl (by simp [taskInit]))
  · intro t _
    simp only [taskInit]
    split <;> exact TaskStatus.noConfusion

theorem safeInv_run {idle main : Page} {held : Page → Bool} {ops : List TreeOp} (idlePage : InPool idle)
    (mainPage : InPool main) (distinct : idle ≠ main)
    (reaped : Meets treeStep TreeOp.ThreadsReaped (taskInit idle main held) ops)
    (ran : run treeStep (taskInit idle main held) ops = .ok s) : SafeInv s :=
  run_invariant (fun s op after inv cond ran => (safeInv_step s op after inv cond ran).1)
    (safeInv_init idlePage mainPage distinct) reaped ran

/-- A task that is hanging has handed its children to `init_proc`, so it is nobody's parent. -/
theorem SafeInv.wellFormed (inv : SafeInv s) : TreeWellFormed s := by
  refine ⟨inv.task.tree.nodup, ?_⟩
  intro t member
  have parent := inv.task.tree.parent t member
  refine ⟨parent, ?_, inv.alive _ parent⟩
  intro hangs
  exact (inv.task.tree.hanging_leaf inv.task.sched parent hangs).2.2.2 t member rfl

theorem TreeInv.pidsUnique (inv : TreeInv s) : PidsUnique s := by
  refine ⟨?_, inv.pidRange, inv.pidMarked, ?_⟩
  · exact inv.nodup.map_on fun t member u member' same => inv.pidInjective t member u member' same
  · obtain ⟨i, _, _, _, allocated⟩ := inv.allocPid
    rw [allocated]
    show (i : Int) ≠ -1
    omega

/-- The process tree in every run where exiting tasks have reaped the children on their table. -/
theorem process_tree_well_formed (idle main : Page) (held : Page → Bool) (ops : List TreeOp) (s : Tasks)
    (idlePage : InPool idle) (mainPage : InPool main) (distinct : idle ≠ main)
    (reaped : Meets treeStep TreeOp.ThreadsReaped (taskInit idle main held) ops)
    (ran : run treeStep (taskInit idle main held) ops = .ok s) :
    TreeWellFormed s ∧ ∀ op after, op.ThreadsReaped s → treeStep s op = .ok after →
      ∀ t ∈ s.allTasksList, KeptOrReaped s op after t := by
  have inv := safeInv_run idlePage mainPage distinct reaped ran
  refine ⟨inv.wellFormed, ?_⟩
  intro op after cond taken
  exact (safeInv_step s op after inv cond taken).2

def reapedThreadRun : List TreeOp :=
  [.call (.clone false (poolPage 2) (poolPage 3)), .call .wait, .call .idle,
    .call (.clone true (poolPage 4) (poolPage 5)), .call .yield, .call (.exit 7), .call .wait, .call (.exit 9)]

theorem process_tree_well_formed_threads :
    ∃ s, run treeStep (taskInit (poolPage 0) (poolPage 1) (fun _ => false)) reapedThreadRun = .ok s ∧
      TreeWellFormed s ∧ ∀ op after, op.ThreadsReaped s → treeStep s op = .ok after →
        ∀ t ∈ s.allTasksList, KeptOrReaped s op after t := by
  have evaluated : endsIn (run treeStep (taskInit (poolPage 0) (poolPage 1) (fun _ => false)) reapedThreadRun)
      (fun _ => true) = true := by decide +kernel
  have reaped : meetsCheck treeStep TreeOp.ThreadsReaped (taskInit (poolPage 0) (poolPage 1) (fun _ => false))
      reapedThreadRun = true := by decide +kernel
  obtain ⟨s, ran, _⟩ := exists_of_endsIn evaluated
  exact ⟨s, ran, process_tree_well_formed _ _ _ reapedThreadRun s ⟨by decide, by decide⟩ ⟨by decide, by decide⟩
    (by decide) (meets_of_check reaped) ran⟩

/-- A thread and then its process exit; `init_proc` reaps the process and with it their table, clones two threads into
    the freed pages, and reaps the thread. That frees the table again, now the page of the second clone, and the next
    clone takes it for a new table. -/
def tableReusedRun : List TreeOp :=
  [.call (.clone false (poolPage 2) (poolPage 3)), .call .yield, .call .idle,
    .call (.clone true (poolPage 8) (poolPage 9)), .call .yield, .call .yield, .call (.exit 0), .call (.exit 0),
    .call .wait, .call (.clone true (poolPage 2) (poolPage 9)), .call (.clone true (poolPage 3) (poolPage 9)),
    .call .wait, .call .yield, .call (.exit 0), .call .yield, .call .wait,
    .call (.clone false (poolPage 2) (poolPage 3))]

theorem tableReusedRun_ends :
    ∃ s, run treeStep (taskInit (poolPage 0) (poolPage 1) (fun _ => false)) tableReusedRun = .ok s ∧
      s.allTasksList = [poolPage 0, poolPage 1, poolPage 3, poolPage 2] ∧ (s.task (poolPage 3)).parentTask = 0 ∧
      (s.task (poolPage 0)).pid = 0 ∧ (s.task (poolPage 3)).pid = 0 := by
  have evaluated : endsIn (run treeStep (taskInit (poolPage 0) (poolPage 1) (fun _ => false)) tableReusedRun)
      (fun s => decide (s.allTasksList = [poolPage 0, poolPage 1, poolPage 3, poolPage 2] ∧
        (s.task (poolPage 3)).parentTask = 0 ∧ (s.task (poolPage 0)).pid = 0 ∧ (s.task (poolPage 3)).pid = 0))
      = true := by
    decide +kernel
  obtain ⟨s, ran, found⟩ := exists_of_endsIn evaluated
  exact ⟨s, ran, by simpa using found⟩

theorem parent_lost :
    ∃ s, run treeStep (taskInit (poolPage 0) (poolPage 1) (fun _ => false)) tableReusedRun = .ok s ∧
      ¬ TreeWellFormed s := by
  obtain ⟨s, ran, all, parent, _⟩ := tableReusedRun_ends
  refine ⟨s, ran, fun formed => ?_⟩
  have listed := (formed.parent (poolPage 3) (by rw [all]; decide)).1
  rw [parent, all] at listed
  exact absurd listed (by decide)

/-- Pids in every run where exiting tasks have reaped the children on their table. -/
theorem pids_unique (idle main : Page) (held : Page → Bool) (ops : List TreeOp) (s : Tasks)
    (idlePage : InPool idle) (mainPage : InPool main) (distinct : idle ≠ main)
    (reaped : Meets treeStep TreeOp.ThreadsReaped (taskInit idle main held) ops)
    (ran : run treeStep (taskInit idle main held) ops = .ok s) : PidsUnique s :=
  (safeInv_run idlePage mainPage distinct reaped ran).task.tree.pidsUnique

def recycledPidRun : List TreeOp :=
  [.create (poolPage 2) 31, .call (.clone false (poolPage 3) (poolPage 4)), .call .wait, .call .idle, .call (.exit 7),
    .call .waitResume, .call (.clone true (poolPage 2) (poolPage 6))]

theorem pids_unique_recycled :
    ∃ s, run treeStep (taskInit (poolPage 0) (poolPage 1) (fun _ => false)) recycledPidRun = .ok s ∧ PidsUnique s := by
  have evaluated : endsIn (run treeStep (taskInit (poolPage 0) (poolPage 1) (fun _ => false)) recycledPidRun)
      (fun _ => true) = true := by decide +kernel
  have reaped : meetsCheck treeStep TreeOp.ThreadsReaped (taskInit (poolPage 0) (poolPage 1) (fun _ => false))
      recycledPidRun = true := by decide +kernel
  obtain ⟨s, ran, _⟩ := exists_of_endsIn evaluated
  exact ⟨s, ran, pids_unique _ _ _ recycledPidRun s ⟨by decide, by decide⟩ ⟨by decide, by decide⟩ (by decide)
    (meets_of_check reaped) ran⟩

theorem pid_doubled :
    ∃ s, run treeStep (taskInit (poolPage 0) (poolPage 1) (fun _ => false)) tableReusedRun = .ok s ∧
      ¬ PidsUnique s := by
  obtain ⟨s, ran, all, _, idlePid, pid⟩ := tableReusedRun_ends
  refine ⟨s, ran, fun unique => ?_⟩
  have distinct := unique.distinct
  rw [all] at distinct
  simp [idlePid, pid] at distinct

end RecoverOs.Task
