import RecoverOs.Task.Effects

namespace RecoverOs.Task

open Transition

/-- No task sleeps in `sys_wait` while one of its children is there to be reaped. -/
def NoLostWakeup (s : Tasks) : Prop :=
  ∀ p ∈ s.allTasksList, Sleeping s p → ∀ c, ¬ HangingChild s p c

def LostOnlyBy (s : Tasks) (except : Page) : Prop :=
  ∀ p ∈ s.allTasksList, Sleeping s p → p ≠ except → ∀ c, ¬ HangingChild s p c

/-- A task that exits hands no hanging child to a sleeping `init_proc`, unless its own exit wakes `init_proc`
    before it gives up the processor. -/
def AdoptionWakes (s : Tasks) : Op → Prop
  | .exit _ => Sleeping s s.initProc → (∃ c, HangingChild s s.current c) →
      (s.task s.current).parentTask = s.initProc
  | .exitBlock _ => Sleeping s s.initProc → ∀ c, ¬ HangingChild s s.current c
  | _ => True

instance (s : Tasks) (parent : Page) : Decidable (∃ c, HangingChild s parent c) :=
  decidable_of_iff (∃ c ∈ s.allTasksList, (s.task c).parentTask = parent ∧ (s.task c).status = .hanging) Iff.rfl

instance (s : Tasks) (parent : Page) : Decidable (∀ c, ¬ HangingChild s parent c) :=
  decidable_of_iff (¬ ∃ c, HangingChild s parent c) not_exists

instance (s : Tasks) : (op : Op) → Decidable (AdoptionWakes s op)
  | .exit _ => inferInstanceAs (Decidable (Sleeping s s.initProc → (∃ c, HangingChild s s.current c) →
      (s.task s.current).parentTask = s.initProc))
  | .exitBlock _ => inferInstanceAs (Decidable (Sleeping s s.initProc → ∀ c, ¬ HangingChild s s.current c))
  | .tick | .idle | .yield | .block | .unblock _ | .clone _ _ _ | .wait | .waitResume | .exitAgain | .exitResume =>
    isTrue True.intro

theorem NoLostWakeup.shuffle {s after : Tasks} (safe : NoLostWakeup s) (moved : Shuffle s after) :
    NoLostWakeup after := by
  rintro p member sleeps c ⟨child, parent, hangs⟩
  rw [moved.allTasksList] at member child
  rw [moved.parentTask] at parent
  exact safe p member (moved.sleeping p sleeps) c ⟨child, parent, moved.hanging c hangs⟩

theorem NoLostWakeup.modify {s : Tasks} (safe : NoLostWakeup s) (t : Page) (f : TaskStruct → TaskStruct)
    (change : ((f (s.task t)).parentTask = (s.task t).parentTask ∧ (f (s.task t)).status = (s.task t).status) ∨
      ((f (s.task t)).status ≠ .waiting ∧ (f (s.task t)).status ≠ .hanging)) :
    NoLostWakeup (s.modify t f) := by
  rintro p member ⟨waits, queued⟩ c ⟨child, related, hangs⟩
  simp only [Tasks.modify_task] at waits related hangs
  have sleeps : Sleeping s p := by
    refine ⟨?_, queued⟩
    by_cases same : p = t
    · subst same
      simp only [if_true] at waits
      rcases change with ⟨_, kept⟩ | ⟨awake, _⟩
      · rw [← kept]; exact waits
      · exact absurd waits awake
    · simpa [same] using waits
  refine safe p member sleeps c ?_
  by_cases same : c = t
  · subst same
    simp only [if_true] at related hangs
    rcases change with ⟨parent, kept⟩ | ⟨_, alive⟩
    · exact ⟨child, parent.symm.trans related, kept.symm.trans hangs⟩
    · exact absurd hangs alive
  · simp only [same, if_false] at related hangs
    exact ⟨child, related, hangs⟩

theorem noLostWakeup_block {s after : Tasks} (safe : NoLostWakeup s) (ran : taskBlock s .blocked = .ok after) :
    NoLostWakeup after := by
  have scheduled := taskBlock_cases ran
  have blocked := safe.modify s.current (fun ts => { ts with status := .blocked }) (.inr ⟨by simp, by simp⟩)
  exact blocked.shuffle (schedule_shuffle scheduled)

theorem noLostWakeup_yield {s after : Tasks} (safe : NoLostWakeup s) (ran : taskYield s = .ok after) :
    NoLostWakeup after := by
  have scheduled := (taskYield_cases ran).2
  have yielded := safe.modify s.current (fun ts => { ts with status := .ready }) (.inr ⟨by simp, by simp⟩)
  have queued : NoLostWakeup
      { s.setStatus s.current .ready with readyTasksList := s.readyTasksList ++ [s.current] } := by
    rintro p member ⟨waits, outside⟩ c child
    exact yielded p member ⟨waits, fun inside => outside (List.mem_append_left _ inside)⟩ c child
  exact queued.shuffle (schedule_shuffle scheduled)

theorem noLostWakeup_tick {s after : Tasks} (safe : NoLostWakeup s) (ran : intrTimeHandle s = .ok after) :
    NoLostWakeup after := by
  unfold intrTimeHandle at ran
  split at ran
  · exact safe.shuffle (schedule_shuffle ran)
  · cases ran
    exact safe.modify s.current _ (.inl ⟨rfl, rfl⟩)

theorem noLostWakeup_create {s after : Tasks} {task : Page} {prio : Nat} (safe : NoLostWakeup s)
    (ran : createTask s task prio = .ok after) : NoLostWakeup after := by
  obtain ⟨pid, parent, btmp, _, _, _, _, _, _, _, _, records, all, ready, _⟩ := createTask_cases ran
  rintro p member ⟨waits, queued⟩ c ⟨child, related, hangs⟩
  rw [records] at waits related hangs
  rw [all] at member child
  rw [ready] at queued
  have newcomer : ∀ u, u ∈ s.allTasksList ++ [task] → u ≠ task → u ∈ s.allTasksList := by
    intro u inside other
    simpa [other] using inside
  by_cases fresh : c = task
  · subst fresh
    simp at hangs
  by_cases asleep : p = task
  · subst asleep
    simp at waits
  simp only [Function.update_apply, fresh, asleep, if_false] at waits related hangs
  exact safe p (newcomer p member asleep) ⟨waits, fun inside => queued (List.mem_append_left _ inside)⟩ c
    ⟨newcomer c child fresh, related, hangs⟩

theorem noLostWakeup_clone {s after : Tasks} {cloneVm : Bool} {task pml4 : Page} (safe : NoLostWakeup s)
    (ran : sysClone s cloneVm task pml4 = .ok after) : NoLostWakeup after := by
  obtain ⟨created, made, rest⟩ := sysClone_cases ran
  have kept := noLostWakeup_create safe made
  rcases rest with ⟨_, rfl⟩ | ⟨_, _, _, _, rfl⟩
  · exact kept
  · have tabled := kept.modify task (fun ts => { ts with pml4 := pml4 }) (.inl ⟨rfl, rfl⟩)
    have cleared : NoLostWakeup ((created.modify task fun ts => { ts with pml4 := pml4 }).clear pml4) := by
      unfold Tasks.clear
      exact tabled.modify pml4 _ (.inr ⟨TaskStatus.noConfusion, TaskStatus.noConfusion⟩)
    exact cleared

theorem noLostWakeup_reap {s after : Tasks} {child : Page} (safe : NoLostWakeup s)
    (ran : reap s child = .ok after) : NoLostWakeup after := by
  obtain ⟨records, all, ready, _⟩ := reap_cases ran
  have dead := safe.modify child (fun ts => { ts with status := .died }) (.inr ⟨by simp, by simp⟩)
  rintro p member ⟨waits, queued⟩ c ⟨inside, related, hangs⟩
  rw [records] at waits related hangs
  rw [all] at member inside
  refine dead p (List.mem_of_mem_erase member) ⟨waits, ?_⟩ c ⟨List.mem_of_mem_erase inside, related, hangs⟩
  intro present
  apply queued
  rw [ready]
  split
  · have alive : p ≠ child := by
      rintro rfl
      simp [Tasks.setStatus] at waits
    exact (List.mem_erase_of_ne alive).mpr present
  · exact present

theorem noLostWakeup_wait {s after : Tasks} (safe : NoLostWakeup s) (ran : sysWait s = .ok after) :
    NoLostWakeup after := by
  rcases sysWait_cases ran with ⟨child, _, reaped⟩ | ⟨_, rfl⟩ | ⟨quiet, blocked⟩
  · exact noLostWakeup_reap (safe.modify s.current _ (.inl ⟨rfl, rfl⟩)) reaped
  · exact safe.modify s.current _ (.inl ⟨rfl, rfl⟩)
  · refine NoLostWakeup.shuffle ?_ (schedule_shuffle (taskBlock_cases blocked))
    -- The caller is the only task that falls asleep, and the scan has just found none of its children hanging.
    rintro p member ⟨waits, queued⟩ c ⟨inside, related, hangs⟩
    simp only [Tasks.setStatus, Tasks.setPlace, Tasks.modify_task, Tasks.modify_current] at waits related hangs
    have alive : c ≠ s.current := by
      rintro rfl
      simp at hangs
    simp only [alive, if_false] at related hangs
    by_cases same : p = s.current
    · subst same
      exact quiet c ⟨inside, related, hangs⟩
    · simp only [same, if_false] at waits
      exact safe p member ⟨waits, queued⟩ c ⟨inside, related, hangs⟩

theorem noLostWakeup_finish {s after : Tasks} (safe : LostOnlyBy s (s.task s.current).parentTask)
    (ran : exitFinish s = .ok after) : NoLostWakeup after := by
  simp only [exitFinish, bind_ok] at ran
  obtain ⟨woken, wake, blocked⟩ := ran
  refine NoLostWakeup.shuffle ?_ (schedule_shuffle (taskBlock_cases blocked))
  have parentAwake : ¬ Sleeping woken (s.task s.current).parentTask ∧ woken.task = s.task ∧
      woken.allTasksList = s.allTasksList ∧ woken.current = s.current ∧ ∀ t, Sleeping woken t → Sleeping s t := by
    split at wake
    · have moved := taskUnblock_shuffle wake
      obtain ⟨_, rfl⟩ := taskUnblock_cases wake
      exact ⟨fun sleeps => sleeps.2 (by simp), rfl, rfl, rfl, moved.sleeping⟩
    · rename_i busy
      cases wake
      exact ⟨fun sleeps => busy sleeps.1, rfl, rfl, rfl, fun _ h => h⟩
  obtain ⟨awake, records, all, cur, older⟩ := parentAwake
  rintro p member ⟨waits, queued⟩ c ⟨inside, related, hangs⟩
  simp only [Tasks.setStatus, Tasks.modify_task, records, cur] at waits related hangs
  have alive : p ≠ s.current := by
    rintro rfl
    simp at waits
  simp only [alive, if_false] at waits
  have sleeps : Sleeping woken p := ⟨by rw [records]; exact waits, queued⟩
  have other : p ≠ (s.task s.current).parentTask := by
    rintro rfl
    exact awake sleeps
  have member' : p ∈ s.allTasksList := by rw [← all]; exact member
  have inside' : c ∈ s.allTasksList := by rw [← all]; exact inside
  by_cases same : c = s.current
  · subst same
    simp only [if_true] at related
    exact other related.symm
  · simp only [same, if_false] at related hangs
    exact safe p member' (older p sleeps) other c ⟨inside', related, hangs⟩

theorem exitStart_hanging {s after : Tasks} {status : Int} (ran : exitStart s status = .ok after) (p c : Page)
    (child : HangingChild after p c) :
    HangingChild s p c ∨ (p = s.initProc ∧ HangingChild s s.current c) := by
  obtain ⟨_, rfl⟩ := exitStart_cases ran
  obtain ⟨inside, related, hangs⟩ := child
  have member : c ∈ s.allTasksList := inside
  rw [initAdopt_task] at related hangs
  have sameParent : ((s.modify s.current fun ts => { ts with exitStatus := status, place := .inExit }).task c).parentTask
      = (s.task c).parentTask := by
    simp only [Tasks.modify_task]
    split <;> simp_all
  have sameStatus : ((s.modify s.current fun ts => { ts with exitStatus := status, place := .inExit }).task c).status
      = (s.task c).status := by
    simp only [Tasks.modify_task]
    split <;> simp_all
  split at related
  · rename_i adopted
    simp only [adopted, and_self, if_true] at hangs
    rw [sameStatus] at hangs
    exact .inr ⟨related.symm, member, sameParent.symm.trans adopted.2, hangs⟩
  · rename_i kept
    simp only [kept, if_false] at hangs
    rw [sameStatus] at hangs
    exact .inl ⟨member, sameParent.symm.trans related, hangs⟩

theorem exitStart_sleeping {s after : Tasks} {status : Int} (ran : exitStart s status = .ok after) (p : Page) :
    Sleeping after p ↔ Sleeping s p := by
  obtain ⟨_, rfl⟩ := exitStart_cases ran
  have sameStatus : ((initAdopt (s.modify s.current fun ts => { ts with exitStatus := status, place := .inExit })
      s.current).task p).status = (s.task p).status := by
    rw [initAdopt_task]
    simp only [Tasks.modify_task]
    split <;> split <;> simp_all
  unfold Sleeping
  rw [sameStatus]
  rfl

theorem exitStart_parent {s after : Tasks} {status : Int} (ran : exitStart s status = .ok after)
    (related : (s.task s.current).parentTask = s.initProc) :
    (after.task after.current).parentTask = s.initProc := by
  obtain ⟨_, rfl⟩ := exitStart_cases ran
  rw [initAdopt_task]
  split
  · rfl
  · simpa [initAdopt] using related

theorem noLostWakeup_step (s : Tasks) (op : Op) (after : Tasks) (safe : NoLostWakeup s) (cond : AdoptionWakes s op)
    (ran : step s op = .ok after) : NoLostWakeup after := by
  cases op with
  | tick =>
    simp only [step, bind_ok] at ran
    obtain ⟨_, _, handled⟩ := ran
    exact noLostWakeup_tick safe handled
  | idle =>
    simp only [step, bind_ok] at ran
    obtain ⟨_, _, blocked⟩ := ran
    exact noLostWakeup_block safe blocked
  | yield =>
    simp only [step, bind_ok] at ran
    obtain ⟨_, _, yielded⟩ := ran
    exact noLostWakeup_yield safe yielded
  | block =>
    simp only [step, bind_ok] at ran
    obtain ⟨_, _, blocked⟩ := ran
    exact noLostWakeup_block safe blocked
  | unblock t =>
    simp only [step, bind_ok] at ran
    obtain ⟨_, _, woken⟩ := ran
    exact safe.shuffle (taskUnblock_shuffle woken)
  | clone cloneVm task pml4 =>
    simp only [step, bind_ok] at ran
    obtain ⟨_, _, cloned⟩ := ran
    exact noLostWakeup_clone safe cloned
  | wait =>
    simp only [step, bind_ok] at ran
    obtain ⟨_, _, waited⟩ := ran
    exact noLostWakeup_wait safe waited
  | waitResume =>
    simp only [step, bind_ok] at ran
    obtain ⟨_, _, waited⟩ := ran
    exact noLostWakeup_wait safe waited
  | exit status =>
    simp only [step, bind_ok] at ran
    obtain ⟨_, _, started, start, finished⟩ := ran
    refine noLostWakeup_finish ?_ finished
    intro p member sleeps other c child
    have member' : p ∈ s.allTasksList := by
      obtain ⟨_, rfl⟩ := exitStart_cases start
      exact member
    have sleeps' := (exitStart_sleeping start p).mp sleeps
    rcases exitStart_hanging start p c child with old | ⟨rfl, adopted⟩
    · exact safe p member' sleeps' c old
    · exact other (exitStart_parent start (cond sleeps' ⟨c, adopted⟩)).symm
  | exitBlock status =>
    simp only [step, bind_ok] at ran
    obtain ⟨_, _, started, start, blocked⟩ := ran
    refine noLostWakeup_block ?_ blocked
    intro p member sleeps c child
    have member' : p ∈ s.allTasksList := by
      obtain ⟨_, rfl⟩ := exitStart_cases start
      exact member
    have sleeps' := (exitStart_sleeping start p).mp sleeps
    rcases exitStart_hanging start p c child with old | ⟨rfl, adopted⟩
    · exact safe p member' sleeps' c old
    · exact cond sleeps' c adopted
  | exitAgain =>
    simp only [step, bind_ok] at ran
    obtain ⟨_, _, blocked⟩ := ran
    exact noLostWakeup_block safe blocked
  | exitResume =>
    simp only [step, bind_ok] at ran
    obtain ⟨_, _, finished⟩ := ran
    exact noLostWakeup_finish (fun p member sleeps _ => safe p member sleeps) finished

theorem noLostWakeup_init (idle main : Page) (held : Page → Bool) : NoLostWakeup (taskInit idle main held) := by
  rintro p member ⟨waits, _⟩
  simp only [taskInit] at waits
  split at waits <;> simp at waits

/-- A child that hangs is never left to a parent asleep in `sys_wait`, in any run whose exits wake the adopter. -/
theorem no_lost_wakeup (idle main : Page) (held : Page → Bool) (ops : List Op) (s : Tasks)
    (wakes : Meets step AdoptionWakes (taskInit idle main held) ops)
    (ran : run step (taskInit idle main held) ops = .ok s) : NoLostWakeup s :=
  run_invariant noLostWakeup_step (noLostWakeup_init idle main held) wakes ran

def orphanRun : List Op :=
  [.clone false (poolPage 2) (poolPage 3), .wait, .idle, .clone false (poolPage 4) (poolPage 5), .yield,
    .clone false (poolPage 6) (poolPage 7), .yield, .yield, .exit 0, .exit 0]

theorem adoption_loses_wakeup :
    ∃ s, run step (taskInit (poolPage 0) (poolPage 1) (fun _ => false)) orphanRun = .ok s ∧ ¬ NoLostWakeup s := by
  have evaluated : endsIn (run step (taskInit (poolPage 0) (poolPage 1) (fun _ => false)) orphanRun)
      (fun s => decide (poolPage 1 ∈ s.allTasksList ∧ Sleeping s (poolPage 1) ∧ poolPage 6 ∈ s.allTasksList ∧
        (s.task (poolPage 6)).parentTask = poolPage 1 ∧ (s.task (poolPage 6)).status = .hanging)) = true := by
    decide +kernel
  obtain ⟨s, ran, found⟩ := exists_of_endsIn evaluated
  simp only [decide_eq_true_eq] at found
  obtain ⟨member, sleeps, child⟩ := found
  exact ⟨s, ran, fun safe => safe (poolPage 1) member sleeps (poolPage 6) child⟩

def reapedRun : List Op :=
  [.clone false (poolPage 2) (poolPage 3), .wait, .idle, .clone false (poolPage 4) (poolPage 5), .yield,
    .clone false (poolPage 6) (poolPage 7), .yield, .yield, .exit 0, .wait, .exit 0]

theorem no_lost_wakeup_reaped :
    ∃ s, run step (taskInit (poolPage 0) (poolPage 1) (fun _ => false)) reapedRun = .ok s ∧ NoLostWakeup s := by
  have evaluated : endsIn (run step (taskInit (poolPage 0) (poolPage 1) (fun _ => false)) reapedRun)
      (fun _ => true) = true := by decide +kernel
  have wakes : meetsCheck step AdoptionWakes (taskInit (poolPage 0) (poolPage 1) (fun _ => false)) reapedRun
      = true := by decide +kernel
  obtain ⟨s, ran, _⟩ := exists_of_endsIn evaluated
  exact ⟨s, ran, no_lost_wakeup _ _ _ reapedRun s (meets_of_check wakes) ran⟩

end RecoverOs.Task
