import RecoverOs.Task.Sync
import RecoverOs.Task.Tree

namespace RecoverOs.Task

open Sync Transition

/-- `waiter` are the pointers that `ioq_wait` is called with. `wants` is the semaphore in whose `sema_down` a task is
    asleep or has just been woken. -/
structure Kernel where
  tasks : Tasks
  sema : Nat → Semaphore Page
  waiter : Nat → Option Page
  wants : Page → Option Nat

def Kernel.downTurn (s : Kernel) (k : Nat) : Except Halt Kernel := do
  let (taken, sema) ← semaTest (s.sema k) s.tasks.current
  let s := { s with sema := Function.update s.sema k sema }
  if taken then return { s with wants := Function.update s.wants s.tasks.current none }
  else
    let tasks ← taskBlock s.tasks .blocked
    return { s with tasks := tasks, wants := Function.update s.wants s.tasks.current (some k) }

def Kernel.up (s : Kernel) (k : Nat) : Except Halt Kernel := do
  let (sema, tasks) ← semaUp taskUnblock (s.sema k) s.tasks
  return { s with tasks := tasks, sema := Function.update s.sema k sema }

def Kernel.ioqWait (s : Kernel) (w : Nat) : Except Halt Kernel := do
  assert (s.waiter w).isNone
  let tasks ← taskBlock s.tasks .blocked
  return { s with tasks := tasks, waiter := Function.update s.waiter w (some s.tasks.current) }

def Kernel.wakeup (s : Kernel) (w : Nat) : Except Halt Kernel :=
  match s.waiter w with
  | none => .error .panic
  | some t => do
    let tasks ← taskUnblock s.tasks t
    return { s with tasks := tasks, waiter := Function.update s.waiter w none }

/-- The running task is in no loop of `sema_down` or `sys_wait` that it has to go on with. -/
def Kernel.free (s : Kernel) : Bool :=
  s.tasks.current != s.tasks.idleTask && (s.wants s.tasks.current).isNone &&
    (s.tasks.task s.tasks.current).place != .inWait

/-- `retry` and `waitResume` go on with a loop after a sleep in it. Between `exitStart` and `exitFinish` the task
    releases its resources. -/
inductive KernelOp where
  | tick
  | idle
  | yield
  | create (task : Page) (prio : Nat)
  | down (k : Nat)
  | retry (k : Nat)
  | up (k : Nat)
  | ioqWait (w : Nat)
  | wakeup (w : Nat)
  | wait
  | waitResume
  | exitStart (status : Int)
  | exitFinish
  deriving DecidableEq, Repr

/-- A tick comes while a task is in user mode or idle. -/
def Kernel.step (s : Kernel) : KernelOp → Except Halt Kernel
  | .tick => do
    offer ((s.tasks.task s.tasks.current).place == .user && (s.wants s.tasks.current).isNone)
    let tasks ← intrTimeHandle s.tasks
    return { s with tasks := tasks }
  | .idle => do
    offer (s.tasks.current == s.tasks.idleTask)
    let tasks ← taskBlock s.tasks .blocked
    return { s with tasks := tasks }
  | .yield => do
    offer s.free
    let tasks ← taskYield s.tasks
    return { s with tasks := tasks }
  | .create task prio => do
    offer (s.free && (s.tasks.task s.tasks.current).place == .user)
    let tasks ← createTask s.tasks task prio
    return { s with tasks := tasks }
  | .down k => do
    offer s.free
    s.downTurn k
  | .retry k => do
    offer (s.tasks.current != s.tasks.idleTask && s.wants s.tasks.current == some k)
    s.downTurn k
  | .up k => do
    offer s.free
    s.up k
  | .ioqWait w => do
    offer s.free
    s.ioqWait w
  | .wakeup w => s.wakeup w
  | .wait => do
    offer (s.free && (s.tasks.task s.tasks.current).place == .user)
    let tasks ← sysWait s.tasks
    return { s with tasks := tasks }
  | .waitResume => do
    offer (s.tasks.current != s.tasks.idleTask && (s.tasks.task s.tasks.current).place == .inWait)
    let tasks ← sysWait s.tasks
    return { s with tasks := tasks }
  | .exitStart status => do
    offer (s.free && (s.tasks.task s.tasks.current).place == .user)
    let tasks ← exitStart s.tasks status
    return { s with tasks := tasks }
  | .exitFinish => do
    offer (s.free && (s.tasks.task s.tasks.current).place == .inExit)
    let tasks ← exitFinish s.tasks
    return { s with tasks := tasks }

/-- `task_init` has run, and the semaphores start with 0 or 1. -/
def Kernel.start (idle main : Page) (held : Page → Bool) (value : Nat → Bool) : Kernel where
  tasks := taskInit idle main held
  sema := fun k => ⟨if value k then 1 else 0, []⟩
  waiter := fun _ => none
  wants := fun _ => none

/-- The running task has left the processor in its status, and the next one has not been chosen yet. -/
structure Queued (s : Tasks) : Prop where
  settled : (s.task s.current).status ≠ .running
  nodup : s.readyTasksList.Nodup
  ready : ∀ t ∈ s.readyTasksList, t ∈ s.allTasksList
  statuses : ∀ t ∈ s.readyTasksList.tail, (s.task t).status = .ready ∨ (s.task t).status = .blocked
  listed : ∀ t ∈ s.allTasksList, (s.task t).status = .ready → t ∈ s.readyTasksList
  idleIn : s.idleTask ∈ s.allTasksList
  idle : s.idleTask ∈ s.readyTasksList ∨ (s.task s.idleTask).status = .blocked

structure Scheduled (s : Tasks) : Prop where
  sched : SchedInv s
  away : s.current ∉ s.readyTasksList
  statuses : ∀ t ∈ s.readyTasksList, (s.task t).status = .ready ∨ (s.task t).status = .blocked
  listed : ∀ t ∈ s.allTasksList, (s.task t).status = .ready → t ∈ s.readyTasksList
  idle : s.idleTask = s.current ∨ s.idleTask ∈ s.readyTasksList ∨ (s.task s.idleTask).status = .blocked

structure Dormant (s : Tasks) (t : Page) : Prop where
  member : t ∈ s.allTasksList
  blocked : (s.task t).status = .blocked
  away : t ∉ s.readyTasksList
  other : t ≠ s.idleTask

variable {s after : Tasks} {t : Page}

theorem requeue_settled (settled : (s.task s.current).status ≠ .running) : requeue s = .ok s := by
  rw [requeue, if_neg settled]
  rfl

theorem switchNext_scheduled {next : Page} {rest : List Page} (queued : Queued s) (head : s.readyTasksList = next :: rest) :
    ∃ after, switchNext s = .ok after ∧ Scheduled after ∧ (∀ t, Dormant s t → Dormant after t) := by
  have nodup := queued.nodup
  have statuses := queued.statuses
  rw [head] at statuses
  rw [head, List.nodup_cons] at nodup
  have other : ∀ u, u ≠ next →
      (({ s.setStatus next .running with readyTasksList := rest, current := next } : Tasks).task u) = s.task u := by
    intro u different
    simp [Tasks.setStatus, different]
  refine ⟨{ s.setStatus next .running with readyTasksList := rest, current := next }, by rw [switchNext, head], ?_, ?_⟩
  · constructor
    case sched =>
      refine ⟨nodup.2, ?_, queued.ready next (by simp [head]), by simp [Tasks.setStatus]⟩
      intro u member
      exact queued.ready u (by rw [head]; exact List.mem_cons_of_mem _ member)
    case away => exact nodup.1
    case statuses =>
      intro u member
      rw [other u fun same => nodup.1 (same ▸ member)]
      exact statuses u member
    case listed =>
      intro u member status
      by_cases same : u = next
      · subst same
        simp [Tasks.setStatus] at status
      · rw [other u same] at status
        have inside := queued.listed u member status
        rw [head] at inside
        exact (List.mem_cons.mp inside).resolve_left same
    case idle =>
      by_cases same : s.idleTask = next
      · exact .inl same
      · right
        show s.idleTask ∈ rest ∨ (({ s.setStatus next .running with
          readyTasksList := rest, current := next } : Tasks).task s.idleTask).status = .blocked
        rw [other _ same]
        have before := queued.idle
        rw [head, List.mem_cons] at before
        exact before.imp_left fun inside => inside.resolve_left same
  · intro u dormant
    have different : u ≠ next := fun same => dormant.away (by rw [head, same]; exact List.mem_cons_self ..)
    refine ⟨dormant.member, ?_, fun member => dormant.away (by rw [head]; exact List.mem_cons_of_mem _ member),
      dormant.other⟩
    rw [other u different]
    exact dormant.blocked

theorem Queued.schedule (queued : Queued s) :
    ∃ after, Task.schedule s = .ok after ∧ Scheduled after ∧ ∀ t, Dormant s t → Dormant after t := by
  cases list : s.readyTasksList with
  | cons next rest =>
    obtain ⟨after, ran, kept, dormant⟩ := switchNext_scheduled queued list
    refine ⟨after, ?_, kept, dormant⟩
    simp only [Task.schedule, requeue_settled queued.settled, Bind.bind, Except.bind, list, List.isEmpty_cons,
      Bool.false_eq_true, if_false]
    exact ran
  | nil =>
    have blocked : (s.task s.idleTask).status = .blocked := by
      have before := queued.idle
      rw [list] at before
      simpa using before
    have woken : taskUnblock s s.idleTask = .ok { s with readyTasksList := [s.idleTask] } := by
      simp [taskUnblock, blocked, list, assert]
    have more : Queued { s with readyTasksList := [s.idleTask] } := by
      refine ⟨queued.settled, List.nodup_singleton _, ?_, ?_, ?_, queued.idleIn, .inl (List.mem_singleton_self _)⟩
      · intro u member
        rw [List.mem_singleton.mp member]
        exact queued.idleIn
      · intro u member
        cases member
      · intro u member status
        have inside := queued.listed u member status
        rw [list] at inside
        cases inside
    obtain ⟨after, ran, kept, dormant⟩ := switchNext_scheduled more rfl
    refine ⟨after, ?_, kept, ?_⟩
    · simp only [Task.schedule, requeue_settled queued.settled, Bind.bind, Except.bind, list, List.isEmpty_nil, if_true,
        woken]
      exact ran
    · intro u asleep
      refine dormant u ⟨asleep.member, asleep.blocked, ?_, asleep.other⟩
      exact fun member => asleep.other (List.mem_singleton.mp member)

theorem Dormant.modify {f : TaskStruct → TaskStruct} (sched : Scheduled s) (dormant : Dormant s t) :
    Dormant (s.modify s.current f) t := by
  have different : t ≠ s.current := by
    intro same
    have status := dormant.blocked
    rw [same, sched.sched.running] at status
    cases status
  exact ⟨dormant.member, by simpa [different] using dormant.blocked, dormant.away, dormant.other⟩

theorem Scheduled.queued_block {status : TaskStatus} (sched : Scheduled s) (idleIn : s.idleTask ∈ s.allTasksList)
    (settled : status ≠ .running) (unlisted : status ≠ .ready) (idle : s.current = s.idleTask → status = .blocked) :
    Queued (s.setStatus s.current status) := by
  constructor
  case settled => simpa [Tasks.setStatus] using settled
  case nodup => exact sched.sched.nodup
  case ready => exact sched.sched.ready
  case statuses =>
    intro u member
    have inside := List.mem_of_mem_tail member
    have different : u ≠ s.current := fun same => sched.away (same ▸ inside)
    simpa [Tasks.setStatus, different] using sched.statuses u inside
  case listed =>
    intro u member ready
    by_cases same : u = s.current
    · subst same
      simp [Tasks.setStatus, unlisted] at ready
    · simp only [Tasks.setStatus, Tasks.modify_task, same, if_false] at ready
      exact sched.listed u member ready
  case idleIn => exact idleIn
  case idle =>
    show s.idleTask ∈ s.readyTasksList ∨ ((s.setStatus s.current status).task s.idleTask).status = .blocked
    by_cases same : s.idleTask = s.current
    · right
      rw [same]
      simpa [Tasks.setStatus] using idle same.symm
    · rcases sched.idle with now | queued | blocked
      · exact absurd now same
      · exact .inl queued
      · exact .inr (by simpa [Tasks.setStatus, same] using blocked)

theorem Scheduled.block {status : TaskStatus} (sched : Scheduled s) (idleIn : s.idleTask ∈ s.allTasksList)
    (allowed : status = .blocked ∨ status = .hanging ∨ status = .waiting)
    (idle : s.current = s.idleTask → status = .blocked) :
    ∃ after, taskBlock s status = .ok after ∧ Scheduled after ∧ (∀ t, Dormant s t → Dormant after t) ∧
      (status = .blocked → s.current ≠ s.idleTask → Dormant after s.current) := by
  have settled : status ≠ .running ∧ status ≠ .ready := by
    rcases allowed with rfl | rfl | rfl
    · simp
    · simp
    · simp
  have queued := sched.queued_block idleIn settled.1 settled.2 idle
  obtain ⟨after, ran, kept, dormant⟩ := queued.schedule
  refine ⟨after, ?_, kept, fun t asleep => dormant t (asleep.modify sched), ?_⟩
  · have asserted : assert (status == .blocked || status == .hanging || status == .waiting) = .ok () := by
      rw [assert_ok]
      rcases allowed with rfl | rfl | rfl
      · rfl
      · rfl
      · rfl
    simp only [taskBlock, asserted, Bind.bind, Except.bind, ran]
  · intro blocked other
    refine dormant _ ⟨sched.sched.current, ?_, sched.away, other⟩
    simp [Tasks.setStatus, blocked]

theorem Scheduled.queued_append {f : TaskStruct → TaskStruct} (sched : Scheduled s) (idleIn : s.idleTask ∈ s.allTasksList)
    (ready : ∀ ts, (f ts).status = .ready) :
    Queued { s.modify s.current f with readyTasksList := s.readyTasksList ++ [s.current] } := by
  have status : ∀ u, ((s.modify s.current f).task u).status =
      if u = s.current then .ready else (s.task u).status := by
    intro u
    by_cases same : u = s.current
    · simp [same, ready]
    · simp [same]
  constructor
  case settled =>
    show ((s.modify s.current f).task s.current).status ≠ .running
    rw [status, if_pos rfl]
    simp
  case nodup => exact nodup_snoc sched.sched.nodup sched.away
  case ready =>
    intro u member
    rcases List.mem_append.mp member with old | last
    · exact sched.sched.ready u old
    · rw [List.mem_singleton.mp last]
      exact sched.sched.current
  case statuses =>
    intro u member
    show ((s.modify s.current f).task u).status = _ ∨ ((s.modify s.current f).task u).status = _
    rw [status]
    by_cases same : u = s.current
    · exact .inl (if_pos same)
    · rw [if_neg same]
      rcases List.mem_append.mp (List.mem_of_mem_tail member) with old | last
      · exact sched.statuses u old
      · exact absurd (List.mem_singleton.mp last) same
  case listed =>
    intro u member here
    show u ∈ s.readyTasksList ++ [s.current]
    by_cases same : u = s.current
    · simp [same]
    · have before : ((s.modify s.current f).task u).status = .ready := here
      rw [status, if_neg same] at before
      exact List.mem_append_left _ (sched.listed u member before)
  case idleIn => exact idleIn
  case idle =>
    show s.idleTask ∈ s.readyTasksList ++ [s.current] ∨ ((s.modify s.current f).task s.idleTask).status = .blocked
    by_cases same : s.idleTask = s.current
    · exact .inl (by simp [same])
    · rw [status, if_neg same]
      rcases sched.idle with now | queued | blocked
      · exact absurd now same
      · exact .inl (List.mem_append_left _ queued)
      · exact .inr blocked

theorem Dormant.append {f : TaskStruct → TaskStruct} (sched : Scheduled s) (dormant : Dormant s t) :
    Dormant { s.modify s.current f with readyTasksList := s.readyTasksList ++ [s.current] } t := by
  have moved := @Dormant.modify s t f sched dormant
  refine ⟨moved.member, moved.blocked, ?_, moved.other⟩
  intro member
  rcases List.mem_append.mp member with old | last
  · exact dormant.away old
  · have status := dormant.blocked
    rw [List.mem_singleton.mp last, sched.sched.running] at status
    cases status

theorem Scheduled.yield (sched : Scheduled s) (idleIn : s.idleTask ∈ s.allTasksList) :
    ∃ after, taskYield s = .ok after ∧ Scheduled after ∧ ∀ t, Dormant s t → Dormant after t := by
  have queued := sched.queued_append idleIn (f := fun ts => { ts with status := .ready }) fun _ => rfl
  obtain ⟨after, ran, kept, dormant⟩ := queued.schedule
  refine ⟨after, ?_, kept, fun t asleep => dormant t (asleep.append sched)⟩
  have asserted : assert (!s.readyTasksList.contains s.current) = .ok () := by
    rw [assert_ok]
    simpa using sched.away
  simp only [taskYield, asserted, Bind.bind, Except.bind]
  exact ran

theorem Scheduled.tick (sched : Scheduled s) (idleIn : s.idleTask ∈ s.allTasksList) :
    ∃ after, intrTimeHandle s = .ok after ∧ Scheduled after ∧ ∀ t, Dormant s t → Dormant after t := by
  unfold intrTimeHandle
  split
  · rename_i zero
    have queued := sched.queued_append idleIn (f := fun ts => { ts with status := .ready, ticks := ts.prio }) fun _ => rfl
    obtain ⟨after, ran, kept, dormant⟩ := queued.schedule
    refine ⟨after, ?_, kept, fun t asleep => dormant t (asleep.append sched)⟩
    have first : requeue s = .ok { s.modify s.current (fun ts => { ts with status := .ready, ticks := ts.prio }) with
        readyTasksList := s.readyTasksList ++ [s.current] } := by
      simp [requeue, sched.sched.running, zero, sched.away, assert]
    have again := requeue_settled queued.settled
    rw [← ran]
    simp only [Task.schedule, first, again, Bind.bind, Except.bind]
  · refine ⟨_, rfl, ?_, fun t asleep => asleep.modify sched⟩
    have same : ∀ u, ((s.modify s.current fun ts => { ts with ticks := ts.ticks - 1 }).task u).status =
        (s.task u).status := by
      intro u
      by_cases here : u = s.current
      · simp [here]
      · simp [here]
    constructor
    case sched => exact ⟨sched.sched.nodup, sched.sched.ready, sched.sched.current, (same _).trans sched.sched.running⟩
    case away => exact sched.away
    case statuses =>
      intro u member
      rw [same u]
      exact sched.statuses u member
    case listed =>
      intro u member ready
      rw [same u] at ready
      exact sched.listed u member ready
    case idle =>
      rcases sched.idle with now | queued | blocked
      · exact .inl now
      · exact .inr (.inl queued)
      · exact .inr (.inr ((same _).trans blocked))

theorem Scheduled.unblock (sched : Scheduled s) (dormant : Dormant s t) :
    ∃ after, taskUnblock s t = .ok after ∧ Scheduled after ∧ ∀ u, u ≠ t → Dormant s u → Dormant after u := by
  refine ⟨{ s with readyTasksList := t :: s.readyTasksList }, ?_, ?_, ?_⟩
  · simp [taskUnblock, dormant.blocked, dormant.away, assert]
  · have different : s.current ≠ t := by
      intro same
      have status := dormant.blocked
      rw [← same, sched.sched.running] at status
      cases status
    constructor
    case sched =>
      refine ⟨List.nodup_cons.mpr ⟨dormant.away, sched.sched.nodup⟩, ?_, sched.sched.current, sched.sched.running⟩
      intro u member
      rcases List.mem_cons.mp member with rfl | old
      · exact dormant.member
      · exact sched.sched.ready u old
    case away =>
      intro member
      rcases List.mem_cons.mp member with same | old
      · exact different same
      · exact sched.away old
    case statuses =>
      intro u member
      rcases List.mem_cons.mp member with rfl | old
      · exact .inr dormant.blocked
      · exact sched.statuses u old
    case listed => exact fun u member ready => List.mem_cons_of_mem _ (sched.listed u member ready)
    case idle =>
      rcases sched.idle with now | queued | blocked
      · exact .inl now
      · exact .inr (.inl (List.mem_cons_of_mem _ queued))
      · exact .inr (.inr blocked)
  · intro u other asleep
    refine ⟨asleep.member, asleep.blocked, ?_, asleep.other⟩
    intro member
    exact asleep.away ((List.mem_cons.mp member).resolve_left other)

theorem Scheduled.finish (sched : Scheduled s) (idleIn : s.idleTask ∈ s.allTasksList) (other : s.current ≠ s.idleTask)
    (parent : (s.task s.current).parentTask ∈ s.allTasksList) :
    ∃ after, exitFinish s = .ok after ∧ Scheduled after ∧ ∀ t, Dormant s t → Dormant after t := by
  by_cases waits : (s.task (s.task s.current).parentTask).status = .waiting
  · have different : (s.task s.current).parentTask ≠ s.current := by
      intro same
      rw [same, sched.sched.running] at waits
      cases waits
    have absent : (s.task s.current).parentTask ∉ s.readyTasksList := by
      intro member
      rcases sched.statuses _ member with ready | blocked
      · rw [waits] at ready
        cases ready
      · rw [waits] at blocked
        cases blocked
    have queued : Queued (s.setStatus s.current .hanging) :=
      sched.queued_block idleIn (by simp) (by simp) fun same => absurd same other
    have pushed : Queued { s.setStatus s.current .hanging with
        readyTasksList := (s.task s.current).parentTask :: s.readyTasksList } := by
      constructor
      case settled => exact queued.settled
      case nodup => exact List.nodup_cons.mpr ⟨absent, sched.sched.nodup⟩
      case ready =>
        intro u member
        rcases List.mem_cons.mp member with rfl | old
        · exact parent
        · exact sched.sched.ready u old
      case statuses =>
        intro u member
        have inside : u ∈ s.readyTasksList := member
        have apart : u ≠ s.current := fun same => sched.away (same ▸ inside)
        simpa [Tasks.setStatus, apart] using sched.statuses u inside
      case listed => exact fun u member ready => List.mem_cons_of_mem _ (queued.listed u member ready)
      case idleIn => exact idleIn
      case idle => exact queued.idle.imp_left fun inside => List.mem_cons_of_mem _ inside
    obtain ⟨after, ran, kept, dormant⟩ := pushed.schedule
    refine ⟨after, ?_, kept, ?_⟩
    · have woken : taskUnblock s (s.task s.current).parentTask =
          .ok { s with readyTasksList := (s.task s.current).parentTask :: s.readyTasksList } := by
        simp [taskUnblock, waits, absent, assert]
      simp only [exitFinish, waits, if_true, woken, Bind.bind, Except.bind, taskBlock]
      exact ran
    · intro u asleep
      have moved := @Dormant.modify s u (fun ts => { ts with status := .hanging }) sched asleep
      refine dormant u ⟨moved.member, moved.blocked, ?_, moved.other⟩
      intro member
      rcases List.mem_cons.mp member with same | old
      · have status := asleep.blocked
        rw [same, waits] at status
        cases status
      · exact asleep.away old
  · obtain ⟨after, ran, kept, dormant, -⟩ := @Scheduled.block s .hanging sched idleIn (.inr (.inl rfl))
      fun same => absurd same other
    refine ⟨after, ?_, kept, dormant⟩
    simp only [exitFinish, waits, if_false, Bind.bind, Except.bind]
    exact ran

theorem Scheduled.same (sched : Scheduled s) (idleIn : s.idleTask ∈ s.allTasksList)
    (all : after.allTasksList = s.allTasksList) (ready : after.readyTasksList = s.readyTasksList)
    (current : after.current = s.current) (idle : after.idleTask = s.idleTask)
    (status : ∀ t ∈ s.allTasksList, (after.task t).status = (s.task t).status) :
    Scheduled after ∧ ∀ t, Dormant s t → Dormant after t := by
  refine ⟨?_, ?_⟩
  · constructor
    case sched =>
      refine ⟨by rw [ready]; exact sched.sched.nodup, by rw [ready, all]; exact sched.sched.ready,
        by rw [current, all]; exact sched.sched.current, ?_⟩
      rw [current, status _ sched.sched.current]
      exact sched.sched.running
    case away => rw [current, ready]; exact sched.away
    case statuses =>
      intro t member
      rw [ready] at member
      rw [status t (sched.sched.ready t member)]
      exact sched.statuses t member
    case listed =>
      intro t member here
      rw [all] at member
      rw [status t member] at here
      rw [ready]
      exact sched.listed t member here
    case idle => rw [idle, current, ready, status _ idleIn]; exact sched.idle
  · intro t asleep
    exact ⟨all ▸ asleep.member, (status t asleep.member).trans asleep.blocked, ready ▸ asleep.away, idle ▸ asleep.other⟩

theorem Scheduled.create {task : Page} {prio : Nat} (sched : Scheduled s) (tree : TreeInv s)
    (user : (s.task s.current).place ≠ .inExit) (ran : createTask s task prio = .ok after) :
    Scheduled after ∧ ∀ t, Dormant s t → Dormant after t := by
  have listed := (tree.create sched.sched user ran).2.1
  obtain ⟨_, _, _, _, _, _, _, _, _, absent, fresh, records, all, ready, current, idle, _⟩ := createTask_cases ran
  have old : ∀ t, t ≠ task → after.task t = s.task t := by
    intro t other
    rw [records, Function.update_of_ne other]
  have new : (after.task task).status = .ready := by rw [records, Function.update_self]
  refine ⟨?_, ?_⟩
  · constructor
    case sched => exact listed
    case away =>
      rw [current, ready, List.mem_append, List.mem_singleton]
      rintro (inside | same)
      · exact sched.away inside
      · exact absent (same ▸ sched.sched.current)
    case statuses =>
      intro t member
      rw [ready] at member
      rcases List.mem_append.mp member with before | last
      · rw [old t fun same => fresh (same ▸ before)]
        exact sched.statuses t before
      · rw [List.mem_singleton.mp last]
        exact .inl new
    case listed =>
      intro t member here
      rw [ready]
      by_cases same : t = task
      · simp [same]
      · rw [old t same] at here
        rw [all] at member
        have before : t ∈ s.allTasksList := by simpa [same] using member
        exact List.mem_append_left _ (sched.listed t before here)
    case idle =>
      have other : s.idleTask ≠ task := fun same => absent (same ▸ tree.idle)
      rw [idle, current, ready, old _ other]
      rcases sched.idle with now | queued | blocked
      · exact .inl now
      · exact .inr (.inl (List.mem_append_left _ queued))
      · exact .inr (.inr blocked)
  · intro t asleep
    have other : t ≠ task := fun same => absent (same ▸ asleep.member)
    refine ⟨by rw [all]; exact List.mem_append_left _ asleep.member, by rw [old t other]; exact asleep.blocked, ?_,
      by rw [idle]; exact asleep.other⟩
    rw [ready, List.mem_append, List.mem_singleton]
    rintro (inside | same)
    · exact asleep.away inside
    · exact other same

theorem Scheduled.reap {child : Page} (sched : Scheduled s) (tree : TreeInv s) (listed : SchedInv after)
    (member : child ∈ s.allTasksList) (hangs : (s.task child).status = .hanging) (ran : Task.reap s child = .ok after) :
    Scheduled after ∧ ∀ t, Dormant s t → Dormant after t := by
  obtain ⟨records, all, ready, current, idle, _⟩ := reap_cases ran
  obtain ⟨notCurrent, notIdle, -, -⟩ := tree.hanging_leaf sched.sched member hangs
  have absent : child ∉ s.readyTasksList := by
    intro inside
    rcases sched.statuses child inside with status | status
    · rw [hangs] at status
      cases status
    · rw [hangs] at status
      cases status
  have same : after.readyTasksList = s.readyTasksList := by
    rw [ready]
    simp [absent]
  have old : ∀ t, t ≠ child → after.task t = s.task t := by
    intro t other
    rw [records]
    simp [Tasks.setStatus, other]
  refine ⟨?_, ?_⟩
  · constructor
    case sched => exact listed
    case away => rw [current, same]; exact sched.away
    case statuses =>
      intro t inside
      rw [same] at inside
      rw [old t fun equal => absent (equal ▸ inside)]
      exact sched.statuses t inside
    case listed =>
      intro t inside here
      rw [all] at inside
      obtain ⟨other, before⟩ := tree.nodup.mem_erase_iff.mp inside
      rw [old t other] at here
      rw [same]
      exact sched.listed t before here
    case idle => rw [idle, current, same, old _ notIdle.symm]; exact sched.idle
  · intro t asleep
    have other : t ≠ child := by
      rintro rfl
      have status := asleep.blocked
      rw [hangs] at status
      cases status
    refine ⟨?_, by rw [old t other]; exact asleep.blocked, by rw [same]; exact asleep.away, by rw [idle]; exact asleep.other⟩
    rw [all]
    exact tree.nodup.mem_erase_iff.mpr ⟨other, asleep.member⟩

/-- The scheduler's lists and the tree, in a system whose tasks all run on the kernel's own page table. -/
structure ProcInv (s : Tasks) : Prop where
  tree : TreeInv s
  pml4 : ∀ t ∈ s.allTasksList, (s.task t).pml4 = kernelPml4
  sched : Scheduled s

def Undisturbed (s : Tasks) (result : Except Halt Tasks) : Prop :=
  ∃ after, result = .ok after ∧ ProcInv after ∧ ∀ t, Dormant s t → Dormant after t

theorem ProcInv.same (inv : ProcInv s) (same : SameTree s after) (sched : Scheduled after) : ProcInv after := by
  refine ⟨inv.tree.keep same.toKeepsTree, ?_, sched⟩
  intro t member
  rw [same.allTasksList] at member
  rw [same.pml4 t member]
  exact inv.pml4 t member

theorem ProcInv.setPlace {place : Place} (inv : ProcInv s) (user : place ≠ .inExit) :
    ProcInv (s.setPlace s.current place) ∧ ∀ t, Dormant s t → Dormant (s.setPlace s.current place) t := by
  have status : ∀ t, ((s.setPlace s.current place).task t).status = (s.task t).status := by
    intro t
    by_cases same : t = s.current
    · simp [Tasks.setPlace, same]
    · simp [Tasks.setPlace, same]
  obtain ⟨sched, dormant⟩ := @Scheduled.same s (s.setPlace s.current place) inv.sched inv.tree.idle rfl rfl rfl rfl
    fun t _ => status t
  refine ⟨inv.same (sameTree_modify inv.tree s.current _ rfl rfl rfl (fun exits => absurd exits user) ?_) sched, dormant⟩
  intro hangs
  have running := inv.sched.sched.running
  rw [show (s.task s.current).status = .hanging from hangs] at running
  cases running

theorem ProcInv.block {status : TaskStatus} (inv : ProcInv s)
    (allowed : status = .blocked ∨ status = .hanging ∨ status = .waiting)
    (idle : s.current = s.idleTask → status = .blocked) (exits : status = .hanging → (s.task s.current).place = .inExit) :
    ∃ after, taskBlock s status = .ok after ∧ ProcInv after ∧ (∀ t, Dormant s t → Dormant after t) ∧
      (status = .blocked → s.current ≠ s.idleTask → Dormant after s.current) := by
  obtain ⟨after, ran, sched, dormant, fresh⟩ := inv.sched.block inv.tree.idle allowed idle
  refine ⟨after, ran, ?_, dormant, fresh⟩
  have first := sameTree_modify inv.tree s.current (fun ts => { ts with status := status }) rfl rfl rfl id exits
  exact inv.same (first.trans ((schedule_shuffle (taskBlock_cases ran)).sameTree first.exiting)) sched

theorem ProcInv.shuffle (inv : ProcInv s) (moved : Shuffle s after) (sched : Scheduled after) : ProcInv after :=
  inv.same (moved.sameTree inv.tree.exiting) sched

theorem ProcInv.tick (inv : ProcInv s) : Undisturbed s (intrTimeHandle s) := by
  obtain ⟨after, ran, sched, dormant⟩ := inv.sched.tick inv.tree.idle
  refine ⟨after, ran, ?_, dormant⟩
  unfold intrTimeHandle at ran
  split at ran
  · exact inv.shuffle (schedule_shuffle ran) sched
  · cases ran
    exact inv.same (sameTree_modify inv.tree s.current _ rfl rfl rfl id (inv.tree.exiting _ inv.sched.sched.current)) sched

theorem ProcInv.yield (inv : ProcInv s) : Undisturbed s (taskYield s) := by
  obtain ⟨after, ran, sched, dormant⟩ := inv.sched.yield inv.tree.idle
  refine ⟨after, ran, ?_, dormant⟩
  have scheduled := (taskYield_cases ran).2
  have first := sameTree_modify inv.tree s.current (fun ts => { ts with status := .ready }) rfl rfl rfl id
    fun wrong => by cases wrong
  have queued : SameTree s { s.setStatus s.current .ready with readyTasksList := s.readyTasksList ++ [s.current] } :=
    ⟨⟨rfl, rfl, rfl, rfl, first.page, first.pid, first.parentTask, first.place, first.exiting⟩, rfl, rfl, first.pml4⟩
  exact inv.same (queued.trans ((schedule_shuffle scheduled).sameTree first.exiting)) sched

theorem ProcInv.unblock (inv : ProcInv s) (dormant : Dormant s t) :
    ∃ after, taskUnblock s t = .ok after ∧ ProcInv after ∧ ∀ u, u ≠ t → Dormant s u → Dormant after u := by
  obtain ⟨after, ran, sched, others⟩ := inv.sched.unblock dormant
  exact ⟨after, ran, inv.shuffle (taskUnblock_shuffle ran) sched, others⟩

theorem createTask_ok (inv : ProcInv s) (task : Page) (prio : Nat) :
    createTask s task prio = .error .refused ∨ ∃ after, createTask s task prio = .ok after := by
  by_cases available : (decide (kernelPoolStart ≤ task ∧ task < kernelPoolStart + kernelPoolPages) && !s.pool task) = true
  · right
    have absent : task ∉ s.allTasksList := by
      intro member
      rw [(inv.tree.page task member).2] at available
      simp at available
    have unqueued : task ∉ s.readyTasksList := fun member => absent (inv.sched.sched.ready task member)
    have taken : allocPage s task = .ok { s with pool := Function.update s.pool task true } := by
      simp only [allocPage, (offer_ok _ ()).mpr available, Bind.bind, Except.bind, Pure.pure, Except.pure]
    have number := allocPid_pool s (Function.update s.pool task true)
    rw [allocPid_state] at number
    simp only [createTask, taken, Bind.bind, Except.bind, initTask, number]
    simp [absent, unqueued, assert, Pure.pure, Except.pure]
  · left
    simp only [createTask, allocPage, offer_refused available, Bind.bind, Except.bind]

theorem ProcInv.create (inv : ProcInv s) (user : (s.task s.current).place = .user) (task : Page) (prio : Nat) :
    createTask s task prio = .error .refused ∨ Undisturbed s (createTask s task prio) := by
  rcases createTask_ok inv task prio with refused | ⟨after, ran⟩
  · exact .inl refused
  · right
    have away : (s.task s.current).place ≠ .inExit := by simp [user]
    obtain ⟨sched, dormant⟩ := inv.sched.create inv.tree away ran
    obtain ⟨tree, -, -, table⟩ := inv.tree.create inv.sched.sched away ran
    refine ⟨after, ran, ⟨tree, ?_, sched⟩, dormant⟩
    obtain ⟨_, _, _, _, _, _, _, _, _, absent, _, records, all, _⟩ := createTask_cases ran
    intro t member
    by_cases same : t = task
    · rw [same, table]
      exact inv.pml4 _ inv.sched.sched.current
    · rw [records, Function.update_of_ne same]
      rw [all] at member
      exact inv.pml4 t (by simpa [same] using member)

theorem reap_ok {child : Page} (table : (s.task s.current).pml4 = (s.task child).pml4) (held : s.pool child = true) :
    ∃ after, Task.reap s child = .ok after := by
  have same : ((s.setStatus child .died).task (s.setStatus child .died).current).pml4 = (s.task child).pml4 := by
    rw [← table]
    by_cases here : s.current = child
    · simp [Tasks.setStatus, here]
    · simp [Tasks.setStatus, here]
  unfold Task.reap
  simp only [same, ne_eq, not_true, if_false, Bind.bind, Except.bind]
  split <;> simp [freePage, releasePid, Tasks.setStatus, held, assert]

theorem ProcInv.wait (inv : ProcInv s) (other : s.current ≠ s.idleTask) : Undisturbed s (sysWait s) := by
  unfold sysWait
  split
  · rename_i child found
    have holds := List.find?_some found
    simp only [findHangingChild, decide_eq_true_eq] at holds
    have member := List.mem_of_find?_eq_some found
    obtain ⟨placed, dormant⟩ := @ProcInv.setPlace s .user inv (by simp)
    have apart : child ≠ s.current := by
      rintro rfl
      have running := inv.sched.sched.running
      rw [holds.2] at running
      cases running
    have record : (s.setPlace s.current .user).task child = s.task child := by
      simp [Tasks.setPlace, apart]
    have hangs : ((s.setPlace s.current .user).task child).status = .hanging := by rw [record]; exact holds.2
    have table : ((s.setPlace s.current .user).task s.current).pml4 = ((s.setPlace s.current .user).task child).pml4 :=
      (placed.pml4 _ placed.sched.sched.current).trans (placed.pml4 child member).symm
    obtain ⟨after, ran⟩ := reap_ok table (placed.tree.page child member).2
    obtain ⟨tree, listed⟩ := placed.tree.reap placed.sched.sched member hangs (fun _ _ => .inr table) ran
    obtain ⟨sched, kept⟩ := placed.sched.reap placed.tree listed member hangs ran
    refine ⟨after, ran, ⟨tree, ?_, sched⟩, fun t asleep => kept t (dormant t asleep)⟩
    obtain ⟨records, all, _⟩ := reap_cases ran
    intro t inside
    rw [all] at inside
    have before := placed.pml4 t (List.mem_of_mem_erase inside)
    rw [records]
    by_cases same : t = child
    · simpa [Tasks.setStatus, same] using before
    · simpa [Tasks.setStatus, same] using before
  · split
    · obtain ⟨placed, dormant⟩ := @ProcInv.setPlace s .user inv (by simp)
      exact ⟨_, rfl, placed, dormant⟩
    · obtain ⟨placed, dormant⟩ := @ProcInv.setPlace s .inWait inv (by simp)
      obtain ⟨after, ran, kept, asleep, -⟩ := @ProcInv.block _ .waiting placed (.inr (.inr rfl))
        (fun same => absurd same other) fun wrong => by cases wrong
      exact ⟨after, ran, kept, fun t before => asleep t (dormant t before)⟩

theorem ProcInv.exitStart {status : Int} (inv : ProcInv s) (pid : 1 < (s.task s.current).pid) :
    Undisturbed s (Task.exitStart s status) := by
  have ran : ∃ after, Task.exitStart s status = .ok after := by
    simp [Task.exitStart, pid, assert]
  obtain ⟨after, ran⟩ := ran
  obtain ⟨all, ready, current, idle, _⟩ := exitStart_lists ran
  have record := exitStart_task ran
  obtain ⟨sched, dormant⟩ := inv.sched.same inv.tree.idle all ready current idle fun t _ => (record t).2.2.1
  refine ⟨after, ran, ⟨inv.tree.exitStart ran, ?_, sched⟩, dormant⟩
  intro t member
  rw [all] at member
  rw [(record t).1]
  exact inv.pml4 t member

theorem ProcInv.finish (inv : ProcInv s) (other : s.current ≠ s.idleTask) (exits : (s.task s.current).place = .inExit) :
    Undisturbed s (exitFinish s) := by
  obtain ⟨after, ran, sched, dormant⟩ :=
    inv.sched.finish inv.tree.idle other (inv.tree.parent _ inv.sched.sched.current)
  refine ⟨after, ran, ?_, dormant⟩
  simp only [exitFinish, bind_ok] at ran
  obtain ⟨woken, wake, blocked⟩ := ran
  have moved : SameTree s woken ∧ woken.current = s.current ∧ woken.task = s.task := by
    split at wake
    · have shuffled := taskUnblock_shuffle wake
      obtain ⟨_, rfl⟩ := taskUnblock_cases wake
      exact ⟨shuffled.sameTree inv.tree.exiting, rfl, rfl⟩
    · cases wake
      exact ⟨(Shuffle.refl s).sameTree inv.tree.exiting, rfl, rfl⟩
  have first := sameTree_modify (inv.tree.keep moved.1.toKeepsTree) woken.current
    (fun ts => { ts with status := .hanging }) rfl rfl rfl id fun _ => by
      rw [moved.2.1, moved.2.2]
      exact exits
  exact inv.same ((moved.1.trans first).trans ((schedule_shuffle (taskBlock_cases blocked)).sameTree first.exiting)) sched

end RecoverOs.Task
