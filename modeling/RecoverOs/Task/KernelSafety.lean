import RecoverOs.Task.Kernel

namespace RecoverOs.Task

open Sync Transition

variable {k w : Nat} {kernel next : Kernel}

/-- Every task in a queue of a semaphore or in a pointer of `ioq_wait` is asleep, and is there only. -/
structure SleepInv (kernel : Kernel) : Prop where
  value : ∀ k, (kernel.sema k).value ≤ 1
  nodup : ∀ k, (kernel.sema k).waiters.Nodup
  asleep : ∀ k, ∀ t ∈ (kernel.sema k).waiters, Dormant kernel.tasks t ∧ kernel.wants t = some k
  slots : ∀ w t, kernel.waiter w = some t → Dormant kernel.tasks t ∧ kernel.wants t = none
  oneSlot : ∀ w w' t, kernel.waiter w = some t → kernel.waiter w' = some t → w = w'

structure KernelInv (kernel : Kernel) : Prop where
  proc : ProcInv kernel.tasks
  sleep : SleepInv kernel

theorem KernelInv.not_dormant (inv : KernelInv kernel) : ¬ Dormant kernel.tasks kernel.tasks.current := by
  intro dormant
  have status := dormant.blocked
  rw [inv.proc.sched.sched.running] at status
  cases status

def Parked (kernel : Kernel) (t : Page) : Prop :=
  (∃ k, t ∈ (kernel.sema k).waiters) ∨ ∃ w, kernel.waiter w = some t

theorem SleepInv.move {tasks : Tasks} (sleep : SleepInv kernel)
    (dormant : ∀ t, Parked kernel t → Dormant kernel.tasks t → Dormant tasks t) :
    SleepInv { kernel with tasks := tasks } := by
  refine ⟨sleep.value, sleep.nodup, ?_, ?_, sleep.oneSlot⟩
  · intro k t member
    obtain ⟨asleep, wants⟩ := sleep.asleep k t member
    exact ⟨dormant t (.inl ⟨k, member⟩) asleep, wants⟩
  · intro w t slot
    obtain ⟨asleep, wants⟩ := sleep.slots w t slot
    exact ⟨dormant t (.inr ⟨w, slot⟩) asleep, wants⟩

theorem SleepInv.resema {sema : Semaphore Page} (sleep : SleepInv kernel) (value : sema.value ≤ 1)
    (nodup : sema.waiters.Nodup) (asleep : ∀ t ∈ sema.waiters, Dormant kernel.tasks t ∧ kernel.wants t = some k) :
    SleepInv { kernel with sema := Function.update kernel.sema k sema } := by
  refine ⟨?_, ?_, ?_, sleep.slots, sleep.oneSlot⟩
  · intro j
    by_cases same : j = k
    · subst same
      simpa using value
    · simpa [same] using sleep.value j
  · intro j
    by_cases same : j = k
    · subst same
      simpa using nodup
    · simpa [same] using sleep.nodup j
  · intro j t member
    by_cases same : j = k
    · subst same
      exact asleep t (by simpa using member)
    · exact sleep.asleep j t (by simpa [same] using member)

theorem SleepInv.rewant {want : Option Nat} (sleep : SleepInv kernel) (free : ¬ Dormant kernel.tasks t) :
    SleepInv { kernel with wants := Function.update kernel.wants t want } := by
  have other : ∀ u, Dormant kernel.tasks u → Function.update kernel.wants t want u = kernel.wants u := by
    intro u asleep
    apply Function.update_of_ne
    rintro rfl
    exact free asleep
  refine ⟨sleep.value, sleep.nodup, ?_, ?_, sleep.oneSlot⟩
  · intro k u member
    obtain ⟨asleep, wants⟩ := sleep.asleep k u member
    exact ⟨asleep, (other u asleep).trans wants⟩
  · intro w u slot
    obtain ⟨asleep, wants⟩ := sleep.slots w u slot
    exact ⟨asleep, (other u asleep).trans wants⟩

theorem KernelInv.move {result : Except Halt Tasks} (inv : KernelInv kernel) (done : Undisturbed kernel.tasks result) :
    ∃ next, (do let tasks ← result; return { kernel with tasks := tasks }) = .ok next ∧ KernelInv next := by
  obtain ⟨tasks, ran, proc, dormant⟩ := done
  refine ⟨{ kernel with tasks := tasks }, ?_, proc, inv.sleep.move fun t _ asleep => dormant t asleep⟩
  rw [ran]
  rfl

theorem KernelInv.down (inv : KernelInv kernel) (other : kernel.tasks.current ≠ kernel.tasks.idleTask) (k : Nat) :
    ∃ next, kernel.downTurn k = .ok next ∧ KernelInv next := by
  have bound := inv.sleep.value k
  by_cases taken : (kernel.sema k).value = 0
  · have absent : kernel.tasks.current ∉ (kernel.sema k).waiters :=
      fun member => inv.not_dormant (inv.sleep.asleep k _ member).1
    obtain ⟨tasks, ran, proc, dormant, fresh⟩ := @ProcInv.block _ .blocked inv.proc (.inl rfl) (fun _ => rfl)
      fun wrong => by cases wrong
    refine ⟨{ kernel with
      tasks := tasks
      sema := Function.update kernel.sema k ⟨(kernel.sema k).value, (kernel.sema k).waiters ++ [kernel.tasks.current]⟩
      wants := Function.update kernel.wants kernel.tasks.current (some k) }, ?_, proc, ?_⟩
    · simp [Kernel.downTurn, semaTest_taken taken absent, ran, Bind.bind, Except.bind, Pure.pure, Except.pure]
    · have before := (@SleepInv.rewant _ _ (some k) inv.sleep inv.not_dormant).move fun t _ asleep => dormant t asleep
      apply before.resema
      · exact bound
      · exact nodup_snoc (inv.sleep.nodup k) absent
      · intro t member
        rcases List.mem_append.mp member with old | last
        · exact before.asleep k t old
        · rw [List.mem_singleton.mp last]
          exact ⟨fresh rfl other, Function.update_self ..⟩
  · have free : (kernel.sema k).value = 1 := by omega
    refine ⟨{ kernel with
      sema := Function.update kernel.sema k ⟨0, (kernel.sema k).waiters⟩
      wants := Function.update kernel.wants kernel.tasks.current none }, ?_, inv.proc, ?_⟩
    · simp [Kernel.downTurn, semaTest_free free, Bind.bind, Except.bind, Pure.pure, Except.pure]
    · have before := @SleepInv.rewant _ _ none inv.sleep inv.not_dormant
      exact before.resema (Nat.zero_le 1) (inv.sleep.nodup k) (before.asleep k)

theorem KernelInv.up (inv : KernelInv kernel) (taken : (kernel.sema k).value = 0) :
    ∃ next, kernel.up k = .ok next ∧ KernelInv next := by
  cases queue : (kernel.sema k).waiters with
  | nil =>
    refine ⟨{ kernel with sema := Function.update kernel.sema k ⟨1, (kernel.sema k).waiters⟩ }, ?_, inv.proc, ?_⟩
    · simp [Kernel.up, semaUp, taken, queue, assert, Bind.bind, Except.bind, Pure.pure, Except.pure]
    · exact inv.sleep.resema (Nat.le_refl 1) (inv.sleep.nodup k) (inv.sleep.asleep k)
  | cons first rest =>
    have member : first ∈ (kernel.sema k).waiters := by simp [queue]
    obtain ⟨asleep, wants⟩ := inv.sleep.asleep k first member
    obtain ⟨tasks, ran, proc, others⟩ := inv.proc.unblock asleep
    have nodup := inv.sleep.nodup k
    rw [queue, List.nodup_cons] at nodup
    have shorter : SleepInv { kernel with sema := Function.update kernel.sema k ⟨1, rest⟩ } := by
      refine inv.sleep.resema (Nat.le_refl 1) nodup.2 ?_
      intro t later
      exact inv.sleep.asleep k t (by rw [queue]; exact List.mem_cons_of_mem _ later)
    refine ⟨{ kernel with tasks := tasks, sema := Function.update kernel.sema k ⟨1, rest⟩ }, ?_, proc, ?_⟩
    · simp [Kernel.up, semaUp, taken, queue, ran, assert, Bind.bind, Except.bind, Pure.pure, Except.pure]
    · refine shorter.move ?_
      intro t parked dormant
      refine others t ?_ dormant
      -- The first waiter was in this queue and nowhere else.
      rintro rfl
      rcases parked with ⟨j, inside⟩ | ⟨w, slot⟩
      · by_cases same : j = k
        · subst same
          exact nodup.1 (by simpa using inside)
        · have want := (inv.sleep.asleep j t (by simpa [same] using inside)).2
          rw [wants] at want
          exact same (Option.some.inj want).symm
      · have want := (inv.sleep.slots w t slot).2
        rw [wants] at want
        cases want

theorem KernelInv.ioqWait (inv : KernelInv kernel) (other : kernel.tasks.current ≠ kernel.tasks.idleTask)
    (wants : kernel.wants kernel.tasks.current = none) (empty : kernel.waiter w = none) :
    ∃ next, kernel.ioqWait w = .ok next ∧ KernelInv next := by
  obtain ⟨tasks, ran, proc, dormant, fresh⟩ := @ProcInv.block _ .blocked inv.proc (.inl rfl) (fun _ => rfl)
    fun wrong => by cases wrong
  refine ⟨{ kernel with
    tasks := tasks
    waiter := Function.update kernel.waiter w (some kernel.tasks.current) }, ?_, proc, ?_⟩
  · simp [Kernel.ioqWait, empty, ran, assert, Bind.bind, Except.bind, Pure.pure, Except.pure]
  · have before := inv.sleep.move fun t _ asleep => dormant t asleep
    refine ⟨before.value, before.nodup, before.asleep, ?_, ?_⟩
    · intro v t slot
      by_cases same : v = w
      · subst same
        have here : kernel.tasks.current = t := by simpa using slot
        rw [← here]
        exact ⟨fresh rfl other, wants⟩
      · exact before.slots v t (by simpa [same] using slot)
    · have apart : ∀ v, v ≠ w → kernel.waiter v ≠ some kernel.tasks.current :=
        fun v _ slot => inv.not_dormant (inv.sleep.slots v _ slot).1
      intro v v' t slot slot'
      by_cases same : v = w
      · by_cases same' : v' = w
        · rw [same, same']
        · have here : kernel.tasks.current = t := by simpa [same] using slot
          rw [← here] at slot'
          exact absurd (by simpa [same'] using slot') (apart v' same')
      · by_cases same' : v' = w
        · have here : kernel.tasks.current = t := by simpa [same'] using slot'
          rw [← here] at slot
          exact absurd (by simpa [same] using slot) (apart v same)
        · exact inv.sleep.oneSlot v v' t (by simpa [same] using slot) (by simpa [same'] using slot')

theorem KernelInv.wakeup (inv : KernelInv kernel) (slot : kernel.waiter w = some t) :
    ∃ next, kernel.wakeup w = .ok next ∧ KernelInv next := by
  obtain ⟨asleep, wants⟩ := inv.sleep.slots w t slot
  obtain ⟨tasks, ran, proc, others⟩ := inv.proc.unblock asleep
  have fewer : SleepInv { kernel with waiter := Function.update kernel.waiter w none } := by
    have older : ∀ v u, Function.update kernel.waiter w none v = some u → v ≠ w ∧ kernel.waiter v = some u := by
      intro v u here
      by_cases same : v = w
      · simp [same] at here
      · exact ⟨same, by simpa [same] using here⟩
    refine ⟨inv.sleep.value, inv.sleep.nodup, inv.sleep.asleep, ?_, ?_⟩
    · exact fun v u here => inv.sleep.slots v u (older v u here).2
    · exact fun v v' u here here' => inv.sleep.oneSlot v v' u (older v u here).2 (older v' u here').2
  refine ⟨{ kernel with tasks := tasks, waiter := Function.update kernel.waiter w none }, ?_, proc, ?_⟩
  · simp [Kernel.wakeup, slot, ran, Bind.bind, Except.bind, Pure.pure, Except.pure]
  · refine fewer.move ?_
    intro u parked dormant
    refine others u ?_ dormant
    rintro rfl
    rcases parked with ⟨j, inside⟩ | ⟨v, here⟩
    · have want := (inv.sleep.asleep j u inside).2
      rw [wants] at want
      cases want
    · by_cases same : v = w
      · simp [same] at here
      · have there : kernel.waiter v = some u := by simpa [same] using here
        exact same (inv.sleep.oneSlot v w u there slot)

/-- The call is stopped by an assertion of its own: `sema_up` of a free semaphore, `ioq_wait` on a pointer in use,
    `wakeup` without a waiter, or `sys_exit` of one of the first two tasks. -/
def OwnAssert (kernel : Kernel) : KernelOp → Prop
  | .up k => (kernel.sema k).value ≠ 0
  | .ioqWait w => kernel.waiter w ≠ none
  | .wakeup w => kernel.waiter w = none
  | .exitStart _ => (kernel.tasks.task kernel.tasks.current).pid ≤ 1
  | _ => False

theorem Kernel.free_iff : kernel.free = true ↔ kernel.tasks.current ≠ kernel.tasks.idleTask ∧
    kernel.wants kernel.tasks.current = none ∧ (kernel.tasks.task kernel.tasks.current).place ≠ .inWait := by
  simp [Kernel.free, and_assoc]

theorem offered {condition : Bool} {body : Except Halt Kernel}
    (taken : condition = true → (∃ next, body = .ok next ∧ KernelInv next) ∨ body = .error .refused) :
    (∃ next, (do offer condition; body) = .ok next ∧ KernelInv next) ∨ (do offer condition; body) = .error .refused := by
  by_cases accepts : condition = true
  · have accepted : (do offer condition; body) = body := by
      rw [(offer_ok _ ()).mpr accepts]
      rfl
    rw [accepted]
    exact taken accepts
  · right
    rw [offer_refused accepts]
    rfl

/-- Every step is accepted and keeps the invariant, is not offered, or runs into an assertion of its own. -/
theorem KernelInv.step_ok (inv : KernelInv kernel) (op : KernelOp) (allowed : ¬ OwnAssert kernel op) :
    (∃ next, kernel.step op = .ok next ∧ KernelInv next) ∨ kernel.step op = .error .refused := by
  cases op with
  | tick => exact offered fun _ => .inl (inv.move inv.proc.tick)
  | idle =>
    refine offered fun _ => .inl (inv.move ?_)
    obtain ⟨after, ran, proc, dormant, -⟩ := @ProcInv.block _ .blocked inv.proc (.inl rfl) (fun _ => rfl)
      fun wrong => by cases wrong
    exact ⟨after, ran, proc, dormant⟩
  | yield => exact offered fun _ => .inl (inv.move inv.proc.yield)
  | create task prio =>
    refine offered fun condition => ?_
    simp only [Bool.and_eq_true, beq_iff_eq] at condition
    rcases inv.proc.create condition.2 task prio with refused | done
    · right
      rw [refused]
      rfl
    · exact .inl (inv.move done)
  | down k => exact offered fun condition => .inl (inv.down (Kernel.free_iff.mp condition).1 k)
  | retry k =>
    refine offered fun condition => .inl (inv.down ?_ k)
    simp only [Bool.and_eq_true, bne_iff_ne, ne_eq] at condition
    exact condition.1
  | up k => exact offered fun _ => .inl (inv.up (Classical.not_not.mp allowed))
  | ioqWait w =>
    refine offered fun condition => .inl ?_
    have free := Kernel.free_iff.mp condition
    exact inv.ioqWait free.1 free.2.1 (Classical.not_not.mp allowed)
  | wakeup w =>
    left
    obtain ⟨t, slot⟩ := Option.ne_none_iff_exists'.mp allowed
    exact inv.wakeup slot
  | wait =>
    refine offered fun condition => .inl (inv.move (inv.proc.wait ?_))
    simp only [Bool.and_eq_true] at condition
    exact (Kernel.free_iff.mp condition.1).1
  | waitResume =>
    refine offered fun condition => .inl (inv.move (inv.proc.wait ?_))
    simp only [Bool.and_eq_true, bne_iff_ne, ne_eq] at condition
    exact condition.1
  | exitStart status => exact offered fun _ => .inl (inv.move (inv.proc.exitStart (Int.not_le.mp allowed)))
  | exitFinish =>
    refine offered fun condition => .inl (inv.move ?_)
    simp only [Bool.and_eq_true, beq_iff_eq] at condition
    exact inv.proc.finish (Kernel.free_iff.mp condition.1).1 condition.2

theorem own_assert_stops {op : KernelOp} (own : OwnAssert kernel op) : ∃ halt, kernel.step op = .error halt := by
  cases op with
  | up k =>
    have nonzero : (kernel.sema k).value ≠ 0 := own
    by_cases accepts : kernel.free = true
    · exact ⟨.panic, by simp [Kernel.step, Kernel.up, semaUp, (offer_ok _ ()).mpr accepts, nonzero, assert, Bind.bind,
        Except.bind]⟩
    · exact ⟨.refused, by simp only [Kernel.step, offer_refused accepts, Bind.bind, Except.bind]⟩
  | ioqWait w =>
    have full : kernel.waiter w ≠ none := own
    by_cases accepts : kernel.free = true
    · exact ⟨.panic, by simp [Kernel.step, Kernel.ioqWait, (offer_ok _ ()).mpr accepts, full, assert, Bind.bind,
        Except.bind]⟩
    · exact ⟨.refused, by simp only [Kernel.step, offer_refused accepts, Bind.bind, Except.bind]⟩
  | wakeup w =>
    have empty : kernel.waiter w = none := own
    exact ⟨.panic, by simp [Kernel.step, Kernel.wakeup, empty]⟩
  | exitStart status =>
    have pid : ¬ 1 < (kernel.tasks.task kernel.tasks.current).pid := Int.not_lt.mpr own
    by_cases accepts : (kernel.free && (kernel.tasks.task kernel.tasks.current).place == .user) = true
    · exact ⟨.panic, by simp [Kernel.step, exitStart, (offer_ok _ ()).mpr accepts, pid, assert, Bind.bind, Except.bind]⟩
    · exact ⟨.refused, by simp only [Kernel.step, offer_refused accepts, Bind.bind, Except.bind]⟩
  | tick | idle | yield | create _ _ | down _ | retry _ | wait | waitResume | exitFinish => exact own.elim

theorem kernelInv_step (s : Kernel) (op : KernelOp) (after : Kernel) (inv : KernelInv s) (ran : s.step op = .ok after) :
    KernelInv after := by
  by_cases own : OwnAssert s op
  · obtain ⟨halt, stopped⟩ := own_assert_stops own
    rw [stopped] at ran
    cases ran
  · rcases inv.step_ok op own with ⟨next, done, kept⟩ | refused
    · rw [done] at ran
      cases ran
      exact kept
    · rw [refused] at ran
      cases ran

end RecoverOs.Task
