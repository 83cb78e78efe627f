import Mathlib.Data.Set.Card
import RecoverOs.Task.Process

namespace RecoverOs.Task.Sync

open Transition

structure Semaphore (τ : Type) where
  value : Nat
  waiters : List τ

variable {τ : Type} [DecidableEq τ]

def semaInit (value : Nat) : Except Halt (Semaphore τ) := do
  assert (value == 0 || value == 1)
  return ⟨value, []⟩

structure Sleepers (τ : Type) where
  status : τ → TaskStatus
  ready : List τ

def Sleepers.block (s : Sleepers τ) (t : τ) : Sleepers τ := { s with status := Function.update s.status t .blocked }

def Sleepers.unblock (s : Sleepers τ) (t : τ) : Except Halt (Sleepers τ) := do
  assert (s.status t == .blocked || s.status t == .hanging || s.status t == .waiting)
  assert (!s.ready.contains t)
  return { s with ready := t :: s.ready }

def Sleepers.dispatch (s : Sleepers τ) (t : τ) : Sleepers τ where
  status := Function.update s.status t .running
  ready := s.ready.erase t

/-- One turn of the loop of `sema_down` by `t`, and whether it leaves the loop with the semaphore. -/
def semaTest (sema : Semaphore τ) (t : τ) : Except Halt (Bool × Semaphore τ) :=
  if sema.value = 0 then do
    assert (!sema.waiters.contains t)
    return (false, { sema with waiters := sema.waiters ++ [t] })
  else do
    assert (sema.value - 1 == 0)
    return (true, { sema with value := sema.value - 1 })

def semaUp {σ : Type} (unblock : σ → τ → Except Halt σ) (sema : Semaphore τ) (s : σ) :
    Except Halt (Semaphore τ × σ) := do
  assert (sema.value == 0)
  let (sema, s) ← (match sema.waiters with
    | [] => .ok (sema, s)
    | t :: rest => do
      let s ← unblock s t
      return ({ sema with waiters := rest }, s))
  assert (sema.value + 1 == 1)
  return ({ sema with value := sema.value + 1 }, s)

structure SemaCore (sema : Semaphore τ) (sleepers : Sleepers τ) (inDown holding : τ → Prop) : Prop where
  value : (sema.value = 1 ∧ ∀ t, ¬ holding t) ∨ (sema.value = 0 ∧ ∃ t, holding t ∧ ∀ u, holding u → u = t)
  nodup : sema.waiters.Nodup
  asleep : ∀ t, t ∈ sema.waiters ↔ inDown t ∧ t ∉ sleepers.ready
  blocked : ∀ t, inDown t → sleepers.status t = .blocked

/-- A free semaphore with waiters has a task on its way to it. -/
structure SemaInv (sema : Semaphore τ) (sleepers : Sleepers τ) (inDown holding : τ → Prop) : Prop
    extends SemaCore sema sleepers inDown holding where
  woken : sema.value = 1 → sema.waiters ≠ [] → ∃ t ∈ sleepers.ready, inDown t

variable {sema : Semaphore τ} {sleepers : Sleepers τ} {inDown holding : τ → Prop} {t : τ}

@[simp] theorem block_status (s : Sleepers τ) (t u : τ) :
    (s.block t).status u = if u = t then .blocked else s.status u := by
  simp [Sleepers.block, Function.update_apply]

@[simp] theorem dispatch_status (s : Sleepers τ) (t u : τ) :
    (s.dispatch t).status u = if u = t then .running else s.status u := by
  simp [Sleepers.dispatch, Function.update_apply]

theorem unblock_ok (s : Sleepers τ) (blocked : s.status t = .blocked) (absent : t ∉ s.ready) :
    s.unblock t = .ok { s with ready := t :: s.ready } := by
  simp [Sleepers.unblock, blocked, absent, assert]

omit [DecidableEq τ] in
theorem SemaCore.congr {inDown' holding' : τ → Prop} (core : SemaCore sema sleepers inDown holding)
    (down : ∀ u, inDown' u ↔ inDown u) (held : ∀ u, holding' u ↔ holding u) :
    SemaCore sema sleepers inDown' holding' := by
  have sameDown : inDown' = inDown := funext fun u => propext (down u)
  have sameHeld : holding' = holding := funext fun u => propext (held u)
  rw [sameDown, sameHeld]
  exact core

omit [DecidableEq τ] in
theorem SemaInv.congr {inDown' holding' : τ → Prop} (inv : SemaInv sema sleepers inDown holding)
    (down : ∀ u, inDown' u ↔ inDown u) (held : ∀ u, holding' u ↔ holding u) :
    SemaInv sema sleepers inDown' holding' := by
  refine ⟨inv.toSemaCore.congr down held, ?_⟩
  intro free some
  obtain ⟨u, queued, inside⟩ := inv.woken free some
  exact ⟨u, queued, (down u).mpr inside⟩

omit [DecidableEq τ] in
theorem SemaCore.frame {moved : Sleepers τ} (core : SemaCore sema sleepers inDown holding)
    (ready : ∀ u, inDown u → (u ∈ moved.ready ↔ u ∈ sleepers.ready))
    (status : ∀ u, inDown u → moved.status u = sleepers.status u) : SemaCore sema moved inDown holding := by
  constructor
  case value => exact core.value
  case nodup => exact core.nodup
  case asleep =>
    intro u
    rw [core.asleep u]
    apply and_congr_right
    intro inside
    rw [ready u inside]
  case blocked =>
    intro u inside
    rw [status u inside]
    exact core.blocked u inside

omit [DecidableEq τ] in
theorem SemaInv.frame {moved : Sleepers τ} (inv : SemaInv sema sleepers inDown holding)
    (ready : ∀ u, inDown u → (u ∈ moved.ready ↔ u ∈ sleepers.ready))
    (status : ∀ u, inDown u → moved.status u = sleepers.status u) : SemaInv sema moved inDown holding := by
  refine ⟨inv.toSemaCore.frame ready status, ?_⟩
  intro free some
  obtain ⟨u, queued, inside⟩ := inv.woken free some
  exact ⟨u, (ready u inside).mpr queued, inside⟩

theorem SemaCore.dispatch {inDown' : τ → Prop} (core : SemaCore sema sleepers inDown holding)
    (nodup : sleepers.ready.Nodup) (queued : t ∈ sleepers.ready)
    (others : ∀ u, inDown' u ↔ inDown u ∧ u ≠ t) : SemaCore sema (sleepers.dispatch t) inDown' holding := by
  constructor
  case value => exact core.value
  case nodup => exact core.nodup
  case asleep =>
    intro u
    show _ ↔ _ ∧ u ∉ sleepers.ready.erase t
    rw [core.asleep u, others u, nodup.mem_erase_iff]
    constructor
    · rintro ⟨inside, absent⟩
      refine ⟨⟨inside, ?_⟩, fun both => absent both.2⟩
      rintro rfl
      exact absent queued
    · rintro ⟨⟨inside, other⟩, absent⟩
      exact ⟨inside, fun member => absent ⟨other, member⟩⟩
  case blocked =>
    intro u inside
    obtain ⟨before, other⟩ := (others u).mp inside
    rw [dispatch_status, if_neg other]
    exact core.blocked u before

theorem semaTest_free (free : sema.value = 1) : semaTest sema t = .ok (true, { sema with value := 0 }) := by
  simp [semaTest, free, assert]

theorem semaTest_taken (taken : sema.value = 0) (absent : t ∉ sema.waiters) :
    semaTest sema t = .ok (false, { sema with waiters := sema.waiters ++ [t] }) := by
  simp [semaTest, taken, absent, assert]

omit [DecidableEq τ] in
theorem SemaCore.take {holding' : τ → Prop} (core : SemaCore sema sleepers inDown holding) (free : sema.value = 1)
    (holder : ∀ u, holding' u ↔ holding u ∨ u = t) :
    SemaInv { sema with value := 0 } sleepers inDown holding' := by
  have nobody : ∀ u, ¬ holding u := by
    rcases core.value with ⟨_, none⟩ | ⟨zero, _⟩
    · exact none
    · omega
  refine ⟨⟨.inr ⟨rfl, t, (holder t).mpr (.inr rfl), ?_⟩, core.nodup, core.asleep, core.blocked⟩, ?_⟩
  · intro u held
    exact ((holder u).mp held).resolve_left (nobody u)
  · intro one
    cases one

theorem SemaCore.queue {inDown' : τ → Prop} (core : SemaCore sema sleepers inDown holding) (taken : sema.value = 0)
    (outside : ¬ inDown t) (absent : t ∉ sleepers.ready) (waiting : ∀ u, inDown' u ↔ inDown u ∨ u = t) :
    SemaInv { sema with waiters := sema.waiters ++ [t] } (sleepers.block t) inDown' holding := by
  have fresh : t ∉ sema.waiters := fun member => outside ((core.asleep t).mp member).1
  refine ⟨⟨core.value, ?_, ?_, ?_⟩, ?_⟩
  · rw [List.nodup_append]
    refine ⟨core.nodup, List.nodup_singleton t, ?_⟩
    rintro u member v last rfl
    rw [List.mem_singleton.mp last] at member
    exact fresh member
  · intro u
    show u ∈ sema.waiters ++ [t] ↔ inDown' u ∧ u ∉ sleepers.ready
    rw [List.mem_append, core.asleep u, waiting u, List.mem_singleton]
    constructor
    · rintro (⟨inside, away⟩ | rfl)
      · exact ⟨.inl inside, away⟩
      · exact ⟨.inr rfl, absent⟩
    · rintro ⟨inside | rfl, away⟩
      · exact .inl ⟨inside, away⟩
      · exact .inr rfl
  · intro u inside
    rw [block_status]
    split
    · rfl
    · rename_i other
      exact core.blocked u (((waiting u).mp inside).resolve_right other)
  · intro one
    rw [taken] at one
    cases one

theorem SemaInv.up {holding' : τ → Prop} (inv : SemaInv sema sleepers inDown holding) (held : holding t)
    (others : ∀ u, holding' u ↔ holding u ∧ u ≠ t) :
    ∃ sema' sleepers', semaUp Sleepers.unblock sema sleepers = .ok (sema', sleepers') ∧
      SemaInv sema' sleepers' inDown holding' ∧ sleepers'.status = sleepers.status ∧
      (∀ u, u ∈ sleepers'.ready ↔ u ∈ sleepers.ready ∨ sema.waiters.head? = some u) ∧
      (sleepers.ready.Nodup → sleepers'.ready.Nodup) := by
  obtain ⟨zero, single⟩ : sema.value = 0 ∧ ∀ u, holding u → u = t := by
    rcases inv.value with ⟨_, none⟩ | ⟨zero, holder, _, only⟩
    · exact absurd held (none t)
    · refine ⟨zero, fun u holds => ?_⟩
      rw [only u holds, only t held]
  have nobody : ∀ u, ¬ holding' u := fun u holds => ((others u).mp holds).2 (single u ((others u).mp holds).1)
  cases queue : sema.waiters with
  | nil =>
    refine ⟨{ sema with value := 1 }, sleepers, ?_, ⟨⟨.inl ⟨rfl, nobody⟩, inv.nodup, inv.asleep, inv.blocked⟩, ?_⟩, rfl, ?_, ?_⟩
    · simp [semaUp, zero, queue, assert]
    · intro _ some
      exact absurd queue some
    · simp
    · exact id
  | cons first rest =>
    have member : first ∈ sema.waiters := by simp [queue]
    obtain ⟨inside, away⟩ := (inv.asleep first).mp member
    have nodup := inv.nodup
    rw [queue, List.nodup_cons] at nodup
    refine ⟨⟨1, rest⟩, { sleepers with ready := first :: sleepers.ready }, ?_,
      ⟨⟨.inl ⟨rfl, nobody⟩, nodup.2, ?_, inv.blocked⟩, ?_⟩, rfl, ?_, ?_⟩
    · simp [semaUp, zero, queue, assert, unblock_ok sleepers (inv.blocked first inside) away]
    · intro u
      have before := inv.asleep u
      rw [queue] at before
      simp only [List.mem_cons, not_or] at before ⊢
      constructor
      · intro later
        obtain ⟨waits, absent⟩ := before.mp (.inr later)
        refine ⟨waits, ?_, absent⟩
        rintro rfl
        exact nodup.1 later
      · rintro ⟨waits, other, absent⟩
        exact (before.mpr ⟨waits, absent⟩).resolve_left other
    · intro _ _
      exact ⟨first, List.mem_cons_self .., inside⟩
    · intro u
      simp only [List.mem_cons, List.head?_cons, Option.some.injEq]
      constructor
      · rintro (rfl | old)
        · exact .inr rfl
        · exact .inl old
      · rintro (old | rfl)
        · exact .inr old
        · exact .inl rfl
    · exact fun unique => List.nodup_cons.mpr ⟨away, unique⟩

inductive Position where
  | outside
  | inDown
  | holding
  deriving DecidableEq, Repr

structure Lock (τ : Type) where
  sema : Semaphore τ
  sleepers : Sleepers τ
  position : τ → Position

def Lock.test (s : Lock τ) (t : τ) : Except Halt (Lock τ) := do
  let (taken, sema) ← semaTest s.sema t
  if taken then return { s with sema := sema, position := Function.update s.position t .holding }
  else return { sema := sema, sleepers := s.sleepers.block t, position := Function.update s.position t .inDown }

/-- `resume` is a task that has been woken inside of `sema_down` and runs again. -/
inductive LockOp (τ : Type) where
  | down (t : τ)
  | resume (t : τ)
  | up (t : τ)

def Lock.step (s : Lock τ) : LockOp τ → Except Halt (Lock τ)
  | .down t => do
    offer (s.position t == .outside)
    s.test t
  | .resume t => do
    offer (s.sleepers.ready.contains t)
    Lock.test { s with sleepers := s.sleepers.dispatch t } t
  | .up t => do
    offer (s.position t == .holding)
    let (sema, sleepers) ← semaUp Sleepers.unblock s.sema s.sleepers
    return { sema := sema, sleepers := sleepers, position := Function.update s.position t .outside }

def Lock.init : Except Halt (Lock τ) := do
  let sema ← semaInit 1
  return { sema := sema, sleepers := ⟨fun _ => .running, []⟩, position := fun _ => .outside }

structure LockInv (s : Lock τ) : Prop where
  sema : SemaInv s.sema s.sleepers (fun t => s.position t = .inDown) (fun t => s.position t = .holding)
  nodup : s.sleepers.ready.Nodup
  queued : ∀ t ∈ s.sleepers.ready, s.position t = .inDown

variable {s after : Lock τ}

theorem test_ok (core : SemaCore s.sema s.sleepers (fun u => s.position u = .inDown ∧ u ≠ t)
    (fun u => s.position u = .holding)) (nodup : s.sleepers.ready.Nodup) (absent : t ∉ s.sleepers.ready)
    (queued : ∀ u ∈ s.sleepers.ready, s.position u = .inDown) (free : s.position t ≠ .holding) :
    ∃ after, s.test t = .ok after ∧ LockInv after := by
  have others : ∀ u ∈ s.sleepers.ready, u ≠ t := fun u member same => absent (same ▸ member)
  rcases core.value with ⟨one, none⟩ | ⟨zero, held⟩
  · have holder : ∀ u, Function.update s.position t .holding u = .holding ↔ s.position u = .holding ∨ u = t := by
      intro u
      by_cases same : u = t
      · simp [same]
      · simp [same]
    have inside : ∀ u, Function.update s.position t .holding u = .inDown ↔ s.position u = .inDown ∧ u ≠ t := by
      intro u
      by_cases same : u = t
      · simp [same]
      · simp [same]
    refine ⟨{ s with sema := { s.sema with value := 0 }, position := Function.update s.position t .holding }, ?_, ?_⟩
    · simp [Lock.test, semaTest_free one, Bind.bind, Except.bind, Pure.pure, Except.pure]
    · refine ⟨?_, nodup, fun u member => (inside u).mpr ⟨queued u member, others u member⟩⟩
      exact (core.take one holder).congr inside fun u => Iff.rfl
  · have holder : ∀ u, Function.update s.position t .inDown u = .holding ↔ s.position u = .holding := by
      intro u
      by_cases same : u = t
      · simp [same, free]
      · simp [same]
    have inside : ∀ u, Function.update s.position t .inDown u = .inDown ↔ (s.position u = .inDown ∧ u ≠ t) ∨ u = t := by
      intro u
      by_cases same : u = t
      · simp [same]
      · simp [same]
    have fresh : t ∉ s.sema.waiters := fun member => ((core.asleep t).mp member).1.2 rfl
    refine ⟨{ s with
      sema := { s.sema with waiters := s.sema.waiters ++ [t] }
      sleepers := s.sleepers.block t
      position := Function.update s.position t .inDown }, ?_, ?_⟩
    · simp [Lock.test, semaTest_taken zero fresh, Bind.bind, Except.bind, Pure.pure, Except.pure]
    · refine ⟨?_, nodup, fun u member => (inside u).mpr (.inl ⟨queued u member, others u member⟩)⟩
      exact (core.queue zero (fun both => both.2 rfl) absent inside).congr (fun u => Iff.rfl) holder

theorem LockInv.step_ok (inv : LockInv s) (op : LockOp τ) :
    s.step op = .error .refused ∨ ∃ after, s.step op = .ok after ∧ LockInv after := by
  cases op with
  | down t =>
    by_cases place : s.position t = .outside
    · right
      have absent : t ∉ s.sleepers.ready := by
        intro member
        rw [inv.queued t member] at place
        cases place
      have core : SemaCore s.sema s.sleepers (fun u => s.position u = .inDown ∧ u ≠ t)
          (fun u => s.position u = .holding) := by
        refine inv.sema.toSemaCore.congr (fun u => and_iff_left_of_imp ?_) fun u => Iff.rfl
        rintro inside rfl
        rw [place] at inside
        cases inside
      obtain ⟨after, ran, kept⟩ := test_ok core inv.nodup absent inv.queued (by simp [place])
      exact ⟨after, by simp [Lock.step, place, offer, ran, Bind.bind, Except.bind], kept⟩
    · left
      simp [Lock.step, place, offer, Bind.bind, Except.bind]
  | resume t =>
    by_cases member : t ∈ s.sleepers.ready
    · right
      have core := inv.sema.toSemaCore.dispatch inv.nodup member fun u => Iff.rfl
      have rest : ∀ u, u ∈ (s.sleepers.dispatch t).ready ↔ u ≠ t ∧ u ∈ s.sleepers.ready := fun u => inv.nodup.mem_erase_iff
      obtain ⟨after, ran, kept⟩ := @test_ok τ _ t { s with sleepers := s.sleepers.dispatch t } core (inv.nodup.erase t)
        (fun inside => ((rest t).mp inside).1 rfl) (fun u inside => inv.queued u ((rest u).mp inside).2)
        (by simp [inv.queued t member])
      exact ⟨after, by simp [Lock.step, member, offer, ran, Bind.bind, Except.bind], kept⟩
    · left
      simp [Lock.step, member, offer, Bind.bind, Except.bind]
  | up t =>
    by_cases place : s.position t = .holding
    · right
      have holder : ∀ u, Function.update s.position t .outside u = .holding ↔ s.position u = .holding ∧ u ≠ t := by
        intro u
        by_cases same : u = t
        · simp [same]
        · simp [same]
      have inside : ∀ u, Function.update s.position t .outside u = .inDown ↔ s.position u = .inDown := by
        intro u
        by_cases same : u = t
        · simp [same, place]
        · simp [same]
      obtain ⟨sema, sleepers, ran, kept, status, ready, nodup⟩ := inv.sema.up place holder
      refine ⟨⟨sema, sleepers, Function.update s.position t .outside⟩, ?_, ?_, nodup inv.nodup, ?_⟩
      · simp [Lock.step, place, offer, ran, Bind.bind, Except.bind, Pure.pure, Except.pure]
      · exact kept.congr inside fun u => Iff.rfl
      · intro u member
        apply (inside u).mpr
        rcases (ready u).mp member with old | first
        · exact inv.queued u old
        · exact ((inv.sema.asleep u).mp (List.mem_of_mem_head? first)).1
    · left
      simp [Lock.step, place, offer, Bind.bind, Except.bind]

theorem lockInv_step (s : Lock τ) (op : LockOp τ) (after : Lock τ) (inv : LockInv s) (ran : s.step op = .ok after) :
    LockInv after := by
  rcases inv.step_ok op with refused | ⟨next, done, kept⟩
  · rw [refused] at ran
    cases ran
  · rw [done] at ran
    cases ran
    exact kept

omit [DecidableEq τ] in
theorem lockInv_init {start : Lock τ} (init : Lock.init = .ok start) : LockInv start := by
  simp only [Lock.init, semaInit, bind_ok, assert_ok, pure_ok] at init
  obtain ⟨sema, ⟨_, _, rfl⟩, rfl⟩ := init
  refine ⟨⟨⟨.inl ⟨rfl, ?_⟩, List.nodup_nil, ?_, ?_⟩, ?_⟩, List.nodup_nil, ?_⟩
  · simp
  · simp
  · simp
  · simp
  · simp

/-- A semaphore that starts with 1 is a lock that loses no wakeup, for any tasks and any order of their calls. -/
theorem sema_is_lock (start : Lock τ) (init : Lock.init = .ok start) (ops : List (LockOp τ)) (s : Lock τ)
    (ran : run Lock.step start ops = .ok s) :
    (s.sema.value = 0 ∨ s.sema.value = 1) ∧
    (s.sema.value : ℕ∞) + Set.encard {t | s.position t = .holding} = 1 ∧
    (∀ op halt, s.step op = .error halt → halt = .refused) ∧
    s.sema.waiters.Nodup ∧
    (s.sema.value = 1 → s.sema.waiters ≠ [] → ∃ t ∈ s.sleepers.ready, s.position t = .inDown) := by
  have inv : LockInv s := run_invariant (fun s op after inv _ taken => lockInv_step s op after inv taken)
    (lockInv_init init) (meets_true _ _ _) ran
  refine ⟨?_, ?_, ?_, inv.sema.nodup, inv.sema.woken⟩
  · rcases inv.sema.value with ⟨one, _⟩ | ⟨zero, _⟩
    · exact .inr one
    · exact .inl zero
  · rcases inv.sema.value with ⟨one, none⟩ | ⟨zero, t, held, only⟩
    · have empty : {t | s.position t = .holding} = ∅ := Set.eq_empty_of_forall_notMem none
      rw [one, empty, Set.encard_empty]
      rfl
    · have single : {t | s.position t = .holding} = {t} := Set.eq_singleton_iff_unique_mem.mpr ⟨held, only⟩
      rw [zero, single, Set.encard_singleton]
      rfl
  · intro op halt failed
    rcases inv.step_ok op with refused | ⟨next, done, _⟩
    · rw [refused] at failed
      exact (Except.error.inj failed).symm
    · rw [done] at failed
      cases failed

/-- Two tasks wait; the first of them is woken, finds the semaphore taken again and goes behind the other. -/
def contended : List (LockOp Nat) := [.down 1, .down 2, .down 3, .up 1, .down 4, .resume 2, .up 4]

theorem sema_is_lock_contended : ∃ start s : Lock Nat, Lock.init = .ok start ∧ run Lock.step start contended = .ok s ∧
    s.sema.value = 1 ∧ s.sema.waiters = [2] ∧ ∃ t ∈ s.sleepers.ready, s.position t = .inDown := by
  have begins : endsIn (Lock.init : Except Halt (Lock Nat)) (fun _ => true) = true := by decide
  obtain ⟨start, init, -⟩ := exists_of_endsIn begins
  have evaluated : endsIn (run Lock.step start contended)
      (fun s => decide (s.sema.value = 1 ∧ s.sema.waiters = [2])) = true := by
    cases init
    decide
  obtain ⟨s, ran, check⟩ := exists_of_endsIn evaluated
  obtain ⟨free, queue⟩ := of_decide_eq_true check
  refine ⟨start, s, init, ran, free, queue, ?_⟩
  exact (sema_is_lock start init contended s ran).2.2.2.2 free (by simp [queue])

end RecoverOs.Task.Sync
