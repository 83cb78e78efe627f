import RecoverOs.Fs.Ring
import RecoverOs.Task.Sync

namespace RecoverOs.Device

open Fs RecoverOs.Task RecoverOs.Task.Sync Transition

inductive Call where
  | getchar
  | putchar (byte : UInt8)
  deriving DecidableEq, Repr

inductive Side where
  | consumer
  | producer
  deriving DecidableEq, Repr

def Call.side : Call → Side
  | .getchar => .consumer
  | .putchar _ => .producer

def Side.other : Side → Side
  | .consumer => .producer
  | .producer => .consumer

/-- The condition of the loop of the call. -/
def Side.mustWait (side : Side) (ioq : Ioqueue) : Bool :=
  match side with
  | .consumer => ioqEmpty ioq
  | .producer => ioqFull ioq

/-- Where a task is while it does not run: in no call, asleep in `sema_down`, or asleep in `ioq_wait`. -/
inductive Spot where
  | outside
  | inDown (call : Call)
  | inWait (call : Call)
  deriving DecidableEq, Repr

variable {τ : Type} [DecidableEq τ]

structure Queue (τ : Type) where
  ioq : Ioqueue
  iosema : Semaphore τ
  waiter : Side → Option τ
  sleepers : Sleepers τ
  spot : τ → Spot

def ioqWait (s : Queue τ) (t : τ) (call : Call) : Except Halt (Queue τ) := do
  assert (s.waiter call.side).isNone
  return { s with
    waiter := Function.update s.waiter call.side (some t)
    sleepers := s.sleepers.block t
    spot := Function.update s.spot t (.inWait call) }

def wakeup (s : Queue τ) (side : Side) : Except Halt (Queue τ) :=
  match s.waiter side with
  | none => .error .panic
  | some t => do
    let sleepers ← s.sleepers.unblock t
    return { s with waiter := Function.update s.waiter side none, sleepers := sleepers }

/-- `sema_down(&ioq->iosema)` up to the next sleep, which is in `ioq_wait` if the semaphore is free. -/
def waitTurn (s : Queue τ) (t : τ) (call : Call) : Except Halt (Queue τ) := do
  let (taken, sema) ← semaTest s.iosema t
  if taken then ioqWait { s with iosema := sema } t call
  else return { s with
    iosema := sema
    sleepers := s.sleepers.block t
    spot := Function.update s.spot t (.inDown call) }

def transfer (s : Queue τ) (t : τ) (call : Call) : Except Halt (Queue τ) := do
  let ioq ← (match call with
    | .getchar => do
      let (_, ioq) ← ioqGetchar s.ioq
      return ioq
    | .putchar byte => ioqPutchar s.ioq byte)
  let s := { s with ioq := ioq, spot := Function.update s.spot t .outside }
  if (s.waiter call.side.other).isSome then wakeup s call.side.other else return s

/-- `ioq_getchar` or `ioq_putchar` by `t` from the head of the loop to the next sleep or the end. -/
def turn (s : Queue τ) (t : τ) (call : Call) : Except Halt (Queue τ) :=
  if call.side.mustWait s.ioq then waitTurn s t call else transfer s t call

/-- `resume` lets a task run that has been woken in `sema_down` or in `ioq_wait`. -/
inductive QueueOp (τ : Type) where
  | call (t : τ) (call : Call)
  | resume (t : τ)

def Queue.step (s : Queue τ) : QueueOp τ → Except Halt (Queue τ)
  | .call t call => do
    offer (s.spot t == .outside)
    turn s t call
  | .resume t => do
    offer (s.sleepers.ready.contains t)
    let s := { s with sleepers := s.sleepers.dispatch t }
    match s.spot t with
    | .outside => .error .refused
    | .inDown call => waitTurn s t call
    | .inWait call => do
      let (sema, sleepers) ← semaUp Sleepers.unblock s.iosema s.sleepers
      turn { s with iosema := sema, sleepers := sleepers } t call

def Queue.start (buf : Bytes.Buffer) : Queue τ where
  ioq := ioqueueInit buf
  iosema := ⟨1, []⟩
  waiter := fun _ => none
  sleepers := ⟨fun _ => .running, []⟩
  spot := fun _ => .outside

def Queue.Down (s : Queue τ) (u : τ) : Prop := ∃ call, s.spot u = .inDown call

def Queue.Waits (s : Queue τ) (u : τ) : Prop := ∃ call, s.spot u = .inWait call

def Queue.WaitsAs (s : Queue τ) (side : Side) (u : τ) : Prop := ∃ call, call.side = side ∧ s.spot u = .inWait call

structure Rest (s : Queue τ) (t : τ) : Prop where
  nodup : s.sleepers.ready.Nodup
  absent : t ∉ s.sleepers.ready
  queued : ∀ u ∈ s.sleepers.ready, s.spot u ≠ .outside
  waiter : ∀ side u, s.waiter side = some u ↔ s.WaitsAs side u ∧ u ∉ s.sleepers.ready ∧ u ≠ t
  blocked : ∀ u, s.Waits u → u ≠ t → s.sleepers.status u = .blocked

/-- The holder of `iosema` is the task in `ioq_wait`, and it is registered until it is woken. -/
structure QueueInv (s : Queue τ) : Prop where
  sema : SemaInv s.iosema s.sleepers s.Down s.Waits
  nodup : s.sleepers.ready.Nodup
  queued : ∀ u ∈ s.sleepers.ready, s.spot u ≠ .outside
  waiter : ∀ side u, s.waiter side = some u ↔ s.WaitsAs side u ∧ u ∉ s.sleepers.ready
  blocked : ∀ u, s.Waits u → s.sleepers.status u = .blocked

variable {s after : Queue τ} {t u : τ} {call : Call} {spot : τ → Spot}

omit [DecidableEq τ] in
theorem Queue.WaitsAs.waits {side : Side} (as : s.WaitsAs side u) : s.Waits u := by
  obtain ⟨call, -, here⟩ := as
  exact ⟨call, here⟩

theorem down_update_wait (call : Call) (u : τ) :
    (∃ c, Function.update spot t (.inWait call) u = .inDown c) ↔ (∃ c, spot u = .inDown c) ∧ u ≠ t := by
  by_cases same : u = t
  · simp [same]
  · simp [same]

theorem waits_update_wait (call : Call) (u : τ) :
    (∃ c, Function.update spot t (.inWait call) u = .inWait c) ↔ ((∃ c, spot u = .inWait c) ∧ u ≠ t) ∨ u = t := by
  by_cases same : u = t
  · simp [same]
  · simp [same]

theorem down_update_down (call : Call) (u : τ) :
    (∃ c, Function.update spot t (.inDown call) u = .inDown c) ↔ ((∃ c, spot u = .inDown c) ∧ u ≠ t) ∨ u = t := by
  by_cases same : u = t
  · simp [same]
  · simp [same]

theorem waits_update_down (call : Call) (u : τ) :
    (∃ c, Function.update spot t (.inDown call) u = .inWait c) ↔ (∃ c, spot u = .inWait c) ∧ u ≠ t := by
  by_cases same : u = t
  · simp [same]
  · simp [same]

theorem down_update_outside (u : τ) :
    (∃ c, Function.update spot t .outside u = .inDown c) ↔ (∃ c, spot u = .inDown c) ∧ u ≠ t := by
  by_cases same : u = t
  · simp [same]
  · simp [same]

theorem waits_update_outside (u : τ) :
    (∃ c, Function.update spot t .outside u = .inWait c) ↔ (∃ c, spot u = .inWait c) ∧ u ≠ t := by
  by_cases same : u = t
  · simp [same]
  · simp [same]

theorem Rest.waitTurn_free (rest : Rest s t)
    (core : SemaCore s.iosema s.sleepers (fun u => s.Down u ∧ u ≠ t) (fun u => s.Waits u ∧ u ≠ t))
    (free : s.iosema.value = 1) :
    ∃ after, waitTurn s t call = .ok after ∧ QueueInv after ∧ after.ioq = s.ioq ∧
      after.waiter = Function.update (fun _ => none) call.side (some t) := by
  have nobody : ∀ u, ¬ (s.Waits u ∧ u ≠ t) := by
    rcases core.value with ⟨_, none⟩ | ⟨zero, _⟩
    · exact none
    · omega
  have empty : s.waiter = fun _ => none := by
    funext side
    cases slot : s.waiter side with
    | none => rfl
    | some u =>
      obtain ⟨as, _, other⟩ := (rest.waiter side u).mp slot
      exact absurd ⟨as.waits, other⟩ (nobody u)
  refine ⟨{ s with
    iosema := { s.iosema with value := 0 }
    waiter := Function.update (fun _ => none) call.side (some t)
    sleepers := s.sleepers.block t
    spot := Function.update s.spot t (.inWait call) }, ?_, ?_, rfl, rfl⟩
  · simp [waitTurn, semaTest_free free, ioqWait, empty, assert, Bind.bind, Except.bind, Pure.pure, Except.pure]
  · constructor
    case sema =>
      have taken := (core.take free fun u => Iff.rfl).congr (down_update_wait call) (waits_update_wait call)
      refine taken.frame (fun u _ => Iff.rfl) ?_
      intro u down
      rw [block_status, if_neg ((down_update_wait call u).mp down).2]
    case nodup => exact rest.nodup
    case queued =>
      intro u member
      have other : u ≠ t := fun same => rest.absent (same ▸ member)
      show Function.update s.spot t (.inWait call) u ≠ .outside
      rw [Function.update_of_ne other]
      exact rest.queued u member
    case waiter =>
      intro side u
      show Function.update (fun _ => none) call.side (some t) side = some u ↔
        (∃ c, c.side = side ∧ Function.update s.spot t (.inWait call) u = .inWait c) ∧ u ∉ s.sleepers.ready
      constructor
      · intro slot
        by_cases mine : side = call.side
        · subst mine
          rw [Function.update_self] at slot
          cases slot
          exact ⟨⟨call, rfl, Function.update_self ..⟩, rest.absent⟩
        · rw [Function.update_of_ne mine] at slot
          cases slot
      · rintro ⟨⟨c, own, here⟩, -⟩
        by_cases same : u = t
        · subst same
          rw [Function.update_self] at here
          cases here
          subst own
          rw [Function.update_self]
        · rw [Function.update_of_ne same] at here
          exact absurd ⟨⟨c, here⟩, same⟩ (nobody u)
    case blocked =>
      intro u waits
      rw [block_status]
      split
      · rfl
      · rename_i other
        exact absurd (((waits_update_wait call u).mp waits).resolve_right other) (nobody u)

theorem Rest.waitTurn_taken (rest : Rest s t)
    (core : SemaCore s.iosema s.sleepers (fun u => s.Down u ∧ u ≠ t) (fun u => s.Waits u ∧ u ≠ t))
    (taken : s.iosema.value = 0) :
    ∃ after, waitTurn s t call = .ok after ∧ QueueInv after ∧ after.ioq = s.ioq ∧ after.waiter = s.waiter := by
  have fresh : t ∉ s.iosema.waiters := fun member => ((core.asleep t).mp member).1.2 rfl
  refine ⟨{ s with
    iosema := { s.iosema with waiters := s.iosema.waiters ++ [t] }
    sleepers := s.sleepers.block t
    spot := Function.update s.spot t (.inDown call) }, ?_, ?_, rfl, rfl⟩
  · simp [waitTurn, semaTest_taken taken fresh, Bind.bind, Except.bind, Pure.pure, Except.pure]
  · constructor
    case sema =>
      exact (core.queue taken (fun both => both.2 rfl) rest.absent (down_update_down call)).congr
        (fun u => Iff.rfl) (waits_update_down call)
    case nodup => exact rest.nodup
    case queued =>
      intro u member
      have other : u ≠ t := fun same => rest.absent (same ▸ member)
      show Function.update s.spot t (.inDown call) u ≠ .outside
      rw [Function.update_of_ne other]
      exact rest.queued u member
    case waiter =>
      intro side u
      show s.waiter side = some u ↔
        (∃ c, c.side = side ∧ Function.update s.spot t (.inDown call) u = .inWait c) ∧ u ∉ s.sleepers.ready
      rw [rest.waiter side u]
      by_cases same : u = t
      · simp [same]
      · simp only [Queue.WaitsAs, Function.update_of_ne same, ne_eq, same, not_false_eq_true, and_true]
    case blocked =>
      intro u waits
      obtain ⟨before, other⟩ := (waits_update_down call u).mp waits
      rw [block_status, if_neg other]
      exact rest.blocked u before other

theorem transfer_eq (go : call.side.mustWait s.ioq = false) :
    ∃ ioq, transfer s t call =
      if (s.waiter call.side.other).isSome then
        wakeup { s with ioq := ioq, spot := Function.update s.spot t .outside } call.side.other
      else .ok { s with ioq := ioq, spot := Function.update s.spot t .outside } := by
  cases call with
  | getchar =>
    have some : ¬ s.ioq.head = s.ioq.tail := of_decide_eq_false go
    exact ⟨{ s.ioq with tail := (s.ioq.tail + 1) % bufsize }, by
      simp [transfer, ioqGetchar, some, Bind.bind, Except.bind, Pure.pure, Except.pure]⟩
  | putchar byte =>
    have room : ¬ (s.ioq.head + 1) % bufsize = s.ioq.tail := of_decide_eq_false go
    exact ⟨{ s.ioq with
      buf := Function.update s.ioq.buf s.ioq.head byte, head := (s.ioq.head + 1) % bufsize }, by
      simp [transfer, ioqPutchar, room, Bind.bind, Except.bind, Pure.pure, Except.pure]⟩

theorem Rest.leave (rest : Rest s t)
    (sema : SemaInv s.iosema s.sleepers (fun u => s.Down u ∧ u ≠ t) (fun u => s.Waits u ∧ u ≠ t)) (ioq : Ioqueue) :
    QueueInv { s with ioq := ioq, spot := Function.update s.spot t .outside } := by
  constructor
  case sema => exact sema.congr down_update_outside waits_update_outside
  case nodup => exact rest.nodup
  case queued =>
    intro u member
    have other : u ≠ t := fun same => rest.absent (same ▸ member)
    show Function.update s.spot t .outside u ≠ .outside
    rw [Function.update_of_ne other]
    exact rest.queued u member
  case waiter =>
    intro side u
    show s.waiter side = some u ↔
      (∃ c, c.side = side ∧ Function.update s.spot t .outside u = .inWait c) ∧ u ∉ s.sleepers.ready
    rw [rest.waiter side u]
    by_cases same : u = t
    · simp [same]
    · simp only [Queue.WaitsAs, Function.update_of_ne same, ne_eq, same, not_false_eq_true, and_true]
  case blocked =>
    intro u waits
    obtain ⟨before, other⟩ := (waits_update_outside u).mp waits
    exact rest.blocked u before other

theorem QueueInv.wakeup {side : Side} (inv : QueueInv s) (slot : s.waiter side = some u) :
    ∃ after, Device.wakeup s side = .ok after ∧ QueueInv after ∧ after.ioq = s.ioq ∧
      after.waiter = Function.update s.waiter side none := by
  obtain ⟨as, away⟩ := (inv.waiter side u).mp slot
  refine ⟨{ s with
    waiter := Function.update s.waiter side none
    sleepers := { s.sleepers with ready := u :: s.sleepers.ready } }, ?_, ?_, rfl, rfl⟩
  · simp [Device.wakeup, slot, unblock_ok s.sleepers (inv.blocked u as.waits) away, Bind.bind, Except.bind, Pure.pure,
      Except.pure]
  · constructor
    case sema =>
      refine inv.sema.frame ?_ fun _ _ => rfl
      rintro v ⟨call, down⟩
      obtain ⟨_, waits⟩ := as.waits
      have other : v ≠ u := by
        rintro rfl
        rw [waits] at down
        cases down
      simp [other]
    case nodup => exact List.nodup_cons.mpr ⟨away, inv.nodup⟩
    case queued =>
      intro v member
      rcases List.mem_cons.mp member with rfl | old
      · obtain ⟨_, waits⟩ := as.waits
        show s.spot v ≠ .outside
        rw [waits]
        simp
      · exact inv.queued v old
    case waiter =>
      intro side' v
      show Function.update s.waiter side none side' = some v ↔ s.WaitsAs side' v ∧ v ∉ u :: s.sleepers.ready
      rw [List.mem_cons, not_or]
      by_cases same : side' = side
      · subst same
        rw [Function.update_self]
        constructor
        · intro none
          cases none
        · rintro ⟨as', other, away'⟩
          have slot' := (inv.waiter side' v).mpr ⟨as', away'⟩
          rw [slot] at slot'
          exact absurd (Option.some.inj slot').symm other
      · rw [Function.update_of_ne same, inv.waiter side' v]
        constructor
        · rintro ⟨as', away'⟩
          refine ⟨as', ?_, away'⟩
          rintro rfl
          obtain ⟨c, own, here⟩ := as
          obtain ⟨c', own', here'⟩ := as'
          rw [here] at here'
          cases here'
          exact same (own'.symm.trans own)
        · rintro ⟨as', -, away'⟩
          exact ⟨as', away'⟩
    case blocked => exact inv.blocked

theorem Rest.transfer (rest : Rest s t)
    (sema : SemaInv s.iosema s.sleepers (fun u => s.Down u ∧ u ≠ t) (fun u => s.Waits u ∧ u ≠ t))
    (go : call.side.mustWait s.ioq = false) :
    ∃ after, transfer s t call = .ok after ∧ QueueInv after ∧
      after.waiter = Function.update s.waiter call.side.other none := by
  obtain ⟨ioq, ran⟩ := @transfer_eq τ _ s t call go
  have left := rest.leave sema ioq
  rw [ran]
  cases slot : s.waiter call.side.other with
  | none =>
    refine ⟨{ s with ioq := ioq, spot := Function.update s.spot t .outside }, by simp, left, ?_⟩
    rw [← slot, Function.update_eq_self]
  | some u =>
    obtain ⟨after, woken, kept, -, waiter⟩ := left.wakeup slot
    exact ⟨after, by simp [woken], kept, waiter⟩

/-- Nobody is registered as a waiter of a queue that can serve it. -/
def Served (s : Queue τ) : Prop := ∀ side, s.waiter side ≠ none → side.mustWait s.ioq = true

/-- A task that gets `iosema` after it has slept in `sema_down` finds the queue as it was before. -/
def StillWaits (s : Queue τ) : Spot → Prop
  | .inDown call => s.iosema.value = 1 → call.side.mustWait s.ioq = true
  | .inWait _ => True
  | .outside => True

instance (s : Queue τ) : (spot : Spot) → Decidable (StillWaits s spot)
  | .inDown call => inferInstanceAs (Decidable (s.iosema.value = 1 → call.side.mustWait s.ioq = true))
  | .inWait _ => isTrue True.intro
  | .outside => isTrue True.intro

def WokenInTime (s : Queue τ) : QueueOp τ → Prop
  | .call .. => True
  | .resume t => StillWaits s (s.spot t)

instance (s : Queue τ) : (op : QueueOp τ) → Decidable (WokenInTime s op)
  | .call .. => isTrue True.intro
  | .resume t => inferInstanceAs (Decidable (StillWaits s (s.spot t)))

theorem Rest.waitTurn (rest : Rest s t)
    (core : SemaCore s.iosema s.sleepers (fun u => s.Down u ∧ u ≠ t) (fun u => s.Waits u ∧ u ≠ t)) :
    ∃ after, waitTurn s t call = .ok after ∧ QueueInv after ∧
      (Served s → (s.iosema.value = 1 → call.side.mustWait s.ioq = true) → Served after) := by
  rcases core.value with ⟨free, _⟩ | ⟨taken, _⟩
  · obtain ⟨after, ran, kept, ioq, waiter⟩ := @Rest.waitTurn_free τ _ s t call rest core free
    refine ⟨after, ran, kept, ?_⟩
    intro _ still side slot
    rw [waiter] at slot
    rw [ioq]
    by_cases mine : side = call.side
    · rw [mine]
      exact still free
    · rw [Function.update_of_ne mine] at slot
      exact absurd rfl slot
  · obtain ⟨after, ran, kept, ioq, waiter⟩ := @Rest.waitTurn_taken τ _ s t call rest core taken
    refine ⟨after, ran, kept, ?_⟩
    intro served _ side slot
    rw [waiter] at slot
    rw [ioq]
    exact served side slot

theorem Rest.turn (rest : Rest s t)
    (sema : SemaInv s.iosema s.sleepers (fun u => s.Down u ∧ u ≠ t) (fun u => s.Waits u ∧ u ≠ t)) :
    ∃ after, turn s t call = .ok after ∧ QueueInv after ∧ (Served s → Served after) := by
  unfold Device.turn
  by_cases waits : call.side.mustWait s.ioq = true
  · rw [if_pos waits]
    obtain ⟨after, ran, kept, served⟩ := @Rest.waitTurn τ _ s t call rest sema.toSemaCore
    exact ⟨after, ran, kept, fun before => served before fun _ => waits⟩
  · rw [if_neg waits]
    obtain ⟨after, ran, kept, waiter⟩ := @Rest.transfer τ _ s t call rest sema (Bool.eq_false_iff.mpr waits)
    refine ⟨after, ran, kept, ?_⟩
    -- The other side has just been woken, and nobody of this side was registered, since the call need not wait.
    intro served side slot
    rw [waiter] at slot
    by_cases other : side = call.side.other
    · rw [other, Function.update_self] at slot
      exact absurd rfl slot
    · rw [Function.update_of_ne other] at slot
      have mine : side = call.side := by
        revert other
        cases call.side <;> cases side <;> simp [Side.other]
      rw [mine] at slot
      exact absurd (served _ slot) waits

omit [DecidableEq τ] in
theorem QueueInv.outside (inv : QueueInv s) (out : s.spot t = .outside) :
    Rest s t ∧ SemaInv s.iosema s.sleepers (fun u => s.Down u ∧ u ≠ t) (fun u => s.Waits u ∧ u ≠ t) := by
  have notDown : ∀ u, s.Down u → u ≠ t := by
    rintro u ⟨call, down⟩ rfl
    rw [out] at down
    cases down
  have notWaits : ∀ u, s.Waits u → u ≠ t := by
    rintro u ⟨call, waits⟩ rfl
    rw [out] at waits
    cases waits
  refine ⟨⟨inv.nodup, fun member => inv.queued t member out, inv.queued, ?_, fun u waits _ => inv.blocked u waits⟩, ?_⟩
  · intro side u
    rw [inv.waiter side u]
    constructor
    · rintro ⟨as, away⟩
      exact ⟨as, away, notWaits u as.waits⟩
    · rintro ⟨as, away, -⟩
      exact ⟨as, away⟩
  · exact inv.sema.congr (fun u => and_iff_left_of_imp (notDown u)) fun u => and_iff_left_of_imp (notWaits u)

theorem QueueInv.dispatch (inv : QueueInv s) (member : t ∈ s.sleepers.ready) :
    Rest { s with sleepers := s.sleepers.dispatch t } t := by
  have ready : ∀ u, u ∈ (s.sleepers.dispatch t).ready ↔ u ≠ t ∧ u ∈ s.sleepers.ready := fun u => inv.nodup.mem_erase_iff
  constructor
  case nodup => exact inv.nodup.erase t
  case absent => exact fun inside => ((ready t).mp inside).1 rfl
  case queued => exact fun u inside => inv.queued u ((ready u).mp inside).2
  case waiter =>
    intro side u
    show s.waiter side = some u ↔ s.WaitsAs side u ∧ u ∉ (s.sleepers.dispatch t).ready ∧ u ≠ t
    rw [inv.waiter side u, ready u]
    apply and_congr_right
    intro _
    constructor
    · intro away
      refine ⟨fun both => away both.2, ?_⟩
      rintro rfl
      exact away member
    · rintro ⟨away, other⟩ inside
      exact away ⟨other, inside⟩
  case blocked =>
    intro u waits other
    show (s.sleepers.dispatch t).status u = .blocked
    rw [dispatch_status, if_neg other]
    exact inv.blocked u waits

theorem QueueInv.resume_down (inv : QueueInv s) (member : t ∈ s.sleepers.ready) (down : s.Down t) :
    SemaCore s.iosema (s.sleepers.dispatch t) (fun u => s.Down u ∧ u ≠ t) (fun u => s.Waits u ∧ u ≠ t) := by
  obtain ⟨call, here⟩ := down
  refine (inv.sema.toSemaCore.dispatch inv.nodup member fun u => Iff.rfl).congr (fun u => Iff.rfl) ?_
  intro u
  apply and_iff_left_of_imp
  rintro ⟨call', waits⟩ rfl
  rw [here] at waits
  cases waits

theorem QueueInv.resume_wait (inv : QueueInv s) (member : t ∈ s.sleepers.ready) (waits : s.Waits t) :
    ∃ sema sleepers, semaUp Sleepers.unblock s.iosema (s.sleepers.dispatch t) = .ok (sema, sleepers) ∧
      Rest { s with iosema := sema, sleepers := sleepers } t ∧
      SemaInv sema sleepers (fun u => s.Down u ∧ u ≠ t) (fun u => s.Waits u ∧ u ≠ t) := by
  have notDown : ∀ u, s.Down u → u ≠ t := by
    rintro u ⟨call, down⟩ rfl
    obtain ⟨call', here⟩ := waits
    rw [here] at down
    cases down
  have rest := inv.dispatch member
  have ready : ∀ u, u ∈ (s.sleepers.dispatch t).ready ↔ u ≠ t ∧ u ∈ s.sleepers.ready := fun u => inv.nodup.mem_erase_iff
  have moved : SemaInv s.iosema (s.sleepers.dispatch t) s.Down s.Waits := by
    apply inv.sema.frame
    · intro u down
      rw [ready u]
      exact and_iff_right (notDown u down)
    · intro u down
      rw [dispatch_status, if_neg (notDown u down)]
  obtain ⟨sema, sleepers, ran, kept, status, queue, nodup⟩ := moved.up waits fun u => Iff.rfl
  refine ⟨sema, sleepers, ran, ?_, kept.congr (fun u => and_iff_left_of_imp (notDown u)) fun u => Iff.rfl⟩
  have asleep : ∀ u, s.iosema.waiters.head? = some u → s.Down u :=
    fun u first => ((inv.sema.asleep u).mp (List.mem_of_mem_head? first)).1
  constructor
  case nodup => exact nodup rest.nodup
  case absent =>
    intro inside
    rcases (queue t).mp inside with old | first
    · exact rest.absent old
    · exact notDown t (asleep t first) rfl
  case queued =>
    intro u inside
    rcases (queue u).mp inside with old | first
    · exact rest.queued u old
    · obtain ⟨call, down⟩ := asleep u first
      show s.spot u ≠ .outside
      rw [down]
      simp
  case waiter =>
    intro side u
    show s.waiter side = some u ↔ s.WaitsAs side u ∧ u ∉ sleepers.ready ∧ u ≠ t
    have before : s.waiter side = some u ↔ s.WaitsAs side u ∧ u ∉ (s.sleepers.dispatch t).ready ∧ u ≠ t :=
      rest.waiter side u
    rw [before, queue u, not_or]
    apply and_congr_right
    intro as
    have other : ¬ s.iosema.waiters.head? = some u := by
      intro first
      obtain ⟨call, down⟩ := asleep u first
      obtain ⟨call', here⟩ := as.waits
      rw [here] at down
      cases down
    rw [and_iff_left other]
  case blocked =>
    intro u here other
    show sleepers.status u = .blocked
    rw [status]
    exact rest.blocked u here other

theorem QueueInv.step_ok (inv : QueueInv s) (op : QueueOp τ) :
    s.step op = .error .refused ∨
      ∃ after, s.step op = .ok after ∧ QueueInv after ∧ (Served s → WokenInTime s op → Served after) := by
  cases op with
  | call t call =>
    by_cases out : s.spot t = .outside
    · right
      obtain ⟨rest, sema⟩ := inv.outside out
      obtain ⟨after, ran, kept, served⟩ := @Rest.turn τ _ s t call rest sema
      exact ⟨after, by simp [Queue.step, out, offer, ran, Bind.bind, Except.bind], kept, fun before _ => served before⟩
    · left
      simp [Queue.step, out, offer, Bind.bind, Except.bind]
  | resume t =>
    by_cases member : t ∈ s.sleepers.ready
    · right
      cases here : s.spot t with
      | outside => exact absurd here (inv.queued t member)
      | inDown call =>
        obtain ⟨after, ran, kept, served⟩ := @Rest.waitTurn τ _ { s with sleepers := s.sleepers.dispatch t } t call
          (inv.dispatch member) (inv.resume_down member ⟨call, here⟩)
        refine ⟨after, by simp [Queue.step, member, here, offer, ran, Bind.bind, Except.bind], kept, ?_⟩
        intro before still
        rw [WokenInTime, here] at still
        exact served before still
      | inWait call =>
        obtain ⟨sema, sleepers, up, rest, free⟩ := inv.resume_wait member ⟨call, here⟩
        obtain ⟨after, ran, kept, served⟩ := @Rest.turn τ _ { s with iosema := sema, sleepers := sleepers } t call rest free
        exact ⟨after, by simp [Queue.step, member, here, offer, up, ran, Bind.bind, Except.bind], kept,
          fun before _ => served before⟩
    · left
      simp [Queue.step, member, offer, Bind.bind, Except.bind]

omit [DecidableEq τ] in
theorem queueInv_start (buf : Bytes.Buffer) : QueueInv (Queue.start buf : Queue τ) := by
  refine ⟨⟨⟨.inl ⟨rfl, ?_⟩, List.nodup_nil, ?_, ?_⟩, ?_⟩, List.nodup_nil, ?_, ?_, ?_⟩
  · simp [Queue.Waits, Queue.start]
  · simp [Queue.Down, Queue.start]
  · simp [Queue.Down, Queue.start]
  · simp [Queue.start]
  · simp [Queue.start]
  · simp [Queue.WaitsAs, Queue.start]
  · simp [Queue.Waits, Queue.start]

theorem queueInv_run (buf : Bytes.Buffer) (ops : List (QueueOp τ)) (s : Queue τ)
    (ran : run Queue.step (Queue.start buf) ops = .ok s) : QueueInv s := by
  refine run_invariant ?_ (queueInv_start buf) (meets_true _ _ _) ran
  intro s op after inv _ taken
  rcases inv.step_ok op with refused | ⟨next, done, kept, _⟩
  · rw [refused] at taken
    cases taken
  · rw [done] at taken
    cases taken
    exact kept

/-- No assertion stops a call, and as long as no task is overtaken between its wakeup in `sema_down` and its turn,
    nobody sleeps on a queue that can serve it. -/
theorem no_sleep_when_served (buf : Bytes.Buffer) (ops : List (QueueOp τ)) (s : Queue τ)
    (ran : run Queue.step (Queue.start buf) ops = .ok s) :
    (∀ op halt, s.step op = .error halt → halt = .refused) ∧
    (Meets Queue.step WokenInTime (Queue.start buf) ops → Served s) := by
  constructor
  · intro op halt failed
    rcases (queueInv_run buf ops s ran).step_ok op with refused | ⟨next, done, _⟩
    · rw [refused] at failed
      exact (Except.error.inj failed).symm
    · rw [done] at failed
      cases failed
  · intro inTime
    have start : QueueInv (Queue.start buf : Queue τ) ∧ Served (Queue.start buf : Queue τ) :=
      ⟨queueInv_start buf, fun side slot => absurd rfl slot⟩
    have preserved : ∀ (s : Queue τ) op after, QueueInv s ∧ Served s → WokenInTime s op → s.step op = .ok after →
        QueueInv after ∧ Served after := by
      intro s op after both cond taken
      rcases both.1.step_ok op with refused | ⟨next, done, kept, served⟩
      · rw [refused] at taken
        cases taken
      · rw [done] at taken
        cases taken
        exact ⟨kept, served both.2 cond⟩
    exact (@run_invariant _ _ _ _ _ (fun s => QueueInv s ∧ Served s) preserved _ _ _ start inTime ran).2

def readersInTime : List (QueueOp Nat) :=
  [.call 1 .getchar, .call 2 .getchar, .call 3 (.putchar 7), .resume 1, .resume 2]

theorem no_sleep_when_served_two_readers :
    ∃ s, run Queue.step (Queue.start fun _ => 0) readersInTime = .ok s ∧ s.waiter .consumer = some 2 ∧ Served s := by
  have evaluated : endsIn (run Queue.step (Queue.start fun _ => 0) readersInTime)
      (fun s => decide (s.waiter .consumer = some 2)) = true := by
    decide +kernel
  have inTime : meetsCheck Queue.step WokenInTime (Queue.start fun _ => 0) readersInTime = true := by
    decide +kernel
  obtain ⟨s, ran, check⟩ := exists_of_endsIn evaluated
  exact ⟨s, ran, of_decide_eq_true check,
    (no_sleep_when_served (fun _ => 0) readersInTime s ran).2 (meets_of_check inTime)⟩

def readerOvertaken : List (QueueOp Nat) :=
  [.call 1 .getchar, .call 2 .getchar, .call 3 (.putchar 7), .resume 1, .call 3 (.putchar 8), .resume 2]

theorem reader_sleeps_on_byte :
    ∃ s, run Queue.step (Queue.start fun _ => 0) readerOvertaken = .ok s ∧ s.waiter .consumer = some 2 ∧
      ioqEmpty s.ioq = false ∧ ¬ Served s := by
  have evaluated : endsIn (run Queue.step (Queue.start fun _ => 0) readerOvertaken)
      (fun s => decide (s.waiter .consumer = some 2 ∧ ioqEmpty s.ioq = false)) = true := by
    decide +kernel
  obtain ⟨s, ran, check⟩ := exists_of_endsIn evaluated
  obtain ⟨slot, filled⟩ := of_decide_eq_true check
  refine ⟨s, ran, slot, filled, ?_⟩
  intro served
  have empty : ioqEmpty s.ioq = true := served .consumer (by simp [slot])
  rw [filled] at empty
  cases empty

end RecoverOs.Device
