import RecoverOs.Task.Effects
import Mathlib.Data.Finset.Card
import Mathlib.Order.Interval.Finset.Nat

namespace RecoverOs.Task

open Transition

def InPool (page : Page) : Prop :=
  kernelPoolStart ≤ page ∧ page < kernelPoolStart + kernelPoolPages

structure SchedInv (s : Tasks) : Prop where
  nodup : s.readyTasksList.Nodup
  ready : ∀ t ∈ s.readyTasksList, t ∈ s.allTasksList
  current : s.current ∈ s.allTasksList
  running : (s.task s.current).status = .running

structure TreeInv (s : Tasks) : Prop where
  nodup : s.allTasksList.Nodup
  idle : s.idleTask ∈ s.allTasksList
  init : s.initProc ∈ s.allTasksList
  idlePid : (s.task s.idleTask).pid = 0
  initPid : (s.task s.initProc).pid = 1
  initParent : (s.task s.initProc).parentTask = s.initProc
  page : ∀ t ∈ s.allTasksList, InPool t ∧ s.pool t = true
  bytesLen : s.pidBitmap.bytesLen = 128
  pidRange : ∀ t ∈ s.allTasksList, 0 ≤ (s.task t).pid ∧ (s.task t).pid < 1024
  pidMarked : ∀ i, i < 1024 → (s.pidBitmap.bits i = true ↔ ∃ t ∈ s.allTasksList, (s.task t).pid = i)
  pidInjective : ∀ t ∈ s.allTasksList, ∀ u ∈ s.allTasksList, (s.task t).pid = (s.task u).pid → t = u
  parent : ∀ t ∈ s.allTasksList, (s.task t).parentTask ∈ s.allTasksList
  selfParent : ∀ t ∈ s.allTasksList, (s.task t).parentTask = t → (s.task t).pid ≤ 1
  /-- No cycle of parents: every set of tasks has one whose parent is outside it. -/
  rooted : ∀ S : Page → Prop, (∃ t ∈ s.allTasksList, S t) →
    ∃ t ∈ s.allTasksList, S t ∧ ((s.task t).parentTask = t ∨ ¬ S (s.task t).parentTask)
  exiting : ∀ t ∈ s.allTasksList, (s.task t).status = .hanging → (s.task t).place = .inExit
  exitPid : ∀ t ∈ s.allTasksList, (s.task t).place = .inExit → 1 < (s.task t).pid
  childless : ∀ t ∈ s.allTasksList, (s.task t).place = .inExit →
    ∀ c ∈ s.allTasksList, (s.task c).parentTask ≠ t

/-- The step leaves the tree and its numbering alone and lets no task start to exit. Pages outside the list may
    change as they like. -/
structure KeepsTree (before after : Tasks) : Prop where
  allTasksList : after.allTasksList = before.allTasksList
  idleTask : after.idleTask = before.idleTask
  initProc : after.initProc = before.initProc
  pidBitmap : after.pidBitmap = before.pidBitmap
  page : ∀ t, before.pool t = true → after.pool t = true
  pid : ∀ t ∈ before.allTasksList, (after.task t).pid = (before.task t).pid
  parentTask : ∀ t ∈ before.allTasksList, (after.task t).parentTask = (before.task t).parentTask
  place : ∀ t ∈ before.allTasksList, (after.task t).place = .inExit → (before.task t).place = .inExit
  exiting : ∀ t ∈ before.allTasksList, (after.task t).status = .hanging → (after.task t).place = .inExit

structure SameTree (before after : Tasks) : Prop extends KeepsTree before after where
  pool : after.pool = before.pool
  pml4Log : after.pml4Log = before.pml4Log
  pml4 : ∀ t ∈ before.allTasksList, (after.task t).pml4 = (before.task t).pml4

theorem TreeInv.keep {s after : Tasks} (inv : TreeInv s) (same : KeepsTree s after) : TreeInv after := by
  have all := same.allTasksList
  constructor
  case nodup => rw [all]; exact inv.nodup
  case idle => rw [all, same.idleTask]; exact inv.idle
  case init => rw [all, same.initProc]; exact inv.init
  case idlePid => rw [same.idleTask, same.pid _ inv.idle]; exact inv.idlePid
  case initPid => rw [same.initProc, same.pid _ inv.init]; exact inv.initPid
  case initParent => rw [same.initProc, same.parentTask _ inv.init]; exact inv.initParent
  case page =>
    rw [all]
    exact fun t member => ⟨(inv.page t member).1, same.page t (inv.page t member).2⟩
  case bytesLen => rw [same.pidBitmap]; exact inv.bytesLen
  case pidRange =>
    intro t member
    rw [all] at member
    rw [same.pid t member]
    exact inv.pidRange t member
  case pidMarked =>
    intro i bound
    rw [same.pidBitmap, all, inv.pidMarked i bound]
    constructor
    · rintro ⟨t, member, pid⟩
      exact ⟨t, member, (same.pid t member).trans pid⟩
    · rintro ⟨t, member, pid⟩
      exact ⟨t, member, (same.pid t member).symm.trans pid⟩
  case pidInjective =>
    intro t member u member' equal
    rw [all] at member member'
    rw [same.pid t member, same.pid u member'] at equal
    exact inv.pidInjective t member u member' equal
  case parent =>
    intro t member
    rw [all] at member ⊢
    rw [same.parentTask t member]
    exact inv.parent t member
  case selfParent =>
    intro t member self
    rw [all] at member
    rw [same.parentTask t member] at self
    rw [same.pid t member]
    exact inv.selfParent t member self
  case rooted =>
    intro S some
    rw [all] at some ⊢
    obtain ⟨t, member, inside, root⟩ := inv.rooted S some
    refine ⟨t, member, inside, ?_⟩
    rw [same.parentTask t member]
    exact root
  case exiting => rw [all]; exact same.exiting
  case exitPid =>
    intro t member place
    rw [all] at member
    rw [same.pid t member]
    exact inv.exitPid t member (same.place t member place)
  case childless =>
    intro t member place c child
    rw [all] at member child
    rw [same.parentTask c child]
    exact inv.childless t member (same.place t member place) c child

theorem Shuffle.sameTree {s after : Tasks} (moved : Shuffle s after)
    (exiting : ∀ t ∈ s.allTasksList, (s.task t).status = .hanging → (s.task t).place = .inExit) :
    SameTree s after where
  allTasksList := moved.allTasksList
  idleTask := moved.idleTask
  initProc := moved.initProc
  pidBitmap := moved.pidBitmap
  page := fun t held => by rw [moved.pool]; exact held
  pool := moved.pool
  pml4Log := moved.pml4Log
  pml4 := fun t _ => moved.pml4 t
  pid := fun t _ => moved.pid t
  parentTask := fun t _ => moved.parentTask t
  place := fun t _ place => (moved.place t).symm.trans place
  exiting := fun t member hangs => (moved.place t).trans (exiting t member (moved.hanging t hangs))

theorem SameTree.trans {first second third : Tasks} (left : SameTree first second) (right : SameTree second third) :
    SameTree first third := by
  have kept : ∀ t ∈ first.allTasksList, t ∈ second.allTasksList := by
    intro t member
    rw [left.allTasksList]
    exact member
  refine ⟨⟨right.allTasksList.trans left.allTasksList, right.idleTask.trans left.idleTask,
    right.initProc.trans left.initProc, right.pidBitmap.trans left.pidBitmap,
    fun t held => right.page t (left.page t held), ?_, ?_, ?_, fun t member => right.exiting t (kept t member)⟩,
    right.pool.trans left.pool, right.pml4Log.trans left.pml4Log, ?_⟩
  · exact fun t member => (right.pid t (kept t member)).trans (left.pid t member)
  · exact fun t member => (right.parentTask t (kept t member)).trans (left.parentTask t member)
  · exact fun t member place => left.place t member (right.place t (kept t member) place)
  · exact fun t member => (right.pml4 t (kept t member)).trans (left.pml4 t member)

theorem sameTree_modify {s : Tasks} (inv : TreeInv s) (t : Page) (f : TaskStruct → TaskStruct)
    (pml4 : (f (s.task t)).pml4 = (s.task t).pml4) (pid : (f (s.task t)).pid = (s.task t).pid)
    (parent : (f (s.task t)).parentTask = (s.task t).parentTask)
    (place : (f (s.task t)).place = .inExit → (s.task t).place = .inExit)
    (status : (f (s.task t)).status = .hanging → (f (s.task t)).place = .inExit) :
    SameTree s (s.modify t f) := by
  refine ⟨⟨rfl, rfl, rfl, rfl, fun _ held => held, ?_, ?_, ?_, ?_⟩, rfl, rfl, ?_⟩
  · intro u _
    by_cases same : u = t
    · subst same; simpa using pid
    · simp [same]
  · intro u _
    by_cases same : u = t
    · subst same; simpa using parent
    · simp [same]
  · intro u _
    by_cases same : u = t
    · subst same; simpa using place
    · simp [same]
  · intro u member
    by_cases same : u = t
    · subst same; simpa using status
    · simpa [same] using inv.exiting u member
  · intro u _
    by_cases same : u = t
    · subst same; simpa using pml4
    · simp [same]

theorem nodup_snoc {l : List Page} {t : Page} (nodup : l.Nodup) (fresh : t ∉ l) : (l ++ [t]).Nodup := by
  refine List.nodup_append.mpr ⟨nodup, List.nodup_singleton _, ?_⟩
  rintro a member b last rfl
  rw [List.mem_singleton.mp last] at member
  exact fresh member

theorem taskUnblock_sched {s after : Tasks} {t : Page} (inv : SchedInv s) (member : t ∈ s.allTasksList)
    (ran : taskUnblock s t = .ok after) : SchedInv after := by
  obtain ⟨fresh, rfl⟩ := taskUnblock_cases ran
  refine ⟨List.nodup_cons.mpr ⟨fresh, inv.nodup⟩, ?_, inv.current, inv.running⟩
  intro u queued
  rcases List.mem_cons.mp queued with rfl | old
  · exact member
  · exact inv.ready u old

theorem schedule_sched {s after : Tasks} (nodup : s.readyTasksList.Nodup)
    (ready : ∀ t ∈ s.readyTasksList, t ∈ s.allTasksList)
    (current : s.current ∈ s.allTasksList) (idle : s.idleTask ∈ s.allTasksList)
    (ran : schedule s = .ok after) : SchedInv after := by
  obtain ⟨first, second, queued, chosen, switched⟩ := schedule_cases ran
  have listed : (∀ t ∈ first.readyTasksList, t ∈ s.allTasksList) ∧ first.idleTask = s.idleTask ∧
      first.allTasksList = s.allTasksList ∧ first.readyTasksList.Nodup := by
    rcases requeue_cases queued with rfl | ⟨_, fresh, rfl⟩
    · exact ⟨ready, rfl, rfl, nodup⟩
    · refine ⟨?_, rfl, rfl, nodup_snoc nodup fresh⟩
      intro t member
      rcases List.mem_append.mp member with old | last
      · exact ready t old
      · rw [List.mem_singleton.mp last]; exact current
  have listedSecond : (∀ t ∈ second.readyTasksList, t ∈ s.allTasksList) ∧
      second.allTasksList = s.allTasksList ∧ second.readyTasksList.Nodup := by
    rcases chosen with rfl | woken
    · exact ⟨listed.1, listed.2.2⟩
    · obtain ⟨fresh, rfl⟩ := taskUnblock_cases woken
      refine ⟨?_, listed.2.2.1, List.nodup_cons.mpr ⟨fresh, listed.2.2.2⟩⟩
      intro t member
      rcases List.mem_cons.mp member with rfl | old
      · rw [listed.2.1]; exact idle
      · exact listed.1 t old
  obtain ⟨next, rest, same, rfl⟩ := switchNext_cases switched
  rw [same] at listedSecond
  obtain ⟨inside, all, nodupAll⟩ := listedSecond
  refine ⟨(List.nodup_cons.mp nodupAll).2, ?_, ?_, ?_⟩
  · intro t member
    exact all ▸ inside t (List.mem_cons_of_mem _ member)
  · exact all ▸ inside next (List.mem_cons_self ..)
  · simp [Tasks.setStatus]

theorem taskBlock_sched {s after : Tasks} {status : TaskStatus} (inv : SchedInv s) (idle : s.idleTask ∈ s.allTasksList)
    (ran : taskBlock s status = .ok after) : SchedInv after := by
  have scheduled := taskBlock_cases ran
  exact schedule_sched (s := s.setStatus s.current status) inv.nodup inv.ready inv.current idle scheduled

theorem taskYield_sched {s after : Tasks} (inv : SchedInv s) (idle : s.idleTask ∈ s.allTasksList)
    (ran : taskYield s = .ok after) : SchedInv after := by
  obtain ⟨fresh, scheduled⟩ := taskYield_cases ran
  refine schedule_sched (nodup_snoc inv.nodup fresh) ?_ ?_ ?_ scheduled
  case refine_2 => exact inv.current
  case refine_3 => exact idle
  intro t member
  rcases List.mem_append.mp member with old | last
  · exact inv.ready t old
  · rw [List.mem_singleton.mp last]; exact inv.current

theorem TreeInv.length_le {s : Tasks} (inv : TreeInv s) : s.allTasksList.length ≤ kernelPoolPages := by
  have subset : s.allTasksList.toFinset ⊆ Finset.Ico kernelPoolStart (kernelPoolStart + kernelPoolPages) := by
    intro t member
    have bounds := (inv.page t (List.mem_toFinset.mp member)).1
    exact Finset.mem_Ico.mpr bounds
  have card := Finset.card_le_card subset
  rw [List.toFinset_card_of_nodup inv.nodup, Nat.card_Ico] at card
  omega

theorem TreeInv.allocPid {s : Tasks} (inv : TreeInv s) :
    ∃ i : Nat, 1 < i ∧ i < 1024 ∧ s.pidBitmap.bits i = false ∧
      Task.allocPid s = ((i : Int), { s with pidBitmap := Lib.bitmapSet s.pidBitmap i true }) := by
  cases found : Lib.bitmapAlloc s.pidBitmap 1 with
  | none =>
    exfalso
    have full := Lib.bitmapAlloc_one_none found
    rw [inv.bytesLen] at full
    have covered : Finset.range 1024 ⊆ s.allTasksList.toFinset.image fun t => (s.task t).pid.toNat := by
      intro i bound
      obtain ⟨t, member, pid⟩ := (inv.pidMarked i (Finset.mem_range.mp bound)).mp (full i (Finset.mem_range.mp bound))
      exact Finset.mem_image.mpr ⟨t, List.mem_toFinset.mpr member, by simp [pid]⟩
    have few := (Finset.card_le_card covered).trans Finset.card_image_le
    rw [Finset.card_range, List.toFinset_card_of_nodup inv.nodup] at few
    have bound := inv.length_le
    simp only [kernelPoolPages] at bound
    omega
  | some result =>
    obtain ⟨i, btmp⟩ := result
    obtain ⟨bound, clear, _, rfl⟩ := Lib.bitmapAlloc_one_some found
    rw [inv.bytesLen] at bound
    have marked := fun t member (k : Nat) (pid : (s.task t).pid = k) (small : k < 1024) =>
      (inv.pidMarked k small).mpr ⟨t, member, pid⟩
    have zero := marked _ inv.idle 0 inv.idlePid (by omega)
    have one := marked _ inv.init 1 inv.initPid (by omega)
    refine ⟨i, ?_, bound, clear, ?_⟩
    · by_contra small
      have cases : i = 0 ∨ i = 1 := by omega
      rcases cases with rfl | rfl
      · rw [zero] at clear; cases clear
      · rw [one] at clear; cases clear
    · simp [Task.allocPid, found]

theorem TreeInv.create {s after : Tasks} {task : Page} {prio : Nat} (inv : TreeInv s) (sched : SchedInv s)
    (user : (s.task s.current).place ≠ .inExit) (ran : createTask s task prio = .ok after) :
    TreeInv after ∧ SchedInv after ∧ (after.task task).parentTask = s.current ∧
      (after.task task).pml4 = (s.task s.current).pml4 := by
  obtain ⟨pid, parent, btmp, numbered, bitmap, chosen, low, high, free, absent, fresh, records, all, ready, cur, idle,
    init, bits, pool, _⟩ := createTask_cases ran
  obtain ⟨i, large, small, clear, allocated⟩ := inv.allocPid
  rw [allocated] at numbered bitmap
  subst numbered
  have parentIs : parent = s.current := by
    rw [chosen]
    simp only [gt_iff_lt]
    rw [if_pos (by exact_mod_cast large)]
  subst parentIs
  have bitsIs : after.pidBitmap = Lib.bitmapSet s.pidBitmap i true := by
    rw [bits]
    exact (congrArg Tasks.pidBitmap bitmap).symm
  have old : ∀ t ∈ s.allTasksList, after.task t = s.task t := by
    intro t member
    rw [records]
    exact Function.update_of_ne (by rintro rfl; exact absent member) _ _
  have new : after.task task = { s.task task with
      pid := i, parentTask := s.current, pml4 := (s.task s.current).pml4, prio := prio, ticks := prio,
      place := .user, status := .ready } := by
    rw [records]
    exact Function.update_self ..
  have members : ∀ t, t ∈ after.allTasksList ↔ t ∈ s.allTasksList ∨ t = task := by
    intro t
    simp [all]
  have distinct : ∀ t ∈ s.allTasksList, (s.task t).pid ≠ i := by
    intro t member same
    have := (inv.pidMarked i small).mpr ⟨t, member, same⟩
    rw [this] at clear
    cases clear
  have curNe : s.current ≠ task := by
    rintro rfl
    exact absent sched.current
  have sched' : SchedInv after := by
    refine ⟨by rw [ready]; exact nodup_snoc sched.nodup fresh, ?_, ?_, ?_⟩
    · intro t queued
      rw [ready] at queued
      rw [members]
      rcases List.mem_append.mp queued with earlier | last
      · exact .inl (sched.ready t earlier)
      · exact .inr (List.mem_singleton.mp last)
    · rw [members, cur]
      exact .inl sched.current
    · rw [cur, old _ sched.current]
      exact sched.running
  refine ⟨?_, sched', by rw [new], by rw [new]⟩
  constructor
  case nodup =>
    rw [all]
    exact nodup_snoc inv.nodup absent
  case idle => rw [members, idle]; exact .inl inv.idle
  case init => rw [members, init]; exact .inl inv.init
  case idlePid => rw [idle, old _ inv.idle]; exact inv.idlePid
  case initPid => rw [init, old _ inv.init]; exact inv.initPid
  case initParent => rw [init, old _ inv.init]; exact inv.initParent
  case bytesLen => rw [bitsIs]; exact inv.bytesLen
  case page =>
    intro t member
    rw [pool]
    rcases (members t).mp member with earlier | rfl
    · refine ⟨(inv.page t earlier).1, ?_⟩
      simp only [Function.update_apply]
      split
      · rfl
      · exact (inv.page t earlier).2
    · exact ⟨⟨low, high⟩, by simp⟩
  case pidRange =>
    intro t member
    rcases (members t).mp member with earlier | rfl
    · rw [old t earlier]; exact inv.pidRange t earlier
    · rw [new]
      exact ⟨Int.natCast_nonneg i, by dsimp only; omega⟩
  case pidMarked =>
    intro k bound
    rw [bitsIs, Lib.bitmapSet_bits]
    constructor
    · intro marked
      split at marked
      · rename_i same
        exact ⟨task, (members task).mpr (.inr rfl), by rw [new, same]⟩
      · obtain ⟨t, member, pid⟩ := (inv.pidMarked k bound).mp marked
        exact ⟨t, (members t).mpr (.inl member), by rw [old t member]; exact pid⟩
    · rintro ⟨t, member, pid⟩
      rcases (members t).mp member with earlier | rfl
      · rw [old t earlier] at pid
        split
        · rfl
        · exact (inv.pidMarked k bound).mpr ⟨t, earlier, pid⟩
      · rw [new] at pid
        have same : k = i := by
          dsimp only at pid
          exact_mod_cast pid.symm
        simp [same]
  case pidInjective =>
    intro t member u member' same
    rcases (members t).mp member with earlier | rfl
    · rcases (members u).mp member' with earlier' | rfl
      · rw [old t earlier, old u earlier'] at same
        exact inv.pidInjective t earlier u earlier' same
      · rw [old t earlier, new] at same
        exact absurd same (distinct t earlier)
    · rcases (members u).mp member' with earlier' | rfl
      · rw [old u earlier', new] at same
        exact absurd same.symm (distinct u earlier')
      · rfl
  case parent =>
    intro t member
    rcases (members t).mp member with earlier | rfl
    · rw [old t earlier, members]; exact .inl (inv.parent t earlier)
    · rw [new, members]; exact .inl sched.current
  case selfParent =>
    intro t member same
    rcases (members t).mp member with earlier | rfl
    · rw [old t earlier] at same ⊢; exact inv.selfParent t earlier same
    · rw [new] at same; exact absurd same curNe
  case rooted =>
    intro S some
    -- The new task is a leaf, so a set with an older task keeps the root it had.
    by_cases hasOld : ∃ t ∈ s.allTasksList, S t
    · obtain ⟨t, member, inside, root⟩ := inv.rooted S hasOld
      refine ⟨t, (members t).mpr (.inl member), inside, ?_⟩
      rw [old t member]
      exact root
    · obtain ⟨t, member, inside⟩ := some
      rcases (members t).mp member with earlier | rfl
      · exact absurd ⟨t, earlier, inside⟩ hasOld
      · refine ⟨t, member, inside, .inr ?_⟩
        rw [new]
        exact fun above => hasOld ⟨_, sched.current, above⟩
  case exiting =>
    intro t member hangs
    rcases (members t).mp member with earlier | rfl
    · rw [old t earlier] at hangs ⊢; exact inv.exiting t earlier hangs
    · rw [new] at hangs; cases hangs
  case exitPid =>
    intro t member place
    rcases (members t).mp member with earlier | rfl
    · rw [old t earlier] at place ⊢; exact inv.exitPid t earlier place
    · rw [new] at place; cases place
  case childless =>
    intro t member place c child
    rcases (members t).mp member with earlier | rfl
    · rw [old t earlier] at place
      rcases (members c).mp child with earlier' | rfl
      · rw [old c earlier']; exact inv.childless t earlier place c earlier'
      · rw [new]
        rintro rfl
        exact user place
    · rw [new] at place; cases place

/-- A hanging task is neither `init_proc` nor the idle task nor the running one, and nobody's parent. -/
theorem TreeInv.hanging_leaf {s : Tasks} (inv : TreeInv s) (sched : SchedInv s) {child : Page}
    (member : child ∈ s.allTasksList) (hangs : (s.task child).status = .hanging) :
    child ≠ s.current ∧ child ≠ s.idleTask ∧ child ≠ s.initProc ∧
      ∀ c ∈ s.allTasksList, (s.task c).parentTask ≠ child := by
  have place := inv.exiting child member hangs
  have pid := inv.exitPid child member place
  refine ⟨?_, ?_, ?_, inv.childless child member place⟩
  · rintro rfl
    rw [sched.running] at hangs
    cases hangs
  · rintro rfl
    rw [inv.idlePid] at pid
    omega
  · rintro rfl
    rw [inv.initPid] at pid
    omega

theorem TreeInv.reap {s after : Tasks} {child : Page} (inv : TreeInv s) (sched : SchedInv s)
    (member : child ∈ s.allTasksList) (hangs : (s.task child).status = .hanging)
    (distinctPages : ∀ t ∈ s.allTasksList, t ≠ (s.task child).pml4 ∨ (s.task s.current).pml4 = (s.task child).pml4)
    (ran : Task.reap s child = .ok after) : TreeInv after ∧ SchedInv after := by
  obtain ⟨records, all, ready, cur, idle, init, bits, pages⟩ := reap_cases ran
  obtain ⟨notCurrent, notIdle, notInit, leaf⟩ := inv.hanging_leaf sched member hangs
  have old : ∀ t, t ≠ child → after.task t = s.task t := by
    intro t other
    rw [records]
    simp [Tasks.setStatus, other]
  have members : ∀ t, t ∈ after.allTasksList ↔ t ≠ child ∧ t ∈ s.allTasksList := by
    intro t
    rw [all]
    exact inv.nodup.mem_erase_iff
  have pool : ∀ t ∈ s.allTasksList, t ≠ child → after.pool t = s.pool t := by
    intro t inside other
    rcases pages with ⟨_, _, _, rest⟩ | ⟨differ, _, _, _, rest⟩
    · rw [rest]; simp [other]
    · rw [rest]
      have apart := (distinctPages t inside).resolve_right differ
      simp [other, apart]
  refine ⟨?_, ?_⟩
  · constructor
    case nodup => rw [all]; exact inv.nodup.erase _
    case idle => rw [members, idle]; exact ⟨notIdle.symm, inv.idle⟩
    case init => rw [members, init]; exact ⟨notInit.symm, inv.init⟩
    case idlePid => rw [idle, old _ notIdle.symm]; exact inv.idlePid
    case initPid => rw [init, old _ notInit.symm]; exact inv.initPid
    case initParent => rw [init, old _ notInit.symm]; exact inv.initParent
    case bytesLen => rw [bits]; exact inv.bytesLen
    case page =>
      intro t inside
      obtain ⟨other, earlier⟩ := (members t).mp inside
      rw [pool t earlier other]
      exact inv.page t earlier
    case pidRange =>
      intro t inside
      obtain ⟨other, earlier⟩ := (members t).mp inside
      rw [old t other]
      exact inv.pidRange t earlier
    case pidMarked =>
      intro k bound
      have range := inv.pidRange child member
      rw [bits, Lib.bitmapSet_bits]
      constructor
      · intro marked
        split at marked
        · cases marked
        · rename_i different
          obtain ⟨t, earlier, pid⟩ := (inv.pidMarked k bound).mp marked
          have other : t ≠ child := by
            rintro rfl
            omega
          exact ⟨t, (members t).mpr ⟨other, earlier⟩, by rw [old t other]; exact pid⟩
      · rintro ⟨t, inside, pid⟩
        obtain ⟨other, earlier⟩ := (members t).mp inside
        rw [old t other] at pid
        have different : k ≠ (s.task child).pid.toNat := by
          intro same
          exact other (inv.pidInjective t earlier child member (by omega))
        simp only [different, if_false]
        exact (inv.pidMarked k bound).mpr ⟨t, earlier, pid⟩
    case pidInjective =>
      intro t inside u inside' same
      obtain ⟨other, earlier⟩ := (members t).mp inside
      obtain ⟨other', earlier'⟩ := (members u).mp inside'
      rw [old t other, old u other'] at same
      exact inv.pidInjective t earlier u earlier' same
    case parent =>
      intro t inside
      obtain ⟨other, earlier⟩ := (members t).mp inside
      rw [old t other, members]
      exact ⟨leaf t earlier, inv.parent t earlier⟩
    case selfParent =>
      intro t inside same
      obtain ⟨other, earlier⟩ := (members t).mp inside
      rw [old t other] at same ⊢
      exact inv.selfParent t earlier same
    case rooted =>
      intro S some
      obtain ⟨u, inside, chosen⟩ := some
      obtain ⟨t, earlier, ⟨taken, other⟩, root⟩ :=
        inv.rooted (fun t => S t ∧ t ≠ child) ⟨u, ((members u).mp inside).2, chosen, ((members u).mp inside).1⟩
      refine ⟨t, (members t).mpr ⟨other, earlier⟩, taken, ?_⟩
      rw [old t other]
      rcases root with self | outside
      · exact .inl self
      · exact .inr fun above => outside ⟨above, leaf t earlier⟩
    case exiting =>
      intro t inside hanging
      obtain ⟨other, earlier⟩ := (members t).mp inside
      rw [old t other] at hanging ⊢
      exact inv.exiting t earlier hanging
    case exitPid =>
      intro t inside place
      obtain ⟨other, earlier⟩ := (members t).mp inside
      rw [old t other] at place ⊢
      exact inv.exitPid t earlier place
    case childless =>
      intro t inside place c inside'
      obtain ⟨other, earlier⟩ := (members t).mp inside
      obtain ⟨other', earlier'⟩ := (members c).mp inside'
      rw [old t other] at place
      rw [old c other']
      exact inv.childless t earlier place c earlier'
  · have readyIff : ∀ t, t ∈ after.readyTasksList ↔ t ≠ child ∧ t ∈ s.readyTasksList := by
      intro t
      rw [ready]
      by_cases queued : child ∈ s.readyTasksList
      · simp only [List.contains_iff_mem, queued, if_true]
        exact sched.nodup.mem_erase_iff
      · simp only [List.contains_iff_mem, queued, if_false]
        exact ⟨fun inside => ⟨by rintro rfl; exact queued inside, inside⟩, fun both => both.2⟩
    refine ⟨?_, ?_, ?_, ?_⟩
    · rw [ready]
      split
      · exact sched.nodup.erase _
      · exact sched.nodup
    · intro t queued
      obtain ⟨other, earlier⟩ := (readyIff t).mp queued
      exact (members t).mpr ⟨other, sched.ready t earlier⟩
    · rw [members, cur]
      exact ⟨notCurrent.symm, sched.current⟩
    · rw [cur, old _ notCurrent.symm]
      exact sched.running

theorem exitStart_task {s after : Tasks} {status : Int} (ran : exitStart s status = .ok after) (t : Page) :
    (after.task t).pml4 = (s.task t).pml4 ∧ (after.task t).pid = (s.task t).pid ∧
      (after.task t).status = (s.task t).status ∧
      (after.task t).place = (if t = s.current then .inExit else (s.task t).place) ∧
      (after.task t).parentTask = (if t ∈ s.allTasksList ∧ (s.task t).parentTask = s.current then s.initProc
        else (s.task t).parentTask) := by
  obtain ⟨_, rfl⟩ := exitStart_cases ran
  rw [initAdopt_task]
  by_cases same : t = s.current
  · subst same
    simp only [Tasks.modify_task, if_true, Tasks.modify_allTasksList, Tasks.modify_initProc]
    split <;> simp
  · simp only [Tasks.modify_task, same, if_false, Tasks.modify_allTasksList, Tasks.modify_initProc]
    split <;> simp

theorem exitStart_lists {s after : Tasks} {status : Int} (ran : exitStart s status = .ok after) :
    after.allTasksList = s.allTasksList ∧ after.readyTasksList = s.readyTasksList ∧ after.current = s.current ∧
      after.idleTask = s.idleTask ∧ after.initProc = s.initProc ∧ after.pidBitmap = s.pidBitmap ∧
      after.pool = s.pool ∧ after.pml4Log = s.pml4Log := by
  obtain ⟨_, rfl⟩ := exitStart_cases ran
  exact ⟨rfl, rfl, rfl, rfl, rfl, rfl, rfl, rfl⟩

theorem SchedInv.exitStart {s after : Tasks} {status : Int} (sched : SchedInv s)
    (ran : Task.exitStart s status = .ok after) : SchedInv after := by
  obtain ⟨all, ready, cur, _⟩ := exitStart_lists ran
  refine ⟨by rw [ready]; exact sched.nodup, by rw [ready, all]; exact sched.ready,
    by rw [cur, all]; exact sched.current, ?_⟩
  rw [cur, (exitStart_task ran s.current).2.2.1]
  exact sched.running

theorem TreeInv.exitStart {s after : Tasks} {status : Int} (inv : TreeInv s)
    (ran : Task.exitStart s status = .ok after) : TreeInv after := by
  obtain ⟨all, _, _, idle, init, bits, pool, _⟩ := exitStart_lists ran
  have user := (exitStart_cases ran).1
  have record := exitStart_task ran
  have notInit : s.current ≠ s.initProc := by
    intro same
    rw [same, inv.initPid] at user
    omega
  constructor
  case nodup => rw [all]; exact inv.nodup
  case idle => rw [all, idle]; exact inv.idle
  case init => rw [all, init]; exact inv.init
  case idlePid => rw [idle, (record _).2.1]; exact inv.idlePid
  case initPid => rw [init, (record _).2.1]; exact inv.initPid
  case initParent =>
    rw [init, (record _).2.2.2.2]
    split
    · rfl
    · exact inv.initParent
  case page => rw [all, pool]; exact inv.page
  case bytesLen => rw [bits]; exact inv.bytesLen
  case pidRange =>
    intro t member
    rw [(record t).2.1]
    exact inv.pidRange t (all ▸ member)
  case pidMarked =>
    intro k bound
    rw [bits, all]
    simp only [(record _).2.1]
    exact inv.pidMarked k bound
  case pidInjective =>
    intro t member u member' same
    rw [(record t).2.1, (record u).2.1] at same
    exact inv.pidInjective t (all ▸ member) u (all ▸ member') same
  case parent =>
    intro t member
    rw [all] at member ⊢
    rw [(record t).2.2.2.2]
    split
    · exact inv.init
    · exact inv.parent t member
  case selfParent =>
    intro t member same
    rw [all] at member
    rw [(record t).2.2.2.2] at same
    rw [(record t).2.1]
    split at same
    · rw [← same, inv.initPid]
    · exact inv.selfParent t member same
  case rooted =>
    intro S some
    rw [all] at some ⊢
    -- A set with an adopted task but without `init_proc` has that task as a root; otherwise the old root serves.
    by_cases adopter : S s.initProc
    · refine ⟨s.initProc, inv.init, adopter, .inl ?_⟩
      rw [(record _).2.2.2.2]
      split
      · rfl
      · exact inv.initParent
    · by_cases moved : ∃ t ∈ s.allTasksList, S t ∧ (s.task t).parentTask = s.current
      · obtain ⟨t, member, inside, child⟩ := moved
        refine ⟨t, member, inside, .inr ?_⟩
        rw [(record t).2.2.2.2, if_pos ⟨member, child⟩]
        exact adopter
      · obtain ⟨t, member, inside, root⟩ := inv.rooted S some
        refine ⟨t, member, inside, ?_⟩
        rw [(record t).2.2.2.2, if_neg fun both => moved ⟨t, member, inside, both.2⟩]
        exact root
  case exiting =>
    intro t member hangs
    rw [all] at member
    rw [(record t).2.2.1] at hangs
    rw [(record t).2.2.2.1]
    split
    · rfl
    · exact inv.exiting t member hangs
  case exitPid =>
    intro t member place
    rw [all] at member
    rw [(record t).2.2.2.1] at place
    rw [(record t).2.1]
    split at place
    · rename_i same
      rw [same]
      exact user
    · exact inv.exitPid t member place
  case childless =>
    intro t member place c child related
    rw [all] at member child
    rw [(record t).2.2.2.1] at place
    rw [(record c).2.2.2.2] at related
    split at related
    · subst related
      rw [if_neg notInit.symm] at place
      have pid := inv.exitPid _ member place
      rw [inv.initPid] at pid
      omega
    · rename_i kept
      split at place
      · rename_i same
        exact kept ⟨child, related.trans same⟩
      · exact inv.childless t member place c child related

theorem treeInv_init {idle main : Page} {held : Page → Bool} (idlePage : InPool idle) (mainPage : InPool main)
    (distinct : idle ≠ main) : TreeInv (taskInit idle main held) ∧ SchedInv (taskInit idle main held) := by
  have members : ∀ t, t ∈ (taskInit idle main held).allTasksList ↔ t = idle ∨ t = main := by
    intro t
    simp [taskInit]
  refine ⟨?_, ⟨by simp [taskInit], by simp [taskInit], by simp [taskInit], by simp [taskInit]⟩⟩
  constructor
  case nodup => simp [taskInit, distinct]
  case idle => simp [taskInit]
  case init => simp [taskInit]
  case idlePid => simp [taskInit, distinct]
  case initPid => simp [taskInit]
  case initParent => simp [taskInit]
  case bytesLen => rfl
  case page =>
    intro t member
    rcases (members t).mp member with rfl | rfl
    · exact ⟨idlePage, by simp [taskInit]⟩
    · exact ⟨mainPage, by simp [taskInit]⟩
  case pidRange =>
    intro t member
    simp only [taskInit]
    split <;> omega
  case pidMarked =>
    intro k bound
    simp only [members]
    simp only [taskInit, decide_eq_true_eq]
    constructor
    · intro small
      have cases : k = 0 ∨ k = 1 := by omega
      rcases cases with rfl | rfl
      · exact ⟨idle, .inl rfl, by simp [distinct]⟩
      · exact ⟨main, .inr rfl, by simp⟩
    · rintro ⟨t, _, pid⟩
      split at pid <;> omega
  case pidInjective =>
    intro t member u member' same
    rcases (members t).mp member with rfl | rfl <;> rcases (members u).mp member' with rfl | rfl
    all_goals simp [taskInit, distinct] at same ⊢
  case parent =>
    intro t member
    rw [members]
    simp only [taskInit]
    split
    · exact .inr rfl
    · exact .inl rfl
  case selfParent =>
    intro t member _
    simp only [taskInit]
    split <;> omega
  case rooted =>
    rintro S ⟨t, member, inside⟩
    refine ⟨t, member, inside, .inl ?_⟩
    rcases (members t).mp member with rfl | rfl
    · simp [taskInit, distinct]
    · simp [taskInit]
  case exiting =>
    intro t member hangs
    simp only [taskInit] at hangs
    split at hangs <;> cases hangs
  case exitPid =>
    intro t member place
    cases place
  case childless =>
    intro t member place
    cases place

end RecoverOs.Task
