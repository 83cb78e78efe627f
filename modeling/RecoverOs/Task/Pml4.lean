import RecoverOs.Task.Tree

namespace RecoverOs.Task

open Transition

def Outstanding (s : Tasks) (page : Page) : Prop :=
  s.pml4Log.count (.alloc page) = s.pml4Log.count (.free page) + 1

/-- No table is freed twice, and none that a task not yet reaped still runs on has been freed. -/
def Pml4Safe (s : Tasks) : Prop :=
  (∀ page, s.pml4Log.count (.free page) ≤ s.pml4Log.count (.alloc page)) ∧
    ∀ t ∈ s.allTasksList, (s.task t).pml4 ≠ kernelPml4 → Outstanding s (s.task t).pml4

/-- A task that owns or shares an allocated table exits only after it has reaped every child on that table. -/
def ThreadsReaped (s : Tasks) : Op → Prop
  | .exit _ | .exitBlock _ => ∀ c ∈ s.allTasksList, (s.task c).parentTask = s.current →
      (s.task c).pml4 = (s.task s.current).pml4 → (s.task s.current).pml4 = kernelPml4
  | _ => True

instance (s : Tasks) : (op : Op) → Decidable (ThreadsReaped s op)
  | .exit _ | .exitBlock _ => inferInstanceAs (Decidable (∀ c ∈ s.allTasksList,
      (s.task c).parentTask = s.current → (s.task c).pml4 = (s.task s.current).pml4 →
        (s.task s.current).pml4 = kernelPml4))
  | .tick | .idle | .yield | .block | .unblock _ | .clone _ _ _ | .wait | .waitResume | .exitAgain | .exitResume =>
    isTrue True.intro

structure Pml4Inv (s : Tasks) : Prop where
  balance : ∀ page, s.pml4Log.count (.free page) ≤ s.pml4Log.count (.alloc page) ∧
    s.pml4Log.count (.alloc page) ≤ s.pml4Log.count (.free page) + 1
  held : ∀ page, Outstanding s page → s.pool page = true ∧ page ∉ s.allTasksList
  used : ∀ t ∈ s.allTasksList, (s.task t).pml4 ≠ kernelPml4 → Outstanding s (s.task t).pml4
  init : (s.task s.initProc).pml4 = kernelPml4
  selfParent : ∀ t ∈ s.allTasksList, (s.task t).parentTask = t → (s.task t).pml4 = kernelPml4
  kernel : ∀ t ∈ s.allTasksList, (s.task t).pml4 = kernelPml4 → (s.task (s.task t).parentTask).pml4 = kernelPml4
  /-- At most one task of a table has its parent on another table. -/
  owner : ∀ t ∈ s.allTasksList, ∀ u ∈ s.allTasksList, (s.task t).pml4 = (s.task u).pml4 →
    (s.task t).pml4 ≠ kernelPml4 → (s.task (s.task t).parentTask).pml4 ≠ (s.task t).pml4 →
    (s.task (s.task u).parentTask).pml4 ≠ (s.task u).pml4 → t = u

theorem Pml4Inv.safe {s : Tasks} (inv : Pml4Inv s) : Pml4Safe s :=
  ⟨fun page => (inv.balance page).1, inv.used⟩

structure TaskInv (s : Tasks) : Prop where
  tree : TreeInv s
  sched : SchedInv s
  pml4 : Pml4Inv s

theorem Pml4Inv.same {s after : Tasks} (inv : Pml4Inv s) (tree : TreeInv s) (same : SameTree s after) :
    Pml4Inv after := by
  have all := same.allTasksList
  have above : ∀ t ∈ s.allTasksList,
      (after.task (after.task t).parentTask).pml4 = (s.task (s.task t).parentTask).pml4 := by
    intro t member
    rw [same.parentTask t member, same.pml4 _ (tree.parent t member)]
  constructor
  case balance => rw [same.pml4Log]; exact inv.balance
  case held =>
    intro page outstanding
    rw [all, same.pool]
    unfold Outstanding at outstanding
    rw [same.pml4Log] at outstanding
    exact inv.held page outstanding
  case used =>
    intro t member other
    rw [all] at member
    rw [same.pml4 t member] at other ⊢
    unfold Outstanding
    rw [same.pml4Log]
    exact inv.used t member other
  case init => rw [same.initProc, same.pml4 _ tree.init]; exact inv.init
  case selfParent =>
    intro t member self
    rw [all] at member
    rw [same.parentTask t member] at self
    rw [same.pml4 t member]
    exact inv.selfParent t member self
  case kernel =>
    intro t member table
    rw [all] at member
    rw [same.pml4 t member] at table
    rw [above t member]
    exact inv.kernel t member table
  case owner =>
    intro t member u member' table other top top'
    rw [all] at member member'
    rw [same.pml4 t member] at table other top
    rw [same.pml4 u member'] at table top'
    rw [above t member] at top
    rw [above u member'] at top'
    exact inv.owner t member u member' table other top top'

theorem inPool_ne_kernelPml4 {page : Page} (pool : InPool page) : page ≠ kernelPml4 := by
  rintro rfl
  exact absurd pool.1 (by decide)

theorem TaskInv.create {s after : Tasks} {task : Page} {prio : Nat} (inv : TaskInv s)
    (user : (s.task s.current).place ≠ .inExit) (made : createTask s task prio = .ok after) : TaskInv after := by
  obtain ⟨tree, sched, parent, table⟩ := inv.tree.create inv.sched user made
  refine ⟨tree, sched, ?_⟩
  obtain ⟨_, _, _, _, _, _, _, _, free, absent, _, records, all, _, _, _, initSame, _, pool, log⟩ :=
    createTask_cases made
  have old : ∀ t ∈ s.allTasksList, after.task t = s.task t := by
    intro t member
    rw [records]
    exact Function.update_of_ne (by rintro rfl; exact absent member) _ _
  have members : ∀ t, t ∈ after.allTasksList ↔ t ∈ s.allTasksList ∨ t = task := by
    intro t
    simp [all]
  have current := inv.sched.current
  constructor
  case balance => rw [log]; exact inv.pml4.balance
  case held =>
    intro page outstanding
    unfold Outstanding at outstanding
    rw [log] at outstanding
    obtain ⟨live, outside⟩ := inv.pml4.held page outstanding
    have other : page ≠ task := by
      rintro rfl
      rw [live] at free
      cases free
    rw [pool]
    refine ⟨by simp [other, live], ?_⟩
    rw [members]
    exact fun inside => inside.elim outside other
  case used =>
    intro t member other
    unfold Outstanding
    rw [log]
    rcases (members t).mp member with earlier | rfl
    · rw [old t earlier] at other ⊢; exact inv.pml4.used t earlier other
    · rw [table] at other ⊢; exact inv.pml4.used _ current other
  case init => rw [initSame, old _ inv.tree.init]; exact inv.pml4.init
  case selfParent =>
    intro t member self
    rcases (members t).mp member with earlier | rfl
    · rw [old t earlier] at self ⊢; exact inv.pml4.selfParent t earlier self
    · rw [parent] at self
      exact absurd (self ▸ current) absent
  case kernel =>
    intro t member same
    rcases (members t).mp member with earlier | rfl
    · rw [old t earlier] at same ⊢
      rw [old _ (inv.tree.parent t earlier)]
      exact inv.pml4.kernel t earlier same
    · rw [table] at same
      rw [parent, old _ current]
      exact same
  case owner =>
    intro t member u member' same other top top'
    have notNew : ∀ v ∈ after.allTasksList, (after.task (after.task v).parentTask).pml4 ≠ (after.task v).pml4 →
        v ∈ s.allTasksList := by
      intro v inside above
      rcases (members v).mp inside with earlier | rfl
      · exact earlier
      · exfalso
        apply above
        rw [parent, table, old _ current]
    have earlier := notNew t member top
    have earlier' := notNew u member' top'
    rw [old _ earlier] at same other top
    rw [old _ earlier'] at same top'
    rw [old _ (inv.tree.parent t earlier)] at top
    rw [old _ (inv.tree.parent u earlier')] at top'
    exact inv.pml4.owner t earlier u earlier' same other top top'

theorem newTable_record {s after : Tasks} {task pml4 t : Page} (outside : t ≠ pml4)
    (moved : after = { (s.modify task fun ts => { ts with pml4 := pml4 }).clear pml4 with
      pool := Function.update s.pool pml4 true, pml4Log := .alloc pml4 :: s.pml4Log }) :
    after.task t = if t = task then { s.task t with pml4 := pml4 } else s.task t := by
  rw [moved]
  by_cases same : t = task
  · subst same
    simp [Tasks.clear, outside]
  · simp [Tasks.clear, outside, same]

theorem TreeInv.ne_of_free {s : Tasks} {page : Page} (inv : TreeInv s) (free : s.pool page = false) :
    ∀ t ∈ s.allTasksList, t ≠ page := by
  rintro t member rfl
  rw [(inv.page t member).2] at free
  cases free

theorem TaskInv.newTable {s after : Tasks} {task pml4 : Page} (inv : TaskInv s)
    (leaf : ∀ c ∈ s.allTasksList, (s.task c).parentTask ≠ task) (page : InPool pml4) (free : s.pool pml4 = false)
    (moved : after = { (s.modify task fun ts => { ts with pml4 := pml4 }).clear pml4 with
      pool := Function.update s.pool pml4 true, pml4Log := .alloc pml4 :: s.pml4Log }) : TaskInv after := by
  have notKernel := inPool_ne_kernelPml4 page
  have outside := inv.tree.ne_of_free free
  have all : after.allTasksList = s.allTasksList := by rw [moved]; rfl
  have pool : after.pool = Function.update s.pool pml4 true := by rw [moved]
  have log : after.pml4Log = .alloc pml4 :: s.pml4Log := by rw [moved]
  have record := fun t inside => newTable_record (outside t inside) moved
  have recordSame : ∀ t ∈ s.allTasksList, (after.task t).pid = (s.task t).pid ∧
      (after.task t).parentTask = (s.task t).parentTask ∧ (after.task t).place = (s.task t).place ∧
      (after.task t).status = (s.task t).status := by
    intro t inside
    rw [record t inside]
    split
    · exact ⟨rfl, rfl, rfl, rfl⟩
    · exact ⟨rfl, rfl, rfl, rfl⟩
  have parentSame := fun t inside => (recordSame t inside).2.1
  have keeps : KeepsTree s after := by
    refine ⟨all, by rw [moved]; rfl, by rw [moved]; rfl, by rw [moved]; rfl, ?_,
      fun t inside => (recordSame t inside).1, parentSame, ?_, ?_⟩
    · intro t held
      rw [pool, Function.update_apply]
      split
      · rfl
      · exact held
    · intro t inside exits
      rw [(recordSame t inside).2.2.1] at exits
      exact exits
    · intro t inside hangs
      rw [(recordSame t inside).2.2.2] at hangs
      rw [(recordSame t inside).2.2.1]
      exact inv.tree.exiting t inside hangs
  have current : after.current = s.current := by rw [moved]; rfl
  have sched : SchedInv after := by
    refine ⟨by rw [moved]; exact inv.sched.nodup, by rw [moved]; exact inv.sched.ready,
      by rw [current, all]; exact inv.sched.current, ?_⟩
    rw [current, (recordSame _ inv.sched.current).2.2.2]
    exact inv.sched.running
  refine ⟨inv.tree.keep keeps, sched, ?_⟩
  have fresh : ¬ Outstanding s pml4 := by
    intro outstanding
    rw [(inv.pml4.held pml4 outstanding).1] at free
    cases free
  have counts : ∀ q, Outstanding after q ↔ Outstanding s q ∨ q = pml4 := by
    intro q
    have bound := inv.pml4.balance q
    unfold Outstanding at fresh ⊢
    rw [log]
    by_cases same : q = pml4
    · subst same
      simp only [List.count_cons_self, reduceCtorEq, not_false_eq_true, List.count_cons_of_ne, ne_eq, or_true, iff_true]
      omega
    · simp [same, Ne.symm same]
  have tableNe : ∀ t ∈ s.allTasksList, (s.task t).pml4 ≠ pml4 := by
    intro t inside same
    have outstanding := inv.pml4.used t inside (by rw [same]; exact notKernel)
    rw [same] at outstanding
    exact fresh outstanding
  have above : ∀ t ∈ s.allTasksList,
      (after.task (after.task t).parentTask).pml4 = (s.task (s.task t).parentTask).pml4 := by
    intro t inside
    rw [parentSame t inside, record _ (inv.tree.parent t inside), if_neg (leaf t inside)]
  constructor
  case balance =>
    intro q
    have bound := inv.pml4.balance q
    rw [log]
    by_cases same : q = pml4
    · subst same
      unfold Outstanding at fresh
      simp only [List.count_cons_self, reduceCtorEq, not_false_eq_true, List.count_cons_of_ne, ne_eq]
      omega
    · simpa [Ne.symm same] using bound
  case held =>
    intro q outstanding
    rw [all, pool]
    rcases (counts q).mp outstanding with earlier | rfl
    · obtain ⟨live, absent⟩ := inv.pml4.held q earlier
      refine ⟨?_, absent⟩
      rw [Function.update_apply]
      split
      · rfl
      · exact live
    · exact ⟨Function.update_self .., fun inside => outside q inside rfl⟩
  case used =>
    intro t inside other
    rw [all] at inside
    rw [counts]
    rw [record t inside] at other ⊢
    split
    · exact .inr rfl
    · rename_i different
      rw [if_neg different] at other
      exact .inl (inv.pml4.used t inside other)
  case init =>
    have different : s.initProc ≠ task := by
      intro same
      exact leaf _ inv.tree.init (inv.tree.initParent.trans same)
    rw [keeps.initProc, record _ inv.tree.init, if_neg different]
    exact inv.pml4.init
  case selfParent =>
    intro t inside self
    rw [all] at inside
    rw [parentSame t inside] at self
    have different : t ≠ task := by
      rintro rfl
      exact leaf t inside self
    rw [record t inside, if_neg different]
    exact inv.pml4.selfParent t inside self
  case kernel =>
    intro t inside table
    rw [all] at inside
    rw [above t inside]
    rw [record t inside] at table
    split at table
    · exact absurd table notKernel
    · exact inv.pml4.kernel t inside table
  case owner =>
    intro t inside u inside' table other top top'
    rw [all] at inside inside'
    rw [above t inside] at top
    rw [above u inside'] at top'
    rw [record t inside, record u inside'] at table
    rw [record t inside] at other top
    rw [record u inside'] at top'
    by_cases first : t = task
    · by_cases second : u = task
      · exact first.trans second.symm
      · rw [if_pos first, if_neg second] at table
        exact absurd table.symm (tableNe u inside')
    · by_cases second : u = task
      · rw [if_neg first, if_pos second] at table
        exact absurd table (tableNe t inside)
      · rw [if_neg first] at table other top
        rw [if_neg second] at table top'
        exact inv.pml4.owner t inside u inside' table other top top'

theorem TaskInv.clone {s after : Tasks} {cloneVm : Bool} {task pml4 : Page} (inv : TaskInv s)
    (user : (s.task s.current).place ≠ .inExit) (ran : sysClone s cloneVm task pml4 = .ok after) : TaskInv after := by
  obtain ⟨created, made, rest⟩ := sysClone_cases ran
  have next := inv.create user made
  rcases rest with ⟨_, rfl⟩ | ⟨_, low, high, free, moved⟩
  · exact next
  · obtain ⟨_, _, _, _, _, _, _, _, _, absent, _, records, all, _⟩ := createTask_cases made
    have parent := (inv.tree.create inv.sched user made).2.2.1
    have different : s.current ≠ task := by
      intro same
      exact absent (same ▸ inv.sched.current)
    refine next.newTable ?_ ⟨low, high⟩ free moved
    intro c member
    by_cases same : c = task
    · rw [same, parent]
      exact different
    · rw [records, Function.update_of_ne same]
      have earlier : c ∈ s.allTasksList := by simpa [all, same] using member
      exact fun related => absent (related ▸ inv.tree.parent c earlier)

/-- A hanging child whose table is not its parent's is the last task on that table. -/
theorem Pml4Inv.last_on_table {s : Tasks} (inv : Pml4Inv s) (tree : TreeInv s) (sched : SchedInv s) {child : Page}
    (member : child ∈ s.allTasksList) (hangs : (s.task child).status = .hanging)
    (differ : (s.task (s.task child).parentTask).pml4 ≠ (s.task child).pml4) :
    (s.task child).pml4 ≠ kernelPml4 ∧
      ∀ t ∈ s.allTasksList, t ≠ child → (s.task t).pml4 ≠ (s.task child).pml4 := by
  have notKernel : (s.task child).pml4 ≠ kernelPml4 := by
    intro same
    exact differ ((inv.kernel child member same).trans same.symm)
  refine ⟨notKernel, ?_⟩
  obtain ⟨_, _, _, leaf⟩ := tree.hanging_leaf sched member hangs
  intro t inside other same
  -- Among the other tasks of the table take one whose parent is not among them: it would be a second owner.
  obtain ⟨u, inside', ⟨onTable, notChild⟩, root⟩ :=
    tree.rooted (fun u => (s.task u).pml4 = (s.task child).pml4 ∧ u ≠ child) ⟨t, inside, same, other⟩
  rcases root with self | outside
  · exact notKernel (onTable ▸ inv.selfParent u inside' self)
  · have above : (s.task (s.task u).parentTask).pml4 ≠ (s.task u).pml4 := by
      intro shared
      exact outside ⟨shared.trans onTable, leaf u inside'⟩
    exact notChild (inv.owner u inside' child member onTable (onTable ▸ notKernel) above differ)

theorem Pml4Inv.reap {s after : Tasks} {child : Page} (inv : Pml4Inv s) (tree : TreeInv s) (sched : SchedInv s)
    (member : child ∈ s.allTasksList) (related : (s.task child).parentTask = s.current)
    (hangs : (s.task child).status = .hanging) (ran : Task.reap s child = .ok after) :
    Pml4Inv after ∧ TreeInv after ∧ SchedInv after := by
  have lone := fun differ : (s.task s.current).pml4 ≠ (s.task child).pml4 =>
    inv.last_on_table tree sched member hangs (by rw [related]; exact differ)
  have distinctPages : ∀ t ∈ s.allTasksList,
      t ≠ (s.task child).pml4 ∨ (s.task s.current).pml4 = (s.task child).pml4 := by
    intro t inside
    by_cases same : (s.task s.current).pml4 = (s.task child).pml4
    · exact .inr same
    · refine .inl ?_
      rintro rfl
      exact (inv.held _ (inv.used child member (lone same).1)).2 inside
  obtain ⟨tree', sched'⟩ := tree.reap sched member hangs distinctPages ran
  refine ⟨?_, tree', sched'⟩
  obtain ⟨_, _, notInit, leaf⟩ := tree.hanging_leaf sched member hangs
  obtain ⟨records, all, _, _, _, init, _, pages⟩ := reap_cases ran
  have old : ∀ t, t ≠ child → after.task t = s.task t := by
    intro t other
    rw [records]
    simp [Tasks.setStatus, other]
  have members : ∀ t, t ∈ after.allTasksList ↔ t ≠ child ∧ t ∈ s.allTasksList := by
    intro t
    rw [all]
    exact tree.nodup.mem_erase_iff
  have parentOld : ∀ t ∈ s.allTasksList, after.task (s.task t).parentTask = s.task (s.task t).parentTask :=
    fun t inside => old _ (leaf t inside)
  -- Outstanding tables: all the old ones, less the one that is freed with the last task on it.
  have outstanding : ∀ page, Outstanding after page ↔ Outstanding s page ∧
      ((s.task s.current).pml4 = (s.task child).pml4 ∨ page ≠ (s.task child).pml4) := by
    intro page
    unfold Outstanding
    rcases pages with ⟨same, _, log, _⟩ | ⟨differ, _, _, log, _⟩
    · simp [log, same]
    · rw [log]
      by_cases freed : page = (s.task child).pml4
      · have live := inv.used child member (lone differ).1
        unfold Outstanding at live
        subst freed
        simp only [List.count_cons, differ, ne_eq, not_true, or_self, and_false, iff_false]
        simp
        omega
      · simp [freed, Ne.symm freed]
  constructor
  case balance =>
    intro page
    rcases pages with ⟨_, _, log, _⟩ | ⟨differ, _, _, log, _⟩
    · rw [log]; exact inv.balance page
    · rw [log]
      have bound := inv.balance page
      have live := inv.used child member (lone differ).1
      unfold Outstanding at live
      by_cases freed : page = (s.task child).pml4
      · subst freed
        simp only [List.count_cons]
        simp
        omega
      · simpa [Ne.symm freed] using bound
  case held =>
    intro page still
    obtain ⟨before, kept⟩ := (outstanding page).mp still
    obtain ⟨live, outside⟩ := inv.held page before
    have notChild : page ≠ child := by
      rintro rfl
      exact outside member
    refine ⟨?_, fun inside => outside ((members page).mp inside).2⟩
    rcases pages with ⟨_, _, _, pool⟩ | ⟨differ, _, _, _, pool⟩
    · rw [pool]; simp [notChild, live]
    · rw [pool]; simp [notChild, kept.resolve_left differ, live]
  case used =>
    intro t inside other
    obtain ⟨notChild, earlier⟩ := (members t).mp inside
    rw [old t notChild] at other ⊢
    refine (outstanding _).mpr ⟨inv.used t earlier other, ?_⟩
    by_cases same : (s.task s.current).pml4 = (s.task child).pml4
    · exact .inl same
    · exact .inr ((lone same).2 t earlier notChild)
  case init => rw [init, old _ notInit.symm]; exact inv.init
  case selfParent =>
    intro t inside self
    obtain ⟨notChild, earlier⟩ := (members t).mp inside
    rw [old t notChild] at self ⊢
    exact inv.selfParent t earlier self
  case kernel =>
    intro t inside same
    obtain ⟨notChild, earlier⟩ := (members t).mp inside
    rw [old t notChild] at same ⊢
    rw [parentOld t earlier]
    exact inv.kernel t earlier same
  case owner =>
    intro t inside u inside' same other top top'
    obtain ⟨notChild, earlier⟩ := (members t).mp inside
    obtain ⟨notChild', earlier'⟩ := (members u).mp inside'
    rw [old t notChild] at same other top
    rw [old u notChild'] at same top'
    rw [parentOld t earlier] at top
    rw [parentOld u earlier'] at top'
    exact inv.owner t earlier u earlier' same other top top'

theorem Pml4Inv.exitStart {s after : Tasks} {status : Int} (inv : Pml4Inv s)
    (reaped : ∀ c ∈ s.allTasksList, (s.task c).parentTask = s.current →
      (s.task c).pml4 = (s.task s.current).pml4 → (s.task s.current).pml4 = kernelPml4)
    (ran : Task.exitStart s status = .ok after) : Pml4Inv after := by
  obtain ⟨all, _, _, _, init, _, pool, log⟩ := exitStart_lists ran
  have record := exitStart_task ran
  have parentTable : ∀ t ∈ s.allTasksList, (after.task (after.task t).parentTask).pml4 =
      if (s.task t).parentTask = s.current then kernelPml4 else (s.task (s.task t).parentTask).pml4 := by
    intro t member
    rw [(record _).1, (record t).2.2.2.2]
    by_cases moved : (s.task t).parentTask = s.current
    · rw [if_pos ⟨member, moved⟩, if_pos moved]; exact inv.init
    · rw [if_neg fun both => moved both.2, if_neg moved]
  -- A task that heads its table after the adoption headed it before: an adopted child shared no table.
  have headed : ∀ t ∈ s.allTasksList, (s.task t).pml4 ≠ kernelPml4 →
      (after.task (after.task t).parentTask).pml4 ≠ (s.task t).pml4 →
      (s.task (s.task t).parentTask).pml4 ≠ (s.task t).pml4 := by
    intro t member other top same
    rw [parentTable t member] at top
    split at top
    · rename_i moved
      rw [moved] at same
      exact other (same.symm.trans (reaped t member moved same.symm))
    · exact top same
  constructor
  case balance => rw [log]; exact inv.balance
  case held =>
    intro page outstanding
    unfold Outstanding at outstanding
    rw [log] at outstanding
    rw [all, pool]
    exact inv.held page outstanding
  case used =>
    intro t member other
    unfold Outstanding
    rw [all] at member
    rw [(record t).1] at other ⊢
    rw [log]
    exact inv.used t member other
  case init => rw [init, (record _).1]; exact inv.init
  case selfParent =>
    intro t member self
    rw [all] at member
    rw [(record t).2.2.2.2] at self
    rw [(record t).1]
    split at self
    · rw [← self]; exact inv.init
    · exact inv.selfParent t member self
  case kernel =>
    intro t member same
    rw [all] at member
    rw [(record t).1] at same
    rw [parentTable t member]
    split
    · rfl
    · exact inv.kernel t member same
  case owner =>
    intro t member u member' same other top top'
    rw [all] at member member'
    rw [(record t).1] at same other top
    rw [(record u).1] at same top'
    exact inv.owner t member u member' same other (headed t member other top)
      (headed u member' (same ▸ other) top')

theorem TaskInv.same {s after : Tasks} (inv : TaskInv s) (same : SameTree s after) (sched : SchedInv after) :
    TaskInv after :=
  ⟨inv.tree.keep same.toKeepsTree, sched, inv.pml4.same inv.tree same⟩

theorem TaskInv.block {s after : Tasks} {status : TaskStatus} (inv : TaskInv s)
    (place : status = .hanging → (s.task s.current).place = .inExit) (ran : taskBlock s status = .ok after) :
    TaskInv after := by
  have changed : SameTree s (s.setStatus s.current status) :=
    sameTree_modify inv.tree s.current _ rfl rfl rfl id place
  have moved := (schedule_shuffle (taskBlock_cases ran)).sameTree (inv.tree.keep changed.toKeepsTree).exiting
  exact inv.same (changed.trans moved) (taskBlock_sched inv.sched inv.tree.idle ran)

theorem TaskInv.finish {s after : Tasks} (inv : TaskInv s) (place : (s.task s.current).place = .inExit)
    (ran : exitFinish s = .ok after) : TaskInv after := by
  simp only [exitFinish, bind_ok] at ran
  obtain ⟨woken, wake, blocked⟩ := ran
  split at wake
  · have moved := (taskUnblock_shuffle wake).sameTree inv.tree.exiting
    have sched := taskUnblock_sched inv.sched (inv.tree.parent _ inv.sched.current) wake
    refine (inv.same moved sched).block (fun _ => ?_) blocked
    obtain ⟨_, rfl⟩ := taskUnblock_cases wake
    exact place
  · cases wake
    exact inv.block (fun _ => place) blocked

theorem TaskInv.setPlace {s : Tasks} {place : Place} (inv : TaskInv s) (other : place ≠ .inExit) :
    TaskInv (s.setPlace s.current place) := by
  have alive : (s.task s.current).status ≠ .hanging := by
    rw [inv.sched.running]
    exact TaskStatus.noConfusion
  have changed : SameTree s (s.setPlace s.current place) :=
    sameTree_modify inv.tree s.current _ rfl rfl rfl (fun same => absurd same other) (fun hangs => absurd hangs alive)
  refine inv.same changed ⟨inv.sched.nodup, inv.sched.ready, inv.sched.current, ?_⟩
  simpa [Tasks.setPlace] using inv.sched.running

theorem TaskInv.reap {s after : Tasks} {child : Page} (inv : TaskInv s) (member : child ∈ s.allTasksList)
    (related : (s.task child).parentTask = s.current) (hangs : (s.task child).status = .hanging)
    (ran : Task.reap s child = .ok after) : TaskInv after := by
  obtain ⟨pml4, tree, sched⟩ := inv.pml4.reap inv.tree inv.sched member related hangs ran
  exact ⟨tree, sched, pml4⟩

theorem HangingChild.setPlace {s : Tasks} {child : Page} {place : Place} (sched : SchedInv s)
    (found : HangingChild s s.current child) : HangingChild (s.setPlace s.current place) s.current child := by
  obtain ⟨member, related, hangs⟩ := found
  have other : child ≠ s.current := by
    rintro rfl
    rw [sched.running] at hangs
    cases hangs
  refine ⟨member, ?_, ?_⟩
  · simpa [Tasks.setPlace, other] using related
  · simpa [Tasks.setPlace, other] using hangs

theorem TaskInv.wait {s after : Tasks} (inv : TaskInv s) (ran : sysWait s = .ok after) : TaskInv after := by
  rcases sysWait_cases ran with ⟨child, found, reaped⟩ | ⟨_, rfl⟩ | ⟨_, blocked⟩
  · obtain ⟨member, related, hangs⟩ := @HangingChild.setPlace s child .user inv.sched found
    exact (inv.setPlace Place.noConfusion).reap member related hangs reaped
  · exact inv.setPlace Place.noConfusion
  · exact (inv.setPlace Place.noConfusion).block (fun same => by cases same) blocked

theorem taskInv_step (s : Tasks) (op : Op) (after : Tasks) (inv : TaskInv s) (cond : ThreadsReaped s op)
    (ran : step s op = .ok after) : TaskInv after := by
  have inUser : s.inCall = true → (s.task s.current).place ≠ .inExit := by
    intro call place
    simp [Tasks.inCall, place] at call
  cases op with
  | tick =>
    simp only [step, bind_ok] at ran
    obtain ⟨_, _, handled⟩ := ran
    unfold intrTimeHandle at handled
    split at handled
    · exact inv.same ((schedule_shuffle handled).sameTree inv.tree.exiting)
        (schedule_sched inv.sched.nodup inv.sched.ready inv.sched.current inv.tree.idle handled)
    · cases handled
      refine inv.same (sameTree_modify inv.tree _ _ rfl rfl rfl id (inv.tree.exiting _ inv.sched.current)) ?_
      refine ⟨inv.sched.nodup, inv.sched.ready, inv.sched.current, ?_⟩
      simpa using inv.sched.running
  | idle =>
    simp only [step, bind_ok] at ran
    obtain ⟨_, _, blocked⟩ := ran
    exact inv.block (fun same => by cases same) blocked
  | yield =>
    simp only [step, bind_ok] at ran
    obtain ⟨_, _, yielded⟩ := ran
    have scheduled := (taskYield_cases yielded).2
    have changed : SameTree s (s.setStatus s.current .ready) :=
      sameTree_modify inv.tree s.current _ rfl rfl rfl id (fun same => by cases same)
    have moved := (schedule_shuffle scheduled).sameTree (inv.tree.keep changed.toKeepsTree).exiting
    have queued : SameTree s
        { s.setStatus s.current .ready with readyTasksList := s.readyTasksList ++ [s.current] } :=
      ⟨⟨rfl, rfl, rfl, rfl, changed.page, changed.pid, changed.parentTask, changed.place, changed.exiting⟩,
        rfl, rfl, changed.pml4⟩
    exact inv.same (queued.trans moved) (taskYield_sched inv.sched inv.tree.idle yielded)
  | block =>
    simp only [step, bind_ok] at ran
    obtain ⟨_, _, blocked⟩ := ran
    exact inv.block (fun same => by cases same) blocked
  | unblock t =>
    simp only [step, bind_ok, offer_ok] at ran
    obtain ⟨_, guard, woken⟩ := ran
    have member : t ∈ s.allTasksList := by
      simp only [Bool.and_eq_true, List.contains_iff_mem] at guard
      exact guard.1.1.2
    exact inv.same ((taskUnblock_shuffle woken).sameTree inv.tree.exiting)
      (taskUnblock_sched inv.sched member woken)
  | clone cloneVm task pml4 =>
    simp only [step, bind_ok, offer_ok] at ran
    obtain ⟨_, call, cloned⟩ := ran
    exact inv.clone (inUser call) cloned
  | wait =>
    simp only [step, bind_ok] at ran
    obtain ⟨_, _, waited⟩ := ran
    exact inv.wait waited
  | waitResume =>
    simp only [step, bind_ok] at ran
    obtain ⟨_, _, waited⟩ := ran
    exact inv.wait waited
  | exit status =>
    simp only [step, bind_ok] at ran
    obtain ⟨_, _, started, start, finished⟩ := ran
    have adopted : TaskInv started :=
      ⟨inv.tree.exitStart start, inv.sched.exitStart start, inv.pml4.exitStart cond start⟩
    refine adopted.finish ?_ finished
    rw [(exitStart_lists start).2.2.1, (exitStart_task start _).2.2.2.1, if_pos rfl]
  | exitBlock status =>
    simp only [step, bind_ok] at ran
    obtain ⟨_, _, started, start, blocked⟩ := ran
    have adopted : TaskInv started :=
      ⟨inv.tree.exitStart start, inv.sched.exitStart start, inv.pml4.exitStart cond start⟩
    exact adopted.block (fun same => by cases same) blocked
  | exitAgain =>
    simp only [step, bind_ok] at ran
    obtain ⟨_, _, blocked⟩ := ran
    exact inv.block (fun same => by cases same) blocked
  | exitResume =>
    simp only [step, bind_ok, offer_ok] at ran
    obtain ⟨_, place, finished⟩ := ran
    exact inv.finish (by simpa using place) finished

theorem taskInv_init {idle main : Page} {held : Page → Bool} (idlePage : InPool idle) (mainPage : InPool main)
    (distinct : idle ≠ main) : TaskInv (taskInit idle main held) := by
  obtain ⟨tree, sched⟩ := @treeInv_init idle main held idlePage mainPage distinct
  refine ⟨tree, sched, ?_⟩
  constructor
  case balance => intro page; simp [taskInit]
  case held => intro page outstanding; simp [Outstanding, taskInit] at outstanding
  case used => intro t member other; simp [taskInit] at other
  case init => rfl
  case selfParent => intro t _ _; rfl
  case kernel => intro t _ _; rfl
  case owner => intro t _ u _ _ other; simp [taskInit] at other

/-- Top-level tables are freed once and never under a task, in every run where exiting tasks have reaped the
    children on their table. -/
theorem pml4_freed_once (idle main : Page) (held : Page → Bool) (ops : List Op) (s : Tasks)
    (idlePage : InPool idle) (mainPage : InPool main) (distinct : idle ≠ main)
    (reaped : Meets step ThreadsReaped (taskInit idle main held) ops)
    (ran : run step (taskInit idle main held) ops = .ok s) : Pml4Safe s :=
  (run_invariant taskInv_step (taskInv_init idlePage mainPage distinct) reaped ran).pml4.safe

/-- A process clones a thread and exits before it; `init_proc` reaps the process. -/
def ownerFirstRun : List Op :=
  [.clone false (poolPage 2) (poolPage 3), .wait, .idle, .clone true (poolPage 4) (poolPage 5), .exit 0, .waitResume]

theorem table_freed_under_thread :
    ∃ s, run step (taskInit (poolPage 0) (poolPage 1) (fun _ => false)) ownerFirstRun = .ok s ∧ ¬ Pml4Safe s := by
  have evaluated : endsIn (run step (taskInit (poolPage 0) (poolPage 1) (fun _ => false)) ownerFirstRun)
      (fun s => decide (poolPage 4 ∈ s.allTasksList ∧ (s.task (poolPage 4)).pml4 = poolPage 3 ∧
        s.pml4Log = [.free (poolPage 3), .alloc (poolPage 3)])) = true := by
    decide +kernel
  obtain ⟨s, ran, found⟩ := exists_of_endsIn evaluated
  simp only [decide_eq_true_eq] at found
  obtain ⟨member, table, log⟩ := found
  refine ⟨s, ran, fun safe => ?_⟩
  have outstanding := safe.2 _ member (by rw [table]; decide)
  rw [table] at outstanding
  unfold Outstanding at outstanding
  rw [log] at outstanding
  exact absurd outstanding (by decide)

/-- The same process, reaping its thread before it exits. -/
def threadFirstRun : List Op :=
  [.clone false (poolPage 2) (poolPage 3), .wait, .idle, .clone true (poolPage 4) (poolPage 5), .yield, .exit 0,
    .wait, .exit 0, .waitResume]

theorem pml4_freed_once_threads :
    ∃ s, run step (taskInit (poolPage 0) (poolPage 1) (fun _ => false)) threadFirstRun = .ok s ∧ Pml4Safe s := by
  have evaluated : endsIn (run step (taskInit (poolPage 0) (poolPage 1) (fun _ => false)) threadFirstRun)
      (fun _ => true) = true := by decide +kernel
  have reaped : meetsCheck step ThreadsReaped (taskInit (poolPage 0) (poolPage 1) (fun _ => false)) threadFirstRun
      = true := by decide +kernel
  obtain ⟨s, ran, _⟩ := exists_of_endsIn evaluated
  exact ⟨s, ran, pml4_freed_once _ _ _ threadFirstRun s ⟨by decide, by decide⟩ ⟨by decide, by decide⟩ (by decide)
    (meets_of_check reaped) ran⟩

end RecoverOs.Task
