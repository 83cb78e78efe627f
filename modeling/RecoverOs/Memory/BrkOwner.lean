import RecoverOs.Logic.Rooted
import RecoverOs.Memory.Accounting
import RecoverOs.Memory.Regions

namespace RecoverOs.Memory

open Bytes Lib Rooted Transition

variable {s after : Machine} {t u owner : Tid}

/-- The first `left` turns of the loop of `sys_brk` for task `t`, from `cur_task` on. -/
def brkLoop (s : Machine) (t : Tid) : Nat → Tid → Except Halt Tid
  | 0, _ => .error .stuck
  | left + 1, curTask =>
    if (s.proc curTask).addrSpace.heapStart = 0 then brkLoop s t left (s.proc t).parentTask else .ok curTask

theorem brkLoop_parent {left : Nat} (ran : brkLoop s t left (s.proc t).parentTask = .ok owner) :
    owner = (s.proc t).parentTask ∧ (s.proc owner).addrSpace.heapStart ≠ 0 := by
  induction left with
  | zero => cases ran
  | succ left ih =>
    rw [brkLoop] at ran
    split at ran
    · exact ih ran
    · rename_i positive
      cases ran
      exact ⟨rfl, positive⟩

theorem brkLoop_iff : (∃ left, brkLoop s t left t = .ok owner) ↔ brkOwner s t = .ok owner := by
  constructor
  · intro ⟨left, ran⟩
    cases left with
    | zero => cases ran
    | succ left =>
      rw [brkLoop] at ran
      split at ran
      · rename_i zero
        obtain ⟨rfl, positive⟩ := brkLoop_parent ran
        rw [brkOwner, if_neg (not_not.mpr zero), if_pos positive]
      · rename_i positive
        rw [brkOwner, if_pos positive]
        exact ran
  · intro owned
    refine ⟨2, ?_⟩
    unfold brkOwner at owned
    split at owned
    · rename_i positive
      rw [brkLoop, if_neg positive]
      exact owned
    · rename_i zero
      split at owned
      · rename_i positive
        rw [brkLoop, if_pos (not_not.mp zero), brkLoop, if_neg positive]
        exact owned
      · cases owned

def Owns (s : Machine) (t owner : Tid) : Prop :=
  (s.proc owner).addrSpace.heapStart ≠ 0 ∧ (s.proc owner).pml4 = (s.proc t).pml4

instance (s : Machine) (t owner : Tid) : Decidable (Owns s t owner) := inferInstanceAs (Decidable (_ ∧ _))

/-- The loop comes to its end at the nearest owner, and the call changes no heap of another address space. -/
def BrkRight (s : Machine) (t : Tid) : Prop :=
  ∃ left owner, brkLoop s t left t = .ok owner ∧ Nearest (fun u => (s.proc u).parentTask) (Owns s t) t owner ∧
    ∀ brk result after, sysBrk s t brk = .ok (result, after) →
      ∀ u, (s.proc u).pml4 ≠ (s.proc t).pml4 → (after.proc u).addrSpace = (s.proc u).addrSpace

/-- The task or its parent has a heap in the address space of the task. -/
def Reaches (s : Machine) (t : Tid) : Prop :=
  (s.proc t).addrSpace.heapStart ≠ 0 ∨ Owns s t (s.proc t).parentTask

instance (s : Machine) (t : Tid) : Decidable (Reaches s t) := inferInstanceAs (Decidable (_ ∨ _))

theorem sysBrk_moves {brk : Nat} {result : Int} (owned : brkOwner s t = .ok owner)
    (ran : sysBrk s t brk = .ok (result, after)) :
    ∃ e, (e = (s.proc owner).addrSpace.heapEnd ∨ e ≤ defaultStack) ∧
      after = { s.setSpace owner fun space => { space with heapEnd := e } with ram := after.ram } := by
  have same : s = { s.setSpace owner fun space => { space with heapEnd := (s.proc owner).addrSpace.heapEnd } with
      ram := s.ram } := by
    simp only [Machine.setSpace, Machine.modify, Function.update_eq_self]
  simp only [sysBrk, owned, bind_ok, Except.ok.injEq, exists_eq_left'] at ran
  split at ran
  · cases ran
    exact ⟨_, .inl rfl, same⟩
  · split at ran
    · cases ran
      exact ⟨_, .inl rfl, same⟩
    · rename_i accepted
      simp only [bind_ok, pure_ok, Prod.mk.injEq] at ran
      obtain ⟨unmapped, unmap, _, rfl⟩ := ran
      refine ⟨brk, .inr (by simp only [defaultStack, pgSize] at accepted ⊢; omega), ?_⟩
      have others : unmapped = { s with ram := unmapped.ram } := by
        split at unmap
        · exact unmapPages_others unmap
        · cases unmap
          rfl
      rw [others]
      rfl

theorem setSpace_parentTask (s : Machine) (t u : Tid) (f : AddrSpace → AddrSpace) :
    ((s.setSpace t f).proc u).parentTask = (s.proc u).parentTask := by
  simp only [Machine.setSpace, Machine.modify, Function.update_apply]
  split
  · rename_i here
    rw [here]
  · rfl

theorem brkRight_iff : BrkRight s t ↔ Reaches s t := by
  constructor
  · intro ⟨left, owner, ran, nearest, _⟩
    have owned := brkLoop_iff.mp ⟨left, ran⟩
    unfold brkOwner at owned
    split at owned
    · exact .inl ‹_›
    · split at owned
      · cases owned
        exact .inr nearest.isGood
      · cases owned
  · intro reaches
    have found : ∃ owner, brkOwner s t = .ok owner ∧ Nearest (fun u => (s.proc u).parentTask) (Owns s t) t owner := by
      by_cases zero : (s.proc t).addrSpace.heapStart = 0
      · have owns := reaches.resolve_left (not_not.mpr zero)
        refine ⟨(s.proc t).parentTask, ?_, (nearest_self owns).below fun self => self.1 zero⟩
        rw [brkOwner, if_neg (not_not.mpr zero), if_pos owns.1]
      · exact ⟨t, by rw [brkOwner, if_pos zero], nearest_self ⟨zero, rfl⟩⟩
    obtain ⟨owner, owned, nearest⟩ := found
    obtain ⟨left, ran⟩ := brkLoop_iff.mpr owned
    refine ⟨left, owner, ran, nearest, ?_⟩
    intro brk result after call u other
    obtain ⟨e, _, moved⟩ := sysBrk_moves owned call
    have differs : u ≠ owner := fun same => other (same ▸ nearest.isGood.2)
    rw [moved]
    simp only [Machine.setSpace, Machine.modify, Function.update_of_ne differs]

structure SameTree (s after : Machine) : Prop where
  tasks : after.tasks = s.tasks
  proc : ∀ u, (after.proc u).addrSpace.heapStart = (s.proc u).addrSpace.heapStart ∧
    (after.proc u).pml4 = (s.proc u).pml4 ∧ (after.proc u).parentTask = (s.proc u).parentTask ∧
    (after.proc u).life = (s.proc u).life

theorem SameTree.trans {middle : Machine} (first : SameTree s middle) (second : SameTree middle after) :
    SameTree s after := by
  refine ⟨second.tasks.trans first.tasks, ?_⟩
  intro u
  obtain ⟨heap, table, parent, life⟩ := first.proc u
  obtain ⟨heap', table', parent', life'⟩ := second.proc u
  exact ⟨heap'.trans heap, table'.trans table, parent'.trans parent, life'.trans life⟩

theorem sameTree_ram (others : after = { s with ram := after.ram }) : SameTree s after := by
  rw [others]
  exact ⟨rfl, fun _ => ⟨rfl, rfl, rfl, rfl⟩⟩

theorem sameTree_heapEnd (s : Machine) (owner : Tid) (e : Nat) :
    SameTree s (s.setSpace owner fun space => { space with heapEnd := e }) := by
  refine ⟨rfl, ?_⟩
  intro u
  refine ⟨?_, (setSpace_proc s owner u _).1, setSpace_parentTask s owner u _, (setSpace_proc s owner u _).2⟩
  by_cases here : u = owner
  · subst here
    simp only [Machine.setSpace, Machine.modify, Function.update_self]
  · simp only [Machine.setSpace, Machine.modify, Function.update_of_ne here]

theorem sysBrk_sameTree {brk : Nat} {result : Int} (ran : sysBrk s t brk = .ok (result, after)) : SameTree s after := by
  have found := ran
  rw [sysBrk, bind_ok] at found
  obtain ⟨owner, owned, _⟩ := found
  obtain ⟨e, _, moved⟩ := sysBrk_moves owned ran
  rw [moved]
  exact (sameTree_heapEnd s owner e).trans (sameTree_ram rfl)

theorem releaseSegments_others {cnt : Nat} (ran : releaseSegments s t cnt = .ok after) :
    after = { s with ram := after.ram } := by
  induction cnt generalizing after with
  | zero =>
    cases ran
    rfl
  | succ cnt ih =>
    simp only [releaseSegments, bind_ok] at ran
    obtain ⟨middle, first, ran⟩ := ran
    split at ran
    · cases ran
      exact ih first
    · rw [unmapPages_others ran, ih first]

theorem releaseProgResource_sameTree (ran : releaseProgResource s t = .ok after) : SameTree s after := by
  unfold releaseProgResource at ran
  split at ran
  · cases ran
    exact sameTree_ram rfl
  · simp only [bind_ok, Prod.exists] at ran
    obtain ⟨result, shrunk, brk, released, release, unmap⟩ := ran
    exact ((sysBrk_sameTree brk).trans (sameTree_ram (releaseSegments_others release))).trans
      (sameTree_ram (pageUnmap_others unmap))

theorem record_heapStart_zero {space : AddrSpace} {loadIdx : Nat} {segments : List Segment} :
    (space.record loadIdx segments).heapStart = 0 ↔
      space.heapStart = 0 ∧ ∀ seg ∈ segments, wrap (seg.vaddr + seg.memsz) = 0 := by
  induction segments generalizing space loadIdx with
  | nil => simp [AddrSpace.record]
  | cons seg rest ih =>
    rw [AddrSpace.record, ih, List.forall_mem_cons, ← and_assoc]
    apply and_congr_left
    intro _
    show max space.heapStart (wrap (seg.vaddr + seg.memsz)) = 0 ↔ _
    omega

def Image.HasEnd (image : Image) : Prop := ∃ seg ∈ image.segments, wrap (seg.vaddr + seg.memsz) ≠ 0

instance (image : Image) : Decidable image.HasEnd := inferInstanceAs (Decidable (∃ seg ∈ image.segments, _))

theorem exec_heapStart (space : AddrSpace) (image : Image) : (space.exec image).heapStart ≠ 0 ↔ image.HasEnd := by
  have recorded : (space.exec image).heapStart = (({ space with heapStart := 0 } : AddrSpace).record 0 image.segments).heapStart := by
    unfold AddrSpace.exec
    split
    · rfl
    · rfl
  rw [recorded, Ne, record_heapStart_zero, Image.HasEnd]
  simp

/-- Every program that runs finds a heap, and parents are tasks that exist. -/
structure Served (s : Machine) : Prop where
  parents : ∀ u < s.tasks, (s.proc u).parentTask < s.tasks
  reaches : ∀ u, s.live u = true → u ≠ idleTask → Reaches s u

def RunsBelow (s : Machine) (t u : Tid) : Prop :=
  (s.proc u).life = .alive ∧ u ≠ idleTask ∧ u ≠ t ∧ (s.proc u).parentTask = t

instance (s : Machine) (t u : Tid) : Decidable (RunsBelow s t u) := inferInstanceAs (Decidable (_ ∧ _ ∧ _ ∧ _))

/-- Only a task with a heap of its own has children. A task whose `sys_execv` loads nothing is a thread without threads,
    and a task that exits leaves no thread, or one that shares the address space of init. -/
def KeepsServed (s : Machine) : Tid × MemOp → Prop
  | (t, .clone ..) => (s.proc t).addrSpace.heapStart ≠ 0
  | (t, .execv image) => image.HasEnd ∨
      ((s.proc t).parentTask ≠ t ∧ Owns s t (s.proc t).parentTask ∧
        ∀ u < s.tasks, RunsBelow s t u → (s.proc u).addrSpace.heapStart ≠ 0)
  | (t, .exit) => ∀ u < s.tasks, RunsBelow s t u → (s.proc u).addrSpace.heapStart ≠ 0 ∨ Owns s u initProc
  | _ => True

instance (s : Machine) (op : Tid × MemOp) : Decidable (KeepsServed s op) :=
  match op with
  | (t, .clone ..) => inferInstanceAs (Decidable ((s.proc t).addrSpace.heapStart ≠ 0))
  | (t, .execv image) => inferInstanceAs (Decidable (image.HasEnd ∨
      ((s.proc t).parentTask ≠ t ∧ Owns s t (s.proc t).parentTask ∧
        ∀ u < s.tasks, RunsBelow s t u → (s.proc u).addrSpace.heapStart ≠ 0)))
  | (t, .exit) => inferInstanceAs (Decidable (∀ u < s.tasks, RunsBelow s t u →
      (s.proc u).addrSpace.heapStart ≠ 0 ∨ Owns s u initProc))
  | (_, .pageMap _) | (_, .pageUnmap _) | (_, .fault _) | (_, .store ..) | (_, .brk _) | (_, .wait) => .isTrue True.intro

theorem Machine.live_iff : s.live t = true ↔ t < s.tasks ∧ (s.proc t).life = .alive := decide_eq_true_iff

theorem SameTree.served (same : SameTree s after) (served : Served s) : Served after := by
  constructor
  · intro u less
    rw [same.tasks] at less ⊢
    rw [(same.proc u).2.2.1]
    exact served.parents u less
  · intro u live program
    rw [Machine.live_iff, same.tasks, (same.proc u).2.2.2, ← Machine.live_iff] at live
    have before := served.reaches u live program
    rw [Reaches, Owns, (same.proc u).1, (same.proc u).2.2.1, (same.proc _).1, (same.proc _).2.1, (same.proc u).2.1]
    exact before

theorem Served.add (new : Proc) (served : Served s) (task : t < s.tasks) (own : (s.proc t).addrSpace.heapStart ≠ 0)
    (parent : new.parentTask = t) (heap : new.addrSpace.heapStart ≠ 0 ∨ new.pml4 = (s.proc t).pml4)
    (tasks : after.tasks = s.tasks + 1) (procs : after.proc = Function.update s.proc s.tasks new) : Served after := by
  have old : ∀ u < s.tasks, after.proc u = s.proc u := by
    intro u less
    rw [procs, Function.update_of_ne (Nat.ne_of_lt less)]
  have added : after.proc s.tasks = new := by rw [procs, Function.update_self]
  constructor
  · intro u less
    rw [tasks] at less ⊢
    by_cases here : u = s.tasks
    · rw [here, added, parent]
      exact Nat.lt_succ_of_lt task
    · have before := Nat.lt_of_le_of_ne (Nat.le_of_lt_succ less) here
      rw [old u before]
      exact Nat.lt_succ_of_lt (served.parents u before)
  · intro u live program
    rw [Machine.live_iff, tasks] at live
    by_cases here : u = s.tasks
    · rw [here, Reaches, Owns, added, parent, old t task]
      exact heap.imp id fun shared => ⟨own, shared.symm⟩
    · have before := Nat.lt_of_le_of_ne (Nat.le_of_lt_succ live.1) here
      rw [old u before] at live
      have reaches := served.reaches u (Machine.live_iff.mpr ⟨before, live.2⟩) program
      rw [Reaches, Owns, old u before, old _ (served.parents u before)]
      exact reaches

theorem Served.sysClone {cloneVm : Bool} {pml4 : Nat} (served : Served s) (task : t < s.tasks)
    (own : (s.proc t).addrSpace.heapStart ≠ 0) (ran : sysClone s t cloneVm pml4 = .ok after) : Served after := by
  cases cloneVm with
  | true =>
    cases ran
    exact Served.add { pml4 := (s.proc t).pml4, parentTask := t, addrSpace := AddrSpace.zero, life := .alive } served
      task own rfl (.inr rfl) rfl rfl
  | false =>
    obtain ⟨_, _, copy⟩ := sysClone_fork task ran
    have copied := sameTree_ram (copyStack_others copy)
    exact copied.served (Served.add
      { pml4 := pml4, parentTask := t, addrSpace := (s.proc t).addrSpace, life := .alive } served task own rfl (.inl own)
      rfl rfl)

theorem Served.sysExecv {image : Image} (served : Served s)
    (keeps : KeepsServed s (t, .execv image)) (ran : sysExecv s t image = .ok after) : Served after := by
  have moved := sysExecv_moves ran
  have tasks : after.tasks = s.tasks := by rw [moved]; rfl
  have other : ∀ u, u ≠ t → after.proc u = s.proc u := by
    intro u differs
    rw [moved]
    simp only [Machine.setSpace, Machine.modify, Function.update_of_ne differs]
  have fields : ∀ u, (after.proc u).pml4 = (s.proc u).pml4 ∧ (after.proc u).life = (s.proc u).life ∧
      (after.proc u).parentTask = (s.proc u).parentTask := by
    intro u
    rw [moved]
    exact ⟨(setSpace_proc s t u fun space => space.exec image).1, (setSpace_proc s t u fun space => space.exec image).2,
      setSpace_parentTask s t u fun space => space.exec image⟩
  have heap : (after.proc t).addrSpace.heapStart ≠ 0 ↔ image.HasEnd := by
    rw [moved]
    simp only [Machine.setSpace, Machine.modify, Function.update_self]
    exact exec_heapStart _ image
  constructor
  · intro u less
    rw [tasks] at less ⊢
    rw [(fields u).2.2]
    exact served.parents u less
  · intro u live program
    rw [Machine.live_iff, tasks, (fields u).2.1] at live
    have before := served.reaches u (Machine.live_iff.mpr live) program
    rw [Reaches, Owns, (fields u).2.2, (fields _).1, (fields u).1]
    by_cases self : u = t
    · subst self
      rcases keeps with loaded | ⟨apart, owns, _⟩
      · exact .inl (heap.mpr loaded)
      · rw [other _ apart]
        exact .inr owns
    · rw [other u self]
      by_cases below : (s.proc u).parentTask = t
      · rcases keeps with loaded | ⟨_, _, none⟩
        · rw [below]
          exact before.imp id fun owns => ⟨heap.mpr loaded, below ▸ owns.2⟩
        · exact .inl (none u live.1 ⟨live.2, program, self, below⟩)
      · rw [other _ below]
        exact before

theorem Served.sysExit (served : Served s) (task : t < s.tasks) (keeps : KeepsServed s (t, .exit))
    (ran : sysExit s t = .ok after) : Served after := by
  simp only [Memory.sysExit, bind_ok, pure_ok, assert_ok, decide_eq_true_eq] at ran
  obtain ⟨_, late, released, release, rfl⟩ := ran
  obtain ⟨tasks, procs⟩ := releaseProgResource_sameTree release
  dsimp only at tasks procs
  have fields : ∀ u, (released.proc u).addrSpace.heapStart = (s.proc u).addrSpace.heapStart ∧
      (released.proc u).pml4 = (s.proc u).pml4 ∧ (released.proc u).life = (s.proc u).life ∧
      (released.proc u).parentTask = if (s.proc u).parentTask = t then initProc else (s.proc u).parentTask := by
    intro u
    obtain ⟨heap, table, parent, life⟩ := procs u
    rw [heap, table, parent, life]
    split
    · exact ⟨rfl, rfl, rfl, rfl⟩
    · exact ⟨rfl, rfl, rfl, rfl⟩
  have hung : ∀ u, ((released.modify t fun proc => { proc with life := .hanging }).proc u).addrSpace =
      (released.proc u).addrSpace ∧
      ((released.modify t fun proc => { proc with life := .hanging }).proc u).pml4 = (released.proc u).pml4 ∧
      ((released.modify t fun proc => { proc with life := .hanging }).proc u).parentTask =
        (released.proc u).parentTask := by
    intro u
    simp only [Machine.modify, Function.update_apply]
    split
    · rename_i here
      rw [here]
      exact ⟨rfl, rfl, rfl⟩
    · exact ⟨rfl, rfl, rfl⟩
  constructor
  · intro u less
    have before : u < s.tasks := tasks ▸ less
    show _ < released.tasks
    rw [(hung u).2.2, (fields u).2.2.2, tasks]
    split
    · exact Nat.lt_trans late task
    · exact served.parents u before
  · intro u live program
    rw [Machine.live_iff] at live
    obtain ⟨less, alive⟩ := live
    have before : u < s.tasks := tasks ▸ less
    have differs : u ≠ t := by
      intro here
      rw [here] at alive
      simp only [Machine.modify, Function.update_self] at alive
      cases alive
    have aliveBefore : (s.proc u).life = .alive := by
      rw [← (fields u).2.2.1, ← alive]
      simp only [Machine.modify, Function.update_of_ne differs]
    have reaches := served.reaches u (Machine.live_iff.mpr ⟨before, aliveBefore⟩) program
    simp only [Reaches, Owns, (hung _).1, (hung _).2.1, (hung _).2.2, (fields _).1, (fields _).2.1, (fields _).2.2.2]
    split
    · rename_i below
      exact keeps u before ⟨aliveBefore, program, differs, below⟩
    · exact reaches

theorem Served.sysWait (served : Served s) (ran : sysWait s t = .ok after) : Served after := by
  unfold Memory.sysWait at ran
  split at ran
  · cases ran
    exact served
  · rename_i c found
    have reaped : after.tasks = s.tasks ∧ after.proc = (s.modify c fun proc => { proc with life := .died }).proc := by
      dsimp only at ran
      split at ran
      · simp only [bind_ok, pure_ok] at ran
        obtain ⟨_, _, rfl⟩ := ran
        exact ⟨rfl, rfl⟩
      · cases ran
        exact ⟨rfl, rfl⟩
    have fields : ∀ u, (after.proc u).addrSpace = (s.proc u).addrSpace ∧ (after.proc u).pml4 = (s.proc u).pml4 ∧
        (after.proc u).parentTask = (s.proc u).parentTask ∧
        ((after.proc u).life = .alive → (s.proc u).life = .alive) := by
      intro u
      rw [reaped.2]
      simp only [Machine.modify, Function.update_apply]
      split
      · rename_i here
        rw [here]
        exact ⟨rfl, rfl, rfl, fun wrong => by cases wrong⟩
      · exact ⟨rfl, rfl, rfl, id⟩
    constructor
    · intro u less
      rw [reaped.1] at less ⊢
      rw [(fields u).2.2.1]
      exact served.parents u less
    · intro u live program
      rw [Machine.live_iff, reaped.1] at live
      have before := served.reaches u (Machine.live_iff.mpr ⟨live.1, (fields u).2.2.2 live.2⟩) program
      simp only [Reaches, Owns, (fields _).1, (fields _).2.1, (fields _).2.2.1]
      exact before

theorem served_step (s : Machine) (op : Tid × MemOp) (after : Machine) (served : Served s) (keeps : KeepsServed s op)
    (ran : s.step op = .ok after) : Served after := by
  obtain ⟨t, call⟩ := op
  simp only [Machine.step, bind_ok, offer_ok, Machine.live_iff] at ran
  obtain ⟨_, ⟨task, _⟩, ran⟩ := ran
  cases call with
  | pageMap vaddr =>
    simp only [Machine.call, bind_ok, pure_ok] at ran
    obtain ⟨ram, _, rfl⟩ := ran
    exact (sameTree_ram rfl).served served
  | pageUnmap vaddr => exact (sameTree_ram (pageUnmap_others ran)).served served
  | fault vaddr =>
    simp only [Machine.call, bind_ok] at ran
    obtain ⟨_, _, handle⟩ := ran
    exact (sameTree_ram (intrPageHandle_others handle)).served served
  | store vaddr byte =>
    simp only [Machine.call, bind_ok] at ran
    obtain ⟨_, _, store⟩ := ran
    exact (sameTree_ram (storeByte_others store)).served served
  | brk brk =>
    simp only [Machine.call, bind_ok, pure_ok, Prod.exists] at ran
    obtain ⟨result, _, call, rfl⟩ := ran
    exact (sysBrk_sameTree call).served served
  | clone cloneVm pml4 => exact served.sysClone task keeps ran
  | execv image => exact served.sysExecv keeps ran
  | exit => exact served.sysExit task keeps ran
  | wait => exact served.sysWait ran

/-- `sys_brk` finds the heap of its caller exactly if the caller or its parent has it, and it does so in every state of a
    run in which every task with a child keeps a heap. -/
theorem brk_finds_heap (s : Machine) (t : Tid) : (BrkRight s t ↔ Reaches s t) ∧
    ∀ (start : Machine) (ops : List (Tid × MemOp)), Served start → Meets Machine.step KeepsServed start ops →
      run Machine.step start ops = .ok s → s.live t = true → t ≠ idleTask → BrkRight s t := by
  refine ⟨brkRight_iff, ?_⟩
  intro start ops served keeps ran live program
  have kept := run_invariant served_step served keeps ran
  exact brkRight_iff.mpr (kept.reaches t live program)

/-- A thread moves the heap, its process forks, the child executes a program and starts a thread, and the first thread
    exits. -/
def threadedOps : List (Tid × MemOp) :=
  [(1, .clone true 0), (2, .brk 0x402800), (1, .clone false 0x110), (3, .execv tinyImage), (3, .clone true 0),
    (2, .exit), (1, .wait)]

theorem brk_finds_heap_threads : ∃ start s, run Machine.step (Machine.start fun _ _ => 0) bootOps = .ok start ∧
    Served start ∧ run Machine.step start threadedOps = .ok s ∧ (s.proc 4).addrSpace.heapStart = 0 ∧ BrkRight s 4 := by
  have evaluated : endsIn (run Machine.step (Machine.start fun _ _ => 0) bootOps) (fun start =>
      decide (start.tasks = 2 ∧ (∀ u : Nat, u < 2 → (start.proc u).parentTask < 2) ∧ Reaches start 1) &&
        meetsCheck Machine.step KeepsServed start threadedOps &&
        endsIn (run Machine.step start threadedOps) fun s =>
          decide (s.live 4 = true ∧ (s.proc 4).addrSpace.heapStart = 0)) = true := by
    decide +kernel
  obtain ⟨start, booted, rest⟩ := exists_of_endsIn evaluated
  rw [Bool.and_eq_true, Bool.and_eq_true] at rest
  obtain ⟨⟨shape, keeps⟩, ends⟩ := rest
  obtain ⟨tasks, parents, reaches⟩ := of_decide_eq_true shape
  obtain ⟨s, ran, check⟩ := exists_of_endsIn ends
  obtain ⟨live, bare⟩ := of_decide_eq_true check
  have served : Served start := by
    refine ⟨by rw [tasks]; exact parents, ?_⟩
    intro u alive program
    rw [Machine.live_iff, tasks] at alive
    have one : u = 1 :=
      Nat.le_antisymm (Nat.le_of_lt_succ alive.1) (Nat.one_le_iff_ne_zero.mpr program)
    rw [one]
    exact reaches
  exact ⟨start, s, booted, served, ran, bare,
    (brk_finds_heap s 4).2 start threadedOps served (meets_of_check keeps) ran live (by decide)⟩

/-- A thread of a thread searches for ever, and a child whose `sys_execv` has failed moves the heap of its parent, which
    has another address space. -/
theorem brk_misses_heap :
    (∃ s, run Machine.step (Machine.start fun _ _ => 0) (bootOps ++ [(1, .clone true 0), (2, .clone true 0)]) = .ok s ∧
      s.live 3 = true ∧ brkOwner s 3 = .error .stuck ∧ ¬ BrkRight s 3) ∧
    ∃ s after, run Machine.step (Machine.start fun _ _ => 0)
        (bootOps ++ [(1, .clone false 0x110), (2, .execv ⟨[], false⟩)]) = .ok s ∧ s.live 2 = true ∧
      (s.proc 2).pml4 ≠ (s.proc 1).pml4 ∧ sysBrk s 2 0x403000 = .ok (0, after) ∧
      (s.proc 1).addrSpace.heapEnd = 0x402000 ∧ (after.proc 1).addrSpace.heapEnd = 0x403000 ∧ ¬ BrkRight s 2 := by
  constructor
  · have evaluated : endsIn (run Machine.step (Machine.start fun _ _ => 0)
        (bootOps ++ [(1, .clone true 0), (2, .clone true 0)])) (fun s =>
        decide (s.live 3 = true ∧ brkOwner s 3 = .error .stuck ∧ ¬ Reaches s 3)) = true := by
      decide +kernel
    obtain ⟨s, ran, check⟩ := exists_of_endsIn evaluated
    obtain ⟨live, stuck, lost⟩ := of_decide_eq_true check
    exact ⟨s, ran, live, stuck, fun right => lost (brkRight_iff.mp right)⟩
  · have evaluated : endsIn (run Machine.step (Machine.start fun _ _ => 0)
        (bootOps ++ [(1, .clone false 0x110), (2, .execv ⟨[], false⟩)])) (fun s =>
        decide (s.live 2 = true ∧ (s.proc 2).pml4 ≠ (s.proc 1).pml4 ∧ (s.proc 1).addrSpace.heapEnd = 0x402000 ∧
          ¬ Reaches s 2) && endsIn (sysBrk s 2 0x403000) fun result =>
            decide (result.1 = 0 ∧ (result.2.proc 1).addrSpace.heapEnd = 0x403000)) = true := by
      decide +kernel
    obtain ⟨s, ran, rest⟩ := exists_of_endsIn evaluated
    rw [Bool.and_eq_true] at rest
    obtain ⟨live, apart, heapEnd, lost⟩ := of_decide_eq_true rest.1
    obtain ⟨⟨result, after⟩, call, check⟩ := exists_of_endsIn rest.2
    obtain ⟨rfl, moved⟩ := of_decide_eq_true check
    exact ⟨s, after, ran, live, apart, call, heapEnd, moved, fun right => lost (brkRight_iff.mp right)⟩

end RecoverOs.Memory
