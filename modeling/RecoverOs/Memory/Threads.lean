import RecoverOs.Memory.BrkOwner
import RecoverOs.Memory.Snapshot
import RecoverOs.Memory.Translation

namespace RecoverOs.Memory

open Bytes Lib Forest Transition

variable {s after : Machine} {p t u : Tid} {v first cnt : Nat}

/-- Task `t` runs in the address space of `p`, and its own `addr_space` is empty. -/
structure Thread (s : Machine) (p t : Tid) : Prop where
  other : t ≠ p
  parent : (s.proc t).parentTask = p
  table : (s.proc t).pml4 = (s.proc p).pml4
  bare : (s.proc t).addrSpace = AddrSpace.zero
  own : (s.proc p).addrSpace.heapStart ≠ 0

theorem sysClone_thread {pml4 : Nat} (task : p < s.tasks) (own : (s.proc p).addrSpace.heapStart ≠ 0)
    (ran : sysClone s p true pml4 = .ok after) : Thread after p s.tasks := by
  cases ran
  have other : p ≠ s.tasks := Nat.ne_of_lt task
  constructor
  case other => exact Ne.symm other
  case parent => simp only [Function.update_self]
  case table => simp only [Function.update_self, Function.update_of_ne other]
  case bare => simp only [Function.update_self]
  case own =>
    simp only [Function.update_of_ne other]
    exact own

theorem Thread.owners (thread : Thread s p t) : brkOwner s t = .ok p ∧ brkOwner s p = .ok p := by
  have zero : (s.proc t).addrSpace.heapStart = 0 := by
    rw [thread.bare]
    rfl
  constructor
  · rw [brkOwner, if_neg (not_not.mpr zero), thread.parent, if_pos thread.own]
  · rw [brkOwner, if_pos thread.own]

theorem Thread.stays {brk : Nat} {result : Int} (thread : Thread s p t)
    (low : (s.proc p).addrSpace.heapEnd ≤ defaultStack) (caller : u = p ∨ u = t)
    (ran : sysBrk s u brk = .ok (result, after)) :
    Thread after p t ∧ (after.proc p).addrSpace.heapEnd ≤ defaultStack ∧ (after.proc p).pml4 = (s.proc p).pml4 := by
  have owned : brkOwner s u = .ok p := by
    rcases caller with rfl | rfl
    · exact thread.owners.2
    · exact thread.owners.1
  obtain ⟨e, small, moved⟩ := sysBrk_moves owned ran
  have bystander : after.proc t = s.proc t := by
    rw [moved]
    simp only [Machine.setSpace, Machine.modify, Function.update_of_ne thread.other]
  have holder : after.proc p = { s.proc p with addrSpace := { (s.proc p).addrSpace with heapEnd := e } } := by
    rw [moved]
    simp only [Machine.setSpace, Machine.modify, Function.update_self]
  refine ⟨⟨thread.other, ?_, ?_, ?_, ?_⟩, ?_, by rw [holder]⟩
  · rw [bystander, thread.parent]
  · rw [bystander, holder, thread.table]
  · rw [bystander, thread.bare]
  · rw [holder]
    exact thread.own
  · rw [holder]
    rcases small with rfl | inside
    · exact low
    · exact inside

theorem Thread.ram {ram : Ram} (thread : Thread s p t) : Thread { s with ram := ram } p t :=
  ⟨thread.other, thread.parent, thread.table, thread.bare, thread.own⟩

theorem zero_inHeap (v : Nat) : ¬ inHeap AddrSpace.zero v := by
  intro inside
  have below : v < 0 := inside.2
  exact absurd below (Nat.not_lt_zero v)

/-- A page that a thread lacks is missing in the table of its parent too, and no range but the stack is its own. -/
theorem Thread.fault_stuck (thread : Thread s p t) (unmapped : translate s.ram.phys (s.proc p).pml4 v = none) :
    intrPageHandle s t v = .error .stuck := by
  have missing : translate s.ram.phys (s.proc p).pml4 (pageStart v) = none :=
    (translate_congr (pathOf_pageStart v)).trans unmapped
  rw [intrPageHandle, thread.bare, thread.parent]
  split
  · rw [copyPage, missing]
  · rw [if_neg (zero_inHeap v)]

def FatalForOwner (s : Machine) (p : Tid) (v : Nat) : Prop :=
  (inRg (s.proc p).addrSpace v → translate s.ram.phys (s.proc (s.proc p).parentTask).pml4 v = none) ∧
  (¬ inRg (s.proc p).addrSpace v → ¬ inHeap (s.proc p).addrSpace v)

instance (s : Machine) (p : Tid) (v : Nat) : Decidable (FatalForOwner s p v) := inferInstanceAs (Decidable (_ ∧ _))

theorem FatalForOwner.stuck (fatal : FatalForOwner s p v) : intrPageHandle s p v = .error .stuck := by
  rw [intrPageHandle]
  split
  · rename_i range
    have missing := (translate_congr (pathOf_pageStart v)).trans (fatal.1 range)
    rw [copyPage, missing]
  · rename_i outside
    rw [if_neg (fatal.2 outside)]

/-- The page is made available to both tasks, or to neither. -/
def SameFault (s : Machine) (p t : Tid) (v : Nat) : Prop :=
  (∃ after, intrPageHandle s t v = .ok after) ↔ ∃ after, intrPageHandle s p v = .ok after

theorem Thread.sameFault (thread : Thread s p t) (unmapped : translate s.ram.phys (s.proc p).pml4 v = none)
    (fatal : FatalForOwner s p v) : SameFault s p t v := by
  rw [SameFault, thread.fault_stuck unmapped, fatal.stuck]

theorem Thread.fatal_of_same (thread : Thread s p t) (inv : MemInv s) (kept : s.Kept p) (room : Room 4 s.ram)
    (user : v < 2 ^ 47) (unmapped : translate s.ram.phys (s.proc p).pml4 v = none) (same : SameFault s p t v) :
    FatalForOwner s p v := by
  have none : ¬ ∃ after, intrPageHandle s p v = .ok after := by
    intro made
    obtain ⟨after, ran⟩ := same.mpr made
    rw [thread.fault_stuck unmapped] at ran
    cases ran
  constructor
  · intro range
    by_contra has
    obtain ⟨after, ran, _⟩ := intrPageHandle_ok inv kept user room unmapped (fun _ => has) fun outside => absurd range outside
    exact none ⟨after, ran⟩
  · intro outside heap
    obtain ⟨after, ran, _⟩ := intrPageHandle_ok inv kept user room unmapped (fun range => absurd range outside) fun _ => heap
    exact none ⟨after, ran⟩

theorem pageUnmap_eq (table : (s.proc t).pml4 = (s.proc p).pml4)
    (mapped : translate s.ram.phys (s.proc p).pml4 v ≠ none) : pageUnmap s t v = pageUnmap s p v := by
  obtain ⟨q, found⟩ := Option.ne_none_iff_exists'.mp mapped
  simp only [pageUnmap, access, table, found, Bind.bind, Except.bind]

theorem Thread.pageUnmap_mapped (thread : Thread s p t) (ran : pageUnmap s t v = .ok after) :
    translate s.ram.phys (s.proc p).pml4 v ≠ none := by
  intro unmapped
  simp only [pageUnmap, access, thread.table, unmapped, thread.fault_stuck unmapped, bind_ok, reduceCtorEq, false_and,
    exists_false] at ran

theorem Thread.unmapPages_owner (thread : Thread s p t) (ran : unmapPages s t first cnt = .ok after) :
    unmapPages s p first cnt = .ok after := by
  induction cnt generalizing after with
  | zero => exact ran
  | succ cnt ih =>
    simp only [unmapPages, bind_ok] at ran ⊢
    obtain ⟨middle, before, last⟩ := ran
    have still : Thread middle p t := by
      rw [unmapPages_others before]
      exact thread.ram
    refine ⟨middle, ih before, ?_⟩
    rw [← pageUnmap_eq still.table (still.pageUnmap_mapped last)]
    exact last

theorem unmapPages_keeps (unshared : Unshared s.ram (s.proc p).pml4)
    (user : ∀ k < cnt, (first + k) * pgSize < 2 ^ 47)
    (mapped : ∀ k < cnt, translate s.ram.phys (s.proc p).pml4 ((first + k) * pgSize) ≠ none)
    (ran : unmapPages s p first cnt = .ok after) : Unshared after.ram (s.proc p).pml4 ∧
      ∀ w < 2 ^ 47, translate after.ram.phys (s.proc p).pml4 w = translate s.ram.phys (s.proc p).pml4 w := by
  induction cnt generalizing after with
  | zero =>
    cases ran
    exact ⟨unshared, fun _ _ => rfl⟩
  | succ cnt ih =>
    simp only [unmapPages, bind_ok] at ran
    obtain ⟨middle, before, last⟩ := ran
    obtain ⟨middleUnshared, same⟩ := ih (fun k less => user k (Nat.lt_succ_of_lt less))
      (fun k less => mapped k (Nat.lt_succ_of_lt less)) before
    have procs : middle.proc = s.proc := by rw [unmapPages_others before]
    have low := user cnt (Nat.lt_succ_self cnt)
    obtain ⟨q, found⟩ := Option.ne_none_iff_exists'.mp (mapped cnt (Nat.lt_succ_self cnt))
    rw [← same _ low, ← procs] at found
    rw [← procs] at middleUnshared
    obtain ⟨_, effect⟩ := pageUnmap_effect middleUnshared low found last
    rw [procs] at effect middleUnshared
    constructor
    · intro path path' x left right
      exact middleUnshared path path' x ((effect.places path x).mp left) ((effect.places path' x).mp right)
    · intro w userW
      rw [← same w userW]
      apply Option.ext
      intro x
      constructor
      · intro there
        exact ((effect.places (pathOf w) x).mp ⟨rfl, pathOf_user userW, there⟩).reached
      · intro there
        exact ((effect.places (pathOf w) x).mpr ⟨rfl, pathOf_user userW, there⟩).reached

theorem Thread.unmapPages_thread (thread : Thread s p t) (unshared : Unshared s.ram (s.proc p).pml4)
    (user : ∀ k < cnt, (first + k) * pgSize < 2 ^ 47)
    (mapped : ∀ k < cnt, translate s.ram.phys (s.proc p).pml4 ((first + k) * pgSize) ≠ none)
    (ran : unmapPages s p first cnt = .ok after) : unmapPages s t first cnt = .ok after := by
  induction cnt generalizing after with
  | zero => exact ran
  | succ cnt ih =>
    simp only [unmapPages, bind_ok] at ran ⊢
    obtain ⟨middle, before, last⟩ := ran
    have earlier : ∀ k < cnt, translate s.ram.phys (s.proc p).pml4 ((first + k) * pgSize) ≠ none :=
      fun k less => mapped k (Nat.lt_succ_of_lt less)
    have low : ∀ k < cnt, (first + k) * pgSize < 2 ^ 47 := fun k less => user k (Nat.lt_succ_of_lt less)
    obtain ⟨_, same⟩ := unmapPages_keeps unshared low earlier before
    have procs : middle.proc = s.proc := by rw [unmapPages_others before]
    have here : translate middle.ram.phys (middle.proc p).pml4 ((first + cnt) * pgSize) ≠ none := by
      rw [procs, same _ (user cnt (Nat.lt_succ_self cnt))]
      exact mapped cnt (Nat.lt_succ_self cnt)
    have table : (middle.proc t).pml4 = (middle.proc p).pml4 := by rw [procs, thread.table]
    refine ⟨middle, ih low earlier before, ?_⟩
    rw [pageUnmap_eq table here]
    exact last

theorem Thread.unmapPages_mapped (thread : Thread s p t) (unshared : Unshared s.ram (s.proc p).pml4)
    (user : ∀ k < cnt, (first + k) * pgSize < 2 ^ 47) (ran : unmapPages s t first cnt = .ok after) :
    ∀ k < cnt, translate s.ram.phys (s.proc p).pml4 ((first + k) * pgSize) ≠ none := by
  induction cnt generalizing after with
  | zero => exact fun k less => absurd less (Nat.not_lt_zero k)
  | succ cnt ih =>
    simp only [unmapPages, bind_ok] at ran
    obtain ⟨middle, before, last⟩ := ran
    have low : ∀ k < cnt, (first + k) * pgSize < 2 ^ 47 := fun k less => user k (Nat.lt_succ_of_lt less)
    have earlier := ih low before
    obtain ⟨_, same⟩ := unmapPages_keeps unshared low earlier (thread.unmapPages_owner before)
    have still : Thread middle p t := by
      rw [unmapPages_others before]
      exact thread.ram
    have procs : middle.proc = s.proc := by rw [unmapPages_others before]
    have here := still.pageUnmap_mapped last
    rw [procs, same _ (user cnt (Nat.lt_succ_self cnt))] at here
    intro k less
    rcases Nat.lt_succ_iff_lt_or_eq.mp less with inside | rfl
    · exact earlier k inside
    · exact here

def Shrinks (space : AddrSpace) (brk : Nat) : Prop :=
  brk ≠ 0 ∧ space.heapStart ≤ brk ∧ brk ≤ defaultStack - pgSize ∧ brk < space.heapEnd

instance (space : AddrSpace) (brk : Nat) : Decidable (Shrinks space brk) :=
  inferInstanceAs (Decidable (_ ∧ _ ∧ _ ∧ _))

theorem sysBrk_shrinks {brk : Nat} (owned : brkOwner s u = .ok p) (shrinks : Shrinks (s.proc p).addrSpace brk) :
    sysBrk s u brk = (unmapPages s u (divRoundUp brk pgSize)
        (divRoundUp (s.proc p).addrSpace.heapEnd pgSize - divRoundUp brk pgSize)).map
      fun unmapped => (0, unmapped.setSpace p fun space => { space with heapEnd := brk }) := by
  obtain ⟨nonzero, start, high, smaller⟩ := shrinks
  have accepted : ¬ (brk < (s.proc p).addrSpace.heapStart ∨ defaultStack - pgSize < brk) := by omega
  simp only [sysBrk, owned, Bind.bind, Except.bind, if_neg nonzero, if_neg accepted, if_pos smaller]
  cases unmapPages s u (divRoundUp brk pgSize)
    (divRoundUp (s.proc p).addrSpace.heapEnd pgSize - divRoundUp brk pgSize) with
  | error halt => rfl
  | ok unmapped => rfl

theorem sysBrk_quiet {brk : Nat} (owned : brkOwner s t = .ok p) (owned' : brkOwner s u = .ok p)
    (quiet : ¬ Shrinks (s.proc p).addrSpace brk) : sysBrk s t brk = sysBrk s u brk := by
  simp only [sysBrk, owned, owned', Bind.bind, Except.bind]
  by_cases asked : brk = 0
  · rw [if_pos asked, if_pos asked]
  · rw [if_neg asked, if_neg asked]
    by_cases refused : brk < (s.proc p).addrSpace.heapStart ∨ defaultStack - pgSize < brk
    · rw [if_pos refused, if_pos refused]
    · have grows : ¬ brk < (s.proc p).addrSpace.heapEnd := by
        intro smaller
        exact quiet ⟨asked, by omega, by omega, smaller⟩
      rw [if_neg refused, if_neg refused, if_neg grows, if_neg grows]

/-- The call returns the same and leaves the same machine, whichever of the two tasks makes it. -/
def SameBrk (s : Machine) (p t : Tid) (brk : Nat) : Prop :=
  ∀ result, sysBrk s t brk = .ok result ↔ sysBrk s p brk = .ok result

def ReleasesMapped (s : Machine) (p : Tid) (brk : Nat) : Prop :=
  Shrinks (s.proc p).addrSpace brk →
    ∀ k < divRoundUp (s.proc p).addrSpace.heapEnd pgSize - divRoundUp brk pgSize,
      translate s.ram.phys (s.proc p).pml4 ((divRoundUp brk pgSize + k) * pgSize) ≠ none

instance (s : Machine) (p : Tid) (brk : Nat) : Decidable (ReleasesMapped s p brk) :=
  inferInstanceAs (Decidable (Shrinks _ _ → ∀ k < _, _))

theorem released_user {e brk k : Nat} (low : e ≤ defaultStack)
    (inside : k < divRoundUp e pgSize - divRoundUp brk pgSize) : (divRoundUp brk pgSize + k) * pgSize < 2 ^ 47 := by
  simp only [defaultStack] at low
  have top : divRoundUp e pgSize ≤ 2 ^ 47 / 4096 := by
    simp only [divRoundUp, wrap, pgSize]
    omega
  simp only [pgSize] at inside top ⊢
  omega

theorem map_ok {α β ε : Type} {x : Except ε α} {f : α → β} {b : β} : x.map f = .ok b ↔ ∃ a, x = .ok a ∧ f a = b := by
  cases x with
  | error e => simp [Except.map]
  | ok a => simp [Except.map]

/-- What `sys_brk` does for the thread it does for the process as well. The other way round the pages that are given
    back have to be mapped: a thread cannot have a page made for it. -/
theorem Thread.sameBrk_iff {brk : Nat} (thread : Thread s p t) (unshared : Unshared s.ram (s.proc p).pml4)
    (low : (s.proc p).addrSpace.heapEnd ≤ defaultStack) :
    SameBrk s p t brk ↔ ((∃ result, sysBrk s p brk = .ok result) → ReleasesMapped s p brk) := by
  obtain ⟨ofThread, ofOwner⟩ := thread.owners
  by_cases shrinks : Shrinks (s.proc p).addrSpace brk
  · have user : ∀ k < divRoundUp (s.proc p).addrSpace.heapEnd pgSize - divRoundUp brk pgSize,
        (divRoundUp brk pgSize + k) * pgSize < 2 ^ 47 := fun k inside => released_user low inside
    rw [SameBrk, sysBrk_shrinks ofThread shrinks, sysBrk_shrinks ofOwner shrinks]
    simp only [map_ok]
    constructor
    · intro same ⟨result, returns⟩ _
      obtain ⟨unmapped, unmap, _⟩ := (same result).mpr returns
      exact thread.unmapPages_mapped unshared user unmap
    · intro mapped result
      constructor
      · intro ⟨unmapped, unmap, last⟩
        exact ⟨unmapped, thread.unmapPages_owner unmap, last⟩
      · intro ⟨unmapped, unmap, last⟩
        have all := mapped ⟨result, unmapped, unmap, last⟩ shrinks
        exact ⟨unmapped, thread.unmapPages_thread unshared user all unmap, last⟩
  · constructor
    · exact fun _ _ wrong => absurd wrong shrinks
    · intro _ result
      rw [sysBrk_quiet ofThread ofOwner shrinks]

def brkStep (s : Machine) (op : Tid × Nat) : Except Halt Machine := do
  let (_, s) ← sysBrk s op.1 op.2
  return s

theorem Thread.unshared_brk {brk : Nat} {result : Int} (thread : Thread s p t) (caller : u = p ∨ u = t)
    (unshared : Unshared s.ram (s.proc p).pml4) (low : (s.proc p).addrSpace.heapEnd ≤ defaultStack)
    (mapped : ReleasesMapped s p brk) (ran : sysBrk s u brk = .ok (result, after)) :
    Unshared after.ram (s.proc p).pml4 := by
  have owner : sysBrk s p brk = .ok (result, after) := by
    rcases caller with rfl | rfl
    · exact ran
    · exact ((thread.sameBrk_iff unshared low).mpr (fun _ => mapped) _).mp ran
  by_cases shrinks : Shrinks (s.proc p).addrSpace brk
  · rw [sysBrk_shrinks thread.owners.2 shrinks, map_ok] at owner
    obtain ⟨unmapped, unmap, last⟩ := owner
    rw [Prod.mk.injEq] at last
    have kept := (unmapPages_keeps unshared (fun k inside => released_user low inside) (mapped shrinks) unmap).1
    rw [← last.2]
    exact kept
  · have ram : after.ram = s.ram := by
      simp only [sysBrk, thread.owners.2, bind_ok, Except.ok.injEq, exists_eq_left'] at owner
      split at owner
      · cases owner
        rfl
      · rename_i nonzero
        split at owner
        · cases owner
          rfl
        · rename_i accepted
          have grows : ¬ brk < (s.proc p).addrSpace.heapEnd := fun smaller =>
            shrinks ⟨nonzero, by omega, by omega, smaller⟩
          simp only [if_neg grows, bind_ok, Except.ok.injEq, exists_eq_left', pure_ok, Prod.mk.injEq] at owner
          rw [← owner.2]
          rfl
    rw [ram]
    exact unshared

/-- After any calls of `sys_brk` by a process and its thread that give back mapped pages only, the next call does the
    same for both exactly if it gives back mapped pages only, and a fault does exactly if the process would not get the
    page either. -/
theorem thread_shares_space (s0 s1 s : Machine) (p : Tid) (pml4 : Nat) (ops : List (Tid × Nat)) (task : p < s0.tasks)
    (executed : (s0.proc p).addrSpace.heapStart ≠ 0) (low : (s0.proc p).addrSpace.heapEnd ≤ defaultStack)
    (unshared : Unshared s0.ram (s0.proc p).pml4) (cloned : sysClone s0 p true pml4 = .ok s1)
    (callers : ∀ op ∈ ops, op.1 = p ∨ op.1 = s0.tasks)
    (mapped : Meets brkStep (fun s op => ReleasesMapped s p op.2) s1 ops) (ran : run brkStep s1 ops = .ok s) :
    (∀ brk, SameBrk s p s0.tasks brk ↔ ((∃ result, sysBrk s p brk = .ok result) → ReleasesMapped s p brk)) ∧
    ∀ v < defaultStack, translate s.ram.phys (s.proc p).pml4 v = none →
      (FatalForOwner s p v → SameFault s p s0.tasks v) ∧
      (MemInv s → s.Kept p → Room 4 s.ram → SameFault s p s0.tasks v → FatalForOwner s p v) := by
  have start : Thread s1 p s0.tasks ∧ (s1.proc p).addrSpace.heapEnd ≤ defaultStack ∧
      Unshared s1.ram (s1.proc p).pml4 := by
    refine ⟨sysClone_thread task executed cloned, ?_⟩
    cases cloned
    simp only [Function.update_of_ne (Nat.ne_of_lt task)]
    exact ⟨low, unshared⟩
  have kept : Thread s p s0.tasks ∧ (s.proc p).addrSpace.heapEnd ≤ defaultStack ∧
      Unshared s.ram (s.proc p).pml4 := by
    refine @run_invariant _ _ _ _ _ (fun s => Thread s p s0.tasks ∧ (s.proc p).addrSpace.heapEnd ≤ defaultStack ∧
      Unshared s.ram (s.proc p).pml4) ?_ _ _ _ start (mapped.and callers) ran
    intro s op next ⟨thread, inside, tables⟩ ⟨gives, caller⟩ taken
    simp only [brkStep, bind_ok, pure_ok, Prod.exists] at taken
    obtain ⟨result, _, call, rfl⟩ := taken
    obtain ⟨still, below, same⟩ := thread.stays inside caller call
    refine ⟨still, below, ?_⟩
    rw [same]
    exact thread.unshared_brk caller tables inside gives call
  obtain ⟨thread, inside, tables⟩ := kept
  refine ⟨fun brk => thread.sameBrk_iff tables inside, ?_⟩
  intro v user unmapped
  exact ⟨thread.sameFault unmapped, fun inv isKept room => thread.fatal_of_same inv isKept room user unmapped⟩

def sharedBrks : List (Tid × Nat) := [(2, 0x401000), (1, 0x405000)]

instance (s : Machine) (op : Tid × Nat) : Decidable ((fun s op => ReleasesMapped s 1 op.2) s op) :=
  inferInstanceAs (Decidable (ReleasesMapped s 1 op.2))

theorem thread_shares_space_brks : ∃ s0 s1 s, run Machine.step (Machine.start fun _ _ => 0) bootOps = .ok s0 ∧
    sysClone s0 1 true 0 = .ok s1 ∧ run brkStep s1 sharedBrks = .ok s ∧ (s.proc 1).addrSpace.heapEnd = 0x405000 ∧
    SameBrk s 1 2 0x404800 ∧ SameFault s 1 2 0x500000 := by
  have evaluated : endsIn (run Machine.step (Machine.start fun _ _ => 0) bootOps) (fun s0 =>
      decide (s0.live 1 = true ∧ s0.tasks = 2 ∧ (s0.proc 1).addrSpace.heapStart ≠ 0 ∧
        (s0.proc 1).addrSpace.heapEnd ≤ defaultStack) &&
      endsIn (sysClone s0 1 true 0) (fun s1 =>
        meetsCheck brkStep (fun s op => ReleasesMapped s 1 op.2) s1 sharedBrks &&
        endsIn (run brkStep s1 sharedBrks) (fun s => decide ((s.proc 1).addrSpace.heapEnd = 0x405000 ∧
          translate s.ram.phys (s.proc 1).pml4 0x500000 = none ∧ FatalForOwner s 1 0x500000 ∧
          ReleasesMapped s 1 0x404800)))) = true := by
    decide +kernel
  obtain ⟨s0, booted, rest⟩ := exists_of_endsIn evaluated
  rw [Bool.and_eq_true] at rest
  obtain ⟨live, tasks, executed, low⟩ := of_decide_eq_true rest.1
  obtain ⟨s1, cloned, rest⟩ := exists_of_endsIn rest.2
  rw [Bool.and_eq_true] at rest
  obtain ⟨s, ran, check⟩ := exists_of_endsIn rest.2
  obtain ⟨grown, unmapped, fatal, mapped⟩ := of_decide_eq_true check
  have inv : MemInv s0 :=
    run_invariant memInv_step (memInv_start ⟨fun _ _ _ _ => rfl, fun _ _ => rfl⟩) bootOps_fresh booted
  have unshared := (inv.userTree (Machine.kept_live live)).unshared
  have callers : ∀ op ∈ sharedBrks, op.1 = 1 ∨ op.1 = s0.tasks := by
    rw [tasks]
    decide
  obtain ⟨brks, faults⟩ := thread_shares_space s0 s1 s 1 0 sharedBrks (Machine.live_iff.mp live).1 executed low unshared
    cloned callers (meets_of_check rest.1) ran
  rw [tasks] at brks faults
  exact ⟨s0, s1, s, booted, cloned, ran, grown, (brks 0x404800).mpr fun _ => mapped,
    (faults 0x500000 (by decide) unmapped).1 fatal⟩

/-- The heap grows by three pages that nobody touches. A fault in it and a call that gives them back come to their end for
    the process and not for its thread. -/
theorem thread_misses_heap : ∃ s0 s1 s, run Machine.step (Machine.start fun _ _ => 0) bootOps = .ok s0 ∧
    sysClone s0 1 true 0 = .ok s1 ∧ run brkStep s1 [(1, 0x405000)] = .ok s ∧
    ¬ SameFault s 1 2 0x403000 ∧ ¬ SameBrk s 1 2 0x402000 := by
  have evaluated : endsIn (run Machine.step (Machine.start fun _ _ => 0) bootOps) (fun s0 =>
      endsIn (sysClone s0 1 true 0) (fun s1 => endsIn (run brkStep s1 [(1, 0x405000)]) (fun s =>
        !endsIn (intrPageHandle s 2 0x403000) (fun _ => true) && endsIn (intrPageHandle s 1 0x403000) (fun _ => true) &&
        !endsIn (sysBrk s 2 0x402000) (fun _ => true) && endsIn (sysBrk s 1 0x402000) (fun _ => true)))) = true := by
    decide +kernel
  obtain ⟨s0, booted, rest⟩ := exists_of_endsIn evaluated
  obtain ⟨s1, cloned, rest⟩ := exists_of_endsIn rest
  obtain ⟨s, ran, rest⟩ := exists_of_endsIn rest
  simp only [Bool.and_eq_true, Bool.not_eq_true', ← Bool.not_eq_true] at rest
  obtain ⟨⟨⟨faultless, fault⟩, brkless⟩, brk⟩ := rest
  refine ⟨s0, s1, s, booted, cloned, ran, ?_, ?_⟩
  · intro same
    obtain ⟨after, handled, _⟩ := exists_of_endsIn fault
    obtain ⟨other, wrong⟩ := same.mpr ⟨after, handled⟩
    rw [wrong] at faultless
    exact faultless rfl
  · intro same
    obtain ⟨result, returned, _⟩ := exists_of_endsIn brk
    rw [(same result).mpr returned] at brkless
    exact brkless rfl

end RecoverOs.Memory
