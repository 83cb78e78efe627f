import RecoverOs.Memory.Forking

namespace RecoverOs.Memory

open Bytes Lib Forest Transition

variable {s after : Machine} {t : Tid}

/-- The entry at the end of the path `ref.2` below the table `ref.1` is present and refers to page `x`. -/
def Refers (s : Machine) (ref : Nat × List Nat) (x : Nat) : Prop :=
  ref.2 ≠ [] ∧ At s.ram s.Root ref.1 ref.2 x

/-- No page is leaked, and no entry refers to a free page or to one that another entry refers to. -/
def PageAccounting (s : Machine) : Prop :=
  (∀ x, reservedPages ≤ x → x < poolPages → (s.ram.pool.bits x = true ↔ ∃! ref, Refers s ref x)) ∧
  (∀ ref x, Refers s ref x → reservedPages ≤ x ∧ x < poolPages ∧ s.ram.pool.bits x = true) ∧
  ∀ ref ref' x, Refers s ref x → Refers s ref' x → ref = ref'

theorem MemInv.accounting (inv : MemInv s) : PageAccounting s := by
  have unique : ∀ ref ref' x, Refers s ref x → Refers s ref' x → ref = ref' := by
    intro ref ref' x left right
    obtain ⟨roots, paths⟩ := inv.tree.separate ref.1 ref.2 ref'.1 ref'.2 x left.2 right.2
    exact Prod.ext roots paths
  refine ⟨?_, fun ref x refers => inv.tree.owned ref.1 ref.2 x refers.2 refers.1, unique⟩
  intro x low small
  constructor
  · intro bit
    rcases inv.tree.marked x low small bit with waiting | ⟨r, path, nonempty, place⟩
    · exact waiting.elim
    · exact ⟨(r, path), ⟨nonempty, place⟩, fun other refers => unique other (r, path) x refers ⟨nonempty, place⟩⟩
  · intro ⟨ref, refers, _⟩
    exact (inv.tree.owned ref.1 ref.2 x refers.2 refers.1).2.2

def BrkKeeps (s : Machine) (t : Tid) (brk : Nat) : Prop :=
  match brkOwner s t with
  | .ok owner => brk = 0 ∨ brk < (s.proc owner).addrSpace.heapStart ∨ defaultStack - pgSize < brk ∨
      divRoundUp (s.proc owner).addrSpace.heapEnd pgSize ≤ divRoundUp brk pgSize
  | .error _ => True

instance (s : Machine) (t : Tid) (brk : Nat) : Decidable (BrkKeeps s t brk) :=
  match found : brkOwner s t with
  | .ok owner => decidable_of_iff (brk = 0 ∨ brk < (s.proc owner).addrSpace.heapStart ∨ defaultStack - pgSize < brk ∨
      divRoundUp (s.proc owner).addrSpace.heapEnd pgSize ≤ divRoundUp brk pgSize) (by rw [BrkKeeps, found])
  | .error _ => .isTrue (by rw [BrkKeeps, found]; exact True.intro)

theorem sysBrk_keeps {brk : Nat} {result : Int} (keeps : BrkKeeps s t brk) (ran : sysBrk s t brk = .ok (result, after)) :
    after = s ∨ ∃ owner, brkOwner s t = .ok owner ∧ brk ≠ 0 ∧ (s.proc owner).addrSpace.heapStart ≤ brk ∧
      brk ≤ defaultStack - pgSize ∧ after = s.setSpace owner fun space => { space with heapEnd := brk } := by
  simp only [sysBrk, bind_ok] at ran
  obtain ⟨owner, found, ran⟩ := ran
  rw [BrkKeeps, found] at keeps
  dsimp only at keeps
  split at ran
  · cases ran
    exact .inl rfl
  · rename_i nonzero
    split at ran
    · cases ran
      exact .inl rfl
    · rename_i valid
      rw [not_or, Nat.not_lt, Nat.not_lt] at valid
      have none : divRoundUp (s.proc owner).addrSpace.heapEnd pgSize ≤ divRoundUp brk pgSize := by
        rcases keeps with zero | low | high | none
        · exact absurd zero nonzero
        · omega
        · omega
        · exact none
      simp only [bind_ok, pure_ok, Prod.mk.injEq] at ran
      obtain ⟨middle, unmap, _, rfl⟩ := ran
      have same : middle = s := by
        split at unmap
        · rw [Nat.sub_eq_zero_of_le none] at unmap
          cases unmap
          rfl
        · cases unmap
          rfl
      rw [same]
      exact .inr ⟨owner, found, nonzero, valid.1, valid.2, rfl⟩

theorem MemInv.sysBrk {brk : Nat} {result : Int} (inv : MemInv s) (keeps : BrkKeeps s t brk)
    (ran : sysBrk s t brk = .ok (result, after)) : MemInv after := by
  rcases sysBrk_keeps keeps ran with rfl | ⟨owner, _, _, _, _, rfl⟩
  · exact inv
  · exact inv.setSpace owner _

theorem MemInv.sysExit (inv : MemInv s) (alive : (s.proc t).life = .alive)
    (none : (s.proc t).addrSpace.heapStart = 0) (ran : sysExit s t = .ok after) : MemInv after := by
  simp only [Memory.sysExit, bind_ok, pure_ok] at ran
  obtain ⟨_, _, released, release, rfl⟩ := ran
  have untouched : (if (s.proc t).parentTask = t then { s.proc t with parentTask := initProc }
      else s.proc t).addrSpace.heapStart = 0 := by
    split
    · exact none
    · exact none
  rw [releaseProgResource, if_pos untouched] at release
  cases release
  apply inv.congr
  · rfl
  · rfl
  apply Machine.root_congr
  · rfl
  intro u
  simp only [Machine.modify, Function.update_apply]
  by_cases here : u = t
  · subst here
    rw [if_pos rfl, alive]
    refine ⟨?_, by simp⟩
    split
    · rfl
    · rfl
  · rw [if_neg here]
    split
    · exact ⟨rfl, Iff.rfl⟩
    · exact ⟨rfl, Iff.rfl⟩

theorem waitChild_some {c : Tid} (found : waitChild s t = some c) :
    c < s.tasks ∧ (s.proc c).parentTask = t ∧ (s.proc c).life = .hanging := by
  have member := List.mem_of_find?_eq_some found
  have holds := List.find?_some found
  simp only [hangingChild, decide_eq_true_eq] at holds
  exact ⟨List.mem_range.mp member, holds⟩

theorem MemInv.sysWait (inv : MemInv s) (task : t < s.tasks) (alive : (s.proc t).life = .alive)
    (shared : ∀ c, waitChild s t = some c → (s.proc t).pml4 = (s.proc c).pml4) (ran : sysWait s t = .ok after) :
    MemInv after := by
  unfold Memory.sysWait at ran
  split at ran
  · cases ran
    exact inv
  · rename_i c found
    obtain ⟨_, _, hanging⟩ := waitChild_some found
    have other : t ≠ c := by
      intro same
      rw [same, hanging] at alive
      cases alive
    have tables : ((s.modify c fun proc => { proc with life := .died }).proc t).pml4 =
        ((s.modify c fun proc => { proc with life := .died }).proc c).pml4 := by
      simp only [Machine.modify, Function.update_self, Function.update_of_ne other]
      exact shared c found
    rw [if_neg (not_not.mpr tables)] at ran
    cases ran
    apply inv.congr
    · rfl
    · rfl
    funext root
    apply propext
    constructor
    · intro owned
      obtain ⟨u, less, unreaped, table⟩ := owned
      by_cases here : u = c
      · subst here
        simp only [Machine.modify, Function.update_self] at unreaped
        exact absurd rfl unreaped
      · simp only [Machine.modify, Function.update_of_ne here] at unreaped table
        exact ⟨u, less, unreaped, table⟩
    · intro owned
      obtain ⟨u, less, unreaped, table⟩ := owned
      by_cases here : u = c
      · subst here
        refine ⟨t, task, ?_, ?_⟩
        · simp only [Machine.modify, Function.update_of_ne other, alive]
          decide
        · simp only [Machine.modify, Function.update_of_ne other]
          exact (shared u found).trans table
      · refine ⟨u, less, ?_, ?_⟩
        · simp only [Machine.modify, Function.update_of_ne here]
          exact unreaped
        · simp only [Machine.modify, Function.update_of_ne here]
          exact table

/-- Pages of the user half are mapped where there is none and never unmapped, so no task with a program exits, and
    `sys_wait` reaps no task that has a table of its own. -/
def MapsFresh (s : Machine) : Tid × MemOp → Prop
  | (t, .pageMap vaddr) => vaddr < defaultStack ∧ translate s.ram.phys (s.proc t).pml4 vaddr = none
  | (_, .pageUnmap _) => False
  | (_, .fault _) | (_, .store ..) | (_, .clone ..) => True
  | (t, .brk brk) => BrkKeeps s t brk
  | (t, .execv image) => Fits s t image.segments
  | (t, .exit) => (s.proc t).addrSpace.heapStart = 0
  | (t, .wait) => ∀ c, waitChild s t = some c → (s.proc t).pml4 = (s.proc c).pml4

instance (s : Machine) (op : Tid × MemOp) : Decidable (MapsFresh s op) :=
  match op with
  | (t, .pageMap vaddr) =>
    inferInstanceAs (Decidable (vaddr < defaultStack ∧ translate s.ram.phys (s.proc t).pml4 vaddr = none))
  | (_, .pageUnmap _) => .isFalse id
  | (_, .fault _) | (_, .store ..) | (_, .clone ..) => .isTrue True.intro
  | (t, .brk brk) => inferInstanceAs (Decidable (BrkKeeps s t brk))
  | (t, .execv image) => inferInstanceAs (Decidable (Fits s t image.segments))
  | (t, .exit) => inferInstanceAs (Decidable ((s.proc t).addrSpace.heapStart = 0))
  | (t, .wait) =>
    match found : waitChild s t with
    | none => .isTrue fun c wrong => by
        rw [found] at wrong
        cases wrong
    | some c => decidable_of_iff ((s.proc t).pml4 = (s.proc c).pml4) (by
        rw [MapsFresh, found]
        simp)

theorem memInv_step (s : Machine) (op : Tid × MemOp) (after : Machine) (inv : MemInv s) (fresh : MapsFresh s op)
    (ran : s.step op = .ok after) : MemInv after := by
  obtain ⟨t, call⟩ := op
  simp only [Machine.step, bind_ok, offer_ok, Machine.live, decide_eq_true_eq] at ran
  obtain ⟨_, ⟨task, alive⟩, ran⟩ := ran
  have kept : s.Kept t := ⟨task, by rw [alive]; decide⟩
  cases call with
  | pageMap vaddr =>
    simp only [Machine.call, bind_ok, pure_ok] at ran
    obtain ⟨ram, map, rfl⟩ := ran
    exact (pageMap_maps inv kept fresh.1 fresh.2 map).inv inv
  | pageUnmap vaddr => exact fresh.elim
  | fault vaddr =>
    simp only [Machine.call, bind_ok, offer_ok, Bool.and_eq_true, decide_eq_true_eq, Option.isNone_iff_eq_none] at ran
    obtain ⟨_, ⟨user, unmapped⟩, handle⟩ := ran
    rcases intrPageHandle_maps inv kept user unmapped handle with ⟨_, q, _, maps⟩ | ⟨_, _, maps⟩
    · exact maps.inv inv
    · exact maps.inv inv
  | store vaddr byte =>
    simp only [Machine.call, bind_ok, offer_ok, decide_eq_true_eq] at ran
    obtain ⟨_, user, store⟩ := ran
    exact (inv.storeByte kept user store).1
  | brk brk =>
    simp only [Machine.call, bind_ok, pure_ok, Prod.exists] at ran
    obtain ⟨result, _, call, rfl⟩ := ran
    exact inv.sysBrk fresh call
  | clone cloneVm pml4 => exact inv.sysClone kept ran
  | execv image => exact inv.sysExecv kept fresh ran
  | exit => exact inv.sysExit alive fresh ran
  | wait => exact inv.sysWait task alive fresh ran

/-- The memory that nobody has used yet is zero, and so is the user half of the kernel's table. -/
def Cleared (phys : Nat → Buffer) : Prop :=
  (∀ page, reservedPages ≤ page → ∀ i < pgSize, phys page i = 0) ∧ ∀ i < pgSize / 2, phys kernelPml4 i = 0

theorem memInv_start {phys : Nat → Buffer} (cleared : Cleared phys) : MemInv (Machine.start phys) := by
  have bare : TreeInv (fun _ => False) (fun _ => False) (Machine.start phys).ram := by
    have nowhere : ∀ r path x, ¬ At (Machine.start phys).ram (fun _ => False) r path x := fun r path x place => place.isRoot
    constructor
    case size => rfl
    case separate => exact fun r path _ _ x place => absurd place (nowhere r path x)
    case rootLow => exact fun r wrong => wrong.elim
    case owned => exact fun r path x place => absurd place (nowhere r path x)
    case marked =>
      intro x low _ bit
      have less : x < reservedPages := of_decide_eq_true bit
      omega
    case taken => exact fun x wrong => wrong.elim
    case clear => exact fun x low _ _ => cleared.1 x low
    case reserved => exact fun x less => decide_eq_true less
    case packed =>
      intro x y below bit
      have less : x < reservedPages := of_decide_eq_true bit
      exact decide_eq_true (Nat.lt_of_le_of_lt below less)
  have roots : (Machine.start phys).Root = fun r => False ∨ r = kernelPml4 := by
    funext root
    apply propext
    constructor
    · intro ⟨u, _, _, table⟩
      exact .inr table.symm
    · intro either
      rcases either with wrong | rfl
      · exact wrong.elim
      · exact ⟨0, Nat.two_pos, by simp [Machine.start], rfl⟩
  constructor
  · rw [roots]
    exact (bare.new_root (by decide) id (fun _ _ => rfl) cleared.2).1
  · rw [roots]
    intro root isRoot
    exact .inl (isRoot.resolve_left id)

/-- Every state that such a run reaches accounts for every physical page. -/
theorem pages_accounted (phys : Nat → Buffer) (cleared : Cleared phys) (ops : List (Tid × MemOp)) (s : Machine)
    (fresh : Meets Machine.step MapsFresh (Machine.start phys) ops)
    (ran : run Machine.step (Machine.start phys) ops = .ok s) : PageAccounting s :=
  (run_invariant memInv_step (memInv_start cleared) fresh ran).accounting

def tinyImage : Image where
  segments := [{ vaddr := 0x400100, memsz := 0x20, nbyte := 2, data := fun i => if i = 0 then 9 else 8, short := by decide }]
  complete := true

/-- The stack is mapped, a program is loaded and its heap grows by two pages, one of which is touched. -/
def bootOps : List (Tid × MemOp) :=
  [(1, .pageMap 0x7fffffffe000), (1, .pageMap 0x7ffffffff000), (1, .execv tinyImage), (1, .brk 0x402000),
    (1, .store 0x401000 7)]

theorem bootOps_fresh : Meets Machine.step MapsFresh (Machine.start fun _ _ => 0) bootOps :=
  meets_of_check (by decide +kernel)

def threadOps : List (Tid × MemOp) :=
  bootOps ++ [(1, .clone false 0x110), (2, .fault 0x400100), (2, .clone true 0), (3, .exit), (2, .wait)]

theorem pages_accounted_threads : ∃ s, run Machine.step (Machine.start fun _ _ => 0) threadOps = .ok s ∧
    (s.proc 3).life = .died ∧ (translate s.ram.phys 0x110 0x400100).isSome ∧ PageAccounting s := by
  have evaluated : endsIn (run Machine.step (Machine.start fun _ _ => 0) threadOps) (fun s =>
      decide ((s.proc 3).life = .died ∧ (translate s.ram.phys 0x110 0x400100).isSome = true)) = true := by
    decide +kernel
  have fresh : meetsCheck Machine.step MapsFresh (Machine.start fun _ _ => 0) threadOps = true := by
    decide +kernel
  obtain ⟨s, ran, check⟩ := exists_of_endsIn evaluated
  obtain ⟨reaped, mapped⟩ := of_decide_eq_true check
  exact ⟨s, ran, reaped, mapped, pages_accounted _ ⟨fun _ _ _ _ => rfl, fun _ _ => rfl⟩ threadOps s
    (meets_of_check fresh) ran⟩

/-- After the heap has shrunk its page is free and still mapped. -/
theorem shrunk_heap_stays_mapped : ∃ s,
    run Machine.step (Machine.start fun _ _ => 0) (bootOps ++ [(1, .brk 0x401000)]) = .ok s ∧ ¬ PageAccounting s := by
  have evaluated : endsIn (run Machine.step (Machine.start fun _ _ => 0) (bootOps ++ [(1, .brk 0x401000)])) (fun s =>
      decide ((s.proc 1).pml4 = 0x100 ∧ (s.proc 1).life ≠ .died ∧ 1 < s.tasks ∧
        translate s.ram.phys 0x100 0x401000 = some 521 ∧ s.ram.pool.bits 521 = false)) = true := by
    decide +kernel
  obtain ⟨s, ran, check⟩ := exists_of_endsIn evaluated
  obtain ⟨table, unreaped, task, found, free⟩ := of_decide_eq_true check
  refine ⟨s, ran, ?_⟩
  intro accounting
  have refers : Refers s (0x100, pathOf 0x401000) 521 :=
    ⟨by decide, ⟨1, task, unreaped, table⟩, pathOf_user (by decide), found⟩
  have marked := (accounting.2.1 _ _ refers).2.2
  rw [free] at marked
  cases marked

end RecoverOs.Memory
