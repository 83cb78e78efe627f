import RecoverOs.Memory.Tables

namespace RecoverOs.Memory

open Bytes Lib Forest Transition

variable {s after : Machine} {buf : Buffer} {t : Tid} {vaddr root : Nat}

structure Extends (s after : Machine) : Prop where
  others : after = { s with ram := after.ram }
  keeps : ∀ root, s.Root root → ∀ v < 2 ^ 47, ∀ q, translate s.ram.phys root v = some q →
    translate after.ram.phys root v = some q ∧ after.ram.phys q = s.ram.phys q

theorem Extends.refl (s : Machine) : Extends s s := ⟨rfl, fun _ _ _ _ _ found => ⟨found, rfl⟩⟩

theorem Extends.sameRoots (ext : Extends s after) : after.Root = s.Root := by
  rw [ext.others]
  rfl

theorem Extends.trans {middle : Machine} (first : Extends s middle) (second : Extends middle after) :
    Extends s after := by
  refine ⟨by rw [second.others, first.others], ?_⟩
  intro root isRoot v user q found
  obtain ⟨there, same⟩ := first.keeps root isRoot v user q found
  obtain ⟨still, again⟩ := second.keeps root (first.sameRoots ▸ isRoot) v user q there
  exact ⟨still, again.trans same⟩

theorem Extends.kept (ext : Extends s after) (kept : s.Kept t) : after.Kept t := by
  rw [ext.others]
  exact kept

theorem Extends.proc (ext : Extends s after) : after.proc = s.proc := by
  rw [ext.others]

theorem Maps.extension (maps : Maps s after t vaddr buf) : Extends s after := by
  obtain ⟨q, mapped⟩ := maps.ram
  refine ⟨maps.others, ?_⟩
  intro root isRoot v user x found
  have place := (translate_at isRoot user).mp found
  exact ⟨(translate_at isRoot user).mpr ((mapped.leaves _ _ _ rfl).mpr (.inl place)), mapped.data _ _ _ rfl place⟩

theorem Maps.elsewhere {v : Nat} (maps : Maps s after t vaddr buf) (isRoot : s.Root root) (user : v < 2 ^ 47)
    (other : ¬ (root = (s.proc t).pml4 ∧ pathOf v = pathOf vaddr)) :
    translate after.ram.phys root v = translate s.ram.phys root v := by
  obtain ⟨q, mapped⟩ := maps.ram
  exact mapped.elsewhere isRoot user other

theorem Maps.here (maps : Maps s after t vaddr buf) (kept : s.Kept t) (user : vaddr < 2 ^ 47) :
    ∃ q, translate after.ram.phys (s.proc t).pml4 vaddr = some q ∧ ∀ i < pgSize, after.ram.phys q i = buf i := by
  obtain ⟨q, mapped⟩ := maps.ram
  refine ⟨q, ?_, mapped.content⟩
  exact (translate_at kept.isRoot user).mpr ((mapped.leaves _ _ _ rfl).mpr (.inr ⟨rfl, rfl, rfl⟩))

theorem access_extends (inv : MemInv s) (kept : s.Kept t) (user : vaddr < 2 ^ 47) (ran : access s t vaddr = .ok after) :
    MemInv after ∧ Extends s after ∧ (∃ q, translate after.ram.phys (s.proc t).pml4 vaddr = some q) ∧
    ∀ root, s.Root root → root ≠ (s.proc t).pml4 → ∀ v < 2 ^ 47,
      translate after.ram.phys root v = translate s.ram.phys root v := by
  unfold Memory.access at ran
  split at ran
  · rename_i q found
    cases ran
    exact ⟨inv, .refl s, ⟨q, found⟩, fun _ _ _ _ _ => rfl⟩
  · rename_i unmapped
    have maps : ∃ buf, Maps s after t vaddr buf := by
      rcases intrPageHandle_maps inv kept user unmapped ran with ⟨_, q, _, maps⟩ | ⟨_, _, maps⟩
      · exact ⟨_, maps⟩
      · exact ⟨_, maps⟩
    obtain ⟨buf, maps⟩ := maps
    obtain ⟨q, found, _⟩ := maps.here kept user
    refine ⟨maps.inv inv, maps.extension, ⟨q, found⟩, ?_⟩
    exact fun root isRoot other v userV => maps.elsewhere isRoot userV fun both => other both.1

def stackPage (k : Nat) : Nat := defaultStack - globalStackSize + k * pgSize

def StackCopied (s : Machine) (t child : Tid) (k : Nat) : Prop :=
  ∃ q q', translate s.ram.phys (s.proc t).pml4 (stackPage k) = some q ∧
    translate s.ram.phys (s.proc child).pml4 (stackPage k) = some q' ∧
    ∀ i < pgSize, s.ram.phys q' i = s.ram.phys q i

theorem stackPage_user {k : Nat} (inside : k < globalStackSize / pgSize) : stackPage k < 2 ^ 47 := by
  simp only [globalStackSize, pgSize] at inside
  simp only [stackPage, defaultStack, globalStackSize, pgSize]
  omega

theorem StackCopied.keep {child : Tid} {k : Nat} (copied : StackCopied s t child k) (ext : Extends s after)
    (kept : s.Kept t) (keptChild : s.Kept child) (inside : k < globalStackSize / pgSize) :
    StackCopied after t child k := by
  obtain ⟨q, q', found, found', same⟩ := copied
  have user := stackPage_user inside
  obtain ⟨still, bytes⟩ := ext.keeps _ kept.isRoot _ user q found
  obtain ⟨still', bytes'⟩ := ext.keeps _ keptChild.isRoot _ user q' found'
  refine ⟨q, q', by rw [ext.proc]; exact still, by rw [ext.proc]; exact still', ?_⟩
  intro i bound
  rw [bytes, bytes', same i bound]

theorem copyStack_extends {child : Tid} {cnt : Nat} (inv : MemInv s) (kept : s.Kept t) (keptChild : s.Kept child)
    (apart : (s.proc t).pml4 ≠ (s.proc child).pml4) (inside : cnt ≤ globalStackSize / pgSize)
    (empty : ∀ v < 2 ^ 47, translate s.ram.phys (s.proc child).pml4 v = none)
    (ran : copyStack s t child cnt = .ok after) :
    MemInv after ∧ Extends s after ∧ (∀ k < cnt, StackCopied after t child k) ∧
    ∀ v < 2 ^ 47, (∀ k < cnt, v / pgSize ≠ stackPage k / pgSize) →
      translate after.ram.phys (s.proc child).pml4 v = none := by
  induction cnt generalizing after with
  | zero =>
    cases ran
    exact ⟨inv, .refl s, fun k less => absurd less (Nat.not_lt_zero k), fun v user _ => empty v user⟩
  | succ cnt ih =>
    simp only [copyStack, bind_ok] at ran
    obtain ⟨middle, first, touched, touch, copy⟩ := ran
    obtain ⟨middleInv, middleExt, copied, free⟩ := ih (by omega) first
    have user := @stackPage_user cnt (by omega)
    obtain ⟨touchedInv, touchedExt, _, elsewhere⟩ :=
      access_extends middleInv (middleExt.kept kept) user touch
    have procs : touched.proc = s.proc := touchedExt.proc.trans middleExt.proc
    have ext := middleExt.trans touchedExt
    have untouched : ∀ v < 2 ^ 47, translate touched.ram.phys (s.proc child).pml4 v =
        translate middle.ram.phys (s.proc child).pml4 v := by
      intro v userV
      apply elsewhere _ _ _ v userV
      · rw [middleExt.sameRoots]
        exact keptChild.isRoot
      · rw [middleExt.proc]
        exact apart.symm
    have distinct : ∀ k < cnt, stackPage cnt / pgSize ≠ stackPage k / pgSize := by
      intro k less
      simp only [stackPage, defaultStack, globalStackSize, pgSize]
      omega
    have unmapped : translate touched.ram.phys (touched.proc child).pml4 (stackPage cnt) = none := by
      rw [procs, untouched _ user]
      exact free _ user distinct
    obtain ⟨q, found, maps⟩ := copyPage_maps touchedInv (ext.kept keptChild) user unmapped copy
    obtain ⟨q', here, content⟩ := maps.here (ext.kept keptChild) user
    obtain ⟨still, bytes⟩ := maps.extension.keeps _ (ext.kept kept).isRoot _ user q found
    refine ⟨maps.inv touchedInv, ext.trans maps.extension, ?_, ?_⟩
    · intro k less
      by_cases last : k = cnt
      · subst last
        refine ⟨q, q', ?_, ?_, ?_⟩
        · rw [maps.extension.proc]
          exact still
        · rw [maps.extension.proc]
          exact here
        · intro i bound
          rw [content i bound, bytes]
      · have earlier : k < cnt := by omega
        exact (copied k earlier).keep (touchedExt.trans maps.extension) (middleExt.kept kept)
          (middleExt.kept keptChild) (by omega)
    · intro v userV outside
      have other : ¬ ((s.proc child).pml4 = (touched.proc child).pml4 ∧ pathOf v = pathOf (stackPage cnt)) :=
        fun both => outside cnt (Nat.lt_succ_self cnt) (pathOf_inj userV user both.2)
      rw [maps.elsewhere (ext.sameRoots ▸ keptChild.isRoot) userV other, untouched v userV]
      exact free v userV fun k less => outside k (Nat.lt_succ_of_lt less)

def forked (s : Machine) (t : Tid) (pml4 : Nat) : Machine where
  ram := cloneTable s.ram (s.proc t).pml4 pml4
  kernelPool := Function.update s.kernelPool pml4 true
  proc := Function.update s.proc s.tasks
    { pml4 := pml4, parentTask := t, addrSpace := (s.proc t).addrSpace, life := .alive }
  tasks := s.tasks + 1

theorem sysClone_fork {pml4 : Nat} (task : t < s.tasks) (ran : sysClone s t false pml4 = .ok after) :
    KernelPage pml4 ∧ s.kernelPool pml4 = false ∧
      copyStack (forked s t pml4) t s.tasks (globalStackSize / pgSize) = .ok after := by
  have other : t ≠ s.tasks := Nat.ne_of_lt task
  simp only [sysClone, Bool.false_eq_true, if_false, bind_ok, offer_ok, Bool.and_eq_true, decide_eq_true_eq,
    Bool.not_eq_true'] at ran
  obtain ⟨_, ⟨page, free⟩, copy⟩ := ran
  refine ⟨page, free, ?_⟩
  rw [← copy]
  simp only [forked, Machine.modify, Function.update_self, Function.update_of_ne other, Function.update_idem]

theorem Machine.root_added {new : Proc} (tasks : after.tasks = s.tasks + 1)
    (procs : after.proc = Function.update s.proc s.tasks new) (unreaped : new.life ≠ .died) :
    after.Root = fun root => s.Root root ∨ root = new.pml4 := by
  funext root
  apply propext
  simp only [Machine.Root, tasks, procs]
  constructor
  · intro owned
    obtain ⟨u, less, lives, table⟩ := owned
    by_cases here : u = s.tasks
    · rw [here, Function.update_self] at table
      exact .inr table.symm
    · rw [Function.update_of_ne here] at lives table
      exact .inl ⟨u, Nat.lt_of_le_of_ne (Nat.le_of_lt_succ less) here, lives, table⟩
  · intro either
    rcases either with ⟨u, less, lives, table⟩ | same
    · have old : u ≠ s.tasks := Nat.ne_of_lt less
      refine ⟨u, Nat.lt_succ_of_lt less, ?_⟩
      rw [Function.update_of_ne old]
      exact ⟨lives, table⟩
    · refine ⟨s.tasks, Nat.lt_succ_self _, ?_⟩
      rw [Function.update_self]
      exact ⟨unreaped, same.symm⟩

theorem forked_root {pml4 : Nat} (s : Machine) (t : Tid) :
    (forked s t pml4).Root = fun root => s.Root root ∨ root = pml4 := by
  have added := @Machine.root_added s (forked s t pml4) _ rfl rfl (by simp)
  exact added

theorem MemInv.forked {pml4 : Nat} (inv : MemInv s) (page : KernelPage pml4) (free : s.kernelPool pml4 = false) :
    MemInv (forked s t pml4) ∧ ¬ s.Root pml4 ∧
    (∀ v < 2 ^ 47, translate (Memory.forked s t pml4).ram.phys pml4 v = none) ∧
    ∀ root, s.Root root → ∀ v < 2 ^ 47,
      translate (Memory.forked s t pml4).ram.phys root v = translate s.ram.phys root v := by
  have low : pml4 < reservedPages := by
    have bound := page.2
    simp only [reservedPages, pgSize]
    omega
  have fresh : ¬ s.Root pml4 := by
    intro isRoot
    rcases inv.tables pml4 isRoot with kernel | ⟨_, used⟩
    · have bound := page.1
      rw [kernel, kernelPml4] at bound
      omega
    · rw [free] at used
      cases used
  obtain ⟨tree, places⟩ := @TreeInv.new_root s.ram s.Root pml4 (cloneTable s.ram (s.proc t).pml4 pml4).phys inv.tree low
    fresh (fun x other => Function.update_of_ne other _ _) (by
      intro i bound
      simp only [cloneTable, Function.update_self]
      exact if_pos bound)
  refine ⟨⟨?_, ?_⟩, fresh, ?_, ?_⟩
  · rw [forked_root]
    exact tree
  · rw [forked_root]
    intro root isRoot
    rcases isRoot with old | rfl
    · have other : root ≠ pml4 := fun same => fresh (same ▸ old)
      simp only [Memory.forked, Function.update_of_ne other]
      exact inv.tables root old
    · simp only [Memory.forked, Function.update_self]
      exact .inr ⟨page, trivial⟩
  · intro v user
    cases found : translate (Memory.forked s t pml4).ram.phys pml4 v with
    | none => rfl
    | some x =>
      rcases (places pml4 (pathOf v) x).mp ⟨.inr rfl, pathOf_user user, found⟩ with old | ⟨_, wrong, _⟩
      · exact absurd old.isRoot fresh
      · cases wrong
  · intro root isRoot v user
    apply Option.ext
    intro x
    constructor
    · intro found
      rcases (places root (pathOf v) x).mp ⟨.inl isRoot, pathOf_user user, found⟩ with old | ⟨rfl, _⟩
      · exact old.reached
      · exact absurd isRoot fresh
    · intro found
      exact ((places root (pathOf v) x).mpr (.inl ⟨isRoot, pathOf_user user, found⟩)).reached

/-- What `sys_clone` without `CLONE_VM` leaves: a table with the stack in it. -/
structure Forked (s after : Machine) (t : Tid) (pml4 : Nat) : Prop where
  inv : MemInv after
  fresh : ¬ s.Root pml4
  ext : Extends (forked s t pml4) after
  old : ∀ root, s.Root root → ∀ v < 2 ^ 47,
    translate (forked s t pml4).ram.phys root v = translate s.ram.phys root v
  stack : ∀ k < globalStackSize / pgSize, StackCopied after t s.tasks k
  empty : ∀ v < 2 ^ 47, (∀ k < globalStackSize / pgSize, v / pgSize ≠ stackPage k / pgSize) →
    translate after.ram.phys pml4 v = none

theorem sysClone_forked {pml4 : Nat} (inv : MemInv s) (kept : s.Kept t) (ran : sysClone s t false pml4 = .ok after) :
    Forked s after t pml4 := by
  obtain ⟨page, free, copy⟩ := sysClone_fork kept.1 ran
  obtain ⟨forkedInv, fresh, empty, old⟩ := @MemInv.forked s t pml4 inv page free
  have other : t ≠ s.tasks := Nat.ne_of_lt kept.1
  have parent : ((forked s t pml4).proc t) = s.proc t := Function.update_of_ne other _ _
  have child : ((forked s t pml4).proc s.tasks).pml4 = pml4 := by simp [forked]
  have keptParent : (forked s t pml4).Kept t := ⟨Nat.lt_succ_of_lt kept.1, by rw [parent]; exact kept.2⟩
  have keptChild : (forked s t pml4).Kept s.tasks := ⟨Nat.lt_succ_self _, by simp [forked]⟩
  have apart : ((forked s t pml4).proc t).pml4 ≠ ((forked s t pml4).proc s.tasks).pml4 := by
    rw [parent, child]
    exact fun same => fresh (same ▸ kept.isRoot)
  have emptyChild : ∀ v < 2 ^ 47, translate (forked s t pml4).ram.phys ((forked s t pml4).proc s.tasks).pml4 v = none := by
    intro v user
    rw [child]
    exact empty v user
  obtain ⟨afterInv, ext, stack, rest⟩ :=
    copyStack_extends forkedInv keptParent keptChild apart (Nat.le_refl _) emptyChild copy
  rw [child] at rest
  exact ⟨afterInv, fresh, ext, old, stack, rest⟩

theorem MemInv.sysClone {cloneVm : Bool} {pml4 : Nat} (inv : MemInv s) (kept : s.Kept t)
    (ran : sysClone s t cloneVm pml4 = .ok after) : MemInv after := by
  cases cloneVm with
  | true =>
    simp only [Memory.sysClone, if_true, Except.ok.injEq] at ran
    subst ran
    apply inv.congr
    · rfl
    · rfl
    have added := @Machine.root_added s { s with
      tasks := s.tasks + 1
      proc := Function.update s.proc s.tasks
        { pml4 := (s.proc t).pml4, parentTask := t, addrSpace := AddrSpace.zero, life := .alive } } _ rfl rfl (by simp)
    rw [added]
    funext root
    apply propext
    apply or_iff_left_of_imp
    intro same
    rw [same]
    exact kept.isRoot
  | false => exact (sysClone_forked inv kept ran).inv

end RecoverOs.Memory
