import RecoverOs.Memory.Space

namespace RecoverOs.Memory

open Bytes Lib Transition

variable {s after : Machine} {t u : Tid} {vaddr cnt : Nat}

inductive FaultClass where
  | segment (i : Fin 4)
  | heap
  | stack
  deriving DecidableEq, Repr

def stackStart : Nat := defaultStack - globalStackSize

def AddrSpace.bounds (space : AddrSpace) : FaultClass → Nat × Nat
  | .segment i => (space.vaddr i, space.vaddr i + space.filesz i)
  | .heap => (space.heapStart, space.heapEnd)
  | .stack => (stackStart, defaultStack)

/-- The test that `intr_page_handle` makes for a class. -/
def InClass (space : AddrSpace) (vaddr : Nat) : FaultClass → Prop
  | .segment i => inRange (space.vaddr i) (space.filesz i) vaddr
  | .heap => inHeap space vaddr
  | .stack => inRange (defaultStack - globalStackSize) globalStackSize vaddr

def Clear (a b : Nat × Nat) : Prop := a.2 ≤ a.1 ∨ b.2 ≤ b.1 ∨ a.2 ≤ b.1 ∨ b.2 ≤ a.1

instance (a b : Nat × Nat) : Decidable (Clear a b) := inferInstanceAs (Decidable (_ ∨ _ ∨ _ ∨ _))

theorem clear_iff (a b : Nat × Nat) : Clear a b ↔ ∀ x, ¬ ((a.1 ≤ x ∧ x < a.2) ∧ b.1 ≤ x ∧ x < b.2) := by
  constructor
  · intro clear x both
    simp only [Clear] at clear
    omega
  · intro none
    have high := none (max a.1 b.1)
    simp only [Clear]
    omega

theorem Clear.symm {a b : Nat × Nat} (clear : Clear a b) : Clear b a := by
  simp only [Clear] at clear ⊢
  omega

/-- The ranges are pairwise disjoint, and an address has at most one class. -/
structure RegionsApart (space : AddrSpace) : Prop where
  disjoint : ∀ a b, a ≠ b → ∀ x, ¬ (((space.bounds a).1 ≤ x ∧ x < (space.bounds a).2) ∧
    (space.bounds b).1 ≤ x ∧ x < (space.bounds b).2)
  oneClass : ∀ vaddr a b, InClass space vaddr a → InClass space vaddr b → a = b

/-- What `sys_execv` and `sys_brk` keep of an address space. -/
structure SpaceInv (space : AddrSpace) : Prop where
  below : ∀ i : Fin 4, space.vaddr i + space.filesz i ≤ stackStart
  segments : ∀ i j : Fin 4, i ≠ j → Clear (space.bounds (.segment i)) (space.bounds (.segment j))
  grown : space.heapStart ≤ space.heapEnd
  heapBelow : space.heapEnd ≤ stackStart
  heap : ∀ i : Fin 4, Clear (space.bounds .heap) (space.bounds (.segment i))

theorem SpaceInv.clear {space : AddrSpace} (inv : SpaceInv space) {a b : FaultClass} (other : a ≠ b) :
    Clear (space.bounds a) (space.bounds b) := by
  have stackAbove : ∀ i : Fin 4, Clear (space.bounds (.segment i)) (space.bounds .stack) :=
    fun i => .inr (.inr (.inl (inv.below i)))
  have heapStack : Clear (space.bounds .heap) (space.bounds .stack) := .inr (.inr (.inl inv.heapBelow))
  cases a with
  | segment i =>
    cases b with
    | segment j => exact inv.segments i j fun same => other (by rw [same])
    | heap => exact (inv.heap i).symm
    | stack => exact stackAbove i
  | heap =>
    cases b with
    | segment j => exact inv.heap j
    | heap => exact absurd rfl other
    | stack => exact heapStack
  | stack =>
    cases b with
    | segment j => exact (stackAbove j).symm
    | heap => exact heapStack.symm
    | stack => exact absurd rfl other

theorem SpaceInv.inClass {space : AddrSpace} (inv : SpaceInv space) {class' : FaultClass}
    (inside : InClass space vaddr class') : (space.bounds class').1 ≤ vaddr ∧ vaddr < (space.bounds class').2 := by
  cases class' with
  | segment i =>
    have low := Nat.mod_le (space.vaddr i + space.filesz i) (2 ^ 64)
    simp only [InClass, inRange, wrap] at inside
    simp only [AddrSpace.bounds]
    omega
  | heap =>
    have grown := inv.grown
    have below := inv.heapBelow
    simp only [InClass, inHeap, inRange, wrap] at inside
    simp only [AddrSpace.bounds, stackStart, defaultStack] at below ⊢
    omega
  | stack =>
    simp only [InClass, inRange, wrap, defaultStack, globalStackSize, pgSize] at inside
    simp only [AddrSpace.bounds, stackStart, defaultStack, globalStackSize, pgSize]
    omega

theorem SpaceInv.apart {space : AddrSpace} (inv : SpaceInv space) : RegionsApart space where
  disjoint := fun a b other => (clear_iff _ _).mp (inv.clear other)
  oneClass := by
    intro vaddr a b first second
    by_cases same : a = b
    · exact same
    · exact absurd ⟨inv.inClass first, inv.inClass second⟩ ((clear_iff _ _).mp (inv.clear same) vaddr)

theorem AddrSpace.zero_inv : SpaceInv AddrSpace.zero where
  below := fun _ => Nat.zero_le _
  segments := fun _ _ _ => .inl (Nat.le_refl _)
  grown := Nat.le_refl _
  heapBelow := Nat.zero_le _
  heap := fun _ => .inl (Nat.le_refl _)

theorem copyPage_others (ran : copyPage s vaddr t u = .ok after) : after = { s with ram := after.ram } := by
  unfold copyPage at ran
  split at ran
  · cases ran
  · simp only [bind_ok, pure_ok] at ran
    obtain ⟨_, _, _, _, rfl⟩ := ran
    rfl

theorem intrPageHandle_others (ran : intrPageHandle s t vaddr = .ok after) : after = { s with ram := after.ram } := by
  unfold intrPageHandle at ran
  split at ran
  · exact copyPage_others ran
  · split at ran
    · simp only [bind_ok, pure_ok] at ran
      obtain ⟨_, _, rfl⟩ := ran
      rfl
    · cases ran

theorem access_others (ran : access s t vaddr = .ok after) : after = { s with ram := after.ram } := by
  unfold access at ran
  split at ran
  · cases ran
    rfl
  · exact intrPageHandle_others ran

theorem storeByte_others {byte : UInt8} (ran : storeByte s t vaddr byte = .ok after) :
    after = { s with ram := after.ram } := by
  simp only [storeByte, bind_ok] at ran
  obtain ⟨touched, touch, ran⟩ := ran
  split at ran
  · split at ran
    · cases ran
      rw [access_others touch]
    · cases ran
  · cases ran

theorem storeBytes_others {data : Buffer} (ran : storeBytes s t vaddr data cnt = .ok after) :
    after = { s with ram := after.ram } := by
  induction cnt generalizing after with
  | zero =>
    cases ran
    rfl
  | succ cnt ih =>
    simp only [storeBytes, bind_ok] at ran
    obtain ⟨middle, first, last⟩ := ran
    rw [storeByte_others last, ih first]

theorem segmentLoad_others {seg : Segment} (ran : segmentLoad s t seg = .ok after) :
    after = { s with ram := after.ram } := by
  simp only [segmentLoad, bind_ok] at ran
  obtain ⟨ram, _, store⟩ := ran
  rw [storeBytes_others store]

theorem pageUnmap_others (ran : pageUnmap s t vaddr = .ok after) : after = { s with ram := after.ram } := by
  simp only [pageUnmap, bind_ok, pure_ok] at ran
  obtain ⟨touched, touch, _, _, _, _, rfl⟩ := ran
  rw [access_others touch]

theorem unmapPages_others {first : Nat} (ran : unmapPages s t first cnt = .ok after) :
    after = { s with ram := after.ram } := by
  induction cnt generalizing after with
  | zero =>
    cases ran
    rfl
  | succ cnt ih =>
    simp only [unmapPages, bind_ok] at ran
    obtain ⟨middle, before, last⟩ := ran
    rw [pageUnmap_others last, ih before]

theorem copyStack_others {child : Tid} (ran : copyStack s t child cnt = .ok after) :
    after = { s with ram := after.ram } := by
  induction cnt generalizing after with
  | zero =>
    cases ran
    rfl
  | succ cnt ih =>
    simp only [copyStack, bind_ok] at ran
    obtain ⟨middle, first, touched, touch, copy⟩ := ran
    rw [copyPage_others copy, access_others touch, ih first]

/-- What `elf_parse` records of the headers from entry `loadIdx` on. -/
def AddrSpace.record (space : AddrSpace) : Nat → List Segment → AddrSpace
  | _, [] => space
  | loadIdx, seg :: rest =>
    { space with
      filesz := Function.update space.filesz loadIdx seg.memsz
      vaddr := Function.update space.vaddr loadIdx seg.vaddr
      heapStart := max space.heapStart (wrap (seg.vaddr + seg.memsz)) : AddrSpace }.record (loadIdx + 1) rest

theorem setSpace_setSpace (s : Machine) (t : Tid) (f g : AddrSpace → AddrSpace) :
    (s.setSpace t f).setSpace t g = s.setSpace t fun space => g (f space) := by
  simp only [Machine.setSpace, Machine.modify, Function.update_self, Function.update_idem]

theorem loadSegments_moves {segments : List Segment} {loadIdx : Nat}
    (ran : loadSegments s t loadIdx segments = .ok after) :
    after = { s.setSpace t fun space => space.record loadIdx segments with ram := after.ram } := by
  induction segments generalizing s loadIdx with
  | nil =>
    cases ran
    simp only [AddrSpace.record, Machine.setSpace, Machine.modify, Function.update_eq_self]
  | cons seg rest ih =>
    simp only [loadSegments, bind_ok] at ran
    obtain ⟨loaded, load, ran⟩ := ran
    split at ran
    · cases ran
    · rw [ih ran, setSpace_setSpace, segmentLoad_others load]
      rfl

def AddrSpace.exec (space : AddrSpace) (image : Image) : AddrSpace :=
  let recorded := { space with heapStart := 0 : AddrSpace }.record 0 image.segments
  if image.complete then { recorded with heapEnd := recorded.heapStart } else recorded

theorem sysExecv_moves {image : Image} (ran : sysExecv s t image = .ok after) :
    after = { s.setSpace t fun space => space.exec image with ram := after.ram } := by
  simp only [sysExecv, bind_ok, pure_ok] at ran
  obtain ⟨loaded, load, rfl⟩ := ran
  rw [loadSegments_moves load]
  unfold AddrSpace.exec
  split
  · simp only [Machine.setSpace, Machine.modify, Function.update_self, Function.update_idem]
  · simp only [Machine.setSpace, Machine.modify, Function.update_self, Function.update_idem]

theorem sysExecv_table {image : Image} (ran : sysExecv s t image = .ok after) :
    (after.proc t).pml4 = (s.proc t).pml4 ∧ (after.proc t).addrSpace = (s.proc t).addrSpace.exec image := by
  rw [sysExecv_moves ran]
  simp only [Machine.setSpace, Machine.modify, Function.update_self, and_self]

theorem sysExecv_space {image : Image} (complete : image.complete = true) (ran : sysExecv s t image = .ok after) :
    (after.proc t).addrSpace =
      { ({ (s.proc t).addrSpace with heapStart := 0 } : AddrSpace).record 0 image.segments with
        heapEnd := (({ (s.proc t).addrSpace with heapStart := 0 } : AddrSpace).record 0 image.segments).heapStart } := by
  rw [(sysExecv_table ran).2, AddrSpace.exec, if_pos complete]

theorem sysBrk_space {newBrk : Nat} {result : Int} (ran : sysBrk s t newBrk = .ok (result, after)) :
    (after.proc t).addrSpace = if (s.proc t).addrSpace.heapStart ≠ 0 ∧ (s.proc t).addrSpace.heapStart ≤ newBrk ∧
        newBrk ≤ defaultStack - pgSize then { (s.proc t).addrSpace with heapEnd := newBrk }
      else (s.proc t).addrSpace := by
  have ownerIs : ∀ owner, brkOwner s t = .ok owner → (owner = t ↔ (s.proc t).addrSpace.heapStart ≠ 0) := by
    intro owner owned
    unfold brkOwner at owned
    split at owned
    · cases owned
      simpa using ‹_›
    · rename_i zero
      split at owned
      · rename_i parent
        injection owned with same
        rw [← same]
        refine ⟨fun self => ?_, fun positive => absurd positive zero⟩
        rw [self] at parent
        exact parent
      · cases owned
  simp only [sysBrk, bind_ok] at ran
  obtain ⟨owner, owned, ran⟩ := ran
  have own := ownerIs owner owned
  split at ran
  · cases ran
    rw [if_neg]
    omega
  · rename_i asked
    split at ran
    · rename_i refused
      cases ran
      rw [if_neg]
      intro accepted
      rw [own.mpr accepted.1] at refused
      omega
    · rename_i accepted
      simp only [bind_ok, pure_ok, Prod.mk.injEq] at ran
      obtain ⟨unmapped, unmap, _, rfl⟩ := ran
      have procs : unmapped.proc = s.proc := by
        split at unmap
        · rw [unmapPages_others unmap]
        · cases unmap
          rfl
      simp only [Machine.setSpace, Machine.modify, procs]
      by_cases self : owner = t
      · rw [self] at accepted
        rw [self, Function.update_self, if_pos ⟨own.mp self, by omega, by omega⟩]
      · rw [Function.update_of_ne (Ne.symm self), if_neg fun all => self (own.mpr all.1)]

section

variable {space : AddrSpace} {loadIdx : Nat} {segments : List Segment}

theorem record_kept {i : Nat} (outside : i < loadIdx ∨ loadIdx + segments.length ≤ i) :
    (space.record loadIdx segments).vaddr i = space.vaddr i ∧
      (space.record loadIdx segments).filesz i = space.filesz i := by
  induction segments generalizing space loadIdx with
  | nil => exact ⟨rfl, rfl⟩
  | cons seg rest ih =>
    rw [List.length_cons] at outside
    have other : i ≠ loadIdx := by omega
    obtain ⟨start, size⟩ := @ih _ (loadIdx + 1) (by omega)
    rw [AddrSpace.record, start, size]
    exact ⟨Function.update_of_ne other _ _, Function.update_of_ne other _ _⟩

theorem record_new {k : Nat} (inside : k < segments.length) :
    (space.record loadIdx segments).vaddr (loadIdx + k) = segments[k].vaddr ∧
      (space.record loadIdx segments).filesz (loadIdx + k) = segments[k].memsz := by
  induction segments generalizing space loadIdx k with
  | nil => cases inside
  | cons seg rest ih =>
    rw [AddrSpace.record]
    cases k with
    | zero =>
      obtain ⟨start, size⟩ := @record_kept
        { space with
          filesz := Function.update space.filesz loadIdx seg.memsz
          vaddr := Function.update space.vaddr loadIdx seg.vaddr
          heapStart := max space.heapStart (wrap (seg.vaddr + seg.memsz)) } (loadIdx + 1) rest loadIdx
        (.inl (Nat.lt_succ_self _))
      exact ⟨start.trans (Function.update_self ..), size.trans (Function.update_self ..)⟩
    | succ k =>
      have next : loadIdx + (k + 1) = loadIdx + 1 + k := by omega
      rw [next]
      exact ih (Nat.lt_of_succ_lt_succ inside)

theorem record_heapStart {top : Nat} (low : space.heapStart ≤ top) (below : ∀ seg ∈ segments, seg.vaddr + seg.memsz ≤ top) :
    (space.record loadIdx segments).heapStart ≤ top := by
  induction segments generalizing space loadIdx with
  | nil => exact low
  | cons seg rest ih =>
    apply ih
    · have first := below seg (List.mem_cons_self ..)
      have mod := Nat.mod_le (seg.vaddr + seg.memsz) (2 ^ 64)
      simp only [wrap]
      omega
    · exact fun other member => below other (List.mem_cons_of_mem _ member)

end

def Segment.bounds (seg : Segment) : Nat × Nat := (seg.vaddr, seg.vaddr + seg.memsz)

/-- An executable that `elf_parse` accepts, with segments that are disjoint and below the stack. -/
structure Image.Loadable (image : Image) : Prop where
  complete : image.complete = true
  few : image.segments.length ≤ 4
  disjoint : image.segments.Pairwise fun a b => Clear a.bounds b.bounds
  below : ∀ seg ∈ image.segments, seg.vaddr + seg.memsz ≤ stackStart

instance (image : Image) : Decidable image.Loadable :=
  decidable_of_iff (image.complete = true ∧ image.segments.length ≤ 4 ∧
      (image.segments.Pairwise fun a b => Clear a.bounds b.bounds) ∧
      ∀ seg ∈ image.segments, seg.vaddr + seg.memsz ≤ stackStart)
    ⟨fun all => ⟨all.1, all.2.1, all.2.2.1, all.2.2.2⟩, fun loadable =>
      ⟨loadable.complete, loadable.few, loadable.disjoint, loadable.below⟩⟩

inductive SpaceOp where
  | execv (image : Image)
  | brk (newBrk : Nat)

def spaceStep (t : Tid) (s : Machine) : SpaceOp → Except Halt Machine
  | .execv image => sysExecv s t image
  | .brk newBrk => do
    let (_, s) ← sysBrk s t newBrk
    return s

def SpaceOp.Valid : SpaceOp → Prop
  | .execv image => image.Loadable
  | .brk _ => True

/-- The entries that survive an `execv` are apart from the new segments; a break that is accepted stays below the
    stack, and no entry that an earlier image has left lies between it and the start of the heap. -/
def SpaceOp.Harmless (space : AddrSpace) : SpaceOp → Prop
  | .execv image => ∀ i : Fin 4, image.segments.length ≤ i → ∀ seg ∈ image.segments,
      Clear (space.bounds (.segment i)) seg.bounds
  | .brk newBrk => space.heapStart ≠ 0 → space.heapStart ≤ newBrk → newBrk ≤ defaultStack - pgSize →
      newBrk ≤ stackStart ∧ ∀ i : Fin 4, Clear (space.heapStart, newBrk) (space.bounds (.segment i))

instance (op : SpaceOp) : Decidable op.Valid :=
  match op with
  | .execv image => inferInstanceAs (Decidable image.Loadable)
  | .brk _ => .isTrue True.intro

instance (space : AddrSpace) (op : SpaceOp) : Decidable (op.Harmless space) :=
  match op with
  | .execv image => inferInstanceAs (Decidable (∀ i : Fin 4, image.segments.length ≤ i → ∀ seg ∈ image.segments,
      Clear (space.bounds (.segment i)) seg.bounds))
  | .brk newBrk => inferInstanceAs (Decidable (space.heapStart ≠ 0 → space.heapStart ≤ newBrk →
      newBrk ≤ defaultStack - pgSize → newBrk ≤ stackStart ∧
        ∀ i : Fin 4, Clear (space.heapStart, newBrk) (space.bounds (.segment i))))

theorem execv_entry {image : Image} (loadable : image.Loadable) (ran : sysExecv s t image = .ok after) (i : Fin 4) :
    (∃ inside : i.val < image.segments.length,
      (after.proc t).addrSpace.bounds (.segment i) = image.segments[i.val].bounds) ∨
    (image.segments.length ≤ i.val ∧
      (after.proc t).addrSpace.bounds (.segment i) = (s.proc t).addrSpace.bounds (.segment i)) := by
  rw [sysExecv_space loadable.complete ran]
  simp only [AddrSpace.bounds, Segment.bounds]
  by_cases inside : i.val < image.segments.length
  · obtain ⟨start, size⟩ := @record_new { (s.proc t).addrSpace with heapStart := 0 } 0 image.segments i.val inside
    rw [Nat.zero_add] at start size
    exact .inl ⟨inside, by rw [start, size]⟩
  · obtain ⟨start, size⟩ := @record_kept { (s.proc t).addrSpace with heapStart := 0 } 0 image.segments i.val
      (.inr (by omega))
    exact .inr ⟨by omega, by rw [start, size]⟩

theorem SpaceInv.execv {image : Image} (inv : SpaceInv (s.proc t).addrSpace) (loadable : image.Loadable)
    (harmless : (SpaceOp.execv image).Harmless (s.proc t).addrSpace) (ran : sysExecv s t image = .ok after) :
    SpaceInv (after.proc t).addrSpace := by
  have entry := execv_entry loadable ran
  have ends : (after.proc t).addrSpace.heapEnd = (after.proc t).addrSpace.heapStart := by
    rw [sysExecv_space loadable.complete ran]
  have low : (after.proc t).addrSpace.heapStart ≤ stackStart := by
    rw [sysExecv_space loadable.complete ran]
    exact record_heapStart (Nat.zero_le _) loadable.below
  constructor
  case below =>
    intro i
    show ((after.proc t).addrSpace.bounds (.segment i)).2 ≤ stackStart
    rcases entry i with ⟨inside, new⟩ | ⟨_, old⟩
    · rw [new]
      exact loadable.below _ (List.getElem_mem inside)
    · rw [old]
      exact inv.below i
  case segments =>
    intro i j other
    have differs : i.val ≠ j.val := fun same => other (Fin.ext same)
    rcases entry i with ⟨inside, new⟩ | ⟨left, old⟩
    · rcases entry j with ⟨inside', new'⟩ | ⟨left', old'⟩
      · rw [new, new']
        have pairs := List.pairwise_iff_getElem.mp loadable.disjoint
        rcases Nat.lt_or_gt_of_ne differs with before | later
        · exact pairs i.val j.val inside inside' before
        · exact (pairs j.val i.val inside' inside later).symm
      · rw [new, old']
        exact (harmless j left' _ (List.getElem_mem inside)).symm
    · rcases entry j with ⟨inside', new'⟩ | ⟨left', old'⟩
      · rw [old, new']
        exact harmless i left _ (List.getElem_mem inside')
      · rw [old, old']
        exact inv.segments i j other
  case grown => exact Nat.le_of_eq ends.symm
  case heapBelow => exact ends ▸ low
  case heap => exact fun i => .inl (Nat.le_of_eq ends)

theorem SpaceInv.brk {newBrk : Nat} {result : Int} (inv : SpaceInv (s.proc t).addrSpace)
    (harmless : (SpaceOp.brk newBrk).Harmless (s.proc t).addrSpace) (ran : sysBrk s t newBrk = .ok (result, after)) :
    SpaceInv (after.proc t).addrSpace := by
  rw [sysBrk_space ran]
  split
  · rename_i accepted
    obtain ⟨below, apart⟩ := harmless accepted.1 accepted.2.1 accepted.2.2
    exact ⟨inv.below, inv.segments, accepted.2.1, below, apart⟩
  · exact inv

theorem spaceInv_step (s : Machine) (op : SpaceOp) (after : Machine) (inv : SpaceInv (s.proc t).addrSpace)
    (meets : op.Valid ∧ op.Harmless (s.proc t).addrSpace) (ran : spaceStep t s op = .ok after) :
    SpaceInv (after.proc t).addrSpace := by
  cases op with
  | execv image => exact inv.execv meets.1 meets.2 ran
  | brk newBrk =>
    simp only [spaceStep, bind_ok, pure_ok, Prod.exists] at ran
    obtain ⟨result, _, call, rfl⟩ := ran
    exact inv.brk meets.2 call

/-- A step that is not harmless leaves two ranges that overlap. -/
theorem harmless_of_apart {op : SpaceOp} (valid : op.Valid) (inv : SpaceInv (s.proc t).addrSpace)
    (ran : spaceStep t s op = .ok after) (apart : RegionsApart (after.proc t).addrSpace) :
    op.Harmless (s.proc t).addrSpace := by
  cases op with
  | execv image =>
    intro i left seg member
    obtain ⟨k, inside, found⟩ := List.getElem_of_mem member
    have few := valid.few
    have other : FaultClass.segment i ≠ .segment ⟨k, by omega⟩ := by
      intro same
      injection same with index
      have value : i.val = k := congrArg Fin.val index
      omega
    have clear := (clear_iff _ _).mpr (apart.disjoint _ _ other)
    rcases execv_entry valid ran i with ⟨wrong, _⟩ | ⟨_, old⟩
    · omega
    · rcases execv_entry valid ran ⟨k, by omega⟩ with ⟨_, new⟩ | ⟨wrong, _⟩
      · rw [old, new] at clear
        rw [← found]
        exact clear
      · simp only at wrong
        omega
  | brk newBrk =>
    intro positive low high
    simp only [spaceStep, bind_ok, pure_ok, Prod.exists] at ran
    obtain ⟨result, _, call, rfl⟩ := ran
    have moved := sysBrk_space call
    rw [if_pos ⟨positive, low, high⟩] at moved
    rw [moved] at apart
    have clear : ∀ other, FaultClass.heap ≠ other →
        Clear (AddrSpace.bounds { (s.proc t).addrSpace with heapEnd := newBrk } .heap)
          (AddrSpace.bounds { (s.proc t).addrSpace with heapEnd := newBrk } other) :=
      fun other differs => (clear_iff _ _).mpr (apart.disjoint _ _ differs)
    refine ⟨?_, fun i => clear (.segment i) (by simp)⟩
    have stack := clear .stack (by simp)
    have below := Nat.le_trans inv.grown inv.heapBelow
    simp only [Clear, AddrSpace.bounds, stackStart, defaultStack, globalStackSize, pgSize] at stack below ⊢
    omega

/-- The user regions of a task never overlap as long as every step is harmless. -/
theorem regions_apart (t : Tid) (start : Machine) (fresh : (start.proc t).addrSpace = AddrSpace.zero) (ops : List SpaceOp)
    (valid : ∀ op ∈ ops, op.Valid)
    (harmless : Meets (spaceStep t) (fun s op => op.Harmless (s.proc t).addrSpace) start ops) (s : Machine)
    (ran : run (spaceStep t) start ops = .ok s) : RegionsApart (s.proc t).addrSpace := by
  have kept : SpaceInv (s.proc t).addrSpace := by
    refine @run_invariant _ _ _ _ _ (fun s => SpaceInv (s.proc t).addrSpace) ?_ _ _ _ ?_ (harmless.and valid) ran
    · intro s op next inv meets taken
      exact spaceInv_step s op next inv ⟨meets.2, meets.1⟩ taken
    · rw [fresh]
      exact AddrSpace.zero_inv
  exact kept.apart

def textSegment : Segment where
  vaddr := 0x400000
  memsz := 0x800
  nbyte := 2
  data := fun _ => 0x90
  short := by decide

def dataSegment : Segment where
  vaddr := 0x402000
  memsz := 0x1800
  nbyte := 1
  data := fun _ => 7
  short := by decide

/-- Two segments, a growing and a shrinking heap, and then an image with the same number of segments. -/
def execvRun : List SpaceOp :=
  [.execv ⟨[textSegment, dataSegment], true⟩, .brk 0x406000, .brk 0x403900, .brk (stackStart + pgSize + 1),
    .execv ⟨[{ textSegment with vaddr := 0x500000 }, { dataSegment with vaddr := 0x502000 }], true⟩, .brk 0x504000]

theorem regions_apart_execv : ∃ s, run (spaceStep 1) (Machine.start fun _ _ => 0) execvRun = .ok s ∧
    (s.proc 1).addrSpace.heapEnd = 0x504000 ∧ RegionsApart (s.proc 1).addrSpace := by
  have evaluated : endsIn (run (spaceStep 1) (Machine.start fun _ _ => 0) execvRun) (fun s =>
      decide ((s.proc 1).addrSpace.heapEnd = 0x504000)) = true := by
    decide +kernel
  have checked : meetsCheck (spaceStep 1) (fun s op => op.Harmless (s.proc 1).addrSpace) (Machine.start fun _ _ => 0)
      execvRun = true := by
    decide +kernel
  obtain ⟨s, ran, grown⟩ := exists_of_endsIn evaluated
  exact ⟨s, ran, of_decide_eq_true grown,
    regions_apart 1 (Machine.start fun _ _ => 0) rfl execvRun (by decide) (meets_of_check checked) s ran⟩

/-- `sys_brk` accepts a break one page below `DEFAULT_STACK`, but the stack has two pages. -/
theorem heap_meets_stack : (SpaceOp.execv ⟨[textSegment], true⟩).Valid ∧
    ∃ s, run (spaceStep 1) (Machine.start fun _ _ => 0) [.execv ⟨[textSegment], true⟩, .brk (defaultStack - pgSize)] = .ok s ∧
      ¬ RegionsApart (s.proc 1).addrSpace := by
  refine ⟨by decide, ?_⟩
  have evaluated : endsIn (run (spaceStep 1) (Machine.start fun _ _ => 0)
      [.execv ⟨[textSegment], true⟩, .brk (defaultStack - pgSize)]) (fun s =>
      decide ((s.proc 1).addrSpace.heapStart ≤ stackStart ∧ stackStart < (s.proc 1).addrSpace.heapEnd)) = true := by
    decide +kernel
  obtain ⟨s, ran, wrong⟩ := exists_of_endsIn evaluated
  refine ⟨s, ran, fun apart => ?_⟩
  have both : stackStart < defaultStack := by decide
  exact apart.disjoint .heap .stack (by decide) stackStart ⟨of_decide_eq_true wrong, Nat.le_refl _, both⟩

end RecoverOs.Memory
