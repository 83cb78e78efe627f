import RecoverOs.Userprog.SystemCall

namespace RecoverOs.Userprog.SystemCall

open Amd64 Kernel Task.Switch

def defaultStack : Word := 0x800000000000#64
def globalStackSize : Nat := 2 * 4096
def stackStart : Word := defaultStack - BitVec.ofNat 64 globalStackSize

def stackPage (i : Nat) : Word := stackStart + BitVec.ofNat 64 (i * 4096)

def copyPage (mem : Memory) (buf page dSpace sSpace : Word) : Memory :=
  copyAt (copyAt mem sSpace buf page 4096) dSpace page buf 4096

def copyStack (mem : Memory) (buf : Nat → Word) (dSpace sSpace : Word) : Memory :=
  (List.range (globalStackSize / 4096)).foldl (fun m i => copyPage m (buf i) (stackPage i) dSpace sSpace) mem

/-- Memory when `sys_clone` has stored the result of the child, `intr_stack->rbp` and `pml4`. -/
def childEnvi (mem : Memory) (space child task pointer systemRetAt intrExitAt : Word) : Memory :=
  storeAt (storeAt (storeAt (createTaskEnvi mem space task defaultStack systemRetAt 0 intrExitAt false) space 8
    (pointer + BitVec.ofInt 64 (-8)) 0) space 8 (intrStackRbp task) pointer.toNat) space 8 (task + 8)
    (child + kernelAddrBase).toNat

def forkMem (mem : Memory) (buf : Nat → Word) (space child task pointer systemRetAt intrExitAt : Word) : Memory :=
  copyStack (childEnvi mem space child task pointer systemRetAt intrExitAt) buf child space

def KernelPage (page : Word) : Prop := page.toNat % 4096 = 0 ∧ page.msb = true

instance (page : Word) : Decidable (KernelPage page) := inferInstanceAs (Decidable (_ ∧ _))

variable {mem : Memory} {buf : Nat → Word} {space child task page addr pointer systemRetAt intrExitAt : Word} {c : Cell}
variable {i w n : Nat}

theorem KernelPage.upper (kernel : KernelPage page) (inside : (addr - page).toNat < 4096) : addr.msb = true := by
  obtain ⟨aligned, top⟩ := kernel
  have bound := page.isLt
  rw [BitVec.msb_eq_decide, decide_eq_true_iff] at top ⊢
  have split : addr.toNat = (page.toNat + (addr - page).toNat) % 2 ^ 64 := by
    rw [← BitVec.toNat_add]
    congr 1
    grind
  rw [split]
  omega

theorem KernelPage.byte (kernel : KernelPage page) (inside : i < 4096) : (page + BitVec.ofNat 64 i).msb = true := by
  apply kernel.upper
  rw [offset_toNat page (by omega)]
  exact inside

theorem KernelPage.excludes (kernel : KernelPage page) (lower : c.addr.msb = false) : ¬ Covers space page 4096 c := by
  intro covers
  rw [kernel.upper covers.2] at lower
  cases lower

def OnStack (addr : Word) : Prop := (addr - stackStart).toNat < globalStackSize

theorem OnStack.lower (inside : OnStack addr) : addr.msb = false := by
  have bottom : stackStart = 0x7fffffffe000#64 := rfl
  rw [OnStack, bottom, globalStackSize] at inside
  rw [BitVec.msb_eq_decide, decide_eq_false_iff_not]
  bv_omega

theorem copyPage_page (kernel : KernelPage (buf i)) (covers : Covers child page 4096 c) :
    copyPage mem (buf i) page child space c = mem (cell space (page + (c.addr - page))) := by
  have less := covers.2
  have offset : buf i + BitVec.ofNat 64 (c.addr - page).toNat = buf i + (c.addr - page) := by
    rw [BitVec.ofNat_toNat, BitVec.setWidth_eq]
  have byte := kernel.byte less
  rw [offset] at byte
  have cancel : buf i + (c.addr - page) - buf i = c.addr - page := by grind
  rw [copyPage, copyAt_inside covers, @cell_upper child space _ byte, copyAt_inside]
  · rw [cell_addr, cancel]
  · rw [covers_cell, cancel]
    exact less

theorem copyPage_other (outside : ¬ Covers child page 4096 c) (buffer : ¬ Covers space (buf i) 4096 c) :
    copyPage mem (buf i) page child space c = mem c := by
  rw [copyPage, copyAt_other outside, copyAt_other buffer]

theorem copyStack_stack (kernel : ∀ i, KernelPage (buf i)) (stack : OnStack addr) :
    copyStack mem buf child space (cell child addr) = mem (cell space addr) := by
  have pages : copyStack mem buf child space =
      copyPage (copyPage mem (buf 0) (stackPage 0) child space) (buf 1) (stackPage 1) child space := rfl
  have zero : stackPage 0 = stackStart := BitVec.add_zero _
  have one : stackPage 1 = stackStart + 4096 := rfl
  have lower := stack.lower
  have clear : ∀ (i : Nat) (other : Word), ¬ Covers space (buf i) 4096 (cell other addr) := by
    intro i other
    apply (kernel i).excludes
    rw [cell_addr]
    exact lower
  have back : ∀ page : Word, page + (addr - page) = addr := by
    intro page
    grind
  have split : addr - (stackStart + 4096) = addr - stackStart - 4096 := by grind
  rw [OnStack, globalStackSize] at stack
  by_cases first : (addr - stackStart).toNat < 4096
  · have outside : ∀ other, ¬ Covers child (stackPage 1) 4096 (cell other addr) := by
      intro other covers
      have less := covers.2
      rw [cell_addr, one, split, BitVec.toNat_sub] at less
      have big : (4096 : Word).toNat = 4096 := rfl
      omega
    rw [pages, copyPage_other (outside child) (clear 1 child), copyPage_page (kernel 0), cell_addr, back]
    rw [covers_cell, zero]
    exact first
  · have inside : Covers child (stackPage 1) 4096 (cell child addr) := by
      rw [covers_cell, one, split, BitVec.toNat_sub]
      have big : (4096 : Word).toNat = 4096 := rfl
      omega
    have outside : ¬ Covers child (stackPage 0) 4096 (cell space addr) := by
      intro covers
      have less := covers.2
      rw [cell_addr, zero] at less
      exact first less
    rw [pages, copyPage_page (kernel 1) inside, cell_addr, back, copyPage_other outside (clear 0 space)]

theorem copyStack_kernel (upper : addr.msb = true) (clear : ∀ i < 2, ¬ Covers space (buf i) 4096 (cell space addr)) :
    copyStack mem buf child space (cell child addr) = mem (cell space addr) := by
  have pages : copyStack mem buf child space =
      copyPage (copyPage mem (buf 0) (stackPage 0) child space) (buf 1) (stackPage 1) child space := rfl
  have outside : ∀ i < 2, ¬ Covers child (stackPage i) 4096 (cell space addr) := by
    intro i less covers
    have near := covers.2
    have on : OnStack addr := by
      have start : stackStart = 0x7fffffffe000#64 := rfl
      rw [cell_addr, stackPage, start] at near
      rw [OnStack, start, globalStackSize]
      have cases : i = 0 ∨ i = 1 := by omega
      rcases cases with same | same <;> rw [same] at near <;> bv_omega
    rw [on.lower] at upper
    cases upper
  rw [pages, @cell_upper child space _ upper, copyPage_other (outside 1 (by decide)) (clear 1 (by decide)),
    copyPage_other (outside 0 (by decide)) (clear 0 (by decide))]

theorem KernelPage.split (kernel : KernelPage page) (inside : (addr - page).toNat < 4096) :
    addr.toNat = page.toNat + (addr - page).toNat := by
  have aligned := kernel.1
  have bound := page.isLt
  have split : addr.toNat = (page.toNat + (addr - page).toNat) % 2 ^ 64 := by
    rw [← BitVec.toNat_add]
    congr 1
    grind
  rw [split]
  omega

theorem KernelPage.unique {other : Word} (kernel : KernelPage page) (second : KernelPage other)
    (inside : (addr - page).toNat < 4096) (within : (addr - other).toNat < 4096) : page = other := by
  have left := kernel.split inside
  have right := second.split within
  obtain ⟨aligned, _⟩ := kernel
  obtain ⟨round, _⟩ := second
  apply BitVec.eq_of_toNat_eq
  omega

def SlotOnStack (pointer : Word) : Prop := ∀ i < 8, OnStack (pointer + BitVec.ofInt 64 (-8) + BitVec.ofNat 64 i)

theorem slot_excludes (slot : SlotOnStack pointer) (upper : addr.msb = true) :
    ¬ Covers space (pointer + BitVec.ofInt 64 (-8)) 8 (cell space addr) := by
  intro covers
  rw [covers_cell] at covers
  have inside := (slot _ covers).lower
  have back : pointer + BitVec.ofInt 64 (-8) + BitVec.ofNat 64 (addr - (pointer + BitVec.ofInt 64 (-8))).toNat = addr := by
    rw [BitVec.ofNat_toNat, BitVec.setWidth_eq]
    grind
  rw [back, upper] at inside
  cases inside

theorem inPage {d : Word} (inside : d.toNat + w ≤ 4096) (less : i < w) :
    (task + d + BitVec.ofNat 64 i - task).toNat < 4096 := by
  have cancel : task + d + BitVec.ofNat 64 i - task = d + BitVec.ofNat 64 i := by grind
  rw [cancel, BitVec.toNat_add, BitVec.toNat_ofNat]
  omega

theorem taskShapes_page : ∀ x ∈ taskShapes, (BitVec.ofInt 64 x.1).toNat + x.2 ≤ 4096 ∧
    Apart (BitVec.ofInt 64 (intrStackStart + 24)) 8 (BitVec.ofInt 64 x.1) x.2 ∧
    Apart 8 8 (BitVec.ofInt 64 x.1) x.2 := by decide

theorem childEnvi_words (kernel : KernelPage task) (slot : SlotOnStack pointer) :
    TaskWords (childEnvi mem space child task pointer systemRetAt intrExitAt) space task defaultStack systemRetAt 0
      intrExitAt false := by
  intro f member
  have listed := List.mem_map_of_mem (f := Field.shape) member
  rw [taskEnvi_shapes] at listed
  obtain ⟨inside, rbp, pml4⟩ := taskShapes_page f.shape listed
  have behind : Apart (task + 8) 8 (f.addr task) f.width := (apart_add task _ _).mpr pml4
  have before : Apart (intrStackRbp task) 8 (f.addr task) f.width := (apart_add task _ _).mpr rbp
  rw [childEnvi, loadAt_storeAt_apart behind, loadAt_storeAt_apart before, ← createTaskEnvi_words f member]
  exact loadAt_congr fun i less => storeAt_other (slot_excludes slot (kernel.upper (inPage inside less)))

theorem childEnvi_rbp : loadAt (childEnvi mem space child task pointer systemRetAt intrExitAt) space 8
    (intrStackRbp task) = pointer.toNat := by
  have apart : Apart (task + 8) 8 (intrStackRbp task) 8 := (apart_add task _ _).mpr (by decide)
  rw [childEnvi, loadAt_storeAt_apart apart, loadAt_storeAt _ _ _ _ (by decide)]
  exact Nat.mod_eq_of_lt pointer.isLt

theorem childEnvi_pml4 : loadAt (childEnvi mem space child task pointer systemRetAt intrExitAt) space 8 (task + 8) =
    (child + kernelAddrBase).toNat := by
  rw [childEnvi, loadAt_storeAt _ _ _ _ (by decide)]
  exact Nat.mod_eq_of_lt (BitVec.isLt _)

theorem childEnvi_lower (kernel : KernelPage task) (lower : addr.msb = false) :
    childEnvi mem space child task pointer systemRetAt intrExitAt (cell space addr) =
      storeAt mem space 8 (pointer + BitVec.ofInt 64 (-8)) 0 (cell space addr) := by
  have clear : ∀ (d : Word) (w : Nat), d.toNat + w ≤ 4096 → ¬ Covers space (task + d) w (cell space addr) := by
    intro d w inside covers
    have below : (cell space addr).addr.msb = false := by
      rw [cell_addr]
      exact lower
    exact kernel.excludes below (covers.sub inside)
  have made : createTaskEnvi mem space task defaultStack systemRetAt 0 intrExitAt false (cell space addr) =
      mem (cell space addr) := by
    apply writeAll_other
    intro f member
    have listed := List.mem_map_of_mem (f := Field.shape) member
    rw [taskEnvi_shapes] at listed
    exact clear _ _ (taskShapes_page f.shape listed).1
  have rbp : ¬ Covers space (intrStackRbp task) 8 (cell space addr) := clear _ 8 (by decide)
  rw [childEnvi, storeAt_other (clear 8 8 (by decide)), storeAt_other rbp, storeAt, made]
  rfl

/-- The buffers of `copy_page` are not the page of the task. -/
def Buffers (buf : Nat → Word) (task : Word) : Prop := ∀ i, KernelPage (buf i) ∧ buf i ≠ task

theorem forkMem_page {d : Word} (kernel : KernelPage task) (buffers : Buffers buf task) (inside : d.toNat + w ≤ 4096) :
    loadAt (forkMem mem buf space child task pointer systemRetAt intrExitAt) child w (task + d) =
      loadAt (childEnvi mem space child task pointer systemRetAt intrExitAt) space w (task + d) := by
  apply Bytes.wordAt_congr
  intro i less
  rw [Nat.zero_add]
  have near : (task + d + BitVec.ofNat 64 i - task).toNat < 4096 := inPage inside less
  apply copyStack_kernel (kernel.upper near)
  intro j _ covers
  have within := covers.2
  rw [cell_addr] at within
  exact (buffers j).2 ((buffers j).1.unique kernel within near)

theorem forkMem_words (kernel : KernelPage task) (buffers : Buffers buf task) (slot : SlotOnStack pointer) :
    TaskWords (forkMem mem buf space child task pointer systemRetAt intrExitAt) child task defaultStack systemRetAt 0
      intrExitAt false := by
  intro f member
  have listed := List.mem_map_of_mem (f := Field.shape) member
  rw [taskEnvi_shapes] at listed
  exact (forkMem_page kernel buffers (taskShapes_page f.shape listed).1).trans (childEnvi_words kernel slot f member)

theorem forkMem_stack (kernel : KernelPage task) (buffers : Buffers buf task) (stack : OnStack addr) :
    forkMem mem buf space child task pointer systemRetAt intrExitAt (cell child addr) =
      storeAt mem space 8 (pointer + BitVec.ofInt 64 (-8)) 0 (cell space addr) :=
  (copyStack_stack (fun i => (buffers i).1) stack).trans (childEnvi_lower kernel stack.lower)

theorem forkMem_load (kernel : KernelPage task) (buffers : Buffers buf task)
    (stack : ∀ i < w, OnStack (addr + BitVec.ofNat 64 i)) :
    loadAt (forkMem mem buf space child task pointer systemRetAt intrExitAt) child w addr =
      loadAt (storeAt mem space 8 (pointer + BitVec.ofInt 64 (-8)) 0) space w addr := by
  apply Bytes.wordAt_congr
  intro i less
  rw [Nat.zero_add]
  exact forkMem_stack kernel buffers (stack i less)

/-- The frame of `system_call` lies on the stack. -/
def FrameOnStack (s : Cpu) : Prop :=
  ∀ i < 80, OnStack (systemPointer s + BitVec.ofInt 64 (-72) + BitVec.ofNat 64 i)

instance (s : Cpu) : Decidable (FrameOnStack s) := inferInstanceAs (Decidable (∀ i < 80, (_ : Nat) < _))

theorem FrameOnStack.word {s : Cpu} {d : Word} (frame : FrameOnStack s) (inside : (72 + d).toNat + w ≤ 80) (less : i < w) :
    OnStack (systemPointer s + d + BitVec.ofNat 64 i) := by
  have byte := frame ((72 + d).toNat + i) (by omega)
  have bottom : BitVec.ofInt 64 (-72) = -72#64 := rfl
  have back : systemPointer s + BitVec.ofInt 64 (-72) + BitVec.ofNat 64 ((72 + d).toNat + i) =
      systemPointer s + d + BitVec.ofNat 64 i := by
    rw [BitVec.ofNat_add, BitVec.ofNat_toNat, BitVec.setWidth_eq, bottom]
    grind
  rw [back] at byte
  exact byte

theorem forkMem_frame {s : Cpu} {back : Word} (kernel : KernelPage task) (buffers : Buffers buf task)
    (stack : FrameOnStack s) (frame : SystemFrame mem s.cr3 s back) :
    SystemFrame (forkMem mem buf s.cr3 child task (systemPointer s) systemRetAt intrExitAt) child s back ∧
    loadAt (forkMem mem buf s.cr3 child task (systemPointer s) systemRetAt intrExitAt) child 8
      (systemPointer s + BitVec.ofInt 64 (-8)) = 0 := by
  have stored := frame.put 0
  have load : ∀ d : Word, (72 + d).toNat + 8 ≤ 80 →
      loadAt (forkMem mem buf s.cr3 child task (systemPointer s) systemRetAt intrExitAt) child 8 (systemPointer s + d) =
        loadAt (storeAt mem s.cr3 8 (systemPointer s + BitVec.ofInt 64 (-8)) 0) s.cr3 8 (systemPointer s + d) :=
    fun d inside => forkMem_load kernel buffers fun i less => stack.word inside less
  refine ⟨⟨?_, ?_⟩, ?_⟩
  · have zero : systemPointer s + 0 = systemPointer s := BitVec.add_zero _
    have top := load 0 (by decide)
    rw [zero] at top
    exact top.trans stored.link
  · intro x member
    have inside := (systemArea_tail x member).2.1
    exact (load _ (by omega)).trans (stored.slots x member)
  · rw [load _ (by decide), loadAt_storeAt _ _ _ _ (by decide)]
    rfl

theorem KernelPage.enters (kernel : KernelPage page) : Upper page := fun _ less => kernel.byte (by omega)

/-- The first switch to the child leads over `intr_exit` and `system_ret` behind the system call. -/
theorem forked_starts {own : Cell → Prop} {s v : Cpu} {back : Word} (kernel : KernelPage task) (buffers : Buffers buf task)
    (stack : FrameOnStack s) (frame : SystemFrame mem s.cr3 s back)
    (returned : Returns own (firstCall (forkMem mem buf s.cr3 child task (systemPointer s) systemRetAt intrExitAt) child
      task s.star) v)
    (page : ∀ c, IntrStackCells child task c → own c) (copy : ∀ addr, OnStack addr → own (cell child addr)) :
    v.rip = intrExitAt ∧ (v.run intrExit).rip = systemRetAt ∧
      Resumes s back 0 child ((v.run intrExit).run systemRet) := by
  have slot : SlotOnStack (systemPointer s) := fun _ less => stack.word (by decide) less
  have words := @forkMem_words mem buf s.cr3 child task (systemPointer s) systemRetAt intrExitAt kernel buffers slot
  have found := @forkMem_frame mem buf child task systemRetAt intrExitAt s back kernel buffers stack frame
  have starts := firstCall_starts words returned page
  have leaves := run_intrExit v
  have space : v.cr3 = child := returned.cr3
  have pointer : (v.run intrExit).reg .rbp = systemPointer s := by
    have top : intrStackRbp task = task + BitVec.ofInt 64 (intrStackStart + 24) := rfl
    rw [leaves.rbp, firstCall_rbp words returned]
    apply get_of_load
    rw [top, firstCall_word returned page (by decide), forkMem_page kernel buffers (by decide)]
    exact childEnvi_rbp
  have same : ∀ addr, OnStack addr → v.mem (cell child addr) =
      forkMem mem buf s.cr3 child task (systemPointer s) systemRetAt intrExitAt (cell child addr) :=
    fun addr on => returned.mem _ (copy addr on)
  have load : ∀ d : Word, (72 + d).toNat + 8 ≤ 80 → loadAt v.mem child 8 (systemPointer s + d) =
      loadAt (forkMem mem buf s.cr3 child task (systemPointer s) systemRetAt intrExitAt) child 8 (systemPointer s + d) :=
    fun d inside => loadAt_congr fun i less => same _ (stack.word inside less)
  refine ⟨starts.1, starts.2.rip, ?_⟩
  have resumed := @run_systemRet_resumes s (v.run intrExit) back 0 pointer (leaves.star.trans returned.star)
  rw [starts.2.cr3] at resumed
  apply resumed
  · rw [leaves.mem]
    constructor
    case link =>
      have zero : systemPointer s + 0 = systemPointer s := BitVec.add_zero _
      have top := load 0 (by decide)
      rw [zero] at top
      exact top.trans found.1.link
    case slots =>
      intro x member
      have inside := (systemArea_tail x member).2.1
      exact (load _ (by omega)).trans (found.1.slots x member)
  · apply get_of_load (v := 0)
    rw [leaves.mem, starts.2.cr3, load _ (by decide), found.2]
    rfl

section Runs

variable {Task : Type} [DecidableEq Task] {pcb : Task → Word} {own : Task → Cell → Prop}

/-- A child that is switched to for the first time goes on behind the system call of its parent: with the registers of
    the parent, with 0 as the result, in its own address space and on its own copy of the stack. Only the two pages of
    the default stack are copied, so the parent's frame must lie there (`FrameOnStack`): the child of a thread that runs
    on another stack does not find it. No task writes what belongs to the child while it waits (`Keeps`). -/
theorem fork_child_resumes (start : Cpu) (main : Task) (d : Switching Task) (next : Task) (s : Cpu) (mem : Memory)
    (buf : Nat → Word) (child table back behind systemRetAt intrExitAt : Word)
    (reachable : Reachable pcb own start main d) (pages : ∀ t, KernelPage (pcb t)) (buffers : Buffers buf (pcb next))
    (calls : Calls pcb own d next) (other : next ≠ d.current) (stack : FrameOnStack s)
    (running : ∀ c, SystemCells s.cr3 s c →
      mem c = ((libCall s LibFn.clone.number back).run (systemCall table behind)).mem c)
    (created : d.saved next = some (firstCall
      (forkMem mem buf s.cr3 child (pcb next) (systemPointer s) systemRetAt intrExitAt) child (pcb next) s.star))
    (page : ∀ c, IntrStackCells child (pcb next) c → own next c)
    (copy : ∀ addr, OnStack addr → own next (cell child addr)) :
    (d.cpu.run switchTo).rip = intrExitAt ∧ ((d.cpu.run switchTo).run intrExit).rip = systemRetAt ∧
      Resumes s back 0 child (((d.cpu.run switchTo).run intrExit).run systemRet) ∧
      ∀ addr, OnStack addr → ¬ Covers s.cr3 (systemPointer s + BitVec.ofInt 64 (-8)) 8 (cell s.cr3 addr) →
        (((d.cpu.run switchTo).run intrExit).run systemRet).mem (cell child addr) = mem (cell s.cr3 addr) := by
  have saved : d.saving next = some (firstCall
      (forkMem mem buf s.cr3 child (pcb next) (systemPointer s) systemRetAt intrExitAt) child (pcb next) s.star) := by
    rw [Switching.saving, Function.update_of_ne other, created]
  have ready := reachable.resumable.saving calls saved
  rw [← calls.enters] at ready
  have enters : Upper (d.cpu.reg .rsi) := by
    rw [calls.enters]
    exact (pages next).enters
  have returned := ready.1.returns enters ready.2.2 ready.2.1
  rw [calls.enters] at returned
  have frame := (systemCall_frame s LibFn.clone.number table back behind).congr running
  obtain ⟨exits, jumps, resumes⟩ := forked_starts (pages next) buffers stack frame returned page copy
  refine ⟨exits, jumps, resumes, ?_⟩
  intro addr on outside
  rw [(run_systemRet _).mem, (run_intrExit _).mem, returned.mem _ (copy addr on)]
  refine (forkMem_stack (pages next) buffers on).trans ?_
  exact storeAt_other outside

/-- A program whose registers hold 0 has forked, and its kernel stack switches to the child. -/
theorem fork_child_resumes_closed : ∃ (d : Switching Bool) (s : Cpu), s.reg .rsp = 0x7fffffffe800#64 ∧
    (d.cpu.run switchTo).rip = 0x1000 ∧ ((d.cpu.run switchTo).run intrExit).rip = 0x2000 ∧
      Resumes s 0x5000 0 0x300000#64 (((d.cpu.run switchTo).run intrExit).run systemRet) ∧
      ∀ addr, OnStack addr → ¬ Covers s.cr3 (systemPointer s + BitVec.ofInt 64 (-8)) 8 (cell s.cr3 addr) →
        (((d.cpu.run switchTo).run intrExit).run systemRet).mem (cell 0x300000#64 addr) =
          ((libCall s LibFn.clone.number 0x5000).run (systemCall 0 0)).mem (cell s.cr3 addr) := by
  let here := bareCpu 0xffff800000200000#64 (twoPcbs false) (twoPcbs true)
  let s : Cpu := { blank 0x400000#64 fun r => if r = .rsp then 0x7fffffffe800#64 else 0 with star := 0 }
  let mem := ((libCall s LibFn.clone.number 0x5000).run (systemCall 0 0)).mem
  let buf : Nat → Word := fun _ => 0xffff800000108000#64
  let forked := forkMem mem buf s.cr3 0x300000#64 (twoPcbs true) (systemPointer s) 0x2000 0x1000
  let asleep := firstCall forked 0x300000#64 (twoPcbs true) 0
  let cells : Bool → Cell → Prop := fun t x =>
    t = true ∧ (IntrStackCells 0x300000#64 (twoPcbs true) x ∨ Covers 0x300000#64 stackStart globalStackSize x)
  have keeps : Keeps twoPcbs cells ⟨here, false, fun _ => none⟩ { here with mem := forked } := by
    refine ⟨?_, rfl⟩
    intro t c none
    cases none
  have kernel : ∀ t, KernelPage (twoPcbs t) := by decide
  have buffers : Buffers buf (twoPcbs true) := fun _ => ⟨by decide, by decide⟩
  have stack : FrameOnStack s := by decide
  have slot : SlotOnStack (systemPointer s) := fun _ less => stack.word (by decide) less
  have frame : Suspended forked (twoPcbs true) asleep := by
    apply (forkMem_words (kernel true) buffers slot).suspended
    rw [forkMem_page (d := 8) (kernel true) buffers (by decide)]
    exact childEnvi_pml4
  have reachable : Reachable twoPcbs cells here false
      ⟨{ here with mem := forked }, false, Function.update (fun _ => none) true (some asleep)⟩ :=
    .step .start (.create rfl (by decide) keeps frame rfl fun _ _ => rfl)
  refine ⟨_, s, rfl, fork_child_resumes here false _ true s mem buf 0x300000#64 0 0x5000 0 0x2000 0x1000 reachable kernel
    buffers ?_ ?_ stack ?_ ?_ ?_ ?_⟩
  · constructor
    case leaves => rfl
    case enters => rfl
    case alive => simp
    case pml4 => decide +kernel
    case room => decide
    case stack =>
      intro x written mine
      cases mine.1
    case others =>
      intro t c asleepNow x written claims
      cases t with
      | false => simp at asleepNow
      | true =>
        simp only [Function.update_self, Option.some.injEq] at asleepNow
        subst c
        rcases claims with (frame | pcb) | own
        · exact written.not_covers (by decide) frame
        · exact written.not_covers (by decide) pcb
        · rcases own.2 with words | copy
          · exact written.not_covers (by decide) words
          · exact written.not_covers (by decide) copy
  · decide
  · exact fun _ _ => rfl
  · simp [asleep, forked, mem, s, blank]
  · exact fun c covers => ⟨rfl, .inl covers⟩
  · exact fun addr on => ⟨rfl, .inr (covers_cell.mpr on)⟩

end Runs

end RecoverOs.Userprog.SystemCall
